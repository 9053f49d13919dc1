import Typeahead.ParseTree.Naming
import Typeahead.ParseTree.Shape
import Typeahead.Proofs.Search.Enumeration

/-!
# Proofs/ParseTree/Outcome — the outcome at the root of a derivation's tree

Undoing the steps of a derivation turns the trees of the symbols pending after a step into the trees
of those pending before it.  Along the way the trees keep their symbols, and their outcomes taken
together do not change, except that a success is remembered (`forest_of_mem_ends`).  So the root of
the tree has the outcome of the match the derivation is stuck on, or, if the derivation is complete
and matched a terminal, is a success.
-/

namespace Typeahead

namespace Match

/-- The outcome of consecutive matches taken together. -/
def outcomeOf (ms : List Match) : Outcome := (combine ms).1

@[simp] theorem outcomeOf_nil : outcomeOf [] = .notParsed := rfl

theorem outcomeOf_cons (m : Match) (ms : List Match) : outcomeOf (m :: ms) =
    if m.outcome.isStuck ∨ outcomeOf ms = .notParsed then m.outcome else outcomeOf ms := by
  by_cases hm : m.outcome.isStuck
  · simp [outcomeOf, combine, hm]
  · by_cases hms : (combine ms).1 = .notParsed <;> simp [outcomeOf, combine, hm, hms]

theorem outcomeOf_append (as bs : List Match) : outcomeOf (as ++ bs) =
    if (outcomeOf as).isStuck ∨ outcomeOf bs = .notParsed then outcomeOf as else outcomeOf bs := by
  induction as with
  | nil => by_cases h : outcomeOf bs = .notParsed <;> simp [Outcome.isStuck, h]
  | cons a as ih =>
    rw [List.cons_append, outcomeOf_cons, outcomeOf_cons, ih]
    cases ha : a.outcome <;> cases has : outcomeOf as <;> cases hbs : outcomeOf bs <;>
      simp [Outcome.isStuck]

end Match

/-! ## Undoing steps -/

namespace ParseTree

/-- The symbols at the roots of several trees. -/
def symbols (ts : List ParseTree) : List Symbol := ts.map (·.label.symbol)

/-- The outcome of several trees taken together. -/
def outcomeAll (ts : List ParseTree) : Outcome := Match.outcomeOf (ts.map (·.label.result))

theorem outcomeAll_cons (t : ParseTree) (ts : List ParseTree) : outcomeAll (t :: ts) =
    if t.outcome.isStuck ∨ outcomeAll ts = .notParsed then t.outcome else outcomeAll ts :=
  Match.outcomeOf_cons _ _

theorem outcomeAll_singleton (t : ParseTree) : outcomeAll [t] = t.outcome := by
  rw [outcomeAll_cons, if_pos (.inr rfl)]

end ParseTree

namespace Derivation

open ParseTree (symbols outcomeAll outcomeAll_cons)

theorem symbols_undo_expand {forest : List ParseTree} {p : Production} {pos : Nat}
    {pending : List Symbol} (h : symbols forest = p.right ++ pending) :
    symbols (undo forest (.expand p pos)) = .nonterminal p.left :: pending := by
  have hdrop : symbols (forest.drop p.right.length) = pending := by
    rw [symbols, List.map_drop]
    exact (congrArg (List.drop p.right.length) h).trans (List.drop_left ..)
  rw [← hdrop]
  rfl

/-- An expansion gathers trees under a node of their common outcome. -/
theorem outcomeAll_undo_expand (forest : List ParseTree) (p : Production) (pos : Nat) :
    outcomeAll (undo forest (.expand p pos)) = outcomeAll forest := by
  conv_rhs => rw [← List.take_append_drop p.right.length forest]
  rw [outcomeAll, outcomeAll, List.map_append, Match.outcomeOf_append]
  exact Match.outcomeOf_cons _ _

theorem outcomeAll_undo_accept (forest : List ParseTree) (t : Terminal) (pos : Nat)
    (text : String) :
    outcomeAll (undo forest (.accept t ⟨.successful, pos, text⟩)) =
      if outcomeAll forest = .notParsed then .successful else outcomeAll forest := by
  rw [undo, outcomeAll_cons]
  simp [ParseTree.leaf, ParseTree.outcome, ParseTree.label, Outcome.isStuck]

theorem symbols_openLeaves (d : Derivation) : symbols d.openLeaves = d.pending := by
  unfold openLeaves symbols
  split
  · rename_i h
    simp [ParseTree.leaf, ParseTree.label, h, Function.comp_def]
  · simp [ParseTree.leaf, ParseTree.label, Function.comp_def]

/-- What the trees of the symbols that were pending say about the way a derivation ended. -/
structure Tells (d : Derivation) (pending : List Symbol) (outcome : Outcome) : Prop where
  stuck : ∀ m ∈ d.stuck, outcome = m.outcome
  complete : d.isComplete → outcome.isStuck = false
  matched : d.isComplete → ∀ t, .terminal t ∈ pending → outcome = .successful

theorem tells_openLeaves {d : Derivation} (h : d.Ended) :
    d.Tells d.pending (outcomeAll d.openLeaves) := by
  rcases h with ⟨hp, hs⟩ | ⟨hp, m, hs, hm⟩
  · refine ⟨by simp [hs], fun _ => ?_, by simp [hp]⟩
    simp [openLeaves, hp, hs, outcomeAll, Outcome.isStuck]
  · obtain ⟨s, pending, hcons⟩ := List.exists_cons_of_ne_nil hp
    have hout : outcomeAll d.openLeaves = m.outcome := by
      simp only [openLeaves, hs, hcons, outcomeAll_cons]
      exact if_pos (.inl hm)
    refine ⟨?_, fun hc => ?_, fun hc => ?_⟩
    · simp [hs, hout]
    all_goals simp [isComplete, hcons] at hc

/-- A terminal matched before the others adds a success. -/
theorem Tells.accept {d : Derivation} {pending : List Symbol} {outcome : Outcome} (hd : d.Ended)
    (h : d.Tells pending outcome) (t : Terminal) : d.Tells (.terminal t :: pending)
      (if outcome = .notParsed then .successful else outcome) := by
  rcases hd with ⟨-, hs⟩ | ⟨hp, m, hs, hm⟩
  · refine ⟨by simp [hs], fun hc => ?_, fun hc _ _ => ?_⟩
    all_goals
      have := h.complete hc
      cases outcome <;> simp_all [Outcome.isStuck]
  · have hout := h.stuck m hs
    refine ⟨fun n hn => ?_, fun hc => ?_, fun hc => ?_⟩
    · obtain rfl : m = n := Option.some.inj (hs.symm.trans hn)
      rw [hout, if_neg (by rintro h; simp [h, Outcome.isStuck] at hm)]
    all_goals simp [isComplete, hp] at hc

theorem Tells.expand {d : Derivation} {right pending : List Symbol} {outcome : Outcome} {x : String}
    (h : d.Tells (right ++ pending) outcome) : d.Tells (.nonterminal x :: pending) outcome :=
  ⟨h.stuck, h.complete, fun hc t ht => h.matched hc t (List.mem_append_right _ (by simpa using ht))⟩

end Derivation

/-- **The trees of the symbols a branch has pending**, for any of its ends: undoing the steps after
the branch gives trees with these symbols, whose outcome tells how the derivation ended. -/
theorem forest_of_mem_ends {g : FlatGrammar} {cfg : Config} {b : Branch} {d : Derivation}
    (hd : d ∈ b.ends g cfg) : ∃ forest, d.forest = b.trace.foldl Derivation.undo forest ∧
      ParseTree.symbols forest = b.pending ∧
      d.Tells b.pending (ParseTree.outcomeAll forest) := by
  have hended := Branch.ended_of_mem_ends hd
  fun_induction Branch.ends g cfg b with
  | case1 b | case3 b | case4 b | case6 b =>
    obtain rfl := List.mem_singleton.1 hd
    exact ⟨_, rfl, Derivation.symbols_openLeaves _, Derivation.tells_openLeaves hended⟩
  | case2 b t pending hp seen hm ih =>
    obtain ⟨forest, hforest, hsym, htells⟩ := ih hd
    rw [Branch.accept_pending hp] at hsym htells
    refine ⟨_, hforest, ?_, ?_⟩
    · rw [hp, ← hsym]
      rfl
    · rw [Derivation.outcomeAll_undo_accept, hp]
      exact htells.accept hended t
  | case5 b x pending hp hidle halt ih =>
    obtain ⟨p, hp', hdp⟩ := List.mem_flatMap.1 hd
    obtain rfl : p.left = x := by simpa using (List.mem_filter.1 hp').2
    obtain ⟨forest, hforest, hsym, htells⟩ := ih p hdp
    rw [Branch.expand_pending hp] at hsym htells
    refine ⟨_, hforest, ?_, ?_⟩
    · rw [hp]
      exact Derivation.symbols_undo_expand hsym
    · rw [Derivation.outcomeAll_undo_expand, hp]
      exact htells.expand

/-! ## The root -/

theorem ParseTree.outcome_withTag (tag : Tag) (parentRule : Option Nat) (t : ParseTree) :
    (t.withTag tag parentRule).outcome = t.outcome := by
  obtain ⟨l, children⟩ := t
  rw [withTag]
  rfl

theorem ParseTree.outcome_shape (t : ParseTree) : t.shape.1.outcome = t.outcome := by
  obtain ⟨l, children⟩ := t
  rw [shape]
  rfl

/-- A forest with one symbol is the tree above all others. -/
theorem eq_singleton_rawTree {d : Derivation} {forest : List ParseTree} {s : Symbol}
    (hforest : d.forest = forest) (hsym : ParseTree.symbols forest = [s]) :
    forest = [d.rawTree] := by
  obtain ⟨t, rfl, -⟩ := List.map_eq_singleton_iff.1 hsym
  rw [Derivation.rawTree, hforest, List.headD_cons]

/-- The finished tree of a derivation of the start symbol has one outcome with all its trees. -/
theorem outcome_shape_tree {d : Derivation} {forest : List ParseTree}
    (hforest : d.forest = forest)
    (hsym : ParseTree.symbols forest = [.nonterminal SymbolTable.start]) :
    d.tree.shape.1.outcome = ParseTree.outcomeAll forest := by
  rw [eq_singleton_rawTree hforest hsym, ParseTree.outcomeAll_singleton, ParseTree.outcome_shape,
    Derivation.tree, ParseTree.named, ParseTree.outcome_withTag]

/-- **A stuck derivation's tree has the outcome it is stuck with.** -/
theorem outcome_of_stuck {g : FlatGrammar} {cfg : Config} {input : List Char} {d : Derivation}
    {m : Match} (hd : d ∈ (Branch.initial input).ends g cfg) (hm : d.stuck = some m) :
    d.tree.shape.1.outcome = m.outcome := by
  obtain ⟨forest, hforest, hsym, htells⟩ := forest_of_mem_ends hd
  have hroot : d.forest = forest := hforest
  rw [outcome_shape_tree hroot hsym, htells.stuck m hm]

/-- The tree of a complete derivation is not stuck, even if it matched nothing. -/
theorem outcome_isStuck_of_isComplete {g : FlatGrammar} {cfg : Config} {input : List Char}
    {d : Derivation} (hd : d ∈ (Branch.initial input).ends g cfg) (hc : d.isComplete) :
    d.tree.shape.1.outcome.isStuck = false := by
  obtain ⟨forest, hforest, hsym, htells⟩ := forest_of_mem_ends hd
  have hroot : d.forest = forest := hforest
  rw [outcome_shape_tree hroot hsym]
  exact htells.complete hc

/-- **A complete derivation's tree is a success**, provided every production of the start symbol has
a terminal to match. -/
theorem outcome_of_isComplete {g : FlatGrammar} {cfg : Config} {input : List Char} {d : Derivation}
    (hg : ∀ p ∈ g.alternatives SymbolTable.start, ∃ t, .terminal t ∈ p.right)
    (hd : d ∈ (Branch.initial input).ends g cfg) (hc : d.isComplete) :
    d.tree.shape.1.outcome = .successful := by
  have hp : (Branch.initial input).pending = [.nonterminal SymbolTable.start] := rfl
  by_cases hopen : g.alternatives SymbolTable.start = [] ∨
    cfg.maxDepth ≤ (Branch.initial input).idle
  · rw [Branch.ends_givenUp hp hopen, List.mem_singleton] at hd
    subst hd
    cases hc
  · rw [not_or, Nat.not_le] at hopen
    rw [Branch.ends_expand hp hopen.2 hopen.1] at hd
    obtain ⟨p, hpg, hdp⟩ := List.mem_flatMap.1 hd
    obtain ⟨t, ht⟩ := hg p hpg
    obtain ⟨forest, hforest, hsym, htells⟩ := forest_of_mem_ends hdp
    rw [Branch.expand_pending hp] at hsym htells
    have hleft : p.left = SymbolTable.start := by simpa using (List.mem_filter.1 hpg).2
    have hroot : d.forest = Derivation.undo forest (.expand p 0) := hforest
    rw [outcome_shape_tree hroot (hleft ▸ Derivation.symbols_undo_expand hsym),
      Derivation.outcomeAll_undo_expand]
    exact htells.matched hc t (List.mem_append_left _ ht)

end Typeahead
