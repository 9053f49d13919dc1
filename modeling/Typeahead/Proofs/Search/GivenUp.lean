import Typeahead.Proofs.Grammar.Compile
import Typeahead.Proofs.Search.Reach

/-!
# Proofs/Search/GivenUp — why a nonterminal is given up

The expansions a branch counts are those since it last matched text (`Branch.Idles`).  Where every
nonterminal has productions, as in a compiled grammar, a derivation that is stuck on a nonterminal
has made as many expansions in a row as it may (`exhausted_of_mem_ends`).
-/

namespace Typeahead

open Step (Quiet expansions)

/-- **A derivation has used up the depth limit**: it ends with as many expansions as there may be
without text being matched in between. -/
def Derivation.Exhausted (limit : Nat) (d : Derivation) : Prop :=
  ∃ stretch, stretch <+: d.trace ∧ Quiet stretch ∧ limit ≤ expansions stretch

/-- Every nonterminal among some symbols has productions. -/
def FlatGrammar.Defines (g : FlatGrammar) (symbols : List Symbol) : Prop :=
  ∀ x, .nonterminal x ∈ symbols → g.alternatives x ≠ []

/-- A nonterminal with a production has alternatives. -/
theorem FlatGrammar.alternatives_ne_nil {g : FlatGrammar} {p : Production} {x : String}
    (hp : p ∈ g.productions) (hleft : p.left = x) : g.alternatives x ≠ [] :=
  List.ne_nil_of_mem (List.mem_filter.2 ⟨hp, decide_eq_true hleft⟩)

namespace Branch

variable {g : FlatGrammar} {cfg : Config} {b : Branch} {d : Derivation} {x : String} {m : Match}

/-- The count of a branch is that of its latest steps, which matched no text. -/
def Idles (b : Branch) : Prop :=
  ∃ stretch, stretch <+: b.trace ∧ Quiet stretch ∧ expansions stretch = b.idle

theorem idles_initial (input : List Char) : (initial input).Idles :=
  ⟨[], List.nil_prefix, Step.quiet_nil, rfl⟩

theorem Idles.accept (h : b.Idles) (t : Terminal) (seen : List Char) : (b.accept t seen).Idles := by
  by_cases hseen : seen = []
  · obtain ⟨stretch, hstarts, hquiet, hidle⟩ := h
    refine ⟨.accept t ⟨.successful, b.pos, String.ofList seen⟩ :: stretch,
      List.cons_prefix_cons.2 ⟨rfl, hstarts⟩, Step.quiet_cons.2 ⟨?_, hquiet⟩, ?_⟩
    · rw [hseen]
      rfl
    · rw [Step.expansions_accept, hidle, Branch.accept, hseen]
      rfl
  · refine ⟨[], List.nil_prefix, Step.quiet_nil, ?_⟩
    rw [Branch.accept, if_neg (by simpa using hseen)]
    rfl

theorem Idles.expand (h : b.Idles) (p : Production) : (b.expand p).Idles := by
  obtain ⟨stretch, hstarts, hquiet, hidle⟩ := h
  refine ⟨.expand p b.pos :: stretch, List.cons_prefix_cons.2 ⟨rfl, hstarts⟩,
    Step.quiet_cons.2 ⟨rfl, hquiet⟩, ?_⟩
  rw [Step.expansions_expand, hidle, Branch.expand]

theorem defines_accept {t : Terminal} {pending : List Symbol} (hb : g.Defines b.pending)
    (hp : b.pending = .terminal t :: pending) (seen : List Char) :
    g.Defines (b.accept t seen).pending := by
  rw [accept_pending hp]
  exact fun y hy => hb y (hp ▸ List.mem_cons_of_mem _ hy)

theorem defines_expand {p : Production} {y : String} {pending : List Symbol}
    (hright : g.Defines p.right) (hb : g.Defines b.pending)
    (hp : b.pending = .nonterminal y :: pending) : g.Defines (b.expand p).pending := by
  rw [expand_pending hp]
  intro z hz
  rcases List.mem_append.1 hz with hz | hz
  · exact hright z hz
  · exact hb z (hp ▸ List.mem_cons_of_mem _ hz)

/-- **A nonterminal is given up at the depth limit**, if every nonterminal has productions. -/
theorem exhausted_of_mem_ends (hg : ∀ p ∈ g.productions, g.Defines p.right)
    (hb : g.Defines b.pending) (hidles : b.Idles) (hd : d ∈ b.ends g cfg)
    (hstuck : d.StuckOn (.nonterminal x) m) :
    g.alternatives x ≠ [] ∧ d.Exhausted cfg.maxDepth := by
  fun_induction ends g cfg b with
  | case1 b hp =>
    obtain rfl := List.mem_singleton.1 hd
    cases hstuck.2
  | case2 b t pending hp seen hm ih =>
    exact ih (defines_accept hb hp seen) (hidles.accept t seen) hd
  | case3 b t pending hp outcome seen hne hm =>
    obtain rfl := List.mem_singleton.1 hd
    have hhead := hstuck.1
    rw [stick, hp] at hhead
    cases hhead
  | case4 b y pending hp hidle halt =>
    have hy : .nonterminal y ∈ b.pending := hp ▸ List.mem_cons_self ..
    exact absurd halt (hb y hy)
  | case5 b y pending hp hidle halt ih =>
    obtain ⟨p, hmem, hdp⟩ := List.mem_flatMap.1 hd
    exact ih p (defines_expand (hg p (List.mem_filter.1 hmem).1) hb hp) (hidles.expand p) hdp
  | case6 b y pending hp hidle =>
    obtain rfl := List.mem_singleton.1 hd
    have hhead := hstuck.1
    rw [stick, hp] at hhead
    obtain rfl := Symbol.nonterminal.inj (Option.some.inj hhead)
    obtain ⟨stretch, hstarts, hquiet, hcount⟩ := hidles
    refine ⟨hb y (hp ▸ List.mem_cons_self ..), stretch, hstarts, hquiet, ?_⟩
    rw [hcount]
    exact Nat.le_of_not_lt hidle

end Branch

/-! ## Compiled grammars -/

namespace Grammar

variable {G G' : Grammar} {top : Symbol}

/-- **Compiling refuses nonterminals without productions.** -/
theorem defines_of_compile (h : (compile top).run.run G = (.ok (), G')) :
    ∀ p ∈ G'.flat.productions, G'.flat.Defines p.right := by
  obtain ⟨-, hundefined⟩ := lowerAll_ok (compile_ok h).1
  intro p hp x hx halt
  have hfound := List.findSome?_eq_none_iff.1 hundefined _ (List.mem_flatMap.2 ⟨p, hp, hx⟩)
  dsimp only at hfound
  split at hfound
  next hany =>
    obtain ⟨q, hq, hleft⟩ := List.any_eq_true.1 hany
    exact FlatGrammar.alternatives_ne_nil hq (of_decide_eq_true hleft) halt
  next => cases hfound

/-- The start symbol of a compiled grammar has a production. -/
theorem defines_start_of_compile (h : (compile top).run.run G = (.ok (), G')) :
    G'.flat.Defines [.nonterminal SymbolTable.start] := by
  obtain ⟨hfold, -⟩ := lowerAll_ok (compile_ok h).1
  -- the rule of the start symbol is lowered last
  rw [withStart, Array.toList_push, List.foldlM_append, bind_eq_ok] at hfold
  obtain ⟨g, -, hlast⟩ := hfold
  rw [List.foldlM_cons, bind_eq_ok] at hlast
  obtain ⟨g', hlower, hdone⟩ := hlast
  obtain rfl : g' = G'.flat := Except.ok.inj hdone
  obtain ⟨a, -, hadds⟩ := FlatGrammar.lower_adds hlower
  have hside := (hadds.sides _).2 (.inr ⟨_, List.mem_singleton_self _, rfl⟩)
  obtain ⟨p, hp, hleft, -⟩ := FlatGrammar.mem_sides.1 hside
  intro x hx
  obtain rfl := Symbol.nonterminal.inj (List.mem_singleton.1 hx)
  exact FlatGrammar.alternatives_ne_nil hp hleft

end Grammar

end Typeahead
