import Typeahead.ParseTree.Walk
import Typeahead.Proofs.ParseTree.Outcome

/-!
# Proofs/ParseTree/Parts — what the trees of a derivation are made of

`Derivation.Part` says how the tree of a derivation is built: an inner node stands for a production,
whose right side its children have, and a leaf is stuck only if it is the symbol the derivation is
stuck on, with the same match.  Naming the nodes changes none of this (`part_tree`).

So the way to the stuck node leads through nonterminals to the one symbol the derivation is stuck on
(`Part.stuckPath`), and there is such a way as soon as the root is stuck (`Part.exists_stuckPath`).
-/

namespace Typeahead

open ParseTree (symbols outcomeAll)

/-- The symbol that a derivation is stuck on, and its match. -/
def Derivation.StuckOn (d : Derivation) (s : Symbol) (m : Match) : Prop :=
  d.pending.head? = some s ∧ d.stuck = some m

/-- **A part of the tree of a derivation.** -/
inductive Derivation.Part (g : FlatGrammar) (d : Derivation) : ParseTree → Prop
  | leaf {l : Label} (hproduction : l.production = none)
    (hstuck : l.result.outcome.isStuck = true → d.StuckOn l.symbol l.result) : Part g d (.node l [])
  | node {l : Label} {p : Production} {children : List ParseTree} (hp : p ∈ g.productions)
    (hproduction : l.production = some p) (hsymbol : l.symbol = .nonterminal p.left)
    (hchildren : symbols children = p.right) (houtcome : l.result.outcome = outcomeAll children)
    (hparts : ∀ t ∈ children, Part g d t) : Part g d (.node l children)

theorem Label.rule_eq {g : FlatGrammar} {l : Label} {i : Nat} {r : Rule}
    (hrule : g.rules[i]? = some r) (hi : l.ruleIndex = some i) : l.rule g = some r := by
  obtain ⟨p, hp, hp'⟩ := Option.bind_eq_some_iff.1 hi
  rw [rule, hp, Option.bind_some, FlatGrammar.ruleOf, hp', Option.bind_some, hrule]

theorem Label.mem_rules {g : FlatGrammar} {l : Label} {r : Rule} (h : l.rule g = some r) :
    r ∈ g.rules := by
  obtain ⟨p, -, hp⟩ := Option.bind_eq_some_iff.1 h
  obtain ⟨i, -, hi⟩ := Option.bind_eq_some_iff.1 hp
  exact Array.mem_of_getElem? hi

/-! ## From a derivation to its tree -/

namespace Derivation

variable {g : FlatGrammar} {d : Derivation}

theorem part_openLeaves : ∀ t ∈ d.openLeaves, d.Part g t := by
  have hopen : ∀ pending : List Symbol,
      ∀ t ∈ pending.map fun s => ParseTree.leaf s (.notParsed d.stop), d.Part g t := by
    intro pending t ht
    obtain ⟨s, -, rfl⟩ := List.mem_map.1 ht
    exact .leaf rfl nofun
  unfold openLeaves
  split
  next m s pending hm hs =>
    refine List.forall_mem_cons.2 ⟨?_, hopen pending⟩
    exact .leaf rfl fun _ => ⟨by rw [hs]; rfl, hm⟩
  next => exact hopen _

theorem part_undo_accept {forest : List ParseTree} (h : ∀ t ∈ forest, d.Part g t)
    (term : Terminal) (pos : Nat) (text : String) :
    ∀ t ∈ undo forest (.accept term ⟨.successful, pos, text⟩), d.Part g t :=
  List.forall_mem_cons.2 ⟨.leaf rfl nofun, h⟩

theorem part_undo_expand {forest : List ParseTree} {p : Production} {pending : List Symbol}
    (h : ∀ t ∈ forest, d.Part g t) (hp : p ∈ g.productions)
    (hsym : symbols forest = p.right ++ pending) (pos : Nat) :
    ∀ t ∈ undo forest (.expand p pos), d.Part g t := by
  refine List.forall_mem_cons.2 ⟨?_, fun t ht => h t (List.mem_of_mem_drop ht)⟩
  refine .node hp rfl rfl ?_ rfl fun t ht => h t (List.mem_of_mem_take ht)
  rw [symbols, List.map_take]
  exact (congrArg (List.take p.right.length) hsym).trans (List.take_left ..)

end Derivation

/-- **The trees of the symbols a branch has pending** are parts of every derivation it ends in. -/
theorem parts_of_mem_ends {g : FlatGrammar} {cfg : Config} {b : Branch} {d : Derivation}
    (hd : d ∈ b.ends g cfg) : ∃ forest, d.forest = b.trace.foldl Derivation.undo forest ∧
      symbols forest = b.pending ∧ ∀ t ∈ forest, d.Part g t := by
  fun_induction Branch.ends g cfg b with
  | case1 b | case3 b | case4 b | case6 b =>
    obtain rfl := List.mem_singleton.1 hd
    exact ⟨_, rfl, Derivation.symbols_openLeaves _, Derivation.part_openLeaves⟩
  | case2 b t pending hp seen hm ih =>
    obtain ⟨forest, hforest, hsym, hparts⟩ := ih hd
    rw [Branch.accept_pending hp] at hsym
    refine ⟨_, hforest, ?_, Derivation.part_undo_accept hparts _ _ _⟩
    rw [hp, ← hsym]
    rfl
  | case5 b x pending hp hidle halt ih =>
    obtain ⟨p, hp', hdp⟩ := List.mem_flatMap.1 hd
    obtain ⟨hmem, hleft⟩ := List.mem_filter.1 hp'
    obtain rfl : p.left = x := by simpa using hleft
    obtain ⟨forest, hforest, hsym, hparts⟩ := ih p hdp
    rw [Branch.expand_pending hp] at hsym
    refine ⟨_, hforest, ?_, Derivation.part_undo_expand hparts hmem hsym _⟩
    rw [hp]
    exact Derivation.symbols_undo_expand hsym

namespace ParseTree

theorem withTags_map {β : Type} {f : ParseTree → β}
    (hf : ∀ tag parentRule t, f (withTag tag parentRule t) = f t) (tags : List Tag)
    (parentRule : Option Nat) (ts : List ParseTree) :
    (withTags tags parentRule ts).map f = ts.map f := by
  induction ts generalizing tags with
  | nil => rw [withTags]
  | cons t ts ih => rw [withTags, List.map_cons, List.map_cons, hf, ih]

theorem mem_withTags {tags : List Tag} {parentRule : Option Nat} {ts : List ParseTree}
    {t : ParseTree} (h : t ∈ withTags tags parentRule ts) :
    ∃ tag, ∃ u ∈ ts, t = withTag tag parentRule u := by
  induction ts generalizing tags with
  | nil =>
    rw [withTags] at h
    cases h
  | cons u us ih =>
    rw [withTags, List.mem_cons] at h
    rcases h with rfl | h
    · exact ⟨_, u, List.mem_cons_self .., rfl⟩
    · obtain ⟨tag, u', hu', ht⟩ := ih h
      exact ⟨tag, u', List.mem_cons_of_mem _ hu', ht⟩

theorem label_withTag (tag : Tag) (parentRule : Option Nat) (t : ParseTree) :
    (t.withTag tag parentRule).label = { t.label with tag := tag } := by
  obtain ⟨l, children⟩ := t
  rw [withTag]
  rfl

end ParseTree

namespace Derivation

variable {g : FlatGrammar} {d : Derivation} {t : ParseTree}

/-- Names are no concern of the parts. -/
theorem Part.withTag (h : d.Part g t) (tag : Tag) (parentRule : Option Nat) :
    d.Part g (t.withTag tag parentRule) := by
  induction h generalizing tag parentRule with
  | leaf hproduction hstuck =>
    rw [ParseTree.withTag, ParseTree.withTags]
    exact .leaf hproduction hstuck
  | @node l p children hp hproduction hsymbol hchildren houtcome hparts ih =>
    rw [ParseTree.withTag]
    refine .node hp hproduction hsymbol ?_ ?_ fun t ht => ?_
    · rw [← hchildren]
      exact ParseTree.withTags_map (fun _ _ t => by rw [ParseTree.label_withTag]) _ _ _
    · rw [outcomeAll, ParseTree.withTags_map fun _ _ t => by rw [ParseTree.label_withTag]]
      exact houtcome
    · obtain ⟨tag', u, hu, rfl⟩ := ParseTree.mem_withTags ht
      exact ih u hu tag' _

theorem part_rawTree {cfg : Config} {input : List Char}
    (hd : d ∈ (Branch.initial input).ends g cfg) :
    d.Part g d.rawTree ∧ d.rawTree.label.symbol = .nonterminal SymbolTable.start := by
  obtain ⟨forest, hforest, hsym, hparts⟩ := parts_of_mem_ends hd
  obtain rfl := eq_singleton_rawTree hforest hsym
  exact ⟨hparts _ (List.mem_singleton_self _), List.singleton_inj.1 hsym⟩

/-- **The tree of a derivation is a part of it.** -/
theorem part_tree {cfg : Config} {input : List Char}
    (hd : d ∈ (Branch.initial input).ends g cfg) : d.Part g d.tree :=
  (part_rawTree hd).1.withTag _ _

theorem symbol_tree {cfg : Config} {input : List Char}
    (hd : d ∈ (Branch.initial input).ends g cfg) :
    d.tree.label.symbol = .nonterminal SymbolTable.start := by
  rw [tree, ParseTree.named, ParseTree.label_withTag]
  exact (part_rawTree hd).2

theorem outcome_tree {cfg : Config} {input : List Char} {m : Match}
    (hd : d ∈ (Branch.initial input).ends g cfg) (hm : d.stuck = some m) :
    d.tree.outcome = m.outcome := by
  rw [← ParseTree.outcome_shape]
  exact outcome_of_stuck hd hm

end Derivation

/-! ## The way to the stuck node -/

namespace ParseTree

theorem stuckPathAll?_eq_some {parentRule : Option Nat} {ts : List ParseTree} {path : List Visit}
    (h : stuckPathAll? parentRule ts = some path) :
    ∃ t ∈ ts, stuckPath? parentRule t = some path := by
  induction ts with
  | nil =>
    rw [stuckPathAll?] at h
    cases h
  | cons t ts ih =>
    rw [stuckPathAll?] at h
    split at h
    next path' hpath =>
      cases h
      exact ⟨t, List.mem_cons_self .., hpath⟩
    next =>
      obtain ⟨u, hu, hpath⟩ := ih h
      exact ⟨u, List.mem_cons_of_mem _ hu, hpath⟩

theorem exists_stuckPathAll? {parentRule : Option Nat} {ts : List ParseTree} {t : ParseTree}
    (ht : t ∈ ts) (h : ∃ path, stuckPath? parentRule t = some path) :
    ∃ path, stuckPathAll? parentRule ts = some path := by
  induction ts with
  | nil => cases ht
  | cons u us ih =>
    rw [stuckPathAll?]
    split
    next path hpath => exact ⟨path, rfl⟩
    next hnone =>
      rcases List.mem_cons.1 ht with rfl | ht
      · obtain ⟨path, hpath⟩ := h
        rw [hnone] at hpath
        cases hpath
      · exact ih ht

/-- There is a way to the stuck node if some node is on it. -/
theorem exists_stuckPath_of_mem {parentRule : Option Nat} {t : ParseTree} {v : Visit}
    (h : v ∈ (stuckPath? parentRule t).getD []) :
    ∃ path, stuckPath? parentRule t = some path ∧ v ∈ path := by
  rcases hpath : stuckPath? parentRule t with _ | path
  · rw [hpath] at h
    cases h
  · rw [hpath] at h
    exact ⟨path, rfl, h⟩

/-- One of several trees is stuck if they are stuck together. -/
theorem exists_isStuck_of_outcomeAll {ts : List ParseTree} (h : (outcomeAll ts).isStuck = true) :
    ∃ t ∈ ts, t.outcome.isStuck = true := by
  induction ts with
  | nil => cases h
  | cons t ts ih =>
    rw [outcomeAll_cons] at h
    split at h
    · exact ⟨t, List.mem_cons_self .., h⟩
    · obtain ⟨u, hu, hstuck⟩ := ih h
      exact ⟨u, List.mem_cons_of_mem _ hu, hstuck⟩

end ParseTree

namespace Derivation

variable {g : FlatGrammar} {d : Derivation} {t : ParseTree}

theorem Part.exists_stuckPath (h : d.Part g t) (hstuck : t.outcome.isStuck = true)
    (parentRule : Option Nat) : ∃ path, t.stuckPath? parentRule = some path := by
  induction h generalizing parentRule with
  | @leaf l hproduction _ =>
    rw [ParseTree.stuckPath?, if_pos]
    · exact ⟨_, rfl⟩
    · rw [Label.isStuckLeaf, hproduction]
      exact hstuck
  | @node l p children _ hproduction _ _ houtcome _ ih =>
    have hnot : ¬ l.isStuckLeaf = true := by simp [Label.isStuckLeaf, hproduction]
    rw [ParseTree.stuckPath?, if_neg hnot]
    have hchildren : (outcomeAll children).isStuck = true := houtcome ▸ hstuck
    obtain ⟨u, hu, hu'⟩ := ParseTree.exists_isStuck_of_outcomeAll hchildren
    obtain ⟨path, hpath⟩ := ParseTree.exists_stuckPathAll? hu (ih u hu hu' l.ruleIndex)
    exact ⟨_, by rw [hpath]; rfl⟩

/-- **The way to the stuck node** leads through nonterminals to the symbol the derivation is stuck
on. -/
theorem Part.stuckPath (h : d.Part g t) {parentRule : Option Nat} {path : List Visit}
    (hpath : t.stuckPath? parentRule = some path) :
    ∃ before v, path = before ++ [v] ∧ (∀ u ∈ before, ∃ x, u.label.symbol = .nonterminal x) ∧
      v.label.production = none ∧ d.StuckOn v.label.symbol v.label.result := by
  induction h generalizing parentRule path with
  | @leaf l hproduction hstuck =>
    rw [ParseTree.stuckPath?] at hpath
    split at hpath
    next hleaf =>
      obtain rfl := Option.some.inj hpath
      rw [Label.isStuckLeaf, Bool.and_eq_true] at hleaf
      exact ⟨[], ⟨l, parentRule⟩, rfl, by simp, hproduction, hstuck hleaf.2⟩
    next =>
      rw [ParseTree.stuckPathAll?] at hpath
      cases hpath
  | @node l p children _ hproduction hsymbol _ _ _ ih =>
    have hnot : ¬ l.isStuckLeaf = true := by simp [Label.isStuckLeaf, hproduction]
    rw [ParseTree.stuckPath?, if_neg hnot, Option.map_eq_some_iff] at hpath
    obtain ⟨path', hpath', rfl⟩ := hpath
    obtain ⟨u, hu, hu'⟩ := ParseTree.stuckPathAll?_eq_some hpath'
    obtain ⟨before, v, rfl, hbefore, hv⟩ := ih u hu hu'
    exact ⟨_ :: before, v, rfl, List.forall_mem_cons.2 ⟨⟨_, hsymbol⟩, hbefore⟩, hv⟩

end Derivation

end Typeahead
