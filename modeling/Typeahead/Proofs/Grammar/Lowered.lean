import Typeahead.Proofs.FlatGrammar.Forms
import Typeahead.Proofs.Grammar.Joins

/-!
# Proofs/Grammar/Lowered — a rule that is the only one of its target

The productions of a repetition are shaped by their rule, unless another rule has a production with
the same sides, or the empty symbol is left out of them.  If the rule is the only one of its target
and written without the empty symbol, neither happens: its nonterminals are its own, so in a
compiled grammar all their productions have the forms of the rule
(`Grammar.exists_lowered_of_compile`).
-/

namespace Typeahead

variable {r r' : Rule} {a : Auxiliaries} {s : Sides} {shaping : Shaping}

/-! ## Forms without the empty symbol -/

theorem Sides.Iterates.visible {x : String} {child : Symbol} {admits : Nat → Prop}
    (h : s.Iterates x child admits shaping) (hchild : child ≠ .terminal .epsilon) :
    .terminal .epsilon ∉ s.right := by
  cases h with
  | more => simpa using hchild.symm
  | exactly n => exact fun hmem => hchild (List.eq_of_mem_replicate hmem).symm

theorem Join.Form.visible {j : Join} {target : String} {entry : Symbol}
    (h : j.Form a target entry s shaping) (hentry : entry ≠ .terminal .epsilon)
    (hjoints : .terminal .epsilon ∉ j.joints) : .terminal .epsilon ∉ s.right := by
  rw [Join.joints] at hjoints
  cases h with
  | iterated h => exact h.visible (by simp)
  | spread => simp [List.mem_replicate]
  | delimited h | bracketed hopening hclosing => simp_all [eq_comm]
  | _ => simp [hentry.symm]

theorem Rule.Form.visible (h : r.Form a s shaping) (hkind : r.kind.Flattens)
    (hr : .terminal .epsilon ∉ r.symbols) : .terminal .epsilon ∉ s.right := by
  have hchild : ∀ child, r.children.head? = some child → child ≠ .terminal .epsilon := by
    rintro child hhead rfl
    exact hr (r.children_subset_symbols (List.mem_of_head? hhead))
  by_cases hj : ∃ j, r.kind = .join j
  · obtain ⟨j, hj⟩ := hj
    obtain ⟨entry, hhead, h⟩ := (Rule.form_of_join hj).1 h
    refine h.visible (hchild entry hhead) fun hmem => hr ?_
    rw [Rule.symbols, hj]
    exact List.mem_append_right _ hmem
  · obtain ⟨child, hhead, h⟩ := (Rule.form_of_ne_join (not_exists.1 hj) hkind).1 h
    exact h.visible (hchild child hhead)

/-! ## The nonterminals of a rule -/

/-- The target of a rule is none of the names made up for it. -/
theorem Rule.Shares.index_of_target {table : SymbolTable} {i k : Nat} (h : r.Shares a i k s)
    (ha : a.Fresh table) (htarget : table.knows r.target = true) (hleft : s.left = r.target) :
    k = i := by
  have hne : r.target ≠ a.tail := by
    intro heq
    rw [heq, ha.unknown a.tail (by simp)] at htarget
    cases htarget
  unfold Shares at h
  split at h
  · cases h with
    | tail htail => exact absurd (hleft.symm.trans htail) hne
    | _ => rfl
  · exact h.1

theorem Rule.Shares.left {i k : Nat} (h : r.Shares a i k s) :
    s.left = r.target ∨ s.left ∈ a.names := by
  unfold Shares at h
  split at h
  · cases h with
    | next hleft | whole hleft | repetition hleft | rest hleft | tail hleft => simp [hleft]
  · exact .inl h.2.1

namespace FlatGrammar

theorem Puts.getElem?_of_getElem? {g g' : FlatGrammar} {added : List Rule}
    {new : Nat → Sides → Prop} (h : Puts g g' added new) {i : Nat} (hi : g.rules[i]? = some r) :
    g'.rules[i]? = some r := by
  rw [← Array.getElem?_toList] at hi ⊢
  obtain ⟨hlt, -⟩ := List.getElem?_eq_some_iff.1 hi
  rw [h.rules, List.getElem?_append_left hlt, hi]

/-- **A rule was lowered** with its target and other names for nonterminals of its own.  Besides the
target they are not in `table`. -/
structure Lowered (g : FlatGrammar) (table : SymbolTable) (r : Rule) (a : Auxiliaries)
    (own : List String) : Prop where
  fresh : a.Fresh table
  table_target : table.knows r.target = true
  target : r.target ∈ own
  unknown : ∀ x ∈ own, x = r.target ∨ table.knows x = false
  known : ∀ x ∈ own, g.symbols.knows x = true
  form : g.Shapes fun s shaping => s.left ∈ own →
    r.Form a s shaping ∧ ∀ x ∈ a.names, .nonterminal x ∈ s.right → x ∈ own
  rule : ∀ q ∈ g.productions, q.left = r.target → ∃ i, q.rule = some i ∧ g.rules[i]? = some r

/-- What is there before a rule is lowered that is the only one of its target. -/
structure Lacks (g : FlatGrammar) (table : SymbolTable) (target : String) : Prop where
  knows : ∀ x, table.knows x = true → g.symbols.knows x = true
  closed : ∀ s ∈ g.sides, ∀ x, s.Mentions x → g.symbols.knows x = true
  lacks : ∀ s ∈ g.sides, s.left ≠ target

theorem lacks_ofSymbols (table : SymbolTable) (target : String) :
    (ofSymbols table).Lacks table target :=
  ⟨fun _ => id, by simp [sides, ofSymbols], by simp [sides, ofSymbols]⟩

variable {g g' : FlatGrammar} {table : SymbolTable} {target : String} {own : List String}

/-- The rules of other targets. -/
theorem Lacks.lower (h : g.Lacks table target) (htarget : table.knows target = true)
    (hr : r.Known table) (hne : r.target ≠ target) (hlower : g.lower r = .ok g') :
    g'.Lacks table target := by
  obtain ⟨a, -, hadds⟩ := lower_adds hlower
  refine ⟨fun x hx => (hadds.knows x).2 (.inl (h.knows x hx)),
    knows_of_lower (hr.mono h.knows) h.closed hlower, fun s hs hleft => ?_⟩
  rcases (hadds.sides s).1 hs with hs | ⟨n, hn, rfl⟩
  · exact h.lacks s hs hleft
  rcases List.mem_cons.1 (Rule.within_of_mem_sides hn).1 with hn | hn
  · exact hne (hn.symm.trans hleft)
  · have hknows := h.knows target htarget
    rw [← hleft, Sides.bare_left, hadds.unknown _ hn] at hknows
    cases hknows

/-- The productions for the target and the names that are made up have the forms of the rule. -/
theorem Lacks.exists_forms (h : g.Lacks table r.target) (hkind : r.kind.Flattens)
    (hvisible : .terminal .epsilon ∉ r.symbols) (hlower : g.lower r = .ok g') :
    ∃ a : Auxiliaries, a.Fresh g.symbols ∧
      g'.Shapes fun s shaping => s.left ∈ r.target :: a.names → r.Form a s shaping := by
  obtain ⟨a, ha, hshapes⟩ := lower_shapes hlower
  refine ⟨a, ha, hshapes _ (fun q hq hleft => ?_) fun s shaping hs _ => ?_⟩
  · -- nothing that was there is for one of these names
    have hside : ⟨q.left, q.right⟩ ∈ g.sides := List.mem_map_of_mem hq
    rcases List.mem_cons.1 hleft with hleft | hleft
    · exact absurd hleft (h.lacks _ hside)
    · have hknows := h.closed _ hside q.left (.inl rfl)
      rw [ha.unknown q.left hleft] at hknows
      cases hknows
  · rwa [Sides.bare_eq (hs.visible hkind hvisible)]

/-- The productions for the target belong to the rule. -/
theorem Lacks.rule_of_target (h : g.Lacks table r.target) (htarget : table.knows r.target = true)
    (hlower : g.lower r = .ok g') :
    ∀ q ∈ g'.productions, q.left = r.target → ∃ i, q.rule = some i ∧ g'.rules[i]? = some r := by
  obtain ⟨a, ha, added, -, hputs⟩ := lower_puts hlower
  intro q hq hleft
  rcases hputs.productions q hq with ⟨p, hp, hleft', -, -⟩ | ⟨i, -, hrule, hnew⟩
  · exact absurd (hleft'.trans hleft) (h.lacks _ (List.mem_map_of_mem hp))
  · obtain rfl := hnew.index_of_target ha (h.knows _ htarget) hleft
    exact ⟨_, hrule, getElem?_size_of_rules hputs.rules⟩

/-- **The rule itself.** -/
theorem Lacks.lowered (h : g.Lacks table r.target) (hr : r.Known table) (hkind : r.kind.Flattens)
    (hvisible : .terminal .epsilon ∉ r.symbols) (hlower : g.lower r = .ok g') :
    ∃ a own, g'.Lowered table r a own := by
  obtain ⟨a, ha, hforms⟩ := h.exists_forms hkind hvisible hlower
  obtain ⟨_, -, hadds⟩ := lower_adds hlower
  have hclosed := knows_of_lower (hr.mono h.knows) h.closed hlower
  have hunknown : ∀ x ∈ a.names, table.knows x = false := by
    intro x hx
    have hx := ha.unknown x hx
    rw [Bool.eq_false_iff] at hx ⊢
    exact mt (h.knows x) hx
  refine ⟨a, (r.target :: a.names).filter g'.symbols.knows, ⟨hunknown, ha.nodup⟩, hr.target, ?_, ?_,
    fun x hx => (List.mem_filter.1 hx).2, ?_, h.rule_of_target hr.target hlower⟩
  · exact List.mem_filter.2
      ⟨List.mem_cons_self .., (hadds.knows _).2 (.inl (h.knows _ hr.target))⟩
  · intro x hx
    exact (List.mem_cons.1 (List.mem_filter.1 hx).1).imp_right (hunknown x)
  · intro q hq hleft
    refine ⟨hforms q hq (List.mem_filter.1 hleft).1, fun x hx hmem => ?_⟩
    have hside : ⟨q.left, q.right⟩ ∈ g'.sides := List.mem_map_of_mem hq
    exact List.mem_filter.2 ⟨List.mem_cons_of_mem _ hx, hclosed _ hside x (.inr hmem)⟩

/-- **The rules of other targets** leave the productions of a rule alone. -/
theorem Lowered.lower (h : g.Lowered table r a own) (hr : r'.Known table)
    (hne : r'.target ≠ r.target) (hlower : g.lower r' = .ok g') : g'.Lowered table r a own := by
  obtain ⟨a₁, ha₁, hshapes⟩ := lower_shapes hlower
  obtain ⟨_, -, hadds⟩ := lower_adds hlower
  obtain ⟨a₂, ha₂, added, -, hputs⟩ := lower_puts hlower
  -- what `r'` has productions for
  have hnot : ∀ {a' : Auxiliaries}, a'.Fresh g.symbols → ∀ {x}, x = r'.target ∨ x ∈ a'.names →
      x ∉ own := by
    rintro a' ha' x (rfl | hx) hown
    · rcases h.unknown _ hown with heq | hunknown
      · exact hne heq
      · rw [hr.target] at hunknown
        cases hunknown
    · have hknows := h.known x hown
      rw [ha'.unknown x hx] at hknows
      cases hknows
  refine ⟨h.fresh, h.table_target, h.target, h.unknown, fun x hx => ?_, ?_, fun q hq hleft => ?_⟩
  · exact (hadds.knows x).2 (.inl (h.known x hx))
  · exact hshapes _ h.form fun s shaping hs hown => absurd hown (hnot ha₁ hs.left)
  · rcases hputs.productions q hq with ⟨p, hp, hleft', -, hrule⟩ | ⟨k, -, -, hnew⟩
    · obtain ⟨i, hi, hri⟩ := h.rule p hp (hleft'.trans hleft)
      exact ⟨i, hrule ▸ hi, hputs.getElem?_of_getElem? hri⟩
    · refine absurd ?_ (hnot ha₂ hnew.left)
      dsimp only
      rw [hleft]
      exact h.target

end FlatGrammar

/-- **In a compiled grammar** the productions of a repetition have its forms, if its rule is the only
one of its target and written without the empty symbol. -/
theorem Grammar.exists_lowered_of_compile {G G' : Grammar} {top : Symbol} (hG : G.Reachable)
    (h : (Grammar.compile top).run.run G = (.ok (), G')) (honly : G'.rulesFor r.target = [r])
    (hkind : r.kind.Flattens) (hvisible : .terminal .epsilon ∉ r.symbols) :
    ∃ a own, G'.flat.Lowered G'.symbols r a own := by
  obtain ⟨hlower, hrules, hsymbols⟩ := Grammar.compile_ok h
  obtain ⟨hfold, -⟩ := Grammar.lowerAll_ok hlower
  have hknown : ∀ r' ∈ (G.withStart top).rules.toList, r'.Known G'.symbols := by
    intro r' hr'
    rw [hsymbols]
    exact hG.closed.withStart top r' (Array.mem_toList_iff.1 hr')
  rw [← hsymbols] at hfold
  obtain ⟨before, after, hsplit, hbefore, -, hafter⟩ := List.filter_eq_cons_iff.1 honly
  rw [hrules] at hsplit
  rw [hsplit, List.foldlM_append, bind_eq_ok] at hfold
  rw [hsplit] at hknown
  obtain ⟨g, hfold, hrest⟩ := hfold
  rw [List.foldlM_cons, bind_eq_ok] at hrest
  obtain ⟨g', hlower, hrest⟩ := hrest
  have htarget : G'.symbols.knows r.target = true := (hknown r (by simp)).target
  have hlacks : g.Lacks G'.symbols r.target := by
    refine Grammar.lower_induction (P := (·.Lacks G'.symbols r.target)) hfold
      (FlatGrammar.lacks_ofSymbols _ _) fun r' hr' g g' hg hlower => ?_
    exact hg.lower htarget (hknown r' (by simp [hr'])) (by simpa using hbefore r' hr') hlower
  obtain ⟨a, own, hlowered⟩ := hlacks.lowered (hknown r (by simp)) hkind hvisible hlower
  refine ⟨a, own, Grammar.lower_induction (P := (·.Lowered G'.symbols r a own)) hrest hlowered ?_⟩
  intro r' hr' g g' hg hlower
  have hne : r'.target ≠ r.target := by
    simpa using List.filter_eq_nil_iff.1 hafter r' hr'
  exact hg.lower (hknown r' (by simp [hr'])) hne hlower

end Typeahead
