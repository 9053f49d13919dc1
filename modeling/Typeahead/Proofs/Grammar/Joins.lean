import Typeahead.Proofs.FlatGrammar.Ownership
import Typeahead.Proofs.Grammar.Reachable

/-!
# Proofs/Grammar/Joins — what the rule of a join governs

The names that a join makes up are used by few productions (`Encloses`): those of its own rule, so
that their nodes stand below nodes of that rule.  The exception is the name `next` for an entry with
its delimiter, which the tail of the join repeats, and the tail has the rule after that of the join.

`Attributed` says so for all joins of a flat grammar at once.  Lowering a rule keeps it
(`Attributed.lower`), because the names made up for a rule are new, and rules are written with known
names.
-/

namespace Typeahead

/-! ## The productions of one rule -/

variable {r : Rule} {a : Auxiliaries} {i k : Nat} {s : Sides} {x : String}

theorem Rule.children_subset_symbols (r : Rule) : r.children ⊆ r.symbols := by
  unfold symbols
  split
  · exact List.subset_append_left ..
  · exact List.Subset.refl _

/-- The rules of new productions are new. -/
theorem Rule.Shares.le (h : r.Shares a i k s) : i ≤ k := by
  unfold Shares at h
  split at h
  · cases h with
    | tail => exact Nat.le_succ i
    | _ => exact Nat.le_refl i
  · exact Nat.le_of_eq h.1.symm

/-- New productions use the names that the rule is written with and those made up for it. -/
theorem Rule.Shares.uses (h : r.Shares a i k s) (hx : .nonterminal x ∈ s.right) :
    x = r.target ∨ .nonterminal x ∈ r.symbols ∨ x ∈ [a.next, a.repetition, a.tail, a.rest] := by
  unfold Shares at h
  split at h
  · cases h with
    | next _ hright => exact .inr (.inl (hright hx))
    | whole _ hright | repetition _ hright | rest _ hright | tail _ hright =>
      have hx := hright hx
      simp only [List.mem_cons, Symbol.nonterminal.injEq, List.not_mem_nil, or_false] at hx ⊢
      tauto
  · rcases List.mem_cons.1 (h.2.2 hx) with hx | hx
    · exact .inl (Symbol.nonterminal.inj hx)
    · exact .inr (.inl (r.children_subset_symbols hx))

namespace Auxiliaries.Shares

variable {target : String} {symbols : List Symbol}

theorem index_mem (h : a.Shares target symbols i (i + 1) k s) : k ∈ [i, i + 1] := by
  cases h <;> simp

/-- What the rule of a join has productions for. -/
theorem left (h : a.Shares target symbols i (i + 1) k s) (hk : k = i) :
    s.left = target ∨ s.left = a.next ∨ s.left = a.repetition ∨ s.left = a.rest := by
  cases h with
  | next hleft | whole hleft | repetition hleft | rest hleft => simp [hleft]
  | tail => exact absurd hk (Nat.succ_ne_self i)

/-- The repetition and the rest of a join are used by the rule of the join only. -/
theorem users {table : SymbolTable} (ha : a.Fresh table)
    (h : a.Shares target symbols i (i + 1) k s) (hx : x = a.repetition ∨ x = a.rest)
    (hmem : .nonterminal x ∈ s.right) : k ∈ [i] := by
  cases h with
  | tail _ hright =>
    have hmem : x = a.next ∨ x = a.tail := by simpa using hright hmem
    have hnodup := ha.nodup
    simp only [List.nodup_cons, List.mem_cons, not_or, List.not_mem_nil, or_false] at hnodup hx
    rcases hmem with rfl | rfl <;> tauto
  | _ => exact List.mem_singleton_self i

end Auxiliaries.Shares

namespace FlatGrammar

/-- **Some rules enclose a name** that is not in `table`: no other productions use it. -/
structure Encloses (g : FlatGrammar) (table : SymbolTable) (rules : List Nat) (x : String) :
    Prop where
  unknown : table.knows x = false
  knows : g.symbols.knows x = true
  users : ∀ q ∈ g.productions, .nonterminal x ∈ q.right → ∃ k ∈ rules, q.rule = some k

/-- The productions of the rule `i` are for `target`, for `next`, which the rule after it may use,
or for names that `i` encloses. -/
def Governs (g : FlatGrammar) (table : SymbolTable) (i : Nat) (target next : String) : Prop :=
  ∀ p ∈ g.productions, p.rule = some i → p.left = target ∨
    p.left = next ∧ g.Encloses table [i, i + 1] p.left ∨ g.Encloses table [i] p.left

/-- **The productions of joins are attributed**: besides its target and the names it encloses, the
rule of a join governs one name that it made up. -/
structure Attributed (g : FlatGrammar) (table : SymbolTable) : Prop where
  knows : ∀ x, table.knows x = true → g.symbols.knows x = true
  closed : ∀ s ∈ g.sides, ∀ x, s.Mentions x → g.symbols.knows x = true
  bounded : ∀ p ∈ g.productions, ∀ i, p.rule = some i → i < g.rules.size
  joins : ∀ i r j, g.rules[i]? = some r → r.kind = .join j →
    table.knows r.target = true ∧ ∃ next, table.knows next = false ∧ g.Governs table i r.target next

/-- A rule of the grammar after lowering `r` was there, is `r`, or was made up for it. -/
theorem Puts.rule_cases {g g' : FlatGrammar} {r r' : Rule} {added : List Rule}
    {new : Nat → Sides → Prop} (h : Puts g g' (r :: added) new) (hi : g'.rules[i]? = some r') :
    i < g.rules.size ∧ g.rules[i]? = some r' ∨ i = g.rules.size ∧ r' = r ∨ r' ∈ added := by
  rw [← Array.getElem?_toList, h.rules, List.getElem?_append, Array.length_toList] at hi
  split at hi
  next hlt => exact .inl ⟨hlt, by rwa [← Array.getElem?_toList]⟩
  next hle =>
    rw [Nat.not_lt] at hle
    obtain ⟨n, rfl⟩ := Nat.exists_eq_add_of_le hle
    rw [Nat.add_sub_cancel_left] at hi
    cases n with
    | zero => exact .inr (.inl ⟨rfl, (Option.some.inj hi).symm⟩)
    | succ n => exact .inr (.inr (List.mem_of_getElem? hi))

theorem attributed_ofSymbols (table : SymbolTable) : (ofSymbols table).Attributed table where
  knows _ hx := hx
  closed := by simp [sides, ofSymbols]
  bounded := by simp [ofSymbols]
  joins := by simp [ofSymbols]

theorem Attributed.unknown {g : FlatGrammar} {table : SymbolTable} (h : g.Attributed table)
    (hx : g.symbols.knows x = false) : table.knows x = false := by
  rw [Bool.eq_false_iff] at hx ⊢
  exact mt (h.knows x) hx

/-! ## Lowering one rule -/

section

variable {g g' : FlatGrammar} {table : SymbolTable} {target next : String} (hr : r.Known table)
  (hlower : g.lower r = .ok g')

include hr hlower

/-- What a rule encloses stays so: other rules are not written with the name, nor make it up. -/
theorem Encloses.lower {rules : List Nat} (h : g.Encloses table rules x) :
    g'.Encloses table rules x := by
  obtain ⟨a, ha, _, -, hputs⟩ := lower_puts hlower
  obtain ⟨_, -, hadds⟩ := lower_adds hlower
  refine ⟨h.unknown, (hadds.knows x).2 (.inl h.knows), fun q hq hx => ?_⟩
  rcases hputs.productions q hq with ⟨p, hp, -, hright, hrule⟩ | ⟨k, -, -, hnew⟩
  · rw [← hrule]
    exact h.users p hp (hright ▸ hx)
  · have hunknown := h.unknown
    have hknows := h.knows
    rcases hnew.uses hx with rfl | hx | hx
    · rw [hr.target] at hunknown
      cases hunknown
    · rw [hr.symbols x hx] at hunknown
      cases hunknown
    · rw [ha.unknown x hx] at hknows
      cases hknows

theorem Governs.lower (h : g.Governs table i target next) (hi : i < g.rules.size) :
    g'.Governs table i target next := by
  obtain ⟨a, -, _, -, hputs⟩ := lower_puts hlower
  intro q hq hrule
  rcases hputs.productions q hq with ⟨p, hp, hleft, -, hrule'⟩ | ⟨k, -, hk, hnew⟩
  · rw [← hleft]
    refine (h p hp (hrule'.trans hrule)).imp_right (.imp ?_ fun h => h.lower hr hlower)
    exact .imp_right fun h => h.lower hr hlower
  · rw [hk, Option.some.injEq] at hrule
    exact absurd hnew.le (by omega)

/-- A new name is enclosed by the rules of those new productions that use it, because older
productions do not know it. -/
theorem encloses_of_unknown {added : List Rule} {new : Nat → Sides → Prop} {rules : List Nat}
    {p : Production} (h : g.Attributed table) (hputs : Puts g g' added new)
    (hp : p ∈ g'.productions) (hunknown : g.symbols.knows p.left = false)
    (hrules : ∀ k s, new k s → .nonterminal p.left ∈ s.right → k ∈ rules) :
    g'.Encloses table rules p.left := by
  refine ⟨h.unknown hunknown, ?_, fun q hq hx => ?_⟩
  · exact knows_of_lower (hr.mono h.knows) h.closed hlower _ (List.mem_map_of_mem hp) _ (.inl rfl)
  · rcases hputs.productions q hq with ⟨o, ho, -, hright, -⟩ | ⟨k, -, hk, hnew⟩
    · have hknows := h.closed _ (List.mem_map_of_mem ho) p.left (.inr (hright ▸ hx))
      rw [hunknown] at hknows
      cases hknows
    · exact ⟨k, hrules k _ hnew hx, hk⟩

/-- **What the rule of a join governs** when the join is lowered. -/
theorem exists_governs {j : Join} (hj : r.kind = .join j) (h : g.Attributed table) :
    ∃ next, table.knows next = false ∧ g'.Governs table g.rules.size r.target next := by
  obtain ⟨a, ha, _, -, hputs⟩ := lower_puts hlower
  refine ⟨a.next, h.unknown (ha.unknown _ (by simp)), fun p hp hrule => ?_⟩
  rcases hputs.productions p hp with ⟨q, hq, -, -, hrule'⟩ | ⟨k, -, hk, hnew⟩
  · exact absurd (h.bounded q hq _ (hrule'.trans hrule)) (Nat.lt_irrefl _)
  rw [hk, Option.some.injEq] at hrule
  rcases ((Rule.shares_iff_of_join hj).1 hnew).left hrule with hleft | hleft | hleft
  · exact .inl hleft
  · refine .inr (.inl ⟨hleft, encloses_of_unknown hr hlower h hputs hp ?_ ?_⟩)
    · exact ha.unknown _ (by simp_all)
    · exact fun k s hs _ => ((Rule.shares_iff_of_join hj).1 hs).index_mem
  · refine .inr (.inr (encloses_of_unknown hr hlower h hputs hp ?_ ?_))
    · exact ha.unknown _ (by rcases hleft with hleft | hleft <;> simp_all)
    · exact fun k s hs hx => ((Rule.shares_iff_of_join hj).1 hs).users ha hleft hx

/-- **Lowering keeps the productions of joins attributed.** -/
theorem Attributed.lower (h : g.Attributed table) : g'.Attributed table := by
  obtain ⟨a, -, added, hadded, hputs⟩ := lower_puts hlower
  obtain ⟨_, -, hadds⟩ := lower_adds hlower
  refine ⟨fun x hx => (hadds.knows x).2 (.inl (h.knows x hx)),
    knows_of_lower (hr.mono h.knows) h.closed hlower, hputs.bounded h.bounded,
    fun i r' j hr' hj => ?_⟩
  rcases hputs.rule_cases hr' with ⟨hi, hold⟩ | ⟨rfl, rfl⟩ | hmem
  · obtain ⟨htarget, next, hnext, hgoverns⟩ := h.joins i r' j hold hj
    exact ⟨htarget, next, hnext, hgoverns.lower hr hlower hi⟩
  · exact ⟨hr.target, exists_governs hr hlower hj h⟩
  · exact absurd hj ((hadded r' hmem).kind j)

end

end FlatGrammar

/-- **In a compiled grammar the productions of joins are attributed.** -/
theorem Grammar.attributed_of_compile {G G' : Grammar} {top : Symbol} (hG : G.Reachable)
    (h : (Grammar.compile top).run.run G = (.ok (), G')) :
    G'.flat.Attributed G'.symbols := by
  obtain ⟨hlower, -, hsymbols⟩ := Grammar.compile_ok h
  obtain ⟨hfold, -⟩ := Grammar.lowerAll_ok hlower
  rw [hsymbols]
  refine Grammar.lower_induction (P := (·.Attributed (G.withStart top).symbols)) hfold
    (FlatGrammar.attributed_ofSymbols _) ?_
  intro r hr g g' hg hlower
  exact hg.lower (hG.closed.withStart top r (Array.mem_toList_iff.1 hr)) hlower

end Typeahead
