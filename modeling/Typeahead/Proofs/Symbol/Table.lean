import Typeahead.Symbol.Table
import Mathlib.Data.List.Nodup
import Mathlib.Data.List.Perm.Subperm
import Mathlib.Order.Bounds.Basic

/-!
# Proofs/Symbol/Table — known names and fresh ones

A table is a set of known names.  Declaring and registering add to it, and change nothing where the
name stands for something already.  `fresh_unknown` says that a fresh name is new: of one more
numbers than there are entries, not all can be taken.
-/

namespace Typeahead.SymbolTable

variable {table : SymbolTable} {x name base : String}

/-- A name is known if there is an entry for it. -/
theorem knows_iff : table.knows x = true ↔ x ∈ table.entries.map (·.1) := by
  rw [knows, get?, List.lookup_isSome_iff, List.mem_map]
  simp only [beq_iff_eq, eq_comm (a := x)]

/-- Declaring a name makes it known, and no other. -/
theorem knows_declare :
    (table.declare name).knows x = true ↔ x = name ∨ table.knows x = true := by
  unfold declare
  split
  · rename_i h
    refine ⟨.inr, ?_⟩
    rintro (rfl | hx)
    · rw [knows, h]; rfl
    · exact hx
  · simp [knows_iff]

/-- Registering a symbol forgets no name. -/
theorem knows_register_of_knows {s : Symbol} (h : table.knows x = true) :
    (table.register s).knows x = true := by
  unfold register
  split
  · exact h
  · rw [knows_iff] at h ⊢
    exact List.mem_cons_of_mem _ h

/-- Registering a nonterminal makes its name known. -/
theorem knows_register_nonterminal :
    (table.register (.nonterminal x)).knows x = true := by
  unfold register
  split
  · rename_i h
    exact h.resolve_left nofun
  · simp [knows_iff, Symbol.name]

/-! ## Names that stand for something already -/

/-- A name that was declared stands for a nonterminal. -/
theorem exists_get?_declare : ∃ y, (table.declare name).get? name = some (.nonterminal y) := by
  unfold declare
  split
  · exact ⟨_, ‹_›⟩
  · exact ⟨name, by simp [get?]⟩

/-- A name that stands for a nonterminal already is not declared again. -/
theorem declare_eq_self (h : ∃ y, table.get? name = some (.nonterminal y)) :
    table.declare name = table := by
  obtain ⟨y, h⟩ := h
  rw [declare, h]

/-- Every symbol but the empty one has a known name once it was registered. -/
theorem knows_register_self {s : Symbol} (h : s ≠ .terminal .epsilon) :
    (table.register s).knows s.name = true := by
  unfold register
  split
  · rename_i hs
    exact hs.resolve_left h
  · simp [knows_iff]

/-- A symbol whose name is taken is not registered. -/
theorem register_eq_self {s : Symbol} (h : table.knows s.name = true) :
    table.register s = table := if_pos (.inr h)

/-- **A known name stands for what it stood for** when a symbol is registered. -/
theorem get?_register_of_knows {s : Symbol} (h : table.knows x = true) :
    (table.register s).get? x = table.get? x := by
  unfold register
  split
  · rfl
  · rename_i hs
    have hne : (x == s.name) = false := by
      rw [beq_eq_false_iff_ne]
      rintro rfl
      exact hs (.inr h)
    simp [get?, List.lookup_cons, hne]

/-! ## What a name stands for -/

theorem get?_cons (s : Symbol) :
    get? ⟨(name, s) :: table.entries⟩ x = if x = name then some s else table.get? x := by
  rw [get?, List.lookup_cons]
  split <;> simp_all [get?]

/-- What names stand for once one was declared, if that is not another name of a nonterminal. -/
theorem get?_declare (h : ∀ y, table.get? name = some (.nonterminal y) → y = name) :
    (table.declare name).get? x
      = if x = name then some (.nonterminal name) else table.get? x := by
  unfold declare
  split
  next y hy =>
    obtain rfl := h y hy
    split <;> simp_all
  next => exact get?_cons _

/-- **What names stand for once a symbol was registered**: the name of the symbol for what it stood
for already, or else for the symbol. -/
theorem get?_register {s : Symbol} (hs : s ≠ .terminal .epsilon) :
    (table.register s).get? x
      = if x = s.name then some ((table.get? s.name).getD s) else table.get? x := by
  unfold register
  split
  next h =>
    obtain ⟨y, hy⟩ := Option.isSome_iff_exists.1 (h.resolve_left hs)
    split <;> simp_all
  next h =>
    have hnone : table.get? s.name = none := by
      rw [← Option.not_isSome_iff_eq_none]
      exact fun hknown => h (.inr hknown)
    rw [get?_cons, hnone, Option.getD_none]

/-- Registering a symbol makes its name known, and no other. -/
theorem knows_register {s : Symbol} (hs : s ≠ .terminal .epsilon) :
    (table.register s).knows x = true ↔ x = s.name ∨ table.knows x = true := by
  rw [knows, get?_register hs, knows]
  split <;> simp_all

/-! ## Several names -/

/-- Makes several symbols known, one after the other. -/
def registerAll (table : SymbolTable) (ss : List Symbol) : SymbolTable := ss.foldl register table

/-- Registering several symbols forgets no name. -/
theorem knows_registerAll_of_knows (h : table.knows x = true) (ss : List Symbol) :
    (table.registerAll ss).knows x = true := by
  induction ss generalizing table with
  | nil => exact h
  | cons s ss ih => exact ih (knows_register_of_knows h)

/-- Nonterminals among several symbols that were registered have known names. -/
theorem knows_registerAll {ss : List Symbol} (h : .nonterminal x ∈ ss) :
    (table.registerAll ss).knows x = true := by
  induction ss generalizing table with
  | nil => cases h
  | cons s ss ih =>
    rcases List.mem_cons.1 h with rfl | h
    · exact knows_registerAll_of_knows knows_register_nonterminal ss
    · exact ih h

/-- Different numbers make different names. -/
theorem numbered_injective (base : String) : Function.Injective (numbered base) := by
  intro i j h
  have hrepr : i.repr = j.repr := by simpa [numbered] using h
  have hdigits := congrArg (fun s => Nat.ofDigitChars 10 s.toList 0) hrepr
  simpa using hdigits

/-- One of the first numbers is free. -/
theorem exists_unknown (table : SymbolTable) (base : String) :
    ∃ i ∈ List.range (table.entries.length + 1), table.knows (numbered base i) = false := by
  by_contra hall
  simp only [not_exists, not_and, Bool.not_eq_false] at hall
  have hsub : (List.range (table.entries.length + 1)).map (numbered base)
      ⊆ table.entries.map (·.1) := by
    intro y hy
    obtain ⟨i, hi, rfl⟩ := List.mem_map.1 hy
    exact knows_iff.1 (hall i hi)
  have hnodup : ((List.range (table.entries.length + 1)).map (numbered base)).Nodup :=
    List.nodup_range.map (numbered_injective base)
  have hlen := (hnodup.subperm hsub).length_le
  simp only [List.length_map, List.length_range] at hlen
  omega

/-- **The number of a fresh name is the least free one.** -/
theorem isLeast_freshIndex (table : SymbolTable) (base : String) :
    IsLeast {i | table.knows (numbered base i) = false} (table.freshIndex base) := by
  obtain ⟨i, hi, hfree⟩ := exists_unknown table base
  have hfound : ((List.range (table.entries.length + 1)).find?
      fun i => !table.knows (numbered base i)).isSome = true :=
    List.find?_isSome.2 ⟨i, hi, by rw [hfree]; rfl⟩
  obtain ⟨j, hj⟩ := Option.isSome_iff_exists.1 hfound
  rw [freshIndex, hj, Option.getD_some]
  rw [List.find?_range_eq_some] at hj
  refine ⟨by simpa using hj.1, fun l hl => ?_⟩
  by_contra hlt
  have htaken := hj.2.2 l (by omega)
  simp_all

/-- **A fresh name is not known.** -/
theorem fresh_unknown (table : SymbolTable) (base : String) :
    table.knows (table.fresh base).1 = false := (isLeast_freshIndex table base).1

/-- Making up a name makes it known, and no other. -/
theorem knows_fresh : (table.fresh base).2.knows x = true ↔
    x = (table.fresh base).1 ∨ table.knows x = true := knows_declare

end Typeahead.SymbolTable
