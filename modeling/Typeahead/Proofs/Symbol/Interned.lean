import Typeahead.Symbol.Interned
import Typeahead.Proofs.Symbol.Table
import Mathlib.Data.List.Induction
import Mathlib.Data.Set.Finite.Basic
import Mathlib.Order.Bounds.Basic

/-!
# Proofs/Symbol/Interned — keys and their entries

An interner keeps the keys that it gave (`Interner.Lawful`), and what an operation does to a table
can be told by the entry of one key (`lookup_keep`, `lookup_declare`).  Looking for a free number
ends, since only finitely many names are taken.
-/

namespace Typeahead

/-! ## The first free number -/

namespace Interner

variable {Key State : Type} {I : Interner Key State}

/-- Trying the numbers one after the other ends at the first free one, if there is one. -/
theorem firstFree_eq_some {names : State} {base : String} {i j : Nat} (hij : i ≤ j)
    (hj : I.get? names (SymbolTable.numbered base j) = none)
    (hleast : ∀ m, i ≤ m → m < j → I.get? names (SymbolTable.numbered base m) ≠ none) :
    I.firstFree names base i = some j := by
  obtain ⟨d, rfl⟩ := Nat.exists_eq_add_of_le hij
  induction d generalizing i with
  | zero =>
    rw [Nat.add_zero] at hj ⊢
    rw [firstFree, if_pos (Option.isNone_iff_eq_none.2 hj)]
  | succ d ih =>
    have htaken := hleast i le_rfl (by omega)
    rw [firstFree, if_neg (by rwa [Option.isNone_iff_eq_none])]
    have hsucc : i + (d + 1) = i + 1 + d := by omega
    rw [hsucc] at hj ⊢
    exact ih (by omega) hj fun m him hmj => hleast m (by omega) (by omega)

/-- Only finitely many names are taken, so some number is free. -/
theorem exists_isLeast_free (base : String) (taken : List String) :
    ∃ i, IsLeast {i | SymbolTable.numbered base i ∉ taken} i := by
  have hfree : ∃ i, SymbolTable.numbered base i ∉ taken := by
    obtain ⟨x, ⟨i, rfl⟩, hi⟩ :=
      (Set.infinite_range_of_injective (SymbolTable.numbered_injective base)).exists_notMem_finset
        taken.toFinset
    exact ⟨i, fun h => hi (List.mem_toFinset.2 h)⟩
  classical
  exact ⟨Nat.find hfree, Nat.find_spec hfree, fun j hj => Nat.find_min' hfree hj⟩

end Interner

variable {Key State : Type} [DecidableEq Key] {I : Interner Key State}

/-! ## Interners -/

namespace Interner

theorem byPlace_lawful : byPlace.Lawful where
  get?_empty n := rfl
  get?_intern names n m := by
    by_cases h : n ∈ names <;> by_cases hm : m = n <;>
      simp_all [byPlace, List.idxOf_append]
  intern_of_get? h := by simp_all [byPlace]
  get?_inj hn hm := by
    simp only [byPlace, Option.ite_none_right_eq_some, Option.some.injEq] at hn hm
    exact (List.idxOf_inj hn.1).1 (hn.2.trans hm.2.symm)
  resolve?_intern names n k := by
    by_cases h : n ∈ names
    · by_cases hk : k = names.idxOf n <;> simp_all [byPlace]
    · have hlen : names.idxOf n = names.length := List.idxOf_eq_length h
      simp only [byPlace, h, hlen, if_false, List.getElem?_append, List.getElem?_singleton]
      grind

namespace Lawful

variable (hI : I.Lawful) {names : State} {n m : String} {k : Key}
include hI

theorem get?_intern_self : I.get? (I.intern names n).2 n = some (I.intern names n).1 := by
  rw [hI.get?_intern, if_pos rfl]

theorem get?_intern_of_ne (h : m ≠ n) : I.get? (I.intern names n).2 m = I.get? names m := by
  rw [hI.get?_intern, if_neg h]

/-- A name that has a key keeps it. -/
theorem get?_intern_of_get? (h : I.get? names m = some k) :
    I.get? (I.intern names n).2 m = some k := by
  rw [hI.get?_intern]
  split
  · subst m
    rw [hI.intern_of_get? h]
  · exact h

theorem isSome_get?_intern :
    (I.get? (I.intern names n).2 m).isSome ↔ m = n ∨ (I.get? names m).isSome := by
  rw [hI.get?_intern]
  split <;> simp_all

/-- Interning a name leaves the keys of the others and their names. -/
theorem resolve?_intern_of_get?
    (hnames : ∀ {n k}, I.get? names n = some k → I.resolve? names k = some n)
    (h : I.get? (I.intern names n).2 m = some k) :
    I.resolve? (I.intern names n).2 k = some m := by
  rw [hI.resolve?_intern]
  split
  · subst k
    rw [hI.get?_inj h hI.get?_intern_self]
  next hk =>
    have hne : m ≠ n := by
      rintro rfl
      exact hk (Option.some.inj (h.symm.trans hI.get?_intern_self))
    exact hnames ((hI.get?_intern_of_ne hne).symm.trans h)

end Lawful

end Interner

/-! ## The entries of a table -/

namespace KeyedTable

variable {table : KeyedTable Key State} {k l : Key}

theorem lookup_cons {ses : List (Key × KeyedSymbol Key)} (e : KeyedSymbol Key) :
    ((k, e) :: ses).lookup l = if l = k then some e else ses.lookup l := by
  rw [List.lookup_cons]
  split <;> simp_all

theorem lookup_keep (e : KeyedSymbol Key) :
    (table.keep k e).symbols.lookup l
      = if l = k then some ((table.symbols.lookup k).getD e) else table.symbols.lookup l := by
  unfold keep
  split
  next h => split <;> simp_all
  next h => rw [lookup_cons, h, Option.getD_none]

/-- An entry stays what it is. -/
theorem lookup_keep_of_lookup {e : KeyedSymbol Key} (h : table.symbols.lookup l = some e)
    (e' : KeyedSymbol Key) : (table.keep k e').symbols.lookup l = some e := by
  rw [lookup_keep]
  split
  · simp_all
  · exact h

theorem keep_names (e : KeyedSymbol Key) : (table.keep k e).names = table.names := by
  unfold keep
  split <;> rfl

theorem keep_start (e : KeyedSymbol Key) : (table.keep k e).start = table.start := by
  unfold keep
  split <;> rfl

/-- The nonterminals of a table stand under their own keys. -/
def Owned (table : KeyedTable Key State) : Prop :=
  ∀ k l, table.symbols.lookup k = some (.nonterminal l) → l = k

theorem Owned.keep (h : table.Owned) {e : KeyedSymbol Key}
    (he : ∀ l, e = .nonterminal l → l = k) : (table.keep k e).Owned := by
  intro i l hl
  rw [lookup_keep] at hl
  split at hl
  · subst i
    cases hk : table.symbols.lookup k with
    | none => exact he l (by simpa [hk] using hl)
    | some e' => exact h k l (hk.trans (by simpa [hk] using hl))
  · exact h i l hl

theorem lookup_declare (h : table.Owned) (n : String) :
    (table.declare I n).2.symbols.lookup l
      = if l = (I.intern table.names n).1 then some (.nonterminal (I.intern table.names n).1)
        else table.symbols.lookup l := by
  rw [declare]
  dsimp only
  split
  next i hi =>
    obtain rfl := h _ _ hi
    split <;> simp_all
  next => rw [lookup_cons]

/-- The entry of a nonterminal stays what it is. -/
theorem lookup_declare_of_lookup (h : table.Owned)
    (hl : table.symbols.lookup l = some (.nonterminal l)) (n : String) :
    (table.declare I n).2.symbols.lookup l = some (.nonterminal l) := by
  rw [lookup_declare h]
  split
  · simp_all
  · exact hl

theorem Owned.declare (h : table.Owned) (n : String) : (table.declare I n).2.Owned := by
  intro k l hl
  rw [lookup_declare h] at hl
  split at hl
  · simp_all
  · exact h k l hl

theorem keep_of_lookup {e : KeyedSymbol Key} (h : table.symbols.lookup k = some e)
    (e' : KeyedSymbol Key) : table.keep k e' = table := by rw [keep, h]

/-- A name that means a nonterminal has it as its key. -/
theorem Owned.get?_names (h : table.Owned) {n : String}
    (hget : table.get? I n = some (.nonterminal l)) : I.get? table.names n = some l := by
  obtain ⟨k, hname, hentry⟩ := Option.bind_eq_some_iff.1 hget
  rw [hname, h k l hentry]

section RegisterTerminal

variable {t : Terminal} (ht : t ≠ .epsilon)
include ht

theorem register_terminal :
    table.register I (.terminal t)
      = { table with names := (I.intern table.names t.name).2 }.keep
          (I.intern table.names t.name).1 (.terminal t) := by
  cases t with
  | epsilon => exact absurd rfl ht
  | _ => rfl

theorem register_terminal_names :
    (table.register I (.terminal t)).names = (I.intern table.names t.name).2 := by
  rw [register_terminal ht, keep_names]

theorem register_terminal_start : (table.register I (.terminal t)).start = table.start := by
  rw [register_terminal ht, keep_start]

theorem lookup_register_terminal :
    (table.register I (.terminal t)).symbols.lookup l
      = if l = (I.intern table.names t.name).1
        then some ((table.symbols.lookup (I.intern table.names t.name).1).getD (.terminal t))
        else table.symbols.lookup l := by
  rw [register_terminal ht, lookup_keep]

theorem lookup_register_terminal_of_lookup {e : KeyedSymbol Key}
    (h : table.symbols.lookup l = some e) :
    (table.register I (.terminal t)).symbols.lookup l = some e := by
  rw [register_terminal ht]
  refine lookup_keep_of_lookup ?_ _
  exact h

theorem Owned.register_terminal (h : table.Owned) : (table.register I (.terminal t)).Owned := by
  rw [KeyedTable.register_terminal ht]
  have howned : Owned { table with names := (I.intern table.names t.name).2 } := h
  exact howned.keep fun l hl => nomatch hl

end RegisterTerminal

/-- What a name stands for depends on its key and the entry of that alone. -/
theorem get?_congr {table' : KeyedTable Key State} {n : String}
    (hnames : I.get? table'.names n = I.get? table.names n)
    (hlookup : ∀ k, I.get? table'.names n = some k →
      table'.symbols.lookup k = table.symbols.lookup k) :
    table'.get? I n = table.get? I n := by
  rw [get?, get?, ← hnames]
  cases h : I.get? table'.names n with
  | none => rfl
  | some k => exact hlookup k h

/-- Interning a name and changing the entry of its key does not touch the other names. -/
theorem get?_intern_of_ne (hI : I.Lawful) {table' : KeyedTable Key State} {n m : String}
    (hnames : table'.names = (I.intern table.names n).2)
    (hlookup : ∀ l, l ≠ (I.intern table.names n).1 →
      table'.symbols.lookup l = table.symbols.lookup l) (h : m ≠ n) :
    table'.get? I m = table.get? I m := by
  refine get?_congr (by rw [hnames, hI.get?_intern_of_ne h]) fun k hk => hlookup k ?_
  rintro rfl
  rw [hnames] at hk
  exact h (hI.get?_inj hk hI.get?_intern_self)

theorem get?_declare (hI : I.Lawful) (h : table.Owned) (n m : String) :
    (table.declare I n).2.get? I m
      = if m = n then some (.nonterminal (table.declare I n).1) else table.get? I m := by
  split
  next hm =>
    subst m
    have hname : I.get? (table.declare I n).2.names n = some (table.declare I n).1 :=
      hI.get?_intern_self
    rw [get?, hname, Option.bind_some, lookup_declare h]
    exact if_pos rfl
  next hm =>
    exact get?_intern_of_ne hI rfl (fun l hl => by rw [lookup_declare h, if_neg hl]) hm

end KeyedTable

end Typeahead
