import Typeahead.CharClass.Reader

/-!
# CharClass — a set of characters given by its notation

A character class is its notation together with an expression for what it accepts.  The reader
(`CharClass.ofPattern?`) makes classes of texts, but nothing depends on how it reads them: a class
may go with any expression, and expressions accept any set of characters
(`CharClass.exists_contains`).
-/

namespace Typeahead

/-- A character class: a text of the notation, and what it stands for. -/
structure CharClass where
  pattern : String
  expr : CharClass.Expr
deriving DecidableEq

namespace CharClass

/-- The class written `pattern`, if that is in the notation. -/
def ofPattern? (pattern : String) : Option CharClass := (Expr.ofText? pattern).map (⟨pattern, ·⟩)

/-- Whether the class accepts a character. -/
def contains (cls : CharClass) (c : Char) : Bool := cls.expr.acceptsChar c

theorem Item.contains_single (d c : Char) : (single d).contains c = decide (d = c) := by
  rw [single, contains, Bool.eq_iff_iff, Bool.and_eq_true, decide_eq_true_iff, decide_eq_true_iff,
    decide_eq_true_iff]
  exact ⟨fun ⟨hle, hge⟩ => Char.le_antisymm hle hge, fun h => h ▸ ⟨Char.le_refl d, Char.le_refl d⟩⟩

/-- **A class may accept any set of characters**, however it is written. -/
theorem exists_contains (pattern : String) (p : Char → Bool) :
    ∃ cls : CharClass, cls.pattern = pattern ∧ ∀ c, cls.contains c = p c := by
  let accepted := ((List.range UInt32.size).map Char.ofNat).filter p
  refine ⟨⟨pattern, .set false (accepted.map Item.single)⟩, rfl, fun c => ?_⟩
  have hall : c ∈ (List.range UInt32.size).map Char.ofNat :=
    List.mem_map.2 ⟨c.toNat, List.mem_range.2 c.val.toNat_lt, Char.ofNat_toNat c⟩
  rw [Bool.eq_iff_iff, contains, Expr.acceptsChar, Bool.bne_false, List.any_map, List.any_eq_true]
  simp only [Function.comp, Item.contains_single, decide_eq_true_iff]
  constructor
  · rintro ⟨d, hd, rfl⟩
    exact (List.mem_filter.1 hd).2
  · exact fun hp => ⟨c, List.mem_filter.2 ⟨hall, hp⟩, rfl⟩

end CharClass

end Typeahead
