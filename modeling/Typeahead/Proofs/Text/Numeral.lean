import Mathlib.Algebra.Order.Ring.Int
import Typeahead.Number.Written
import Typeahead.Text.Span

/-!
# Proofs/Text/Numeral — whole numbers in writing

A numeral is an optional sign followed by digits (`Numeral`).  `Written.int?` reads the value of a
numeral if that has 64 bits (`Numeral.int?_eq`), and every whole number is written by a numeral
(`Numeral.ofInt`).  In front of anything but a digit, a text says where its numeral ends
(`Numeral.append_inj`).
-/

namespace Typeahead

open Text

/-- A text is cut in one place only behind all that has some property. -/
theorem Text.append_inj_of_stops {p : Char → Bool} {front front' back back' : List Char}
    (hfront : ∀ c ∈ front, p c = true) (hfront' : ∀ c ∈ front', p c = true) (hback : Stops p back)
    (hback' : Stops p back') (h : front ++ back = front' ++ back') :
    front = front' ∧ back = back' := by
  have htake := congrArg (List.takeWhile p) h
  have hdrop := congrArg (List.dropWhile p) h
  rw [takeWhile_append_of_stops hfront hback, takeWhile_append_of_stops hfront' hback'] at htake
  rw [dropWhile_append_of_stops hfront hback, dropWhile_append_of_stops hfront' hback'] at hdrop
  exact ⟨htake, hdrop⟩

/-- **A whole number in writing**: a sign or none, and at least one digit. -/
@[ext]
structure Numeral where
  sign : Option Char
  digits : List Char
  sign_eq : ∀ c ∈ sign, c = '+' ∨ c = '-'
  ne_nil : digits ≠ []
  isDigit : ∀ c ∈ digits, c.isDigit = true

/-- Whether a whole number is a signed number of 64 bits. -/
def FitsInt64 (n : Int) : Prop := -2 ^ 63 ≤ n ∧ n ≤ 2 ^ 63 - 1

instance (n : Int) : Decidable (FitsInt64 n) := inferInstanceAs (Decidable (_ ∧ _))

namespace Numeral

/-- The text of a numeral. -/
def chars (w : Numeral) : List Char := w.sign.toList ++ w.digits

/-- The number that a numeral writes. -/
def value (w : Numeral) : Int :=
  if w.sign = some '-' then -(digitsValue w.digits : Int) else digitsValue w.digits

/-! ## Reading -/

theorem digits?_eq (w : Numeral) : Written.digits? w.digits = some (digitsValue w.digits) := by
  refine if_neg ?_
  simpa [w.ne_nil] using w.isDigit

/-- No digit is a sign. -/
theorem exists_digits (w : Numeral) :
    ∃ c cs, w.digits = c :: cs ∧ c.isDigit = true ∧ c ≠ '+' ∧ c ≠ '-' := by
  obtain ⟨c, cs, hdigits⟩ := List.exists_cons_of_ne_nil w.ne_nil
  have hc : c.isDigit = true := w.isDigit c (hdigits ▸ List.mem_cons_self ..)
  refine ⟨c, cs, hdigits, hc, ?_, ?_⟩ <;> rintro rfl <;> exact absurd hc (by decide)

theorem signed?_chars (w : Numeral) : Written.signed? w.chars = some w.value := by
  have hdigits := w.digits?_eq
  rcases hsign : w.sign with _ | c
  · obtain ⟨c, cs, hcons, -, hplus, hminus⟩ := w.exists_digits
    rw [chars, hsign, value, hsign, Option.toList_none, List.nil_append]
    rw [hcons] at hdigits ⊢
    simp [Written.signed?, hplus, hminus, hdigits]
  · rcases w.sign_eq c hsign with rfl | rfl <;>
      simp [chars, value, hsign, Written.signed?, hdigits]

/-- **Reading a numeral** gives its value, if that has 64 bits. -/
theorem int?_eq {text : String} {w : Numeral} (h : text.toList = w.chars) :
    Written.int? text = if FitsInt64 w.value then some w.value else none := by
  rw [Written.int?, h, signed?_chars, Option.filter_some]
  refine if_congr ?_ rfl rfl
  simp [FitsInt64]

/-! ## Writing -/

/-- The numeral of a whole number. -/
def ofInt (n : Int) : Numeral where
  sign := if n < 0 then some '-' else none
  digits := Nat.toDigits 10 n.natAbs
  sign_eq c hc := by
    split at hc
    · exact .inr (Option.some.inj hc).symm
    · cases hc
  ne_nil := Nat.toDigits_ne_nil
  isDigit _ := Nat.isDigit_of_mem_toDigits (by omega) (by omega)

theorem sign_ofInt (n : Int) : (ofInt n).sign = if n < 0 then some '-' else none := rfl

theorem digits_ofInt (n : Int) : (ofInt n).digits = Nat.toDigits 10 n.natAbs := rfl

theorem chars_ofInt (n : Int) : (ofInt n).chars = (toString n).toList := by
  have hdigits : ∀ m : Nat, m.repr.toList = Nat.toDigits 10 m := fun m => by simp
  rw [chars, sign_ofInt, digits_ofInt, Int.toString_eq_repr, Int.repr_eq_if]
  rcases lt_or_ge n 0 with hneg | hpos
  · rw [if_pos hneg, if_neg (Int.not_le.2 hneg), String.toList_append, hdigits]
    congr 2
    omega
  · rw [if_neg (Int.not_lt.2 hpos), if_pos hpos, hdigits, Option.toList_none, List.nil_append]
    congr 1
    omega

@[simp] theorem value_ofInt (n : Int) : (ofInt n).value = n := by
  rw [value, sign_ofInt, digits_ofInt, digitsValue_toDigits]
  rcases lt_or_ge n 0 with hneg | hpos
  · rw [if_pos hneg, if_pos rfl]
    omega
  · rw [if_neg (Int.not_lt.2 hpos), if_neg nofun]
    omega

/-! ## Where a numeral ends -/

variable {w w' : Numeral} {rest rest' : List Char}

/-- Behind the sign of a numeral there is no other sign. -/
theorem stops_isSign (w : Numeral) (rest : List Char) :
    Stops (fun c => c = '+' ∨ c = '-') (w.digits ++ rest) := by
  obtain ⟨c, cs, hcons, -, hplus, hminus⟩ := w.exists_digits
  rw [hcons]
  exact stops_cons.2 (by simp [hplus, hminus])

/-- **The numeral at the beginning of a text** is determined by it, if no digit follows. -/
theorem append_inj (h : w.chars ++ rest = w'.chars ++ rest') (hrest : Stops Char.isDigit rest)
    (hrest' : Stops Char.isDigit rest') : w = w' ∧ rest = rest' := by
  have hsigns : ∀ w : Numeral, ∀ c ∈ w.sign.toList, decide (c = '+' ∨ c = '-') = true :=
    fun w c hc => decide_eq_true (w.sign_eq c (Option.mem_toList.1 hc))
  rw [chars, chars, List.append_assoc, List.append_assoc] at h
  obtain ⟨hsign, h⟩ := append_inj_of_stops (hsigns w) (hsigns w') (w.stops_isSign rest)
    (w'.stops_isSign rest') h
  obtain ⟨hdigits, hrest⟩ := append_inj_of_stops w.isDigit w'.isDigit hrest hrest' h
  have hsign : w.sign = w'.sign :=
    Option.ext fun c => by rw [← Option.mem_toList, hsign, Option.mem_toList]
  exact ⟨Numeral.ext hsign hdigits, hrest⟩

theorem chars_injective (h : w.chars = w'.chars) : w = w' := by
  have hnil : w.chars ++ [] = w'.chars ++ [] := by rw [h]
  exact (append_inj hnil stops_nil stops_nil).1

end Numeral

end Typeahead
