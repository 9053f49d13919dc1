import Typeahead.Number.Written

/-!
# Number/Binary64 — double precision numbers, read from decimal text

A number is kept as the 64 bits of its binary floating point form: sign, eleven bits of exponent,
fifty-two bits of fraction.  `ofRatio` rounds a quotient of natural numbers to the nearest such
number, a tie going to the even neighbour; `ofText?` reads decimal text with it.  Everything is
exact arithmetic on natural numbers.
-/

namespace Typeahead

/-- A double precision number, by its bits. -/
structure Binary64 where
  bits : UInt64
deriving DecidableEq, Repr

namespace Binary64

/-- The number of fractions: two to the power of their fifty-two bits. -/
def fractions : Nat := 0x10000000000000

/-- The number of magnitudes: two to the power of the sixty-three bits below the sign. -/
def magnitudes : Nat := 0x8000000000000000

/-- The bits of a number from its sign and the remaining sixty-three bits. -/
def ofSign (negative : Bool) (magnitude : Nat) : Binary64 :=
  ⟨UInt64.ofNat ((if negative then magnitudes else 0) + magnitude)⟩

/-- The magnitude of an infinity: all exponent bits set and no fraction. -/
def infinity : Nat := 2047 * fractions

/-- The magnitude of the number that is none. -/
def notANumber : Nat := infinity + fractions / 2

/-- The quotient to the nearest whole number, a tie to the even one. -/
def roundDiv (num den : Nat) : Nat :=
  let q := num / den
  let r := num % den
  if 2 * r < den then q else if den < 2 * r then q + 1 else q + q % 2

/-- The quotient `num / den` in units of two to the power `exponent`, rounded. -/
def significand (num den : Nat) (exponent : Int) : Nat :=
  if 0 ≤ exponent then roundDiv num (den * Nat.pow 2 exponent.toNat)
  else roundDiv (num * Nat.pow 2 (-exponent).toNat) den

/-- The exponent of the unit in which `num / den` has fifty-three binary digits, or the least
exponent there is. -/
def unitExponent (num den : Nat) : Int :=
  let low : Int := (num.log2 : Int) - (den.log2 : Int) - 53
  let fits := if 0 ≤ low then num < den * Nat.pow 2 low.toNat * (2 * fractions)
    else num * Nat.pow 2 (-low).toNat < den * (2 * fractions)
  max (-1074) (if fits then low else low + 1)

/-- **The number nearest to `num / den`**, as a magnitude; the denominator must not be zero. -/
def ofRatio (num den : Nat) : Nat :=
  if num = 0 then 0 else
    let exponent := unitExponent num den
    let m := significand num den exponent
    let magnitude := if m < fractions then m
      else (exponent + 1075).toNat * fractions + (m - fractions)
    min magnitude infinity

/-- The number nearest to `m * 10 ^ exponent`, as a magnitude.  Values far beyond the range are
decided by the position of their first digit alone. -/
def ofDecimal (m : Nat) (exponent : Int) : Nat :=
  let top : Int := (Nat.toDigits 10 m).length + exponent
  if m = 0 ∨ top < -400 then 0
  else if 400 < top then infinity
  else if 0 ≤ exponent then ofRatio (m * Nat.pow 10 exponent.toNat) 1
  else ofRatio m (Nat.pow 10 (-exponent).toNat)

/-- The exponent after a mantissa: nothing, or the letter e, an optional sign and digits. -/
def exponent? : List Char → Option Int
  | [] => some 0
  | e :: cs =>
    if e ≠ 'e' ∧ e ≠ 'E' then none else
      let (sign, digits) : Int × List Char := match cs with
        | '-' :: ds => (-1, ds)
        | '+' :: ds => (1, ds)
        | ds => (1, ds)
      if digits.isEmpty || !digits.all Char.isDigit then none
      else some (sign * digitsValue digits)

/-- The magnitude written by an unsigned decimal text: digits with at most one point among or
around them, then an optional exponent; or one of the words for infinity and for no number. -/
def magnitude? (cs : List Char) : Option Nat :=
  let word := String.ofList (cs.map Char.toLower)
  if word = "inf" ∨ word = "infinity" then some infinity
  else if word = "nan" then some notANumber
  else
    let whole := cs.takeWhile Char.isDigit
    let (fraction, rest) := match cs.dropWhile Char.isDigit with
      | '.' :: ds => (ds.takeWhile Char.isDigit, ds.dropWhile Char.isDigit)
      | ds => ([], ds)
    if whole.isEmpty && fraction.isEmpty then none
    else (exponent? rest).map fun e =>
      ofDecimal (digitsValue (whole ++ fraction)) (e - fraction.length)

/-- Reads a decimal text with an optional sign. -/
def ofText? (text : String) : Option Binary64 :=
  match text.toList with
  | '-' :: cs => (magnitude? cs).map (ofSign true)
  | '+' :: cs => (magnitude? cs).map (ofSign false)
  | cs => (magnitude? cs).map (ofSign false)

/-- Whether the sign bit is set. -/
def isNegative (x : Binary64) : Bool := magnitudes ≤ x.bits.toNat

/-- The bits without the sign. -/
def magnitude (x : Binary64) : Nat := x.bits.toNat % magnitudes

end Binary64

end Typeahead
