/-!
# Number/Written — whole numbers and times in writing

A run of decimal digits writes a number by Horner's rule, and the digits of a number write that
number (`digitsValue_toDigits`).  `Written.int?` reads an optionally signed run of digits as a signed
64-bit number, `Written.time?` reads an hour and a minute around a colon.
-/

namespace Typeahead

/-- The number written by a run of decimal digits; nothing written counts as zero. -/
def digitsValue (cs : List Char) : Nat := cs.foldl (fun n c => 10 * n + (c.toNat - 48)) 0

/-- The digits of a number write that number. -/
theorem digitsValue_toDigits (n : Nat) : digitsValue (Nat.toDigits 10 n) = n :=
  Nat.ofDigitChars_ten_toDigits

namespace Written

/-- The number written by a nonempty run of decimal digits. -/
def digits? (cs : List Char) : Option Nat :=
  if cs.isEmpty || !cs.all Char.isDigit then none
  else some (digitsValue cs)

/-- The whole number written by an optional sign and digits, regardless of its size. -/
def signed? : List Char → Option Int
  | '-' :: cs => (digits? cs).map fun n => -(n : Int)
  | '+' :: cs => (digits? cs).map fun n => (n : Int)
  | cs => (digits? cs).map fun n => (n : Int)

/-- The signed 64-bit number a text writes. -/
def int? (text : String) : Option Int :=
  (signed? text.toList).filter fun n =>
    -9223372036854775808 ≤ n ∧ n ≤ 9223372036854775807

/-- The number written by digits after an optional plus sign. -/
def unsigned? : List Char → Option Nat
  | '+' :: cs => digits? cs
  | cs => digits? cs

/-- The hour and the minute written around the first colon of a text. -/
def time? (text : String) : Option (Nat × Nat) :=
  let cs := text.toList
  match cs.dropWhile (· ≠ ':') with
  | [] => none
  | _ :: minutes =>
    match unsigned? (cs.takeWhile (· ≠ ':')), unsigned? minutes with
    | some hour, some minute => if hour ≤ 23 ∧ minute ≤ 59 then some (hour, minute) else none
    | _, _ => none

end Written

end Typeahead
