import Typeahead.Number.Binary64

/-!
# Number/Shortest — the shortest decimal text of a number

Many decimals round to the same double precision number.  `shortest` finds the one on the coarsest
decimal grid, the nearest if that grid has several; `Binary64.describe` lays its digits out, with a
point for numbers from `1e-5` up to below `1e16` and with an exponent otherwise.
-/

namespace Typeahead

namespace Binary64

/-- The significand and the exponent of its unit, for a finite magnitude. -/
def unpack (magnitude : Nat) : Nat × Int :=
  let field : Nat := magnitude / fractions
  let fraction := magnitude % fractions
  if field = 0 then (fraction, -1074) else (fraction + fractions, (field : Int) - 1075)

/-- The nearest multiple of `10 ^ grid` to `m * 2 ^ unit` that still rounds to it, if there is one.
A tie between two multiples goes to the larger. -/
def onGrid (m : Nat) (unit grid : Int) : Option Nat :=
  let lower := if m = fractions ∧ -1074 < unit then 4 * m - 1 else 4 * m - 2
  let upper := 4 * m + 2
  let p := Nat.pow 2 (unit - 2).toNat * Nat.pow 10 (-grid).toNat
  let q := Nat.pow 10 grid.toNat * Nat.pow 2 (2 - unit).toNat
  let inside (n : Nat) : Bool :=
    0 < n && (if m % 2 = 0 then lower * p ≤ n * q && n * q ≤ upper * p
      else lower * p < n * q && n * q < upper * p)
  let below := 4 * m * p / q
  let above := below + 1
  match inside below, inside above with
  | true, true => if above * q + below * q ≤ 2 * (4 * m * p) then some above else some below
  | true, false => some below
  | false, true => some above
  | false, false => none

/-- **The shortest decimal** that rounds to `m * 2 ^ unit`: digits and the power of ten they count,
found on the coarsest grid from `10 ^ 309` down to `10 ^ -324`. -/
def shortest (m : Nat) (unit : Int) : Nat × Int :=
  ((List.range 634).findSome? fun (i : Nat) =>
    let grid : Int := 309 - i
    (onGrid m unit grid).map (·, grid)).getD (m, 0)

/-- A run of `n` zeros. -/
def zeros (n : Nat) : String := String.ofList (List.replicate n '0')

/-- The digits `n` counting `10 ^ grid`, written with a decimal point. -/
def positional (n : Nat) (grid : Int) : String :=
  let digits := toString n
  if 0 ≤ grid then digits ++ zeros grid.toNat ++ ".0"
  else
    let places := (-grid).toNat
    if places < digits.length then
      String.ofList (digits.toList.take (digits.length - places)) ++ "."
        ++ String.ofList (digits.toList.drop (digits.length - places))
    else "0." ++ zeros (places - digits.length) ++ digits

/-- The digits `n` counting `10 ^ grid`, written with one digit before the point and an exponent. -/
def scientific (n : Nat) (grid : Int) : String :=
  let digits := (toString n).toList
  let fraction := digits.drop 1
  String.ofList (digits.take 1) ++ (if fraction.isEmpty then "" else "." ++ String.ofList fraction)
    ++ "e" ++ toString (grid + fraction.length)

/-- The shortest text of a number: at least one digit after a point, an exponent only outside
`1e-5 ≤ |x| < 1e16`. -/
def describe (x : Binary64) : String :=
  let magnitude := x.magnitude
  if infinity < magnitude then "NaN"
  else (if x.isNegative then "-" else "") ++
    if magnitude = infinity then "inf"
    else if magnitude = 0 then "0.0"
    else
      let (m, unit) := unpack magnitude
      let (n, grid) := shortest m unit
      let leading := grid + (toString n).length - 1
      if -5 ≤ leading ∧ leading < 16 then positional n grid else scientific n grid

end Binary64

end Typeahead
