/-!
# Count — how many entries are admissible

A `Count` is an inclusive range of entry counts.  The largest upper bound, `Count.limit`, stands for
"any number"; the ranges that have a sign of their own (`*`, `+`, `?`) are written by it.
-/

namespace Typeahead

/-- An inclusive range of admissible entry counts. -/
structure Count where
  lower : Nat
  upper : Nat
deriving DecidableEq, Repr

namespace Count

/-- The upper bound that stands for "any number". -/
def limit : Nat := 2147483647

/-- Any number of entries. -/
def star : Count := ⟨0, limit⟩

/-- At least one entry. -/
def plus : Count := ⟨1, limit⟩

/-- At most one entry. -/
def optional : Count := ⟨0, 1⟩

/-- Exactly `n` entries. -/
def exactly (n : Nat) : Count := ⟨n, n⟩

/-- Whether `n` lies within the bounds. -/
def contains (c : Count) (n : Nat) : Bool := c.lower ≤ n && n ≤ c.upper

/-- The range in writing: its sign if it has one, a single number if the bounds agree, and both
bounds with a dash otherwise. -/
def render (c : Count) : String :=
  if c = star then "*"
  else if c = plus then "+"
  else if c = optional then "?"
  else if c.lower = c.upper then toString c.lower
  else toString c.lower ++ "-" ++ toString c.upper

end Count

end Typeahead
