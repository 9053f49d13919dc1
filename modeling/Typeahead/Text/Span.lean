/-!
# Text/Span — properties of characters, and cutting a text where one ends

Properties of characters are stored as lists of inclusive ranges of code points in increasing order.
`inRanges` walks such a list and stops at the first range that begins beyond the code point, so on a
sorted table it decides membership without reading the rest.  White space is such a property.

Readers cut a text into the longest start whose characters have a property and the rest.  The rest
is never longer than the text, which is what makes loops over rests come to an end.  A start that
has the property comes back from the front of any text that does not go on with it
(`takeWhile_append_of_stops`).
-/

namespace Typeahead.Text

/-! ## Tables of code points -/

/-- Whether `n` lies in one of the inclusive ranges of a table sorted in increasing order. -/
def inRanges : List (Nat × Nat) → Nat → Bool
  | [], _ => false
  | (lo, hi) :: more, n => if n < lo then false else n ≤ hi || inRanges more n

/-- The ranges of the Unicode property *White_Space*, in increasing order. -/
def blankRanges : List (Nat × Nat) := [
  (0x9, 0xd), (0x20, 0x20), (0x85, 0x85), (0xa0, 0xa0), (0x1680, 0x1680), (0x2000, 0x200a),
  (0x2028, 0x2029), (0x202f, 0x202f), (0x205f, 0x205f), (0x3000, 0x3000)]

/-- White space in any script. -/
def isBlank (c : Char) : Bool := inRanges blankRanges c.toNat

/-- The text without the white space at its end. -/
def trimEnd (cs : List Char) : List Char := (cs.reverse.dropWhile isBlank).reverse

/-! ## Spans -/

/-- Dropping a start leaves no longer text. -/
theorem length_dropWhile_le (p : Char → Bool) (cs : List Char) :
    (cs.dropWhile p).length ≤ cs.length := (List.dropWhile_sublist p).length_le

variable {p : Char → Bool} {front back : List Char}

/-- `cs` does not go on with a character that has the property. -/
def Stops (p : Char → Bool) (cs : List Char) : Prop := ∀ c ∈ cs.head?, p c = false

@[simp] theorem stops_nil : Stops p [] := nofun

@[simp] theorem stops_cons {c : Char} {cs : List Char} : Stops p (c :: cs) ↔ p c = false := by
  simp [Stops]

theorem stops_dropWhile (cs : List Char) : Stops p (cs.dropWhile p) := by
  intro c hc
  have := List.head?_dropWhile_not p cs
  rw [Option.mem_def.1 hc] at this
  exact this

theorem Stops.takeWhile (h : Stops p back) : back.takeWhile p = [] := by
  cases back with
  | nil => rfl
  | cons c cs => rw [List.takeWhile_cons_of_neg (by simp [stops_cons.1 h])]

theorem Stops.dropWhile (h : Stops p back) : back.dropWhile p = back := by
  cases back with
  | nil => rfl
  | cons c cs => rw [List.dropWhile_cons_of_neg (by simp [stops_cons.1 h])]

theorem Stops.append (h : Stops p front) (hne : front ≠ []) : Stops p (front ++ back) := by
  obtain ⟨c, cs, rfl⟩ := List.exists_cons_of_ne_nil hne
  exact stops_cons.2 (stops_cons.1 h)

theorem Stops.of_append (h : Stops p (front ++ back)) (hne : front ≠ []) : Stops p front := by
  obtain ⟨c, cs, rfl⟩ := List.exists_cons_of_ne_nil hne
  exact stops_cons.2 (stops_cons.1 h)

/-- **The longest start of a property** is the front of an append, if the back stops there. -/
theorem takeWhile_append_of_stops (hfront : ∀ c ∈ front, p c) (hback : Stops p back) :
    (front ++ back).takeWhile p = front := by
  rw [List.takeWhile_append_of_pos hfront, hback.takeWhile, List.append_nil]

theorem dropWhile_append_of_stops (hfront : ∀ c ∈ front, p c) (hback : Stops p back) :
    (front ++ back).dropWhile p = back := by
  rw [List.dropWhile_append_of_pos hfront, hback.dropWhile]

end Typeahead.Text
