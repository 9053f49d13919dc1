/-!
# Text/Bytes — byte offsets into a text

Positions are byte offsets in the UTF-8 form of a text.  An offset is a **boundary** when some
number of whole characters ends there; only a boundary can be cut at, so the cutting functions
answer `none` for an offset inside a character or beyond the end.
-/

namespace Typeahead.Text

/-- The number of bytes a text takes. -/
def byteLength : List Char → Nat
  | [] => 0
  | c :: cs => c.utf8Size + byteLength cs

/-- The text from byte `n` on, if `n` is a boundary. -/
def dropBytes? : Nat → List Char → Option (List Char)
  | 0, cs => some cs
  | _ + 1, [] => none
  | n + 1, c :: cs => if c.utf8Size ≤ n + 1 then dropBytes? (n + 1 - c.utf8Size) cs else none

/-- The text up to byte `n`, if `n` is a boundary. -/
def takeBytes? : Nat → List Char → Option (List Char)
  | 0, _ => some []
  | _ + 1, [] => none
  | n + 1, c :: cs =>
    if c.utf8Size ≤ n + 1 then (takeBytes? (n + 1 - c.utf8Size) cs).map (c :: ·) else none

/-- The text between the bytes `first` and `last`, both clamped to the text.  Empty unless both ends
are boundaries. -/
def slice (cs : List Char) (first last : Nat) : List Char :=
  let last := min last (byteLength cs)
  let first := min first last
  ((dropBytes? first cs).bind (takeBytes? (last - first))).getD []

/-- The text from byte `first` on, empty beyond the end or inside a character. -/
def sliceFrom (cs : List Char) (first : Nat) : List Char := slice cs first (byteLength cs)

@[simp] theorem byteLength_append (a b : List Char) :
    byteLength (a ++ b) = byteLength a + byteLength b := by
  induction a with
  | nil => simp [byteLength]
  | cons c a ih => simp [byteLength, ih, Nat.add_assoc]

end Typeahead.Text
