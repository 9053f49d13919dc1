import Typeahead.Text.Bytes

/-!
# Cursor — a reading position in a text

A cursor stands at a byte offset of its text, never beyond the end.  An offset inside a character
is allowed: nothing can be read from there, yet the cursor is not at the end.
-/

namespace Typeahead

/-- A text with a byte offset into it. -/
structure Cursor where
  text : List Char
  pos : Nat := 0
deriving DecidableEq, Repr

namespace Cursor

/-- Moves to the offset `n`, or to the end if the text is shorter. -/
def moveTo (c : Cursor) (n : Nat) : Cursor := { c with pos := min n (Text.byteLength c.text) }

/-- Moves `n` bytes on, at most to the end. -/
def forward (c : Cursor) (n : Nat) : Cursor := c.moveTo (c.pos + n)

/-- What is left to read; nothing when the cursor stands inside a character. -/
def remaining (c : Cursor) : List Char := (Text.dropBytes? c.pos c.text).getD []

/-- The next character. -/
def peek (c : Cursor) : Option Char := c.remaining.head?

/-- Whether the cursor has reached the end of its text. -/
def atEnd (c : Cursor) : Bool := Text.byteLength c.text ≤ c.pos

end Cursor

end Typeahead
