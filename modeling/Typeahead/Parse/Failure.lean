import Typeahead.ParseTree

/-!
# Parse/Failure — where and why a parse failed

A failure names the node the best derivation was stuck on, the node above it that could have
completed, and the offset of the offending character.  Its `Location` shows that character within
its line, with what would have been accepted instead.  Lines end with a line feed, a carriage return
or both in this order.
-/

namespace Typeahead

/-- The place of an offset within a text, for a reader. -/
structure Location where
  /-- The number of the line, starting from one. -/
  line : Nat
  lineText : String
  /-- Blanks up to the column, then a caret. -/
  caret : String
  expected : List String
deriving DecidableEq, Repr

namespace Location

/-- A character that ends a line. -/
def isBreak (c : Char) : Bool := c = '\n' || c = '\r'

/-- The number of line breaks in a text. -/
def breaks : List Char → Nat
  | [] => 0
  | '\r' :: '\n' :: cs => breaks cs + 1
  | c :: cs => breaks cs + if isBreak c then 1 else 0

/-- The part of a text after its last line break character. -/
def lastLine (cs : List Char) : List Char := (cs.reverse.takeWhile (!isBreak ·)).reverse

/-- The location between the text `before` an offset and the text `after` it. -/
def between (before after : List Char) (expected : List String) : Location where
  line := 1 + breaks before
  lineText := String.ofList (lastLine before ++ after.takeWhile (!isBreak ·))
  caret := String.ofList (List.replicate (lastLine before).length ' ' ++ ['^'])
  expected := expected

/-- The location of a byte offset in a text. -/
def ofOffset (input : List Char) (offset : Nat) (expected : List String) : Location :=
  let offset := min offset (Text.byteLength input)
  match Text.takeBytes? offset input, Text.dropBytes? offset input with
  | some before, some after => between before after expected
  | _, _ => between [] input expected

end Location

/-- A failed parse. -/
structure Failure where
  /-- The node the derivation was stuck on. -/
  failed : Option Label
  /-- The node closest to it, on the way up, that claims to have an offer. -/
  ancestor : Option Label
  /-- The byte offset of the offending character. -/
  offset : Nat
  location : Option Location

namespace Failure

/-- The offset of the last character of a match, where a failed match went wrong. -/
def lastOffset (m : Match) : Nat :=
  m.stop - (match m.text.toList.getLast? with
    | some c => c.utf8Size
    | none => 0)

/-- The wording of a failure. -/
def message (f : Failure) : String :=
  "Error at position " ++ toString f.offset ++
    match f.location with
    | none => ""
    | some l => " in line " ++ toString l.line ++ ":\n" ++ l.lineText ++ "\n" ++ l.caret
      ++ "\nExpected " ++ ", ".intercalate l.expected

end Failure

end Typeahead
