import Typeahead.Completion
import Typeahead.Text.Bytes

/-!
# Completion/Rendering — a completion rendered in one go

The renderings of a completion without its pieces: each is a recursion of its own over the parts of
a template.  `shown` joins the renderings of the parts, `fill` appends a completion to an insertion
and keeps the byte range of every slot, and `lead` appends fixed text up to the first slot and stops
there.
-/

namespace Typeahead

/-- What a completion is shown for: choosing it from a menu, or putting it into the input. -/
inductive Purpose
  | menu
  | insertion
deriving DecidableEq, Repr

/-- A text to be inserted, with the ranges of its slots. -/
structure Insertion where
  text : String := ""
  slots : List Slot := []
deriving DecidableEq, Repr

/-- The text in which the range of every slot holds the slot's name between braces.  The text begins
at byte `pos`, and the slots are taken in order: `none` if one of them begins before `pos` or before
the end of the one in front of it, or if a range cannot be cut out. -/
def Slot.replaceAll : List Slot → Nat → List Char → Option (List Char)
  | [], _, text => some text
  | s :: more, pos, text =>
    if pos ≤ s.first ∧ s.first ≤ s.last then do
      let before ← Text.takeBytes? (s.first - pos) text
      let after ← Text.dropBytes? (s.last - pos) text
      let after ← replaceAll more s.last after
      return before ++ (Piece.slot s.name).render.toList ++ after
    else none

namespace Completion

mutual

/-- The text that shows a completion. -/
def shown (purpose : Purpose) : Completion → String
  | literal _ text => text
  | placeholder _ name => "$\x7b" ++ name ++ "\x7d"
  | veto _ => ""
  | available _ => ""
  | template _ parts => shownAll purpose parts

/-- The text that shows several completions, one after the other. -/
def shownAll (purpose : Purpose) : List Completion → String
  | [] => ""
  | c :: cs => shown purpose c ++ shownAll purpose cs

end

mutual

/-- Appends a completion to an insertion. -/
def fill : Completion → Insertion → Insertion
  | literal _ text, so => { so with text := so.text ++ text }
  | placeholder _ name, so =>
    let text := so.text ++ name
    ⟨text, so.slots ++ [⟨name, so.text.utf8ByteSize, text.utf8ByteSize⟩]⟩
  | veto _, so => so
  | available _, so => so
  | template _ parts, so => fillAll parts so

/-- Appends several completions to an insertion. -/
def fillAll : List Completion → Insertion → Insertion
  | [], so => so
  | c :: cs, so => fillAll cs (fill c so)

end

/-- What a completion inserts. -/
def insertion (c : Completion) : Insertion := c.fill {}

mutual

/-- Appends the fixed text up to the first slot, and tells whether there was none. -/
def lead : Completion → String → String × Bool
  | literal _ text, out => (out ++ text, true)
  | placeholder _ _, out => (out, false)
  | veto _, out => (out, true)
  | available _, out => (out, true)
  | template _ parts, out => leadAll parts out

/-- Appends the fixed text of several completions up to the first slot. -/
def leadAll : List Completion → String → String × Bool
  | [], out => (out, true)
  | c :: cs, out =>
    match lead c out with
    | (out, true) => leadAll cs out
    | (out, false) => (out, false)

end

end Completion

end Typeahead
