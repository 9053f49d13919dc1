import Typeahead.Parse.Attempt
import Typeahead.Parse.Failure

/-!
# Parse — parsing an input

`parse` attempts the input and, if it cannot be derived, explains the failure: the part before the
failed node is attempted again, without telling listeners, and what completes it is what was
expected there.
-/

namespace Typeahead

/-- The result of a parse: the finished tree, the completions, and the failure if the input could
not be derived. -/
structure Parsed where
  tree : ParseTree
  completions : List Completion
  failure : Option Failure

/-- What was expected after the text `before`: the completions of that text, if it is the beginning
of something derivable. -/
def expectations (iso : Isolate) (g : FlatGrammar) (before : List Char) :
    ParseM (Option (List String)) := do
  let a ← attempt iso g none before (some [])
  if a.hasFailed then
    discard <| a.ancestor iso g
    return none
  else return some (a.completions.map Completion.render)

/-- Explains why an attempt failed. -/
def explain (iso : Isolate) (g : FlatGrammar) (input : List Char) (a : Attempt) :
    ParseM Failure := do
  let ancestor ← a.ancestor iso g
  let failed := a.failedPath.getLast?.map (·.label)
  let (offset, start) := match failed with
    | some l => (Failure.lastOffset l.result, l.result.pos)
    | none => (0, 0)
  let expected ← expectations iso g (Text.slice input 0 start)
  return ⟨failed, ancestor, offset, expected.map (Location.ofOffset input offset)⟩

/-- **Parses an input.**  With `found` given, the completions of the input are added to it.  Parse
starts are announced to `listeners` many listeners. -/
def parse (g : FlatGrammar) (listeners : Nat) (input : String)
    (found : Option (List Completion)) : ParseM Parsed := do
  let cs := input.toList
  let a ← attempt isolate g (some listeners) cs found
  let failure ← if a.hasFailed then some <$> explain isolate g cs a else pure none
  return ⟨a.tree, a.completions, failure⟩

end Typeahead
