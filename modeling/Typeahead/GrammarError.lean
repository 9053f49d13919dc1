import Typeahead.Text.Bytes
import Typeahead.Text.Span

/-!
# GrammarError — what can be wrong with a definition

The causes for which a rule, a pattern or a whole grammar is refused, and their wording.

A pattern is refused either because its first item is neither a variable nor a literal, or because
something is left over after its last item.  The wording shows the line of the offending place with
a caret below it, once for every reading that was tried there.
-/

namespace Typeahead

/-! ## Patterns that cannot be read -/

namespace Pattern

/-- What was wrong at the offending place. -/
inductive Misreading
  /-- Nothing there starts an item. -/
  | noItem
  /-- The items end there, but the pattern does not. -/
  | leftover
deriving DecidableEq, Repr, Inhabited

/-- The place at which a pattern is refused: the text before it, the text from it on, and what is
wrong with that. -/
structure Fault where
  before : List Char
  after : List Char
  misreading : Misreading
deriving DecidableEq, Repr, Inhabited

/-- The readings that failed, innermost first. -/
def Misreading.readings : Misreading → List String
  | noItem => ["TakeTill1", "Alt"]
  | leftover => ["Eof"]

namespace Fault

/-- The part of the offending line before the place. -/
def lineStart (f : Fault) : List Char := (f.before.reverse.takeWhile (· ≠ '\n')).reverse

/-- The offending line without white space at its end. -/
def line (f : Fault) : List Char :=
  Text.trimEnd (f.lineStart ++ f.after.takeWhile (· ≠ '\n'))

/-- The entry of the `i`-th failed reading. -/
def entry (f : Fault) (i : Nat) (reading : String) : String :=
  if f.before.isEmpty && f.after.isEmpty then
    toString i ++ ": in " ++ reading ++ ", got empty input\n\n"
  else
    toString i ++ ": at line " ++ toString (1 + f.before.count '\n') ++ ", in " ++ reading ++ ":\n"
      ++ String.ofList f.line ++ "\n"
      ++ String.ofList (List.replicate (Text.byteLength f.lineStart) ' ') ++ "^\n\n"

/-- The wording of a fault. -/
def message (f : Fault) : String :=
  String.join (f.misreading.readings.zipIdx.map fun (reading, i) => f.entry i reading)

end Fault

end Pattern

/-! ## Definitions that are refused -/

/-- Why a definition was refused. -/
inductive GrammarError
  | undefinedNonterminal (name : String)
  | unknownType (name : String)
  | unbalancedJoin
  | missingChild
  | emptyRange (lower upper : Nat)
  | invalidClass (pattern : String)
  | invalidPattern (fault : Pattern.Fault)
deriving DecidableEq, Repr, Inhabited

/-- The wording of a grammar error. -/
def GrammarError.message : GrammarError → String
  | undefinedNonterminal name => "the nonterminal `" ++ name ++ "` is used but not defined."
  | unknownType name => "the type `" ++ name ++ "` is not defined."
  | unbalancedJoin =>
    "a join must have both an opening and a closing symbol or neither of them."
  | missingChild => "a repetition rule needs a child symbol."
  | emptyRange lower upper =>
    "the range " ++ toString lower ++ "-" ++ toString upper ++ " is empty."
  | invalidClass pattern => "invalid character class `" ++ pattern ++ "`"
  | invalidPattern fault => "invalid pattern:\n" ++ fault.message

end Typeahead
