import Typeahead.Count
import Typeahead.Number.Shortest
import Typeahead.Text.Quoted

/-!
# Value — what a parsed node evaluates to

Values are what evaluators produce, and `EvalError` lists the ways an evaluation can fail.
`Value.describe` writes a value for an error message.
-/

namespace Typeahead

/-- The value of a node. -/
inductive Value
  | null
  | int (n : Int)
  | float (x : Binary64)
  | str (s : String)
  | list (items : List Value)
  | range (bounds : Count)
  | time (hour minute : Nat)
deriving Repr, Inhabited

namespace Value

/-- The whole number, if the value is one. -/
def asInt? : Value → Option Int
  | int n => some n
  | _ => none

/-- The text, if the value is one. -/
def asText? : Value → Option String
  | str s => some s
  | _ => none

/-- The items, if the value is a list. -/
def asList? : Value → Option (List Value)
  | list items => some items
  | _ => none

mutual

/-- A value in writing, with the name of its kind. -/
def describe : Value → String
  | null => "Null"
  | int n => "Int(" ++ toString n ++ ")"
  | float x => "Float(" ++ x.describe ++ ")"
  | str s => "Str(" ++ Text.quote s ++ ")"
  | list items => "List([" ++ describeItems items ++ "])"
  | range b =>
    "Range(IntRange \x7b lower: " ++ toString b.lower ++ ", upper: " ++ toString b.upper
      ++ " \x7d)"
  | time h m => "Time \x7b hour: " ++ toString h ++ ", minute: " ++ toString m ++ " \x7d"

/-- The items of a list, separated by commas. -/
def describeItems : List Value → String
  | [] => ""
  | [v] => describe v
  | v :: w :: vs => describe v ++ ", " ++ describeItems (w :: vs)

end

end Value

/-- Why an evaluation failed. -/
inductive EvalError
  | noSuchChild (name : String)
  | noSuchIndex (index : Nat)
  | invalidNumber (text : String)
  | invalidTime (text : String)
  | unexpectedValue (expected : String) (found : Value)
deriving Repr, Inhabited

/-- The wording of an evaluation error. -/
def EvalError.message : EvalError → String
  | noSuchChild name => "the node has no child named `" ++ name ++ "`."
  | noSuchIndex index => "the node has no child at index " ++ toString index ++ "."
  | invalidNumber text => "`" ++ text ++ "` is not a valid number."
  | invalidTime text => "`" ++ text ++ "` is not a valid time of day."
  | unexpectedValue expected found => "expected " ++ expected ++ ", found " ++ found.describe ++ "."

end Typeahead
