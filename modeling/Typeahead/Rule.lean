import Typeahead.Completer

/-!
# Rule — a rule of a grammar and what it does

On top of its body a rule may carry behaviour: an evaluator, a completer, and the label under which
its successful nodes are announced.
-/

namespace Typeahead

/-- The result of an evaluation. -/
abbrev Evaluated := Except EvalError Value

/-- How a node is turned into a value. -/
inductive Evaluator
  /-- The value of the first child. -/
  | first
  /-- The list of the values of all children. -/
  | all
  /-- The text of the node. -/
  | text
  /-- The number of children. -/
  | count
  /-- The list of the names of the children. -/
  | childNames
  /-- The value of the child at an index. -/
  | child (index : Nat)
  /-- The value of the node reached by following names, one per level. -/
  | path (name : String) (more : List String)
  /-- The text of the node reached by following names. -/
  | textAt (names : List String)
  /-- A fixed value. -/
  | const (v : Value)
  /-- The whole number written by the text. -/
  | integer
  /-- The decimal number written by the text. -/
  | float
  /-- The time of day written by the text. -/
  | time
  /-- The range between the first two children. -/
  | range
  /-- The opaque colour whose red, green and blue parts are the first three children. -/
  | color
  /-- Any other function of the node, with all that is below it. -/
  | ofNode (value : Outline → ParseTree → Evaluated)

/-- A rule of a grammar. -/
structure Rule extends RuleBody where
  evaluator : Option Evaluator
  completer : Option Completer := none
  listener : Option String := none

namespace Rule

/-- The evaluator a kind of rule has unless another is given: a choice has the value of what was
chosen, a repetition or join the list of its entries. -/
def defaultEvaluator : RuleKind → Option Evaluator
  | .sequence => none
  | .choice => some .first
  | .optional | .star | .plus | .repetition _ _ | .join _ => some .all

/-- The rule for `target` with the given children. -/
def ofChildren (kind : RuleKind) (target : String) (children : List Named) : Rule where
  kind := kind
  target := target
  children := children.map (·.symbol)
  names := children.map (·.name)
  evaluator := defaultEvaluator kind

/-- The rule with another entry count; only a join has one. -/
def setCount (r : Rule) (count : Count) : Rule :=
  match r.kind with
  | .join j => { r with kind := .join { j with count := count } }
  | _ => r

end Rule

end Typeahead
