import Typeahead.Number.Written
import Typeahead.ParseTree

/-!
# Evaluation — the value of a tree

A node governed by a rule with an evaluator has the value that evaluator gives it; a terminal has
the value of its match, and any other node its text.  Evaluators look at the node and at the values
of nodes below it, so evaluation is recursion on the tree.
-/

namespace Typeahead

namespace Label

/-- The value of a node without evaluator. -/
def plainValue (l : Label) : Value :=
  match l.symbol with
  | .terminal t => t.evaluate l.result
  | .nonterminal _ => .str l.text

/-- The whole number the text of a node writes. -/
def integer (l : Label) : Evaluated :=
  match Written.int? l.text with
  | some n => .ok (.int n)
  | none => .error (.invalidNumber l.text)

/-- The decimal number the text of a node writes. -/
def float (l : Label) : Evaluated :=
  match Binary64.ofText? l.text with
  | some x => .ok (.float x)
  | none => .error (.invalidNumber l.text)

/-- The time of day the text of a node writes. -/
def time (l : Label) : Evaluated :=
  match Written.time? l.text with
  | some (hour, minute) => .ok (.time hour minute)
  | none => .error (.invalidTime l.text)

end Label

namespace Value

/-- The whole number of a value. -/
def expectInt : Value → Except EvalError Int
  | int n => .ok n
  | v => .error (.unexpectedValue "an integer" v)

/-- The whole number of a value, which must not be negative. -/
def expectBound (v : Value) : Except EvalError Nat := do
  let n ← v.expectInt
  if n < 0 then .error (.unexpectedValue "a non-negative integer" (int n)) else .ok n.toNat

/-- The opaque colour with the given parts, of which the lowest eight bits count. -/
def opaqueColor (red green blue : Int) : Int :=
  let part (n : Int) : Int64 := .ofInt n &&& 0xff
  ((0xff : Int64) <<< 24 ||| part red <<< 16 ||| part green <<< 8 ||| part blue).toInt

end Value

namespace ParseTree

/-- The node reached by following names through the children, one name per level. -/
def find : ParseTree → List String → Except EvalError ParseTree
  | t, [] => .ok t
  | t, name :: names =>
    match t.children.find? (·.label.name = name) with
    | some child => find child names
    | none => .error (.noSuchChild name)

mutual

/-- **The value of a tree.** -/
def evaluate (g : FlatGrammar) : ParseTree → Evaluated
  | node l children =>
    match (l.rule g).bind (·.evaluator) with
    | none => .ok l.plainValue
    | some .first => evaluateNth g 0 0 children
    | some .all => (evaluateAll g children).map .list
    | some .text => .ok (.str l.text)
    | some .count => .ok (.int children.length)
    | some .childNames => .ok (.list (children.map fun t => .str t.label.name))
    | some (.child index) => evaluateNth g index index children
    | some (.path name more) => evaluatePath g name more children
    | some (.textAt names) => (find (node l children) names).map fun t => .str t.label.text
    | some (.const v) => .ok v
    | some .integer => l.integer
    | some .float => l.float
    | some .time => l.time
    | some .range => do
      let lower ← (← evaluateNth g 0 0 children).expectBound
      let upper ← (← evaluateNth g 1 1 children).expectBound
      .ok (.range ⟨lower, upper⟩)
    | some .color => do
      let red ← (← evaluateNth g 0 0 children).expectInt
      let green ← (← evaluateNth g 1 1 children).expectInt
      let blue ← (← evaluateNth g 2 2 children).expectInt
      .ok (.int (Value.opaqueColor red green blue))
    | some (.ofNode value) => value g.outline (node l children)

/-- The value of the tree after `skip` others; a missing one is reported by its `index`. -/
def evaluateNth (g : FlatGrammar) (index : Nat) : Nat → List ParseTree → Evaluated
  | _, [] => .error (.noSuchIndex index)
  | 0, t :: _ => evaluate g t
  | skip + 1, _ :: ts => evaluateNth g index skip ts

/-- The values of several trees, or the first error among them. -/
def evaluateAll (g : FlatGrammar) : List ParseTree → Except EvalError (List Value)
  | [] => .ok []
  | t :: ts =>
    match evaluate g t with
    | .error e => .error e
    | .ok v => (evaluateAll g ts).map (v :: ·)

/-- The value of the node reached by following names from the children of a node. -/
def evaluatePath (g : FlatGrammar) (name : String) (more : List String) :
    List ParseTree → Evaluated
  | [] => .error (.noSuchChild name)
  | node l children :: ts =>
    if l.name = name then
      match more with
      | [] => evaluate g (node l children)
      | next :: more => evaluatePath g next more children
    else evaluatePath g name more ts

end

end ParseTree

end Typeahead
