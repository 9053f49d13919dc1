import Typeahead.ParseTree

/-!
# ParseTree/Shape — the finished tree

Once the input is parsed the tree is reshaped from the bottom up: repetitions become flat lists of
entries, and the brackets, delimiters and auxiliary nodes of joins are dropped where only entries
are wanted.  What is dropped is not forgotten: `shape` returns it next to the tree, because the node
an error is reported for may be among it.
-/

namespace Typeahead

namespace Shaping

/-- Splits the nodes below a node, given its reshaped children, into those that stay as its children
and those that are dropped.  A node without the expected number of children keeps none of them. -/
def split (shaping : Shaping) (children : List ParseTree) : List ParseTree × List ParseTree :=
  let hollow (t : ParseTree) : ParseTree := .node t.label []
  match shaping, children with
  | keep, ts => (ts, [])
  | entryAndTail, [entry, tail] => (entry :: tail.children, [hollow tail])
  | second, [dropped, entry] => ([entry], [dropped])
  | headed, [entry, rest] =>
    (entry :: rest.children.flatMap (·.children), hollow rest :: rest.children.map hollow)
  | spreadLast, ts =>
    match ts.getLast? with
    | some last => (ts.dropLast ++ last.children, [hollow last])
    | none => ([], [])
  | bracketed true, [opening, middle, closing] =>
    (opening :: middle.children ++ [closing], [hollow middle])
  | bracketed false, [opening, middle, closing] =>
    (middle.children, [opening, hollow middle, closing])
  | wrapped, first :: more => (first.children, hollow first :: more)
  | _, ts => ([], ts)

end Shaping

namespace ParseTree

mutual

/-- **The finished tree** and the trees dropped from it. -/
def shape : ParseTree → ParseTree × List ParseTree
  | node l children =>
    let (children, dropped) := shapeAll children
    let shaping := match l.production with
      | some p => p.shaping
      | none => .keep
    let (kept, more) := shaping.split children
    (node l kept, dropped ++ more)

/-- The finished trees of several nodes and everything dropped from them. -/
def shapeAll : List ParseTree → List ParseTree × List ParseTree
  | [] => ([], [])
  | t :: ts =>
    let (t, dropped) := shape t
    let (ts, more) := shapeAll ts
    (t :: ts, dropped ++ more)

end

end ParseTree

end Typeahead
