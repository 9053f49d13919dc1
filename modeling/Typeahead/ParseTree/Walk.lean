import Typeahead.Completer
import Typeahead.ParseTree

/-!
# ParseTree/Walk — orders in which a tree is visited

Listing from the top, following child positions, and the way from the root to the node a derivation
is stuck on.  A `Visit` is a node together with the rule that governs its parent, which is all that
is ever asked about the parent; a `Node` also knows its place among the trees.
-/

namespace Typeahead

/-- A node on a walk: its label and the index of the rule of the node above it. -/
structure Visit where
  label : Label
  parentRule : Option Nat

namespace Visit

/-- Whether the node continues the rule of the node above it. -/
def continues (v : Visit) : Bool := v.label.continues v.parentRule

end Visit

/-- A visited node at its place among some trees. -/
structure Node extends Visit, Place

namespace ParseTree

mutual

/-- The labels of all nodes with their depth, every node before those below it. -/
def preorder (depth : Nat) : ParseTree → List (Nat × Label)
  | node l children => (depth, l) :: preorderAll (depth + 1) children

/-- The labels below several roots, in order. -/
def preorderAll (depth : Nat) : List ParseTree → List (Nat × Label)
  | [] => []
  | t :: ts => preorder depth t ++ preorderAll depth ts

end

mutual

/-- All nodes, every node after those below it. -/
def postorder (parentRule : Option Nat) : ParseTree → List Visit
  | node l children => postorderAll l.ruleIndex children ++ [⟨l, parentRule⟩]

/-- All nodes below several roots, every node after those below it. -/
def postorderAll (parentRule : Option Nat) : List ParseTree → List Visit
  | [] => []
  | t :: ts => postorder parentRule t ++ postorderAll parentRule ts

end

mutual

/-- The way from the root to the node the derivation is stuck on, if that is in the tree. -/
def stuckPath? (parentRule : Option Nat) : ParseTree → Option (List Visit)
  | node l children =>
    if l.isStuckLeaf then some [⟨l, parentRule⟩]
    else (stuckPathAll? l.ruleIndex children).map (⟨l, parentRule⟩ :: ·)

/-- The way to the stuck node from the one of several roots that it is below. -/
def stuckPathAll? (parentRule : Option Nat) : List ParseTree → Option (List Visit)
  | [] => none
  | t :: ts =>
    match stuckPath? parentRule t with
    | some path => some path
    | none => stuckPathAll? parentRule ts

end

mutual

/-- The child positions that lead from the root to the node the derivation is stuck on. -/
def stuckWay? : ParseTree → Option (List Nat)
  | node l children => if l.isStuckLeaf then some [] else stuckWayAll? 0 children

/-- The positions that lead to the stuck node from several roots, the first of which has position
`i`. -/
def stuckWayAll? (i : Nat) : List ParseTree → Option (List Nat)
  | [] => none
  | t :: ts =>
    match stuckWay? t with
    | some way => some (i :: way)
    | none => stuckWayAll? (i + 1) ts

end

/-- The nodes on a way from one of several roots to the stuck node, at their places. -/
def nodesOn (ts : List ParseTree) (path : List Visit) : List Node :=
  let way := (stuckWayAll? 0 ts).getD []
  path.zipIdx.map fun (v, i) => { toVisit := v, trees := ts, way := way.take (i + 1) }

/-- The nodes from a root down to the stuck node, if that is below one of several roots. -/
def stuckNodes? (ts : List ParseTree) : Option (List Node) :=
  (stuckPathAll? none ts).map (nodesOn ts)

/-- The nodes from a root down to the stuck node; none if there is no such node. -/
def stuckNodes (ts : List ParseTree) : List Node := (stuckNodes? ts).getD []

mutual

/-- The largest number of children of any node. -/
def widest : ParseTree → Nat
  | node _ children => max children.length (widestAll children)

/-- The largest number of children of any node below several roots. -/
def widestAll : List ParseTree → Nat
  | [] => 0
  | t :: ts => max (widest t) (widestAll ts)

end

/-- The node reached from the root by child positions, with the label of the node above it. -/
def descend? (parent : Option Label) : ParseTree → List Nat → Option (Option Label × ParseTree)
  | t, [] => some (parent, t)
  | node l children, i :: path =>
    match children[i]? with
    | some t => descend? (some l) t path
    | none => none

/-- The tree in writing: a line for every node with its name, text and outcome, indented by depth. -/
def outline (t : ParseTree) : String :=
  String.join <| (t.preorder 0).map fun (depth, l) =>
    String.ofList (List.replicate (2 * depth) ' ') ++ l.name ++ " " ++ Text.quote l.text ++ " "
      ++ l.result.outcome.word ++ "\n"

end ParseTree

end Typeahead
