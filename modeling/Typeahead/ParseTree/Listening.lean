import Typeahead.ParseTree.Arena
import Typeahead.ParseTree.Naming
import Typeahead.ParseTree.Walk

/-!
# ParseTree/Listening — telling listeners about the nodes of a stored tree

The productions of rules listen to the nodes that they expand, and rules listen to those they govern.
A production is told first: `Arena.tell?` goes through the tree from the top, while the listeners
give the children their tags.  `Arena.announce?` then tells the rules, from the bottom up.
-/

namespace Typeahead

/-- Whether the production of a node listens to it. -/
def Label.listens (l : Label) : Bool := l.production.any (·.naming ≠ .anonymous)

/-- What is told to a rule about a node.  Only a node that parsed at least up to the end of the input
is announced, unless it continues the rule of its parent. -/
def Visit.announcement? (g : FlatGrammar) (v : Visit) : Option (String × Label) :=
  let outcome := v.label.result.outcome
  if (outcome = .successful ∨ outcome = .endOfInput) ∧ !v.continues then
    ((v.label.rule g).bind (·.listener)).map (·, v.label)
  else none

/-- A listener is told about a node and its children. -/
structure Call where
  id : Nat
  children : List Nat
deriving DecidableEq, Repr

namespace Arena

/-- Gives a node a tag. -/
def setTag (a : Arena) (id : Nat) (tag : Tag) : Arena :=
  a.modify id fun c => { c with label := { c.label with tag := tag } }

/-- Gives nodes their tags, in order.  Where there are too few, the others stay as they are. -/
def setTags (a : Arena) (ids : List Nat) (tags : List Tag) : Arena :=
  (ids.zip tags).foldl (fun a (id, tag) => a.setTag id tag) a

/-- The index of the rule that governs the parent of a node. -/
def parentRule? (a : Arena) (id : Nat) : Option Nat :=
  ((a.parent? id).bind a.label?).bind (·.ruleIndex)

/-- Whether the production of a node listens to it. -/
def listens (a : Arena) (id : Nat) : Bool := (a.label? id).any (·.listens)

/-- The production of a node names the children of it. -/
def nameChildren (a : Arena) (id : Nat) (children : List Nat) : Arena :=
  match a.label? id with
  | some l => a.setTags children (l.childTags (a.parentRule? id) children.length)
  | none => a

/-- Tells the productions about the nodes on a stack and below them, a node before its children, if
`n` visits are enough.  The children are read off before the listener is called. -/
def tell (n : Nat) (stack : List Nat) (calls : List Call) (a : Arena) :
    Option (List Call × Arena) :=
  match n, stack with
  | _, [] => some (calls, a)
  | 0, _ :: _ => none
  | n + 1, id :: stack =>
    let children := a.children id
    if a.listens id then
      tell n (children ++ stack) (calls ++ [⟨id, children⟩]) (a.nameChildren id children)
    else tell n (children ++ stack) calls a

/-- **Tells the productions about all nodes below a root**, and what was told. -/
def tell? (a : Arena) (root : Nat) : Option (List Call × Arena) := tell a.cells.size [root] [] a

/-- A node with the rule that governs its parent. -/
def visit? (a : Arena) (id : Nat) : Option Visit :=
  (a.label? id).map (⟨·, a.parentRule? id⟩)

/-- What is told to a rule about a node. -/
def announcement? (g : FlatGrammar) (a : Arena) (id : Nat) : Option (String × Label) :=
  (a.visit? id).bind (·.announcement? g)

/-- **Tells the rules about the nodes below a root**, children before parents. -/
def announce? (g : FlatGrammar) (a : Arena) (root : Nat) :
    Option (List (Nat × String × Label)) :=
  (a.postOrder? root).map fun order =>
    order.filterMap fun id => (a.announcement? g id).map (id, ·)

end Arena

end Typeahead
