import Typeahead.ParseTree

/-!
# ParseTree/Naming — the names of the nodes

Names are given from the top down: every production tags the children of its node, and the tags of
a repetition's tail depend on the tag of the node above it.
-/

namespace Typeahead

namespace Label

/-- The number of entries of its repetition that precede a node.  Only the tail of a repetition
counts on; every other node starts from zero. -/
def entryIndex (parentRule : Option Nat) (l : Label) : Nat :=
  if l.continues parentRule then l.tag.nth else 0

/-- The tags a node gives to its children. -/
def childTags (parentRule : Option Nat) (l : Label) (arity : Nat) : List Tag :=
  match l.production with
  | some p => p.naming.tags l.tag (l.entryIndex parentRule) arity
  | none => []

end Label

namespace ParseTree

mutual

/-- Gives the root a tag and names all nodes below it. -/
def withTag (tag : Tag) (parentRule : Option Nat) : ParseTree → ParseTree
  | node l children =>
    let l := { l with tag := tag }
    node l (withTags (l.childTags parentRule children.length) l.ruleIndex children)

/-- Gives the roots their tags, in order, and names all nodes below them. -/
def withTags (tags : List Tag) (parentRule : Option Nat) : List ParseTree → List ParseTree
  | [] => []
  | t :: ts => withTag (tags.headD {}) parentRule t :: withTags tags.tail parentRule ts

end

/-- The tree with all its nodes named. -/
def named (t : ParseTree) : ParseTree := t.withTag {} none

end ParseTree

/-- **The named tree of a derivation.** -/
def Derivation.tree (d : Derivation) : ParseTree := d.rawTree.named

end Typeahead
