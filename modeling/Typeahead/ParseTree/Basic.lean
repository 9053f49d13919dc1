import Typeahead.Production

/-!
# ParseTree/Basic — trees of labelled nodes

A node carries its symbol, the production that expanded it if there was one, its match and its tag.
-/

namespace Typeahead

/-- What a node of a parse tree carries. -/
structure Label where
  symbol : Symbol
  production : Option Production := none
  result : Match
  tag : Tag := {}

namespace Label

/-- The name a node was given, or else the name of its symbol. -/
def name (l : Label) : String := l.tag.name.getD l.symbol.name

/-- The text a node covers. -/
def text (l : Label) : String := l.result.text

/-- The index of the rule that governs a node. -/
def ruleIndex (l : Label) : Option Nat := l.production.bind (·.rule)

/-- Whether a node below a node of the given rule continues that rule. -/
def continues (parentRule : Option Nat) (l : Label) : Bool :=
  l.ruleIndex.isSome && l.ruleIndex = parentRule

/-- Whether the derivation is stuck on this node itself. -/
def isStuckLeaf (l : Label) : Bool := l.production.isNone && l.result.outcome.isStuck

end Label

/-- A tree of labelled nodes. -/
inductive ParseTree
  | node (label : Label) (children : List ParseTree)

instance : Inhabited ParseTree := ⟨.node ⟨default, none, default, {}⟩ []⟩

namespace ParseTree

/-- The label of the root. -/
def label : ParseTree → Label
  | node l _ => l

/-- The children of the root. -/
def children : ParseTree → List ParseTree
  | node _ cs => cs

/-- The tree of a symbol that was not expanded. -/
def leaf (s : Symbol) (m : Match) : ParseTree := node { symbol := s, result := m } []

/-- The outcome at the root. -/
def outcome (t : ParseTree) : Outcome := t.label.result.outcome

end ParseTree

end Typeahead
