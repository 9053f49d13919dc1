import Typeahead.ParseTree.Basic
import Typeahead.Symbol.Table

/-!
# Rule/Body — what a rule is written as

A rule says how a target is made of children: one after the other, one of them, an optional or a
repeated one, or entries joined by a delimiter between brackets.  It names the nodes of its
children.  That is its body; what it does to its nodes comes on top of it.

An `Outline` is a grammar of which only the bodies of the rules are left.
-/

namespace Typeahead

/-- How the entries of a join are put together. -/
structure Join where
  opening : Option Symbol := none
  closing : Option Symbol := none
  delimiter : Option Symbol := none
  /-- Whether only the entries stay in the tree, without brackets and delimiters. -/
  entriesOnly : Bool := true
  count : Count := Count.star
deriving DecidableEq

/-- How a rule combines its children. -/
inductive RuleKind
  | sequence
  | choice
  | optional
  | star
  | plus
  | repetition (least most : Nat)
  | join (j : Join)
deriving DecidableEq

/-- The word for a kind of rule. -/
def RuleKind.word : RuleKind → String
  | sequence => "sequence"
  | choice => "or"
  | optional => "optional"
  | star => "star"
  | plus => "plus"
  | repetition _ _ => "repeat"
  | join _ => "join"

/-- The kind of a rule, its target, and its children with their names. -/
structure RuleBody where
  kind : RuleKind
  target : String
  children : List Symbol
  names : ChildNames
deriving DecidableEq

/-- A symbol and the name its occurrence has. -/
abbrev Part := Symbol × Option String

/-- The parts of a rule: its children with their names. -/
def RuleBody.parts (r : RuleBody) : List Part :=
  r.children.zipIdx.map fun (s, i) => (s, r.names.nameAt i)

/-- A grammar without what its rules do. -/
structure Outline where
  symbols : SymbolTable
  productions : List Production
  rules : Array RuleBody

end Typeahead
