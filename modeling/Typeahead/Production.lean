import Typeahead.Symbol

/-!
# Production — one way to expand a nonterminal

A production expands its left side into a sequence of symbols.  Productions made from rules also
say what happens to the nodes they derive: `Naming` gives the children their names and positions,
and `Shaping` decides which nodes stay once the whole input was parsed, so that a repetition that
was derived entry by entry ends up as one flat list.
-/

namespace Typeahead

/-- The names a rule gives to its children, by position. -/
abbrev ChildNames := List (Option String)

/-- The name of the child at a position.  A single name applies to every child; a position past the
declared names is called `no name`. -/
def ChildNames.nameAt : ChildNames → Nat → Option String
  | [], _ => none
  | [name], _ => name
  | names, i => names.getD i (some "no name")

/-- The name a node was given and its position among the entries of its parent. -/
structure Tag where
  name : Option String := none
  nth : Nat := 0
deriving DecidableEq, Repr, Inhabited

/-- How a production names the children of its node. -/
inductive Naming
  /-- Not at all. -/
  | anonymous
  /-- Every child by its position. -/
  | positional (names : ChildNames)
  /-- The only child as the alternative of the given index. -/
  | alternative (index : Nat) (names : ChildNames)
  /-- The only child by the first name. -/
  | single (names : ChildNames)
  /-- An entry and the tail that goes on counting after it. -/
  | entryAndTail (names : ChildNames)
  /-- The entry that ends a repetition. -/
  | lastEntry (names : ChildNames)
  /-- A delimiter and the entry after it. -/
  | delimited (names : ChildNames)
  /-- An entry that follows another without delimiter. -/
  | following (names : ChildNames)
  /-- The first entry of a join and the part that holds the others. -/
  | headed (names : ChildNames) (rest : String)
  /-- Positions only. -/
  | numbered
  /-- The entries of a join between brackets, which get names if they are kept. -/
  | bracketed (nameBrackets : Bool)
  /-- The entries of a join without brackets. -/
  | wrapped
deriving DecidableEq

/-- The tags of the `arity` children of a node tagged `self`.  `entry` is the number of entries that
precede the node in its repetition. -/
def Naming.tags (naming : Naming) (self : Tag) (entry arity : Nat) : List Tag :=
  match naming, arity with
  | positional names, n => (List.range n).map fun i => ⟨names.nameAt i, i⟩
  | numbered, n => (List.range n).map fun i => ⟨none, i⟩
  | alternative i names, _ + 1 => [⟨names.nameAt i, i⟩]
  | single names, _ + 1 => [⟨names.nameAt 0, 0⟩]
  | lastEntry names, _ + 1 => [⟨names.nameAt entry, entry⟩]
  | following names, _ + 1 => [⟨names.nameAt (self.nth + 1), 0⟩]
  | wrapped, _ + 1 => [⟨some "repetition", 0⟩]
  | entryAndTail names, 2 => [⟨names.nameAt entry, entry⟩, ⟨self.name, entry + 1⟩]
  | delimited names, 2 => [⟨some "delimiter", 0⟩, ⟨names.nameAt (self.nth + 1), 0⟩]
  | headed names rest, 2 => [⟨names.nameAt 0, 0⟩, ⟨some rest, 0⟩]
  | bracketed true, 3 => [⟨some "open", 0⟩, ⟨some "repetition", 0⟩, ⟨some "close", 0⟩]
  | bracketed false, 3 => [{}, ⟨some "repetition", 0⟩, {}]
  | _, _ => []

/-- Which nodes below a node stay in the finished tree. -/
inductive Shaping
  /-- All children. -/
  | keep
  /-- An entry, then the children of the tail. -/
  | entryAndTail
  /-- The second of two children. -/
  | second
  /-- An entry, then what is below the children of the rest. -/
  | headed
  /-- All children but the last, then the children of the last. -/
  | spreadLast
  /-- The children of the middle one of three, between the outer ones if these are kept. -/
  | bracketed (keepBrackets : Bool)
  /-- The children of the first child. -/
  | wrapped
deriving DecidableEq

/-- A production with the rule it was made from, by its index, and its treatment of nodes. -/
structure Production where
  left : String
  right : List Symbol
  rule : Option Nat := none
  naming : Naming := .anonymous
  shaping : Shaping := .keep
deriving DecidableEq

/-- The production that expands `left` into `right`; the empty symbol derives nothing and is left
out. -/
def Production.ofSymbols (left : String) (right : List Symbol) : Production where
  left := left
  right := right.filter (· ≠ .terminal .epsilon)

/-- A production as it is made, without empty symbols. -/
def Production.bare (p : Production) : Production :=
  { p with right := p.right.filter (· ≠ .terminal .epsilon) }

end Typeahead
