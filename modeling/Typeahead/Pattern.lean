import Typeahead.Count

/-!
# Pattern — sentences with typed variables

A pattern such as `Set the speed to {s:int}.` is a sequence of items: literal text, runs of blanks,
and variables.  A variable has a name and possibly a type and a quantifier; a type is named, a
character class, a list or a tuple.  `render` writes items back as text.
-/

namespace Typeahead.Pattern

/-- The type of a variable. -/
inductive VarType
  /-- A type known by name. -/
  | named (name : String)
  /-- A character class with its brackets. -/
  | charClass (pattern : String)
  /-- A list of entries of a named type. -/
  | list (entry : String)
  /-- A tuple of entries of a named type, one for every name. -/
  | tuple (entry : String) (names : List String)
deriving DecidableEq, Repr

/-- A variable of a pattern. -/
structure Variable where
  name : String
  type : Option VarType := none
  quantifier : Option Count := none
deriving DecidableEq, Repr

/-- One piece of a pattern. -/
inductive Item
  /-- Text matched as it is; it neither starts nor ends with a blank. -/
  | literal (text : String)
  /-- A run of blanks between two items. -/
  | blanks
  | slot (v : Variable)
deriving DecidableEq, Repr

/-- A type in writing. -/
def VarType.render : VarType → String
  | named name => name
  | charClass pattern => pattern
  | list entry => "list<" ++ entry ++ ">"
  | tuple entry names => "tuple<" ++ ", ".intercalate (entry :: names) ++ ">"

/-- A variable in writing. -/
def Variable.render (v : Variable) : String :=
  let type := match v.type with
    | some t => ":" ++ t.render
    | none => ""
  let quantifier := match v.quantifier with
    | some q => ":" ++ q.render
    | none => ""
  "\x7b" ++ v.name ++ type ++ quantifier ++ "\x7d"

/-- An item in writing. -/
def Item.render : Item → String
  | literal text => text
  | blanks => " "
  | slot v => v.render

/-- A pattern in writing. -/
def render (items : List Item) : String := String.join (items.map Item.render)

end Typeahead.Pattern
