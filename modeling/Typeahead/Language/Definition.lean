import Typeahead.Language.Standard
import Typeahead.Pattern.Reader

/-!
# Language/Definition — types defined by patterns

A pattern defines a type as a sequence: literals stand for themselves, blanks for the standard run of
blanks, and a variable for the symbol of its type, repeated as its quantifier says.  The rules that
lists, tuples and repetitions need are registered on the way, item by item; they stay even if a later
item is refused.
-/

namespace Typeahead

namespace Grammar

/-- The symbol of a type known by name. -/
def typeSymbol (name : String) : GrammarM Symbol := do
  match (← get).symbol? name with
  | some s => return s
  | none => throw (.unknownType name)

/-- A symbol repeated as a quantifier says. -/
def quantified (child : Named) (count : Count) : StateM Grammar RuleRef :=
  if count = .star then star none child
  else if count = .plus then plus none child
  else if count = .optional then optional none child
  else repetition none child count.lower count.upper

/-- The symbol for a variable's type, with the rules it needs. -/
def typeOf (v : Pattern.Variable) : GrammarM Symbol :=
  match v.type with
  | none => return .literal v.name
  | some (.named name) => typeSymbol name
  | some (.charClass pattern) => do return .terminal (← Terminal.ofClass pattern)
  | some (.list entry) => do
    let s ← typeSymbol entry
    let r ← list none (s.called entry) (v.quantifier.getD .star)
    return r.symbol
  | some (.tuple entry names) => do
    let s ← typeSymbol entry
    let r ← tuple none s names
    return r.symbol

/-- The occurrence of a variable in a sequence.  The quantifier of a list bounds its entries; any
other repeats the variable. -/
def variableOf (v : Pattern.Variable) : GrammarM Named := do
  let child := (← typeOf v).called v.name
  match v.type, v.quantifier with
  | some (.list _), _ => return child
  | _, none => return child
  | _, some count =>
    let r ← quantified child count
    return r.symbol.called v.name

/-- The occurrence of a pattern item in a sequence. -/
def itemOf : Pattern.Item → GrammarM Named
  | .literal text => return (Symbol.literal text).unnamed
  | .blanks => return (Symbol.nonterminal Standard.blankRun).called "ws+"
  | .slot v => variableOf v

/-- Adds an alternative for the type `name`, given by a pattern.  The types used in it must be known
already. -/
def defineType (name pattern : String) : GrammarM RuleRef := do
  let items ← Pattern.read pattern
  let children ← items.mapM itemOf
  sequence (some name) children

end Grammar

end Typeahead
