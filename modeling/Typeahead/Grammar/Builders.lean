import Typeahead.Grammar

/-!
# Grammar/Builders — ways to register rules

One function for each kind of rule, and the combinations of rules that make lists, tuples and
character classes.
-/

namespace Typeahead.Grammar

/-- All children, one after the other. -/
def sequence (name : Option String) (children : List Named) : StateM Grammar RuleRef :=
  insert .sequence name children

/-- One of the given alternatives. -/
def choice (name : Option String) (options : List Named) : StateM Grammar RuleRef :=
  insert .choice name options

/-- The child or nothing. -/
def optional (name : Option String) (child : Named) : StateM Grammar RuleRef :=
  insert .optional name [child]

/-- The child any number of times. -/
def star (name : Option String) (child : Named) : StateM Grammar RuleRef :=
  insert .star name [child]

/-- The child at least once. -/
def plus (name : Option String) (child : Named) : StateM Grammar RuleRef :=
  insert .plus name [child]

/-- The child between `least` and `most` times. -/
def repetition (name : Option String) (child : Named) (least most : Nat) :
    StateM Grammar RuleRef :=
  insert (.repetition least most) name [child]

/-- Entries joined by a delimiter, between brackets if there are any. -/
def join (name : Option String) (entry : Named) (j : Join) : StateM Grammar RuleRef := do
  [j.opening, j.closing, j.delimiter].forM fun s => s.forM register
  insert (.join j) name [entry]

/-- A join with exactly one entry for every name. -/
def joinNames (name : Option String) (entry : Symbol) (j : Join) (names : List String) :
    StateM Grammar RuleRef := do
  let r ← join name entry.unnamed { j with count := .exactly names.length }
  modifyRule r fun rule => { rule with names := names.map some }

/-- Any number of blanks. -/
def blanks : StateM Grammar RuleRef := star none (Symbol.terminal .whitespace).unnamed

/-- Entries separated by commas, with blanks around these; a comma completes with one blank after
it. -/
def list (name : Option String) (entry : Named) (count : Count) : StateM Grammar RuleRef := do
  let ws := (← blanks).symbol.called "ws*"
  let delimiter ← completing (.ifEmpty ", ")
    (← sequence none [ws, (Symbol.literal ",").unnamed, ws])
  join name entry { delimiter := some delimiter.symbol, count := count }

/-- Comma-separated entries between parentheses, one for every name.  Completes to a template with a
placeholder for each. -/
def tuple (name : Option String) (entry : Symbol) (names : List String) :
    StateM Grammar RuleRef := do
  let ws := (← completing .silent (← blanks)).symbol.called "ws*"
  let opening ← sequence none [(Symbol.literal "(").called "open", ws]
  let closing ← sequence none [ws, (Symbol.literal ")").called "close"]
  let delimiter ← sequence none [ws, (Symbol.literal ",").called "delimiter", ws]
  completing .tuple (← joinNames name entry
    { opening := some opening.symbol, closing := some closing.symbol,
      delimiter := some delimiter.symbol } names)

end Typeahead.Grammar

namespace Typeahead

/-- The terminal for a character class, refused if the notation is not understood. -/
def Terminal.ofClass (pattern : String) : Except GrammarError Terminal :=
  match CharClass.ofPattern? pattern with
  | some cls => .ok (.charClass cls)
  | none => .error (.invalidClass pattern)

/-- One character of a class, which evaluates to that character. -/
def Grammar.characterClass (name : Option String) (pattern : String) : GrammarM RuleRef := do
  let cls ← Terminal.ofClass pattern
  let r ← sequence name [(Symbol.terminal cls).called "character-class"]
  evaluating .text r

end Typeahead
