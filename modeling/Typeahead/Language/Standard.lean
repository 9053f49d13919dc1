import Typeahead.Evaluation
import Typeahead.Grammar.Builders

/-!
# Language/Standard — the types every language knows

Digits, letters, signs, whole and decimal numbers, blanks, ranges, times, months, colours and line
breaks.  `Standard.register` adds their rules to a grammar; the order of registration fixes the names
of the auxiliary rules.
-/

namespace Typeahead.Standard

open Grammar

/-- The type of a run of at least one blank. -/
def blankRun : String := "whitespace-plus"

/-- The type of a run of line breaks. -/
def lineBreaks : String := "linebreak-star"

/-- The months of a year, in order. -/
def months : List String :=
  ["January", "February", "March", "April", "May", "June", "July", "August", "September",
    "October", "November", "December"]

/-- The colours that have a name, with their red, green and blue parts. -/
def colors : List (String × Int × Int × Int) :=
  [("black", 0, 0, 0), ("white", 255, 255, 255), ("red", 255, 0, 0), ("orange", 255, 128, 0),
    ("yellow", 255, 255, 0), ("lawn green", 128, 255, 0), ("green", 0, 255, 0),
    ("spring green", 0, 255, 180), ("cyan", 0, 255, 255), ("azure", 0, 128, 255),
    ("blue", 0, 0, 255), ("violet", 128, 0, 255), ("magenta", 255, 0, 255),
    ("pink", 255, 0, 128), ("gray", 128, 128, 128)]

/-- An occurrence of a terminal without a name of its own. -/
def plain (t : Terminal) : Named := (Symbol.terminal t).unnamed

/-- One character of a terminal, with its text as value and a placeholder as completion. -/
def character (name : String) (t : Terminal) : StateM Grammar Unit := do
  let r ← sequence (some name) [plain t]
  discard <| completing .placeholder (← evaluating .text r)

/-- A fixed text with a fixed value. -/
def constant (text : String) (v : Value) : StateM Grammar RuleRef := do
  evaluating (.const v) (← sequence none [plain (.literal text)])

/-- Signs, whole numbers and decimal numbers; returns the whole numbers. -/
def registerNumbers : StateM Grammar Symbol := do
  let sign := (← choice (some "sign") [plain (.literal "-"), plain (.literal "+")]).symbol
  let optionalSign ← optional none (sign.called "sign")
  let digits ← plus none ((Symbol.terminal .digit).called "digit")
  let int ← sequence (some "int") [optionalSign.symbol.called "optional", digits.symbol.called "plus"]
  discard <| completing .placeholder (← evaluating .integer int)
  let optionalSign ← optional none sign.unnamed
  let digits ← plus none (plain .digit)
  let fractionDigits ← star none (plain .digit)
  let fraction ← sequence none [plain (.literal "."), fractionDigits.symbol.called "star"]
  let optionalFraction ← optional none (fraction.symbol.called "sequence")
  let float ← sequence (some "float")
    [optionalSign.symbol.unnamed, digits.symbol.unnamed, optionalFraction.symbol.unnamed]
  discard <| completing .placeholder (← evaluating .float float)
  return int.symbol

/-- Runs of blanks; returns the run that may be empty. -/
def registerBlanks : StateM Grammar Symbol := do
  let star ← star (some "whitespace-star") (plain .whitespace)
  discard <| completing (.ifEmpty " ") star
  let plus ← plus (some blankRun) (plain .whitespace)
  discard <| completing (.ifEmpty " ") plus
  return star.symbol

/-- Two whole numbers around a dash. -/
def registerRange (int blanks : Symbol) : StateM Grammar Unit := do
  let dash ← sequence none [blanks.called "ws*", plain (.literal "-"), blanks.called "ws*"]
  let range ← joinNames (some "integer-range") int { delimiter := some dash.symbol } ["from", "to"]
  discard <| evaluating .range range

/-- An hour of one or two digits and a minute of two. -/
def registerTime : StateM Grammar Unit := do
  let optionalDigit ← optional none (plain .digit)
  let time ← sequence (some "time")
    [optionalDigit.symbol.unnamed, plain .digit, plain (.literal ":"), plain .digit, plain .digit]
  discard <| completing (.ifEmpty "$\x7bHH\x7d:$\x7bMM\x7d") (← evaluating .time time)

/-- The months, numbered from zero. -/
def registerMonths : StateM Grammar Unit := do
  let options ← months.zipIdx.mapM fun (month, i) => do
    let r ← constant month (.int i)
    return r.symbol.called (String.ofList (month.toList.map Char.toLower))
  discard <| choice (some "month") options

/-- Colours, as a tuple of their parts or by name. -/
def registerColors (int : Symbol) : StateM Grammar Unit := do
  let parts ← evaluating .color (← tuple none int ["red", "green", "blue"])
  let named ← colors.mapM fun (name, red, green, blue) => do
    let r ← constant name (.int (Value.opaqueColor red green blue))
    return r.symbol.unnamed
  discard <| choice (some "color") (parts.symbol.unnamed :: named)

/-- **Registers the standard types.** -/
def register : StateM Grammar Unit := do
  character "digit" .digit
  character "letter" .letter
  let int ← registerNumbers
  let blanks ← registerBlanks
  registerRange int blanks
  registerTime
  registerMonths
  registerColors int
  discard <| star (some lineBreaks) (plain (.literal "\n"))

end Typeahead.Standard
