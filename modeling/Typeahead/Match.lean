/-!
# Match — the outcome of matching a symbol against the input

A match says how far a symbol got: whether it was found, whether the input ended before it was
complete, whether it did not fit, or whether it was never tried; where it started; and the text it
covers.  Matches of stuck derivations are ranked by `Match.beats`: first by outcome, then by how far
they reach, and the tie-break decides between matches that reach equally far.
-/

namespace Typeahead

/-- How a symbol fared, from best to worst. -/
inductive Outcome
  | successful
  | endOfInput
  | failed
  | notParsed
deriving DecidableEq, Repr, Inhabited

namespace Outcome

/-- The place in the order from best to worst. -/
def rank : Outcome → Nat
  | successful => 0
  | endOfInput => 1
  | failed => 2
  | notParsed => 3

/-- The word for an outcome. -/
def word : Outcome → String
  | successful => "Successful"
  | endOfInput => "EndOfInput"
  | failed => "Failed"
  | notParsed => "NotParsed"

/-- Whether one outcome is strictly better than another. -/
def beats (a b : Outcome) : Bool := a.rank < b.rank

/-- Whether a derivation got stuck with this outcome. -/
def isStuck : Outcome → Bool
  | endOfInput | failed => true
  | successful | notParsed => false

end Outcome

/-- Which of two equally ranked partial results is kept. -/
inductive TieBreak
  | later
  | earlier
deriving DecidableEq, Repr, Inhabited

/-- The settings of a parse. -/
structure Config where
  tieBreak : TieBreak := .later
  /-- The number of expansions in a row that may happen without consuming input. -/
  maxDepth : Nat := 4096
deriving DecidableEq, Repr, Inhabited

/-- The outcome of a symbol, the byte offset where it starts and the text it covers. -/
structure Match where
  outcome : Outcome
  pos : Nat
  text : String
deriving DecidableEq, Repr, Inhabited

namespace Match

/-- The match of a symbol that was never tried. -/
def notParsed (pos : Nat) : Match := ⟨.notParsed, pos, ""⟩

/-- The byte offset right after the covered text. -/
def stop (m : Match) : Nat := m.pos + m.text.utf8ByteSize

/-- Whether `a`, met after `b`, takes its place. -/
def beats (tie : TieBreak) (a b : Match) : Bool :=
  if a.outcome = b.outcome then
    match tie with
    | .later => b.stop ≤ a.stop
    | .earlier => b.stop < a.stop
  else a.outcome.beats b.outcome

end Match

end Typeahead
