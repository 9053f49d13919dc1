import Typeahead.CharClass
import Typeahead.Cursor
import Typeahead.Match
import Typeahead.Text.Alphabetic
import Typeahead.Value

/-!
# Symbol — terminals, nonterminals and how a terminal matches

A terminal is matched against the text that starts at some offset.  A literal that the text
contradicts fails with the offending character as its last; one that the text merely does not
finish reports the end of input.  A one-character terminal either takes the next character or fails
on it.

`Terminal.scan_successful` says that a successful scan read what the text starts with; the search
ends because of it.
-/

namespace Typeahead

/-- A symbol that matches text directly. -/
inductive Terminal
  | epsilon
  | endOfInput
  | digit
  | letter
  | whitespace
  | literal (text : String)
  | charClass (cls : CharClass)
deriving DecidableEq

namespace Terminal

/-- The name of a terminal: its text or notation, or its kind. -/
def name : Terminal → String
  | epsilon => "epsilon"
  | endOfInput => "EOI"
  | digit => "digit"
  | letter => "letter"
  | whitespace => "whitespace"
  | literal text => text
  | charClass cls => cls.pattern

/-- The characters that a one-character terminal accepts. -/
def accepts : Terminal → Char → Bool
  | digit, c => c.isDigit
  | letter, c => Text.isAlphabetic c
  | whitespace, c => c = ' ' || c = '\t'
  | charClass cls, c => cls.contains c
  | epsilon, _ | endOfInput, _ | literal _, _ => false

/-- Compares an expected text with what is there: the outcome and the part of the text looked at,
which on failure ends with the first character that differs. -/
def scanLiteral : List Char → List Char → Outcome × List Char
  | [], _ => (.successful, [])
  | _ :: _, [] => (.endOfInput, [])
  | e :: es, c :: cs =>
    if e = c then
      let (outcome, seen) := scanLiteral es cs
      (outcome, c :: seen)
    else (.failed, [c])

/-- Looks at the next character of a text. -/
def scanChar (p : Char → Bool) : List Char → Outcome × List Char
  | [] => (.endOfInput, [])
  | c :: _ => (if p c then .successful else .failed, [c])

/-- Matches a terminal against the text `rest`: the outcome and the characters covered.  `atEnd` says
whether the input ends where `rest` does begin. -/
def scan (t : Terminal) (rest : List Char) (atEnd : Bool) : Outcome × List Char :=
  match t with
  | epsilon => (.successful, [])
  | endOfInput => (if atEnd then .successful else .failed, [])
  | literal text => scanLiteral text.toList rest
  | digit | letter | whitespace | charClass _ => scanChar t.accepts rest

/-- The match of a terminal at offset `pos`. -/
def matchAt (t : Terminal) (pos : Nat) (rest : List Char) (atEnd : Bool) : Match :=
  let (outcome, seen) := t.scan rest atEnd
  ⟨outcome, pos, String.ofList seen⟩

/-- The match of a terminal where a cursor stands. -/
def matchCursor (t : Terminal) (c : Cursor) : Match := t.matchAt c.pos c.remaining c.atEnd

/-- The value of a matched terminal: the text of a literal, the character of a one-character
terminal, nothing otherwise. -/
def evaluate (t : Terminal) (m : Match) : Value :=
  match t with
  | epsilon | endOfInput => .null
  | literal _ => .str m.text
  | digit | letter | whitespace | charClass _ =>
    match m.text.toList with
    | [] => .null
    | c :: _ => .str (String.singleton c)

theorem scanLiteral_successful {es cs seen : List Char}
    (h : scanLiteral es cs = (.successful, seen)) : seen <+: cs := by
  induction es generalizing cs seen with
  | nil =>
    simp only [scanLiteral, Prod.mk.injEq, true_and] at h
    simp [← h]
  | cons e es ih =>
    cases cs with
    | nil => simp [scanLiteral] at h
    | cons c cs =>
      simp only [scanLiteral] at h
      split at h
      · simp only [Prod.mk.injEq] at h
        rw [← h.2, List.cons_prefix_cons]
        exact ⟨rfl, ih (Prod.ext h.1 rfl)⟩
      · simp at h

theorem scanChar_successful {p : Char → Bool} {cs seen : List Char}
    (h : scanChar p cs = (.successful, seen)) : seen <+: cs := by
  cases cs with
  | nil => simp [scanChar] at h
  | cons c cs =>
    simp only [scanChar, Prod.mk.injEq] at h
    simp [← h.2]

/-- **A successful scan covers a part that the text starts with.** -/
theorem scan_successful {t : Terminal} {cs seen : List Char} {atEnd : Bool}
    (h : t.scan cs atEnd = (.successful, seen)) : seen <+: cs := by
  cases t with
  | epsilon => simp only [scan, Prod.mk.injEq, true_and] at h; simp [← h]
  | endOfInput => simp only [scan, Prod.mk.injEq] at h; simp [← h.2]
  | literal text => exact scanLiteral_successful h
  | digit | letter | whitespace | charClass _ => exact scanChar_successful h

end Terminal

/-- A terminal, or a nonterminal by its name. -/
inductive Symbol
  | terminal (t : Terminal)
  | nonterminal (name : String)
deriving DecidableEq

instance : Inhabited Symbol := ⟨.terminal .epsilon⟩

namespace Symbol

/-- The name of a symbol. -/
def name : Symbol → String
  | terminal t => t.name
  | nonterminal name => name

/-- The symbol of a literal text. -/
def literal (text : String) : Symbol := .terminal (.literal text)

/-- Whether a symbol is a terminal. -/
def isTerminal : Symbol → Bool
  | terminal _ => true
  | nonterminal _ => false

end Symbol

/-- A symbol with the name that its occurrence in a rule is given. -/
structure Named where
  symbol : Symbol
  name : Option String := none
deriving DecidableEq

/-- An occurrence of a symbol called `name`. -/
def Symbol.called (s : Symbol) (name : String) : Named := ⟨s, some name⟩

/-- An occurrence of a symbol without a name of its own. -/
def Symbol.unnamed (s : Symbol) : Named := ⟨s, none⟩

end Typeahead
