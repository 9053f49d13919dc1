import Typeahead.Language.Definition
import Typeahead.Parse

/-!
# Language — sentences described by patterns

A language is a grammar that knows the standard types and whose programs are any number of
sentences with line breaks between and around them.  Sentences and further types are defined by
patterns.  Parsing compiles first if something was defined since the last compile.
-/

namespace Typeahead

/-- A grammar together with the settings and the journal of its parses. -/
structure Language where
  grammar : Grammar := {}
  config : Config := {}
  /-- The number of listeners told about every start of a parse. -/
  startListeners : Nat := 0
  journal : Journal := {}

/-- An operation on a language that may be refused; the language reached before a refusal stays. -/
abbrev LanguageM := ExceptT GrammarError (StateM Language)

namespace Language

/-- The type of a sentence. -/
def sentence : String := "sentence"

/-- The type of a whole program. -/
def program : String := "program"

/-- Registers the standard types and the rule for programs. -/
def prepare : StateM Grammar Unit := do
  Standard.register
  let breaks ← Grammar.declare Standard.lineBreaks
  let entry ← Grammar.declare sentence
  discard <| Grammar.join (some program) (entry.called sentence)
    { opening := some breaks, closing := some breaks, delimiter := some breaks }

/-- The language without any sentences. -/
def initial (config : Config) : Language where
  grammar := (prepare.run {}).2
  config := config

/-- Changes the grammar of a language. -/
def edit {α : Type} (change : GrammarM α) : LanguageM α := fun l =>
  let (result, grammar) := change.run l.grammar
  (result, { l with grammar := grammar })

/-- Compiles the language's programs. -/
def compile : LanguageM Unit := edit (Grammar.compile (.nonterminal program))

/-- Parses an input with a flat grammar and the settings of the language; its journal then holds the
events of this parse. -/
def parseFlat (flat : FlatGrammar) (listeners : Nat) (input : String)
    (found : Option (List Completion)) : StateM Language Parsed := fun l =>
  let before : Context := { config := l.config, journal := { l.journal with events := [] } }
  let (parsed, after) := (Typeahead.parse flat listeners input found).run before
  (parsed, { l with journal := after.journal })

/-- **Parses a program**, compiling first if something was defined since the last compile. -/
def parse (input : String) (found : Option (List Completion)) : LanguageM Parsed := do
  unless (← get).grammar.compiled do compile
  let l ← get
  parseFlat l.grammar.flat l.startListeners input found

/-- A computation of a parse that has just begun, with the settings and the journal of the language. -/
def fresh {α : Type} (l : Language) (m : ParseM α) : α :=
  (m.run { config := l.config, journal := l.journal }).1

end Language

end Typeahead
