import Typeahead.FlatGrammar.Lowering

/-!
# Grammar — a registry of rules and the productions compiled from it

A grammar collects rules.  Rules of one target are alternatives of each other, tried in the order
of their registration; a rule without a target name gets a fresh one made of its kind and a number.
`compile` lowers all rules to a flat grammar that derives a top symbol followed by the end of input.

Operations are state transitions.  Those that can fail keep the state they reached before failing:
a compile that fails leaves the flat grammar of the last success in place but the grammar marked as
not compiled.
-/

namespace Typeahead

/-- The rules registered so far and the result of the last successful compile. -/
structure Grammar where
  symbols : SymbolTable := .initial
  rules : Array Rule := #[]
  flat : FlatGrammar := FlatGrammar.ofSymbols .initial
  /-- Whether nothing was changed since the last successful compile. -/
  compiled : Bool := false

/-- A change of a grammar that may be refused; the grammar reached before a refusal stays. -/
abbrev GrammarM := ExceptT GrammarError (StateM Grammar)

/-- A registered rule: its place and its target. -/
structure RuleRef where
  index : Nat
  target : String

/-- The target of a registered rule as a symbol. -/
def RuleRef.symbol (r : RuleRef) : Symbol := .nonterminal r.target

namespace Grammar

/-- Declares a nonterminal. -/
def declare (name : String) : StateM Grammar Symbol := do
  modify fun g => { g with symbols := g.symbols.declare name }
  return .nonterminal name

/-- Makes a symbol known under its name unless the name is taken. -/
def register (s : Symbol) : StateM Grammar Unit :=
  modify fun g => { g with symbols := g.symbols.register s }

/-- The nonterminal called `name`, or a fresh one named after `base`. -/
def target (name : Option String) (base : String) : StateM Grammar String :=
  match name with
  | some name => do
    modify fun g => { g with symbols := g.symbols.declare name }
    return name
  | none => modifyGet fun g =>
    let (fresh, symbols) := g.symbols.fresh base
    (fresh, { g with symbols := symbols })

/-- Registers a rule. -/
def insert (kind : RuleKind) (name : Option String) (children : List Named) :
    StateM Grammar RuleRef := do
  let target ← target name kind.word
  children.forM fun child => register child.symbol
  modifyGet fun g =>
    (⟨g.rules.size, target⟩,
      { g with rules := g.rules.push (.ofChildren kind target children), compiled := false })

/-- Changes a registered rule. -/
def modifyRule (r : RuleRef) (change : Rule → Rule) : StateM Grammar RuleRef := do
  modify fun g => { g with rules := g.rules.modify r.index change, compiled := false }
  return r

/-- Gives a rule an evaluator. -/
def evaluating (e : Evaluator) (r : RuleRef) : StateM Grammar RuleRef :=
  modifyRule r fun rule => { rule with evaluator := some e }

/-- Gives a rule a completer. -/
def completing (c : Completer) (r : RuleRef) : StateM Grammar RuleRef :=
  modifyRule r fun rule => { rule with completer := some c }

/-- Removes all rules of a target. -/
def removeRules (target : String) : StateM Grammar Unit :=
  modify fun g => { g with rules := g.rules.filter (·.target ≠ target), compiled := false }

/-- The rules of a target, in the order of their registration. -/
def rulesFor (g : Grammar) (target : String) : List Rule :=
  g.rules.toList.filter (·.target = target)

/-- The rule of a target that was registered after `nth` others of the same target. -/
def findRule? (g : Grammar) (target : String) (nth : Nat) : Option RuleRef :=
  (((g.rules.toList.zipIdx).filter (·.1.target = target))[nth]?).map fun (_, i) => ⟨i, target⟩

/-- The symbol known as `name`. -/
def symbol? (g : Grammar) (name : String) : Option Symbol := g.symbols.get? name

/-- The productions of all rules, in order; refused if a rule is, or if a nonterminal is used that
no production expands. -/
def lowerAll (g : Grammar) : Except GrammarError FlatGrammar := do
  let flat ← g.rules.toList.foldlM (fun flat r => flat.lower r) (FlatGrammar.ofSymbols g.symbols)
  match flat.undefined? with
  | some name => .error (.undefinedNonterminal name)
  | none => .ok flat

/-- **Compiles the rules** into a flat grammar whose start symbol derives `top` followed by the end
of input. -/
def compile (top : Symbol) : GrammarM Unit := do
  removeRules SymbolTable.start
  let start ← insert .sequence (some SymbolTable.start)
    [top.unnamed, (Symbol.terminal .endOfInput).unnamed]
  discard <| evaluating .first start
  let flat ← (← get).lowerAll
  modify fun g => { g with flat := flat, compiled := true }

end Grammar

end Typeahead
