import Typeahead.GrammarError
import Typeahead.Rule

/-!
# FlatGrammar — the productions a parse runs on

A flat grammar holds productions in the order of their declaration, the rules they were made from,
and the symbols known by name.  No two of its productions have the same two sides: adding one that
is there already only updates how nodes are treated.
-/

namespace Typeahead

/-- A grammar in which every nonterminal is expanded by plain productions. -/
structure FlatGrammar where
  symbols : SymbolTable
  productions : List Production
  rules : Array Rule

namespace FlatGrammar

/-- The grammar without productions. -/
def ofSymbols (symbols : SymbolTable) : FlatGrammar := ⟨symbols, [], #[]⟩

instance : Inhabited FlatGrammar := ⟨ofSymbols .initial⟩

/-- The grammar without what its rules do. -/
def outline (g : FlatGrammar) : Outline := ⟨g.symbols, g.productions, g.rules.map (·.toRuleBody)⟩

/-- The productions of a nonterminal, in the order of their declaration. -/
def alternatives (g : FlatGrammar) (left : String) : List Production :=
  g.productions.filter (·.left = left)

/-- The place of the production with the given sides. -/
def find? (g : FlatGrammar) (left : String) (right : List Symbol) : Option Nat :=
  g.productions.findIdx? fun p => p.left = left ∧ p.right = right

/-- Adds a production unless one with the same sides exists, which is then left as it is. -/
def add (g : FlatGrammar) (p : Production) : FlatGrammar :=
  match g.find? p.left p.right with
  | some _ => g
  | none => { g with productions := g.productions ++ [p] }

/-- Adds a production of a rule.  If one with the same sides exists, it stays with its rule, and
takes over the new naming and shaping where the new production has its own. -/
def merge (g : FlatGrammar) (p : Production) : FlatGrammar :=
  match g.find? p.left p.right with
  | some i =>
    { g with productions := g.productions.modify i fun old =>
      { old with
        naming := if p.naming = .anonymous then old.naming else p.naming
        shaping := if p.shaping = .keep then old.shaping else p.shaping } }
  | none => { g with productions := g.productions ++ [p] }

/-- Removes the productions of the start symbol. -/
def removeStart (g : FlatGrammar) : FlatGrammar :=
  { g with productions := g.productions.filter (·.left ≠ SymbolTable.start) }

/-- Keeps a rule for the productions that follow, which refer to it by the index returned. -/
def addRule (g : FlatGrammar) (r : Rule) : Nat × FlatGrammar :=
  (g.rules.size, { g with rules := g.rules.push r })

/-- Declares a nonterminal that is not known yet. -/
def fresh (g : FlatGrammar) (base : String) : String × FlatGrammar :=
  let (name, symbols) := g.symbols.fresh base
  (name, { g with symbols := symbols })

/-- The rule a production was made from. -/
def ruleOf (g : FlatGrammar) (p : Production) : Option Rule := p.rule.bind (g.rules[·]?)

/-- The first nonterminal, in the order of declaration, that is used without having a production. -/
def undefined? (g : FlatGrammar) : Option String :=
  (g.productions.flatMap (·.right)).findSome? fun
    | .nonterminal name => if g.productions.any (·.left = name) then none else some name
    | .terminal _ => none

end FlatGrammar

end Typeahead
