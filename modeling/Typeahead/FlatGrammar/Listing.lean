import Typeahead.FlatGrammar

/-!
# FlatGrammar/Listing — productions in writing

Two listings: `render` has a line for every nonterminal with its alternatives, in the order in which
the nonterminals first appear as left sides; `inspect` is the list of the single productions, each
between quotes.
-/

namespace Typeahead

/-- A symbol in a listing: literals between quotes, all others by name. -/
def Symbol.render : Symbol → String
  | .terminal (.literal text) => "'" ++ text ++ "'"
  | s => s.name

namespace Production

/-- The right side in writing; the empty one has a sign of its own. -/
def renderRight (right : List Symbol) : String :=
  if right.isEmpty then "ε" else " ".intercalate (right.map Symbol.render)

/-- A production in writing. -/
def render (p : Production) : String := p.left ++ " -> " ++ renderRight p.right

end Production

namespace FlatGrammar

/-- The left sides of the productions, each once, in the order of their first appearance. -/
def lefts (g : FlatGrammar) : List String :=
  g.productions.foldl (fun seen p => if p.left ∈ seen then seen else seen ++ [p.left]) []

/-- One line for every nonterminal, with all its alternatives. -/
def render (g : FlatGrammar) : String :=
  String.join <| g.lefts.map fun left =>
    left ++ " ::= "
      ++ " | ".intercalate ((g.alternatives left).map fun p => Production.renderRight p.right)
      ++ ";\n"

/-- The list of all productions, each between quotes. -/
def inspect (g : FlatGrammar) : String :=
  "[" ++ ", ".intercalate (g.productions.map fun p => Text.quote p.render) ++ "]"

end FlatGrammar

end Typeahead
