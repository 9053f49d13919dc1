import Typeahead.ParseTree.Basic
import Typeahead.Search

/-!
# ParseTree — the tree of a derivation

`Derivation.tree` reads the tree off a derivation by undoing its steps from the last to the first:
an accepted terminal becomes a leaf in front of what follows it, and a production gathers as many of
the leading nodes as its right side has symbols.

The match of an inner node combines those of its children (`Match.combine`): their texts one after
the other up to the one the derivation is stuck on, and the outcome of that one.
-/

namespace Typeahead

/-- The rule that governs a node. -/
def Label.rule (g : FlatGrammar) (l : Label) : Option Rule := l.production.bind g.ruleOf

/-- The outcome and the text of consecutive matches taken together.  The first one that is stuck ends
them; before that, one success makes them a success. -/
def Match.combine : List Match → Outcome × String
  | [] => (.notParsed, "")
  | m :: ms =>
    if m.outcome.isStuck then (m.outcome, m.text)
    else
      let (outcome, text) := combine ms
      (if outcome = .notParsed then m.outcome else outcome, m.text ++ text)

namespace Derivation

/-- The leaves of the symbols never matched. -/
def openLeaves (d : Derivation) : List ParseTree :=
  match d.stuck, d.pending with
  | some m, s :: pending => .leaf s m :: pending.map fun s => .leaf s (.notParsed d.stop)
  | _, pending => pending.map fun s => .leaf s (.notParsed d.stop)

/-- Undoes a step on the trees of the symbols that were pending after it. -/
def undo (forest : List ParseTree) : Step → List ParseTree
  | .accept t m => .leaf (.terminal t) m :: forest
  | .expand p pos =>
    let children := forest.take p.right.length
    let (outcome, text) := Match.combine (children.map (·.label.result))
    .node ⟨.nonterminal p.left, some p, ⟨outcome, pos, text⟩, {}⟩ children
      :: forest.drop p.right.length

/-- The trees of the symbols the derivation started with. -/
def forest (d : Derivation) : List ParseTree := d.trace.foldl undo d.openLeaves

/-- **The tree of a derivation** of the start symbol, before its nodes are named. -/
def rawTree (d : Derivation) : ParseTree :=
  d.forest.headD (.leaf (.nonterminal SymbolTable.start) (.notParsed d.stop))

end Derivation

end Typeahead
