import Typeahead.ParseTree.Naming
import Typeahead.ParseTree.Walk

/-!
# Parse/Context — what a parse remembers

Besides its settings a parse carries two records: the completions already worked out for symbols on
their own, and the journal of events that listeners were told.  A parse announces its start before
every tree it builds, and after it every node that a listening rule governs, children before
parents.
-/

namespace Typeahead

/-- Something that listeners are told. -/
inductive Event
  /-- A tree is about to be built. -/
  | started
  /-- A node of a listening rule was parsed, at least up to the end of the input. -/
  | parsed (listener name : String) (result : Match)
deriving DecidableEq, Repr

/-- The events so far, and the texts of the nodes announced since the last start. -/
structure Journal where
  events : List Event := []
  heard : List String := []
deriving DecidableEq, Repr, Inhabited

namespace Journal

/-- Announces a start to a number of listeners. -/
def start (listeners : Nat) (j : Journal) : Journal :=
  if listeners = 0 then j
  else ⟨j.events ++ List.replicate listeners .started, []⟩

/-- Announces a parsed node. -/
def announce (j : Journal) (listener : String) (l : Label) : Journal :=
  ⟨j.events ++ [.parsed listener l.name l.result], j.heard ++ [l.text]⟩

end Journal

/-- The state of a parse. -/
structure Context where
  config : Config := {}
  /-- The completions of parts already asked for; a part under way counts as having none. -/
  known : List (Part × Option Completion) := []
  journal : Journal := {}

/-- What completers can look at besides their node. -/
def Context.circumstances (c : Context) : Circumstances := ⟨c.config, c.journal.heard⟩

/-- A computation of a parse. -/
abbrev ParseM := StateM Context

/-- How a part is completed in isolation. -/
abbrev Isolate := FlatGrammar → Part → ParseM (Option Completion)

/-- The listeners of the nodes of a tree, children before parents.  Only nodes that parsed at least
up to the end of the input are announced, and a node that continues the rule of its parent is not
announced by itself. -/
def ParseTree.announcements (g : FlatGrammar) (t : ParseTree) : List (String × Label) :=
  (t.postorder none).filterMap fun v =>
    let outcome := v.label.result.outcome
    if (outcome = .successful ∨ outcome = .endOfInput) ∧ !v.continues then
      ((v.label.rule g).bind (·.listener)).map (·, v.label)
    else none

/-- Builds the tree of a derivation.  With `listeners` given, the start is announced to that many of
them, and the parsed nodes after it. -/
def Derivation.build (g : FlatGrammar) (listeners : Option Nat) (d : Derivation) :
    ParseM ParseTree := do
  let t := d.tree
  match listeners with
  | none => return t
  | some n =>
    let spoken := if g.rules.any (·.listener.isSome) then t.announcements g else []
    modify fun c => { c with
      journal := spoken.foldl (fun j (listener, l) => j.announce listener l) (c.journal.start n) }
    return t

end Typeahead
