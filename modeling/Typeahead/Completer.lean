import Typeahead.Completion
import Typeahead.Rule.Body

/-!
# Completer — what a node says that could come next

A rule may carry a completer, which is any function of a node: of its rule, its label, and the trees
it is in (`View`).  A completer may look at the settings of the parse and at the texts that
listeners have heard (`Circumstances`), and it may have parts completed in isolation before it
answers, each perhaps because of what became of the last one (`Asking`).  Parts are completed on the
grammar of the node.

A completer can be probed: the answer then only has to say whether there is an offer.

Most completers need none of this.  They answer by themselves, from their node
(`Completer.ofNode`).
-/

namespace Typeahead

/-! ## What a completer sees -/

/-- Where a node is: the trees it is among, and the way that leads to it, first to one of the trees
and then from child to child. -/
structure Place where
  trees : List ParseTree := []
  way : List Nat := []

/-- A node as its completer sees it. -/
structure View where
  grammar : Outline
  rule : RuleBody
  label : Label
  place : Place := {}

/-- What else a completer can look at: the settings of the parse, and the texts of the nodes that
were announced to listeners. -/
structure Circumstances where
  config : Config
  heard : List String

/-! ## How a completer answers -/

/-- The way to an offer: to make it, or to make none, at once; or to have a part completed, and to go
on with what became of it. -/
inductive Asking
  | offer (offers : Option (List Completion))
  | ask (part : Part) (more : Option Completion → Asking)

namespace Asking

/-- Has parts completed one after the other, and goes on with the completions of those that have
one. -/
def askAll : List Part → (List Completion → Asking) → Asking
  | [], more => more []
  | part :: parts, more => ask part fun first => askAll parts fun rest => more (first.toList ++ rest)

/-- A part is among those that may be asked for on the way to an offer. -/
inductive Asks (part : Part) : Asking → Prop
  | here (more : Option Completion → Asking) : Asks part (ask part more)
  | later (other : Part) {more : Option Completion → Asking} (answer : Option Completion)
    (h : Asks part (more answer)) : Asks part (ask other more)

end Asking

/-- **A completer**: what it replies for a node. -/
structure Completer where
  reply (view : View) (around : Circumstances) (probe : Bool) : Asking

/-- A bracketed list of placeholders for the entries of a join. -/
def tupleTemplate (r : RuleBody) (name : String) (entries : Nat) : Completion :=
  let slots := (List.range entries).map fun i => .placeholder {} ((r.names.nameAt i).getD name)
  .template {} ([.literal {} "("] ++ slots.intersperse (.literal {} ", ") ++ [.literal {} ")"])

namespace Completer

/-- A completer that is a function of the node, and of whether it is probed. -/
def ofNode (offers : View → (probe : Bool) → Option (List Completion)) : Completer where
  reply view _ probe := .offer (offers view probe)

/-- A placeholder named after the node, vetoed once something was typed. -/
def placeholder : Completer := ofNode fun v _ =>
  some [if v.label.text = "" then .placeholder {} v.label.name else .veto {}]

/-- A fixed text while nothing was typed. -/
def ifEmpty (text : String) : Completer := ofNode fun v _ =>
  some (if v.label.text = "" then [.literal {} text] else [])

/-- All children of the rule at once, as a template, as long as what was typed is its beginning. -/
def template : Completer where
  reply v _ probe :=
    if probe ∧ v.label.text = "" then .offer (some [.available {}])
    else .askAll v.rule.parts fun parts =>
      let candidate := .template {} parts
      .offer (if v.label.text.toList.isPrefixOf candidate.leadingText.toList
        then some [candidate] else none)

/-- A bracketed list of named placeholders while nothing was typed. -/
def tuple : Completer := ofNode fun v probe =>
  if v.label.text ≠ "" then none
  else if probe then some [.available {}]
  else match v.rule.kind with
    | .join j => some [tupleTemplate v.rule v.label.name j.count.lower]
    | _ => none

/-- Nothing at all. -/
def never : Completer := ofNode fun _ _ => none

/-- Claims to offer something but does not. -/
def probeOnly : Completer := ofNode fun _ probe => if probe then some [.available {}] else none

/-- A fixed list. -/
def fixed (offers : List Completion) : Completer := ofNode fun _ _ => some offers

/-- An offer without candidates, which keeps the nodes below from making one. -/
def silent : Completer := fixed []

/-- The name and the text of the node followed by a suffix. -/
def echo (suffix : String) : Completer := ofNode fun v _ =>
  some [.literal {} (v.label.name ++ v.label.text ++ suffix)]

/-- The texts heard by listeners. -/
def heard : Completer where
  reply _ around _ := .offer (some (around.heard.map (.literal {})))

end Completer

end Typeahead
