import Typeahead.Parse.Context

/-!
# Parse/Offer — what a node offers for completion

A node whose rule has a completer offers what that completer replies, unless the node only continues
the rule of its parent.  Any other literal offers its text, any other terminal a placeholder while
it is empty and a veto after that, and a nonterminal offers nothing.
-/

namespace Typeahead

/-- **Runs the way to an offer**: parts asked for are completed in isolation. -/
def Asking.run (iso : Isolate) (g : FlatGrammar) : Asking → ParseM (Option (List Completion))
  | offer offers => return offers
  | ask part more => do run iso g (more (← iso g part))

/-- What a node offers by its symbol alone. -/
def Label.plainOffer (l : Label) : Option (List Completion) :=
  match l.symbol with
  | .terminal (.literal text) => some [.literal {} text]
  | .terminal _ => some [if l.text = "" then .placeholder {} l.name else .veto {}]
  | .nonterminal _ => none

namespace Visit

/-- A node of the rule `r` as its completer sees it. -/
def view (g : FlatGrammar) (r : Rule) (v : Visit) (place : Place) : View :=
  ⟨g.outline, r.toRuleBody, v.label, place⟩

/-- **What a node offers** at its place; `none` if it leaves the offer to a node closer to the
input. -/
def offer (iso : Isolate) (g : FlatGrammar) (probe : Bool) (v : Visit) (place : Place := {}) :
    ParseM (Option (List Completion)) :=
  match v.label.rule g with
  | some r =>
    match r.completer with
    | some c =>
      if v.continues then return v.label.plainOffer
      else do (c.reply (v.view g r place) (← get).circumstances probe).run iso g
    | none => return v.label.plainOffer
  | none => return v.label.plainOffer

/-- Whether a node claims to have an offer. -/
def offers (iso : Isolate) (g : FlatGrammar) (v : Visit) (place : Place := {}) : ParseM Bool := do
  return (← v.offer iso g true place).isSome

end Visit

namespace Node

/-- What a node offers where it is. -/
def offer (iso : Isolate) (g : FlatGrammar) (probe : Bool) (n : Node) :
    ParseM (Option (List Completion)) :=
  n.toVisit.offer iso g probe n.toPlace

/-- Whether a node claims to have an offer where it is. -/
def offers (iso : Isolate) (g : FlatGrammar) (n : Node) : ParseM Bool :=
  n.toVisit.offers iso g n.toPlace

end Node

/-- The first node on a way that claims to have an offer and makes one. -/
def firstOffer (iso : Isolate) (g : FlatGrammar) :
    List Node → ParseM (Option (Label × List Completion))
  | [] => return none
  | n :: ns => do
    if ← n.offers iso g then
      match ← n.offer iso g false with
      | some offers => return some (n.label, offers)
      | none => firstOffer iso g ns
    else firstOffer iso g ns

/-- The first node on a way that claims to have an offer. -/
def firstOffering (iso : Isolate) (g : FlatGrammar) : List Node → ParseM (Option Label)
  | [] => return none
  | n :: ns => do
    if ← n.offers iso g then return some n.label else firstOffering iso g ns

end Typeahead
