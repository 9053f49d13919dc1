import Typeahead.FlatGrammar.Lowering
import Typeahead.Parse.Offer
import Typeahead.ParseTree.Shape

/-!
# Parse/Attempt — a search, its completions and its tree

An attempt searches for a derivation of the input, collects the completions of the derivations that
ran out of input, builds the tree of the derivation found and finishes it.  For the completion of a
part in isolation, the empty text is attempted on a grammar that derives only that part.

A part met again while it is being completed counts as having no completion, so the nesting of
isolated attempts is bounded by the number of parts that may be asked for.  Where completers ask for
parts of the rules of the grammar only, `isolationDepth` is such a bound.
-/

namespace Typeahead

/-- Adds the offers of a node to the completions found, each only once. -/
def addOffers (found : List Completion) (origin : Origin) (offers : List Completion) :
    List Completion :=
  offers.foldl (fun found offer =>
    let offer := offer.attach origin
    if offer ∈ found then found else found ++ [offer]) found

/-- **Collects the completions** of derivations that ran out of input.  Every derivation adds what
the first node on the way to its end offers; a veto ends the collection with nothing. -/
def collect (iso : Isolate) (g : FlatGrammar) (listeners : Option Nat) (input : List Char) :
    List Derivation → List Completion → ParseM (List Completion)
  | [], found => return found
  | d :: ds, found => do
    let t ← d.build g listeners
    match ← firstOffer iso g (ParseTree.stuckNodes [t]) with
    | none => collect iso g listeners input ds found
    | some (l, offers) =>
      if offers.any Completion.isVeto then return []
      else
        let entered := String.ofList (Text.sliceFrom input l.result.pos)
        collect iso g listeners input ds (addOffers found ⟨some l.symbol, entered⟩ offers)

/-- The outcome of an attempt: the finished tree, what was dropped from it, and the completions. -/
structure Attempt where
  tree : ParseTree
  dropped : List ParseTree
  completions : List Completion

/-- Searches, collects completions on top of `found` if that is given, and finishes the tree. -/
def attempt (iso : Isolate) (g : FlatGrammar) (listeners : Option Nat) (input : List Char)
    (found : Option (List Completion)) : ParseM Attempt := do
  let result := search g (← get).config input
  let completions ← match found with
    | some found => collect iso g listeners input result.cut found
    | none => pure []
  let (tree, dropped) := (← result.derivation.build g listeners).shape
  return ⟨tree, dropped, completions⟩

namespace Attempt

/-- Whether the input could not be derived. -/
def hasFailed (a : Attempt) : Bool := a.tree.outcome = .failed

/-- The way to the node the attempt failed on, from the root of the tree, or of the dropped part,
that holds it. -/
def failedPath (a : Attempt) : List Node := ParseTree.stuckNodes (a.tree :: a.dropped)

/-- The node closest to the failed one, on the way up, that claims to have an offer. -/
def ancestor (iso : Isolate) (g : FlatGrammar) (a : Attempt) : ParseM (Option Label) :=
  firstOffering iso g a.failedPath.reverse

end Attempt

/-! ## Completion in isolation -/

/-- Notes the completion of a part. -/
def remember (part : Part) (completion : Option Completion) : ParseM Unit :=
  modify fun c => { c with known := (part, completion) :: c.known }

/-- Completes a part on its own, given how the parts of templates in it are completed: the only
completion of the empty text, or a placeholder if there are several. -/
def isolateWith (iso : Isolate) : Isolate := fun g part => do
  match (← get).known.lookup part with
  | some completion => return completion
  | none =>
    remember part none
    let alone := g.isolating part.1 part.2
    let a ← attempt iso alone none [] (some [])
    if a.hasFailed then discard <| a.ancestor iso alone
    let completion := match a.completions with
      | [] => none
      | [only] => some only
      | _ => some (.placeholder {} (part.2.getD part.1.name))
    remember part completion
    return completion

/-- Completes a part on its own with at most `depth` isolated attempts inside each other. -/
def isolateWithin : (depth : Nat) → Isolate
  | 0 => fun _ _ => return none
  | depth + 1 => isolateWith (isolateWithin depth)

/-- More isolated attempts than can be inside each other. -/
def isolationDepth (g : FlatGrammar) : Nat :=
  (g.rules.toList.flatMap (·.children)).length + 2

/-- **Completes a part on its own.** -/
def isolate : Isolate := fun g part => isolateWithin (isolationDepth g) g part

end Typeahead
