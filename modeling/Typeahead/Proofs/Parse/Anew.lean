import Typeahead.Proofs.Completer
import Typeahead.Proofs.Grammar.Tidy
import Typeahead.Proofs.Parse.Completing
import Typeahead.Proofs.Parse.Coupling
import Typeahead.Proofs.ParseTree.Placed

/-!
# Proofs/Parse/Anew — completing a part that is not on record

A part that is not on record is completed by an attempt on the empty text (`isolateAnew`,
`run_isolateWith`).  If that fails, the node to report is looked for.  So completing in isolation is
coupled with itself by every relation between contexts that keeps their records and their settings
alike (`coupled_isolateWith`).

On the empty text all nodes are empty.  If the completers claim their offers at once, as templates
do, the search for the node to report has no effect (`run_ancestor_of_nil`).  What is left is to
collect what completes the empty text (`isolateFrom`, `run_isolateAnew`).
-/

namespace Typeahead

/-! ## Grammars with the same completers -/

/-- A grammar has the rules of another one, and more that complete to nothing. -/
def FlatGrammar.Extends (g h : FlatGrammar) : Prop :=
  ∃ added, h.rules.toList = g.rules.toList ++ added ∧ ∀ r ∈ added, r.completer = none

namespace FlatGrammar.Extends

variable {g h : FlatGrammar}

theorem refl (g : FlatGrammar) : g.Extends g := ⟨[], (List.append_nil _).symm, by simp⟩

theorem isolating (hext : g.Extends h) (s : Symbol) (name : Option String) :
    g.Extends (h.isolating s name) := by
  obtain ⟨added, hrules, hadded⟩ := hext
  obtain ⟨target, h₁, hmakes, hrules₁, -⟩ := h.exists_isolating s name
  refine ⟨added ++ [.ofChildren .sequence target [⟨s, name⟩]], ?_, ?_⟩
  · rw [hrules₁, hmakes.rules, hrules, List.append_assoc]
  · exact List.forall_mem_append.2 ⟨hadded, List.forall_mem_singleton.2 rfl⟩

theorem trans {k : FlatGrammar} (hext : g.Extends h) (hext' : h.Extends k) : g.Extends k := by
  obtain ⟨added, hrules, hadded⟩ := hext
  obtain ⟨added', hrules', hadded'⟩ := hext'
  refine ⟨added ++ added', ?_, List.forall_mem_append.2 ⟨hadded, hadded'⟩⟩
  rw [hrules', hrules, List.append_assoc]

/-- Rules with completers are rules of the grammar below. -/
theorem mem_rules (hext : g.Extends h) {r : Rule} (hr : r ∈ h.rules) {c : Completer}
    (hc : r.completer = some c) : r ∈ g.rules := by
  obtain ⟨added, hrules, hadded⟩ := hext
  have hmem : r ∈ h.rules.toList := Array.mem_toList_iff.2 hr
  rw [hrules] at hmem
  rcases List.mem_append.1 hmem with hold | hnew
  · exact Array.mem_toList_iff.1 hold
  · rw [hadded r hnew] at hc
    cases hc

end FlatGrammar.Extends

/-- All completers of a grammar have a property. -/
def FlatGrammar.AllCompleters (g : FlatGrammar) (p : Completer → Prop) : Prop :=
  ∀ r ∈ g.rules, ∀ c ∈ r.completer, p c

theorem FlatGrammar.AllCompleters.mono {g : FlatGrammar} {p q : Completer → Prop}
    (hg : g.AllCompleters p) (hpq : ∀ c, p c → q c) : g.AllCompleters q :=
  fun r hr c hc => hpq c (hg r hr c hc)

theorem FlatGrammar.AllCompleters.extends {g h : FlatGrammar} {p : Completer → Prop}
    (hg : g.AllCompleters p) (hext : g.Extends h) : h.AllCompleters p :=
  fun r hr c hc => hg r (hext.mem_rules hr hc) c hc

/-- The completers of a grammar with given rules. -/
theorem FlatGrammar.allCompleters_of_map {g : FlatGrammar} {p : Completer → Prop}
    (completers : List (Option Completer)) (h : g.rules.toList.map (·.completer) = completers)
    (hp : ∀ c, some c ∈ completers → p c) : g.AllCompleters p := by
  intro r hr c hc
  refine hp c ?_
  rw [← h]
  exact List.mem_map.2 ⟨r, Array.mem_toList_iff.2 hr, hc⟩

/-! ## Completing in isolation -/

/-- What completes a part, given all that completes the empty text. -/
def soleCompletion (part : Part) : List Completion → Option Completion
  | [] => none
  | [only] => some only
  | _ => some (.placeholder {} (part.2.getD part.1.name))

/-- Completes a part by an attempt on the empty text, and remembers the completion. -/
def completeAlone (iso : Isolate) (g : FlatGrammar) (part : Part) :
    ParseM (Option Completion) := do
  let alone := g.isolating part.1 part.2
  let a ← attempt iso alone none [] (some [])
  if a.hasFailed then discard <| a.ancestor iso alone
  remember part (soleCompletion part a.completions)
  return soleCompletion part a.completions

/-- Completes a part that is not known yet. -/
def isolateAnew (iso : Isolate) (g : FlatGrammar) (part : Part) : ParseM (Option Completion) := do
  remember part none
  completeAlone iso g part

section

variable {iso iso' : Isolate} {g : FlatGrammar} {part : Part} {ctx : Context}

/-- **Completing a part in isolation** looks it up, or completes it anew. -/
theorem run_isolateWith (iso : Isolate) (g : FlatGrammar) (part : Part) (ctx : Context) :
    (isolateWith iso g part).run ctx =
      match ctx.known.lookup part with
      | some completion => (completion, ctx)
      | none => (isolateAnew iso g part).run ctx := by
  rw [isolateWith, StateT.run_bind]
  change StateT.run (match ctx.known.lookup part with | some completion => _ | none => _) ctx = _
  split <;> rfl

variable {R : Context → Context → Prop} {cfg : Config}

/-- **Parts are completed alike**, if the parts that this asks for are. -/
theorem coupled_completeAlone (hR : Heeds (g.isolating part.1 part.2) R)
    (hconfig : ∀ ctx ctx', R ctx ctx' → ctx.config = cfg ∧ ctx'.config = cfg)
    (hremember : ∀ v, Coupled R (remember part v) (remember part v))
    (h : ∀ Q, (g.isolating part.1 part.2).Asks cfg [] Q →
      Coupled R (iso (g.isolating part.1 part.2) Q) (iso' (g.isolating part.1 part.2) Q)) :
    Coupled R (completeAlone iso g part) (completeAlone iso' g part) := by
  refine coupled_attempt_bind hR h hconfig none (some []) fun a hancestor => ?_
  have hrest : Coupled R
      (do remember part (soleCompletion part a.completions)
          return soleCompletion part a.completions)
      (do remember part (soleCompletion part a.completions)
          return soleCompletion part a.completions) := .bind (hremember _) fun _ => .pure _
  split
  · exact .bind (.bind hancestor fun _ => .pure _) fun _ => hrest
  · exact hrest

/-- **Completing in isolation is coupled** if completing anew is. -/
theorem coupled_isolateWith (hknown : ∀ ctx ctx', R ctx ctx' → ctx.known = ctx'.known)
    (hanew : Coupled R (isolateAnew iso g part) (isolateAnew iso' g part)) :
    Coupled R (isolateWith iso g part) (isolateWith iso' g part) where
  run {ctx ctx'} h := by
    rw [run_isolateWith, run_isolateWith, hknown ctx ctx' h]
    cases ctx'.known.lookup part with
    | some completion => exact ⟨rfl, h⟩
    | none => exact hanew.run h

end

/-! ## The empty text -/

theorem text_of_holds_nil {g : FlatGrammar} {cfg : Config} {d : Derivation} {l : Label}
    (hd : d ∈ (Branch.initial []).ends g cfg) (h : d.tree.Holds l) : l.text = "" := by
  obtain ⟨s, hs, rfl⟩ := h.exists_occurs
  obtain ⟨before, after, hinput, -⟩ := (exact_of_mem_ends hd hs).placed
  simp only [List.nil_eq, List.append_eq_nil_iff] at hinput
  exact String.toList_eq_nil_iff.1 hinput.2.1

/-- All nodes on the way to the failed one of an attempt on the empty text are empty. -/
theorem text_of_mem_failedPath {iso : Isolate} {g : FlatGrammar} {listeners : Option Nat}
    {found : Option (List Completion)} {ctx : Context} {n : Node}
    (hn : n ∈ ((attempt iso g listeners [] found).run ctx).1.failedPath) : n.label.text = "" := by
  rw [Attempt.failedPath, attempt_tree, attempt_dropped] at hn
  obtain ⟨t, ht, path, hpath, hv⟩ := ParseTree.exists_path_of_mem_stuckNodes hn
  have hholds := ParseTree.holds_of_mem_stuckPath hpath hv
  exact text_of_holds_nil (search_mem_ends g ctx.config []).1
    ((ParseTree.holds_shape _ _).1 ⟨t, ht, hholds⟩)

/-- Completes a part that is not known yet by what some derivations of the empty text offer. -/
def isolateFrom (iso : Isolate) (g : FlatGrammar) (part : Part) (cut : List Derivation) :
    ParseM (Option Completion) := do
  remember part none
  let found ← collect iso (g.isolating part.1 part.2) none [] cut []
  remember part (soleCompletion part found)
  return soleCompletion part found

section

variable {iso : Isolate} {g : FlatGrammar} {ctx : Context}
  (hg : g.AllCompleters Completer.ClaimsAtOnce)

include hg

/-- **Asking an empty node whether it has an offer changes nothing.** -/
theorem run_offers_of_text_eq {n : Node} (h : n.label.text = "") :
    ((n.offers iso g).run ctx).2 = ctx := by
  have hoffer : ((n.toVisit.offer iso g true n.toPlace).run ctx).2 = ctx := by
    rcases hspeaker : n.speaker? g with _ | ⟨r, c⟩
    · rw [Visit.offer_of_no_speaker hspeaker]
      rfl
    · obtain ⟨hrule, hcompleter, -⟩ := Visit.speaker?_eq_some.1 hspeaker
      obtain ⟨offers, hreply⟩ := hg r (Label.mem_rules hrule) c hcompleter
        (n.view g r n.toPlace) ctx.circumstances h
      rw [Visit.offer_of_speaker hspeaker]
      change (((c.reply _ ctx.circumstances true).run iso g).run ctx).2 = ctx
      rw [hreply]
      rfl
  rw [Node.offers, Visit.offers, StateT.run_bind]
  exact hoffer

theorem run_firstOffering_of_text_eq {path : List Node} (h : ∀ n ∈ path, n.label.text = "") :
    ((firstOffering iso g path).run ctx).2 = ctx := by
  induction path with
  | nil => rfl
  | cons n ns ih =>
    obtain ⟨hn, hns⟩ := List.forall_mem_cons.1 h
    rw [firstOffering, StateT.run_bind]
    dsimp only [Bind.bind]
    rw [run_offers_of_text_eq hg hn]
    split
    · rfl
    · exact ih hns

/-- **After an attempt on the empty text** the search for the node to report changes nothing. -/
theorem run_ancestor_of_nil {listeners : Option Nat} {found : Option (List Completion)} :
    ((((attempt iso g listeners [] found).run ctx).1.ancestor iso g).run
      ((attempt iso g listeners [] found).run ctx).2).2
        = ((attempt iso g listeners [] found).run ctx).2 :=
  run_firstOffering_of_text_eq hg fun _ hn => text_of_mem_failedPath (List.mem_reverse.1 hn)

end

section

variable {iso : Isolate} {g : FlatGrammar} {part : Part} {ctx : Context}

/-- What comes after a report that changes nothing does what it would do without. -/
theorem run_after_report {α : Type} {a : Attempt} (h : ((a.ancestor iso g).run ctx).2 = ctx)
    (m : ParseM α) :
    (if a.hasFailed = true then do discard (a.ancestor iso g); m else m).run ctx = m.run ctx := by
  split
  · rw [StateT.run_bind]
    change m.run ((a.ancestor iso g).run ctx).2 = _
    rw [h]
  · rfl

/-- **Completing a part anew is to collect** what completes the empty text, if the completers of the
grammar claim their offers at once. -/
theorem run_isolateAnew (hg : g.AllCompleters Completer.ClaimsAtOnce) :
    (isolateAnew iso g part).run ctx =
      (isolateFrom iso g part (search (g.isolating part.1 part.2) ctx.config []).cut).run ctx := by
  have halone := hg.extends ((FlatGrammar.Extends.refl g).isolating part.1 part.2)
  rw [isolateAnew, StateT.run_bind]
  change (completeAlone iso g part).run { ctx with known := (part, none) :: ctx.known } = _
  rw [completeAlone, StateT.run_bind]
  exact run_after_report (run_ancestor_of_nil halone) _

/-- Parts are completed alike from the same derivations, if the parts that this asks for are. -/
theorem coupled_isolateFrom {R : Context → Context → Prop} {iso' : Isolate} {cfg : Config}
    (hR : Heeds (g.isolating part.1 part.2) R)
    (hremember : ∀ v, Coupled R (remember part v) (remember part v))
    (h : ∀ Q, (g.isolating part.1 part.2).Asks cfg [] Q →
      Coupled R (iso (g.isolating part.1 part.2) Q) (iso' (g.isolating part.1 part.2) Q)) :
    Coupled R (isolateFrom iso g part (search (g.isolating part.1 part.2) cfg []).cut)
      (isolateFrom iso' g part (search (g.isolating part.1 part.2) cfg []).cut) := by
  exact .bind (hremember none) fun _ =>
    .bind (coupled_collect hR h (fun _ => mem_ends_of_mem_cut) ..) fun _ =>
      .bind (hremember _) fun _ => .pure _

end

end Typeahead
