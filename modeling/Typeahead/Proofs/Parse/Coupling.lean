import Typeahead.Proofs.Completer
import Typeahead.Proofs.Parse.FailureOffset
import Typeahead.Proofs.ParseTree.Nodes

/-!
# Proofs/Parse/Coupling — computations side by side

Two computations of a parse are coupled by a relation between contexts if from related contexts they
come to the same result and to related contexts (`Coupled`).  All that is asked of a node, collected
from derivations or attempted is coupled by any relation that the completers of the grammar do not
tell apart (`Heeds`), as soon as completing parts is (`coupled_collect`, `coupled_attempt`).

Only the parts that the nodes on the way to an end of the search ask for matter
(`FlatGrammar.Asks`), so two ways to complete parts need to be coupled on these alone.
-/

namespace Typeahead

/-! ## What is asked for -/

/-- **A node asks for a part**: its completer may have that completed. -/
def Node.AsksFor (g : FlatGrammar) (n : Node) (part : Part) : Prop :=
  ∃ r c around probe, n.label.rule g = some r ∧ r.completer = some c ∧
    (c.reply (n.view g r n.toPlace) around probe).Asks part

/-- A node is on the way to the end of a derivation, in its tree or in what that is finished to. -/
def Derivation.LeadsPast (d : Derivation) (n : Node) : Prop :=
  n ∈ ParseTree.stuckNodes [d.tree] ∨ n ∈ ParseTree.stuckNodes (d.tree.shape.1 :: d.tree.shape.2)

/-- **A search asks for a part**, at one of the ends that it may come to. -/
def FlatGrammar.Asks (g : FlatGrammar) (cfg : Config) (input : List Char) (part : Part) : Prop :=
  ∃ d ∈ (Branch.initial input).ends g cfg, ∃ n, d.LeadsPast n ∧ n.AsksFor g part

/-! ## Coupled computations -/

/-- **Two computations are coupled** by a relation between contexts. -/
structure Coupled (R : Context → Context → Prop) {α : Type} (m m' : ParseM α) : Prop where
  run {ctx ctx' : Context} (h : R ctx ctx') :
    (m.run ctx).1 = (m'.run ctx').1 ∧ R (m.run ctx).2 (m'.run ctx').2

/-- **A relation between contexts that completers do not notice**: related contexts have the same
journal, and whatever a completer of the grammar looks at, it replies the same in both. -/
structure Heeds (g : FlatGrammar) (R : Context → Context → Prop) : Prop where
  journal_eq {ctx ctx' : Context} (h : R ctx ctx') : ctx.journal = ctx'.journal
  journal {ctx ctx' : Context} (h : R ctx ctx') (j : Journal) :
    R { ctx with journal := j } { ctx' with journal := j }
  reply {ctx ctx' : Context} (h : R ctx ctx') {r : Rule} (hr : r ∈ g.rules) {c : Completer}
    (hc : r.completer = some c) (v : View) (probe : Bool) :
    c.reply v ctx.circumstances probe = c.reply v ctx'.circumstances probe

namespace Coupled

variable {R : Context → Context → Prop} {α β : Type}

theorem pure (a : α) : Coupled R (Pure.pure a : ParseM α) (Pure.pure a) := ⟨fun h => ⟨rfl, h⟩⟩

/-- What comes next has to be coupled for the results that there are. -/
theorem bind_run {m m' : ParseM α} {f f' : α → ParseM β} (hm : Coupled R m m')
    (hf : ∀ ctx ctx', R ctx ctx' → Coupled R (f (m.run ctx).1) (f' (m.run ctx).1)) :
    Coupled R (m >>= f) (m' >>= f') where
  run {ctx ctx'} h := by
    obtain ⟨hresult, hnext⟩ := hm.run h
    have hrest := (hf ctx ctx' h).run hnext
    rw [hresult] at hrest
    rw [StateT.run_bind, StateT.run_bind, ← Prod.eta (m.run ctx), hresult]
    exact hrest

theorem bind {m m' : ParseM α} {f f' : α → ParseM β} (hm : Coupled R m m')
    (hf : ∀ a, Coupled R (f a) (f' a)) : Coupled R (m >>= f) (m' >>= f') :=
  hm.bind_run fun _ _ _ => hf _

theorem map {m m' : ParseM α} (hm : Coupled R m m') (f : α → β) :
    Coupled R (f <$> m) (f <$> m') :=
  ⟨fun h => ⟨congrArg f (hm.run h).1, (hm.run h).2⟩⟩

theorem get_bind {f f' : Context → ParseM α}
    (hf : ∀ ctx ctx', R ctx ctx' → Coupled R (f ctx) (f' ctx')) :
    Coupled R (get >>= f) (get >>= f') := ⟨fun h => (hf _ _ h).run h⟩

theorem modify {f f' : Context → Context} (h : ∀ ctx ctx', R ctx ctx' → R (f ctx) (f' ctx')) :
    Coupled R (modify f : ParseM PUnit) (modify f') := ⟨fun hctx => ⟨rfl, h _ _ hctx⟩⟩

end Coupled

/-! ## Nodes -/

section

variable {R : Context → Context → Prop} {iso iso' : Isolate} {g : FlatGrammar}

theorem coupled_build (hR : Heeds g R) (listeners : Option Nat) (d : Derivation) :
    Coupled R (d.build g listeners) (d.build g listeners) := by
  cases listeners with
  | none => exact .pure _
  | some n =>
    refine .bind (.modify fun ctx ctx' h => ?_) fun _ => .pure _
    rw [hR.journal_eq h]
    exact hR.journal h _

/-- Offers are made alike, if the parts asked for on the way are completed alike. -/
theorem coupled_run {asking : Asking}
    (h : ∀ part, asking.Asks part → Coupled R (iso g part) (iso' g part)) :
    Coupled R (asking.run iso g) (asking.run iso' g) := by
  induction asking with
  | offer offers => exact .pure _
  | ask part more ih =>
    exact .bind (h part (.here more)) fun answer => ih answer fun Q hQ => h Q (.later part answer hQ)

theorem coupled_offer (hR : Heeds g R) {n : Node}
    (h : ∀ part, n.AsksFor g part → Coupled R (iso g part) (iso' g part)) (probe : Bool) :
    Coupled R (n.offer iso g probe) (n.offer iso' g probe) := by
  rw [Node.offer, Node.offer]
  rcases hspeaker : n.speaker? g with _ | ⟨r, c⟩
  · rw [Visit.offer_of_no_speaker hspeaker, Visit.offer_of_no_speaker hspeaker]
    exact .pure _
  · obtain ⟨hrule, hcompleter, -⟩ := Visit.speaker?_eq_some.1 hspeaker
    rw [Visit.offer_of_speaker hspeaker, Visit.offer_of_speaker hspeaker]
    refine .get_bind fun ctx ctx' hctx => ?_
    rw [hR.reply hctx (Label.mem_rules hrule) hcompleter]
    exact coupled_run fun part hpart => h part ⟨r, c, _, probe, hrule, hcompleter, hpart⟩

theorem coupled_offers (hR : Heeds g R) {n : Node}
    (h : ∀ part, n.AsksFor g part → Coupled R (iso g part) (iso' g part)) :
    Coupled R (n.offers iso g) (n.offers iso' g) :=
  .bind (coupled_offer hR h true) fun _ => .pure _

theorem coupled_firstOffer (hR : Heeds g R) {path : List Node}
    (h : ∀ n ∈ path, ∀ part, n.AsksFor g part → Coupled R (iso g part) (iso' g part)) :
    Coupled R (firstOffer iso g path) (firstOffer iso' g path) := by
  induction path with
  | nil => exact .pure _
  | cons n ns ih =>
    obtain ⟨hn, hns⟩ := List.forall_mem_cons.1 h
    refine .bind (coupled_offers hR hn) fun b => ?_
    split
    · refine .bind (coupled_offer hR hn false) fun o => ?_
      split
      · exact .pure _
      · exact ih hns
    · exact ih hns

theorem coupled_firstOffering (hR : Heeds g R) {path : List Node}
    (h : ∀ n ∈ path, ∀ part, n.AsksFor g part → Coupled R (iso g part) (iso' g part)) :
    Coupled R (firstOffering iso g path) (firstOffering iso' g path) := by
  induction path with
  | nil => exact .pure _
  | cons n ns ih =>
    obtain ⟨hn, hns⟩ := List.forall_mem_cons.1 h
    refine .bind (coupled_offers hR hn) fun b => ?_
    split
    · exact .pure _
    · exact ih hns

end

/-! ## Searches -/

section

variable {R : Context → Context → Prop} {iso iso' : Isolate} {g : FlatGrammar} {cfg : Config}
  {input : List Char} (hR : Heeds g R)
  (h : ∀ part, g.Asks cfg input part → Coupled R (iso g part) (iso' g part))

include hR h

/-- **What derivations offer** is collected alike. -/
theorem coupled_collect {ds : List Derivation}
    (hds : ∀ d ∈ ds, d ∈ (Branch.initial input).ends g cfg) (listeners : Option Nat)
    (text : List Char) (found : List Completion) :
    Coupled R (collect iso g listeners text ds found) (collect iso' g listeners text ds found) := by
  induction ds generalizing found with
  | nil => exact .pure _
  | cons d ds ih =>
    obtain ⟨hd, hds⟩ := List.forall_mem_cons.1 hds
    refine .bind_run (coupled_build hR ..) fun ctx ctx' _ => ?_
    rw [run_build]
    refine .bind (coupled_firstOffer hR fun n hn part hpart => ?_) fun o => ?_
    · exact h part ⟨d, hd, n, .inl hn, hpart⟩
    · split
      · exact ih hds found
      · split
        · exact .pure _
        · exact ih hds _

variable (hconfig : ∀ ctx ctx', R ctx ctx' → ctx.config = cfg ∧ ctx'.config = cfg)

include hconfig

/-- **Attempts are made alike.** -/
theorem coupled_attempt (listeners : Option Nat) (found : Option (List Completion)) :
    Coupled R (attempt iso g listeners input found) (attempt iso' g listeners input found) := by
  refine .get_bind fun ctx ctx' hctx => ?_
  obtain ⟨hcfg, hcfg'⟩ := hconfig ctx ctx' hctx
  rw [hcfg, hcfg']
  cases found with
  | none => exact .bind (.pure _) fun _ => .bind (coupled_build hR ..) fun _ => .pure _
  | some found =>
    exact .bind (coupled_collect hR h (fun _ => mem_ends_of_mem_cut) ..) fun _ =>
      .bind (coupled_build hR ..) fun _ => .pure _

/-- After an attempt the node to report is looked for alike. -/
theorem coupled_attempt_bind {α : Type} {f f' : Attempt → ParseM α}
    (listeners : Option Nat) (found : Option (List Completion))
    (hf : ∀ a, Coupled R (a.ancestor iso g) (a.ancestor iso' g) → Coupled R (f a) (f' a)) :
    Coupled R (attempt iso g listeners input found >>= f)
      (attempt iso' g listeners input found >>= f') := by
  refine .bind_run (coupled_attempt hR h hconfig ..) fun ctx ctx' hctx => hf _ ?_
  refine coupled_firstOffering hR fun n hn part hpart => h part ?_
  rw [List.mem_reverse, Attempt.failedPath, attempt_tree, attempt_dropped,
    (hconfig ctx ctx' hctx).1] at hn
  exact ⟨_, (search_mem_ends g cfg input).1, n, .inr hn, hpart⟩

end

end Typeahead
