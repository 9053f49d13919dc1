import Typeahead.Proofs.Parse.Recipe
import Typeahead.Proofs.Parse.Anew

/-!
# Proofs/Parse/Standing — what is offered on the empty text

On the empty text all nodes are empty.  If the completers of a grammar are plain, what such a node
offers is settled by its view (`Node.standing`): either given completions, or a template of all
parts of its rule, whatever these are completed to.  So all that the derivations of an isolated part
offer can be listed in advance (`FlatGrammar.plan`), and with it the parts that are asked for on the
way.

Completing a part in isolation is then a matter of asking for these parts, one after the other, and
of gathering the offers from the answers (`run_isolateAnew_of_isPlain`): the part has a recipe.
-/

namespace Typeahead

/-! ## Empty nodes -/

/-- What an empty node offers: a template of parts, or given completions. -/
inductive StandingOffer
  | template (parts : List Part)
  | given (offers : List Completion)

/-- The offer of a completer for an empty node, if it claims to have one: what it answers by itself,
or else a template of all parts of the rule. -/
def Completer.standing (around : Circumstances) (view : View) (c : Completer) :
    Option StandingOffer :=
  match c.reply view around true with
  | .offer none => none
  | _ =>
    match c.reply view around false with
    | .offer offers => offers.map .given
    | .ask _ _ => some (.template view.rule.parts)

/-- What a visited node offers at its place if it is empty. -/
def Visit.standing (around : Circumstances) (g : FlatGrammar) (v : Visit) (place : Place) :
    Option StandingOffer :=
  let plain := v.label.plainOffer.map .given
  match v.label.rule g with
  | some r =>
    match r.completer with
    | some c => if v.continues then plain else c.standing around (v.view g r place)
    | none => plain
  | none => plain

theorem Visit.standing_of_speaker {around : Circumstances} {g : FlatGrammar} {v : Visit}
    {place : Place} {r : Rule} {c : Completer} (h : v.speaker? g = some (r, c)) :
    v.standing around g place = c.standing around (v.view g r place) := by
  obtain ⟨hrule, hc, hcontinues⟩ := speaker?_eq_some.1 h
  simp only [standing, hrule, hc, hcontinues, Bool.false_eq_true, if_false]

theorem Visit.standing_of_no_speaker {around : Circumstances} {g : FlatGrammar} {v : Visit}
    {place : Place} (h : v.speaker? g = none) :
    v.standing around g place = v.label.plainOffer.map .given := by
  rw [standing]
  split
  next r hrule =>
    split
    next c hc =>
      split
      · rfl
      next hcontinues =>
        rw [speaker?_eq_some.2 ⟨hrule, hc, Bool.eq_false_iff.2 hcontinues⟩] at h
        cases h
    next => rfl
  next => rfl

/-- **What an empty node offers.** -/
def Node.standing (around : Circumstances) (g : FlatGrammar) (n : Node) : Option StandingOffer :=
  n.toVisit.standing around g n.toPlace

/-- The first offer on a way of empty nodes, with the label of the node that makes it. -/
def firstStanding (around : Circumstances) (g : FlatGrammar) (path : List Node) :
    Option (Label × StandingOffer) :=
  path.findSome? fun n => (n.standing around g).map (n.label, ·)

theorem firstStanding_cons_none {around : Circumstances} {g : FlatGrammar} {n : Node}
    {path : List Node} (h : n.standing around g = none) :
    firstStanding around g (n :: path) = firstStanding around g path := by
  rw [firstStanding, List.findSome?_cons, h]
  rfl

theorem firstStanding_cons_some {around : Circumstances} {g : FlatGrammar} {n : Node}
    {path : List Node} {o : StandingOffer} (h : n.standing around g = some o) :
    firstStanding around g (n :: path) = some (n.label, o) := by
  rw [firstStanding, List.findSome?_cons, h]
  rfl

/-- Completes the parts of an offer. -/
def StandingOffer.run (iso : Isolate) (g : FlatGrammar) : StandingOffer → ParseM (List Completion)
  | template parts => do return [.template {} ((← parts.mapM (iso g)).flatMap Option.toList)]
  | given offers => return offers

section

variable {iso : Isolate} {g : FlatGrammar} {ctx : Context}

/-- **A plain completer makes its standing offer** for an empty node, if it claims to have one. -/
theorem Completer.IsPlain.run_reply {c : Completer} (hc : c.IsPlain) {view : View}
    (h : view.label.text = "") {around : Circumstances}
    (hclaim : c.reply view around true ≠ .offer none) :
    (c.reply view around false).run iso g
      = (c.standing around view).mapM (StandingOffer.run iso g) := by
  have hstanding : c.standing around view = match c.reply view around false with
      | .offer offers => offers.map .given
      | .ask _ _ => some (.template view.rule.parts) := by
    rw [standing]
    split
    next hnone => exact absurd hnone hclaim
    next => rfl
  rcases hc with rfl | hsettled
  · rw [reply_template_of_empty h, if_neg Bool.false_ne_true] at hstanding ⊢
    rw [hstanding]
    rcases hparts : view.rule.parts with _ | ⟨part, parts⟩
    · rfl
    · rw [Asking.run_askAll]
      simp [Asking.askAll, Asking.run, StandingOffer.run]
  · obtain ⟨offers, hreply⟩ := hsettled view around false
    rw [hreply] at hstanding ⊢
    rw [hstanding]
    cases offers <;> rfl

/-- An empty node claims to have every offer that it has. -/
theorem Completer.IsPlain.exists_claim {c : Completer} (hc : c.IsPlain) (view : View)
    (around : Circumstances) (h : view.label.text = "") :
    ∃ claim, c.reply view around true = .offer claim ∧
      (claim = none → c.standing around view = none) := by
  obtain ⟨claim, hreply⟩ := hc.claimsAtOnce view around h
  refine ⟨claim, hreply, ?_⟩
  rintro rfl
  rw [standing, hreply]

theorem Label.run_plainOffer (l : Label) : (pure l.plainOffer : ParseM (Option (List Completion)))
    = (l.plainOffer.map StandingOffer.given).mapM (StandingOffer.run iso g) := by
  cases l.plainOffer <;> rfl

/-- **An empty node** either claims to have no offer, and has none, or it claims to have one and
makes its standing offer. -/
theorem Node.run_offer (hg : g.AllCompleters Completer.IsPlain) {n : Node}
    (h : n.label.text = "") (ctx : Context) :
    (n.offers iso g).run ctx = (false, ctx) ∧ n.standing ctx.circumstances g = none ∨
      (n.offers iso g).run ctx = (true, ctx) ∧ (n.offer iso g false).run ctx
        = ((n.standing ctx.circumstances g).mapM (StandingOffer.run iso g)).run ctx := by
  rcases hspeaker : n.speaker? g with _ | ⟨r, c⟩
  · have hoffers : (n.offers iso g).run ctx = (n.label.plainOffer.isSome, ctx) := by
      rw [Node.offers, Visit.offers, Visit.offer_of_no_speaker hspeaker]
      rfl
    rw [hoffers, Node.offer, Visit.offer_of_no_speaker hspeaker, Node.standing,
      Visit.standing_of_no_speaker hspeaker, ← Label.run_plainOffer]
    cases n.label.plainOffer with
    | none => exact .inl ⟨rfl, rfl⟩
    | some offers => exact .inr ⟨rfl, rfl⟩
  · obtain ⟨hrule, hcompleter, -⟩ := Visit.speaker?_eq_some.1 hspeaker
    have hc : c.IsPlain := hg r (Label.mem_rules hrule) c hcompleter
    obtain ⟨claim, hreply, hnone⟩ := hc.exists_claim (n.view g r n.toPlace) ctx.circumstances h
    have hoffer (probe : Bool) : (n.offer iso g probe).run ctx
        = ((c.reply (n.view g r n.toPlace) ctx.circumstances probe).run iso g).run ctx := by
      rw [Node.offer, Visit.offer_of_speaker hspeaker]
      rfl
    have hoffers : (n.offers iso g).run ctx = (claim.isSome, ctx) := by
      have hprobe := hoffer true
      rw [hreply, Node.offer] at hprobe
      rw [Node.offers, Visit.offers, StateT.run_bind, hprobe]
      rfl
    rw [hoffers, hoffer, Node.standing, Visit.standing_of_speaker hspeaker]
    cases claim with
    | none => exact .inl ⟨rfl, hnone rfl⟩
    | some offers =>
      refine .inr ⟨rfl, ?_⟩
      rw [hc.run_reply h (by rw [hreply]; simp)]

/-- **On a way of empty nodes** the first offer is that of the first node that has one. -/
theorem run_firstOffer (hg : g.AllCompleters Completer.IsPlain) {path : List Node}
    (h : ∀ n ∈ path, n.label.text = "") (ctx : Context) :
    (firstOffer iso g path).run ctx =
      match firstStanding ctx.circumstances g path with
      | none => (none, ctx)
      | some (l, o) => (some (l, ((o.run iso g).run ctx).1), ((o.run iso g).run ctx).2) := by
  induction path with
  | nil => rfl
  | cons n ns ih =>
    obtain ⟨hn, hns⟩ := List.forall_mem_cons.1 h
    rcases n.run_offer hg hn ctx with ⟨hclaim, hstanding⟩ | ⟨hclaim, hoffer⟩
    · rw [firstStanding_cons_none hstanding, ← ih hns, firstOffer, StateT.run_bind, hclaim]
      rfl
    · rw [firstOffer, StateT.run_bind, hclaim]
      change StateT.run (n.offer iso g false >>= _) ctx = _
      rw [StateT.run_bind, hoffer]
      rcases hstanding : n.standing ctx.circumstances g with _ | o
      · rw [firstStanding_cons_none hstanding, ← ih hns]
        rfl
      · rw [firstStanding_cons_some hstanding]
        rfl

end

/-! ## The plan of a part -/

/-- **All that derivations of the empty text offer**: for each of them the first offer on the way to
its end, and the symbol of the node that makes it. -/
def FlatGrammar.plan (around : Circumstances) (g : FlatGrammar) (ds : List Derivation) :
    List (Symbol × StandingOffer) :=
  ds.filterMap fun d => (firstStanding around g (ParseTree.stuckNodes [d.tree])).map
    fun (l, o) => (l.symbol, o)

/-- The parts that are asked for to make some offers, until one of these is a veto. -/
def askedFor : List (Symbol × StandingOffer) → List Part
  | [] => []
  | (_, .template parts) :: plan => parts ++ askedFor plan
  | (_, .given offers) :: plan => if offers.any Completion.isVeto then [] else askedFor plan

/-- Adds offers to the completions found, given the completions of the parts asked for. -/
def gather : List (Symbol × StandingOffer) → List (Option Completion) → List Completion →
    List Completion
  | [], _, found => found
  | (s, .template parts) :: plan, answers, found =>
    gather plan (answers.drop parts.length) (addOffers found ⟨some s, ""⟩
      [.template {} ((answers.take parts.length).flatMap Option.toList)])
  | (s, .given offers) :: plan, answers, found =>
    if offers.any Completion.isVeto then []
    else gather plan answers (addOffers found ⟨some s, ""⟩ offers)

section

variable {iso : Isolate} {g : FlatGrammar}

theorem run_mapM_append {α β σ : Type} (f : α → StateM σ β) (xs ys : List α) (s : σ) :
    ((xs ++ ys).mapM f).run s =
      let first := (xs.mapM f).run s
      let second := (ys.mapM f).run first.2
      (first.1 ++ second.1, second.2) := by
  rw [List.mapM_append]
  rfl

theorem length_run_mapM {α β σ : Type} (f : α → StateM σ β) (xs : List α) (s : σ) :
    ((xs.mapM f).run s).1.length = xs.length := by
  induction xs generalizing s with
  | nil => rfl
  | cons x xs ih =>
    rw [List.mapM_cons]
    exact congrArg Nat.succ (ih _)

/-- A computation keeps the settings and the journal. -/
def KeepsCircumstances {α : Type} (m : ParseM α) : Prop :=
  ∀ ctx, (m.run ctx).2.config = ctx.config ∧ (m.run ctx).2.journal = ctx.journal

theorem keepsCircumstances_mapM (hiso : ∀ part, KeepsCircumstances (iso g part))
    (parts : List Part) : KeepsCircumstances (parts.mapM (iso g)) := by
  induction parts with
  | nil => exact fun ctx => ⟨rfl, rfl⟩
  | cons part parts ih =>
    intro ctx
    rw [List.mapM_cons]
    obtain ⟨hconfig, hjournal⟩ := hiso part ctx
    obtain ⟨hconfig', hjournal'⟩ := ih ((iso g part).run ctx).2
    exact ⟨hconfig'.trans hconfig, hjournal'.trans hjournal⟩

theorem KeepsCircumstances.circumstances {α : Type} {m : ParseM α} (h : KeepsCircumstances m)
    (ctx : Context) : (m.run ctx).2.circumstances = ctx.circumstances := by
  rw [Context.circumstances, (h ctx).1, (h ctx).2, Context.circumstances]

/-- The nodes on the way to the end of a derivation of the empty text are empty. -/
theorem text_of_mem_stuckNodes {cfg : Config} {d : Derivation} {n : Node}
    (hd : d ∈ (Branch.initial []).ends g cfg) (hn : n ∈ ParseTree.stuckNodes [d.tree]) :
    n.label.text = "" := by
  obtain ⟨path, hpath, hv⟩ := ParseTree.exists_stuckPath_of_mem_stuckNodes hn
  exact text_of_holds_nil hd (ParseTree.holds_of_mem_stuckPath hpath hv)

/-- One derivation of the empty text. -/
theorem run_collect_standing (hg : g.AllCompleters Completer.IsPlain) {cfg : Config}
    {d : Derivation} (hd : d ∈ (Branch.initial []).ends g cfg) (ctx : Context)
    (ds : List Derivation) (found : List Completion) :
    (collect iso g none [] (d :: ds) found).run ctx =
      match firstStanding ctx.circumstances g (ParseTree.stuckNodes [d.tree]) with
      | none => (collect iso g none [] ds found).run ctx
      | some (l, o) =>
        let offered := (o.run iso g).run ctx
        if offered.1.any Completion.isVeto then ([], offered.2)
        else (collect iso g none [] ds (addOffers found ⟨some l.symbol, ""⟩ offered.1)).run
          offered.2 := by
  have hempty (n : Node) (hn : n ∈ ParseTree.stuckNodes [d.tree]) : n.label.text = "" :=
    text_of_mem_stuckNodes hd hn
  have hbuild : d.build g none = pure d.tree := rfl
  rw [collect, hbuild, pure_bind, StateT.run_bind, run_firstOffer hg hempty]
  rcases firstStanding ctx.circumstances g (ParseTree.stuckNodes [d.tree]) with _ | ⟨l, o⟩
  · rfl
  · have hentered : String.ofList (Text.sliceFrom [] l.result.pos) = "" := by
      simp [Text.sliceFrom, Text.slice, Text.byteLength, Text.dropBytes?, Text.takeBytes?]
    dsimp only [Bind.bind]
    rw [hentered]
    split <;> rfl

/-- **Collecting on the empty text** is asking for the parts of a plan, and gathering its offers
from the answers. -/
theorem run_collect (hg : g.AllCompleters Completer.IsPlain) {cfg : Config} {ds : List Derivation}
    {around : Circumstances} (hds : ∀ d ∈ ds, d ∈ (Branch.initial []).ends g cfg)
    (hiso : ∀ part, KeepsCircumstances (iso g part)) (ctx : Context)
    (hctx : ctx.circumstances = around) (found : List Completion) :
    (collect iso g none [] ds found).run ctx =
      let answered := ((askedFor (g.plan around ds)).mapM (iso g)).run ctx
      (gather (g.plan around ds) answered.1 found, answered.2) := by
  induction ds generalizing ctx found with
  | nil => rfl
  | cons d ds ih =>
    obtain ⟨hd, hds⟩ := List.forall_mem_cons.1 hds
    rw [run_collect_standing hg hd, hctx, FlatGrammar.plan, List.filterMap_cons]
    rcases firstStanding around g (ParseTree.stuckNodes [d.tree]) with _ | ⟨l, parts | offers⟩
    · exact ih hds ctx hctx found
    · have hkept : ((parts.mapM (iso g)).run ctx).2.circumstances = around :=
        ((keepsCircumstances_mapM hiso parts).circumstances ctx).trans hctx
      have hlength := length_run_mapM (iso g) parts ctx
      have hoffer : ((StandingOffer.template parts).run iso g).run ctx
          = ([.template {} (((parts.mapM (iso g)).run ctx).1.flatMap Option.toList)],
            ((parts.mapM (iso g)).run ctx).2) := rfl
      dsimp only [Option.map, askedFor, gather]
      rw [hoffer, if_neg (by simp [Completion.isVeto]), ih hds _ hkept, run_mapM_append]
      dsimp only
      rw [List.take_left' hlength, List.drop_left' hlength]
      rfl
    · dsimp only [Option.map, askedFor, gather]
      change (if offers.any Completion.isVeto then ([], ctx) else _) = _
      split
      · rfl
      · exact ih hds ctx hctx _

end

/-! ## Completion in isolation -/

/-- The plan of a part in isolation. -/
def FlatGrammar.planFor (g : FlatGrammar) (ctx : Context) (part : Part) :
    List (Symbol × StandingOffer) :=
  let alone := g.isolating part.1 part.2
  alone.plan ctx.circumstances (search alone ctx.config []).cut

/-- **How parts are completed in isolation.** -/
def FlatGrammar.recipe (g : FlatGrammar) (ctx : Context) : Recipe where
  asks part := askedFor (g.planFor ctx part)
  make part answers := soleCompletion part (gather (g.planFor ctx part) answers [])

/-- The context with other answers on record. -/
def Context.knowing (ctx : Context) (known : Answered) : Context := { ctx with known := known }

/-- **A part that is not on record** is completed by its recipe. -/
theorem run_isolateAnew_of_isPlain {iso : Isolate} {g : FlatGrammar} {part : Part} {ctx : Context}
    (hg : g.AllCompleters Completer.IsPlain)
    (hiso : ∀ Q, KeepsCircumstances (iso (g.isolating part.1 part.2) Q)) :
    (isolateAnew iso g part).run ctx =
      let answered := (((g.recipe ctx).asks part).mapM (iso (g.isolating part.1 part.2))).run
        (ctx.knowing ((part, none) :: ctx.known))
      let completion := (g.recipe ctx).make part answered.1
      (completion, answered.2.knowing ((part, completion) :: answered.2.known)) := by
  have halone := hg.extends ((FlatGrammar.Extends.refl g).isolating part.1 part.2)
  have hcollect := run_collect halone
    (fun d (hd : d ∈ (search (g.isolating part.1 part.2) ctx.config []).cut) =>
      mem_ends_of_mem_cut hd)
    hiso (ctx.knowing ((part, none) :: ctx.known)) rfl []
  rw [run_isolateAnew (hg.mono fun _ => Completer.IsPlain.claimsAtOnce), isolateFrom,
    StateT.run_bind]
  change StateT.run (collect iso _ none [] _ [] >>= _) (ctx.knowing ((part, none) :: ctx.known)) = _
  rw [StateT.run_bind, hcollect]
  rfl

end Typeahead
