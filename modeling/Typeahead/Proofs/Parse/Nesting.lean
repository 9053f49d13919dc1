import Typeahead.Proofs.Parse.Coupling
import Typeahead.Proofs.Parse.Remembered

/-!
# Proofs/Parse/Nesting — how deep isolated completions are inside each other

Completing a part asks for other parts, which are completed in turn, each in a grammar of its own.
If completers ask for parts of the rules of the grammar only (`FlatGrammar.SelfContained`), then so
do they at any depth (`SelfContained.mem_parts_of_asks`), and a part goes on record before it asks
for more.  So whatever stands in for the attempts that are deeper than the number of these parts is
never used (`Unfolds.coupled`).

Hence there is one way to complete parts by attempts inside each other, and it ends
(`isolate_eq_isolateUpTo`).  Templates ask for the parts of their own rule, and functions of the
node for none, so nothing is asked of a grammar with these: rules may use themselves and each other
in any way.  A completer that made up a new part whenever it is asked would never come to an end.
-/

namespace Typeahead

/-! ## A bound on the nesting -/

/-- Answers from the record, and leaves what is not on it to `beyond`. -/
def fromRecord (beyond : Isolate) : Isolate := fun g part => do
  match (← get).known.lookup part with
  | some completion => return completion
  | none => beyond g part

/-- **Completes a part with at most `n` attempts inside each other**: what is neither on record nor
within this bound is left to `beyond`. -/
def isolateUpTo (beyond : Isolate) : Nat → Isolate
  | 0 => fromRecord beyond
  | n + 1 => isolateWith (isolateUpTo beyond n)

/-! ## Parts that may be asked for -/

/-- **A grammar is self-contained**: its completers ask for parts of its rules only. -/
def FlatGrammar.SelfContained (g : FlatGrammar) : Prop := ∀ r ∈ g.rules, r.AsksOnly (· ∈ g.parts)

namespace FlatGrammar

variable {g h : FlatGrammar}

theorem mem_parts {r : Rule} (hr : r ∈ g.rules) {part : Part} (h : part ∈ r.parts) :
    part ∈ g.parts := List.mem_flatMap.2 ⟨r, Array.mem_toList_iff.2 hr, h⟩

/-- With completers that ask for the parts of their own rule, a grammar is self-contained. -/
theorem selfContained_of_asksParts (hg : g.AllCompleters Completer.AsksParts) : g.SelfContained :=
  fun r hr => (Rule.asksOnly_of_asksParts (hg r hr)).mono fun _ => mem_parts hr

/-- A search asks for what a rule with a completer asks for. -/
theorem Asks.of_asksOnly {p : Part → Prop} {cfg : Config} {input : List Char} {part : Part}
    (hasks : h.Asks cfg input part) (hp : ∀ r ∈ h.rules, r.AsksOnly p) : p part := by
  obtain ⟨-, -, n, -, r, c, around, probe, hrule, hc, hpart⟩ := hasks
  exact hp r (Label.mem_rules hrule) c hc _ rfl around probe part hpart

theorem Extends.asksOnly (hext : g.Extends h) {p : Part → Prop}
    (hp : ∀ r ∈ g.rules, r.AsksOnly p) : ∀ r ∈ h.rules, r.AsksOnly p :=
  fun r hr c hc => hp r (hext.mem_rules hr hc) c hc

/-- **All parts that are asked for** are parts of rules of the grammar below. -/
theorem SelfContained.mem_parts_of_asks (hg : g.SelfContained) (hext : g.Extends h) {cfg : Config}
    {input : List Char} {part : Part} (hasks : h.Asks cfg input part) : part ∈ g.parts :=
  hasks.of_asksOnly (hext.asksOnly hg)

theorem Extends.parts_subset (hext : g.Extends h) : g.parts ⊆ h.parts := by
  obtain ⟨added, hrules, -⟩ := hext
  rw [parts, parts, hrules, List.flatMap_append]
  exact List.subset_append_left ..

theorem SelfContained.extends (hg : g.SelfContained) (hext : g.Extends h) : h.SelfContained :=
  fun r hr => (hext.asksOnly hg r hr).mono fun _ hpart => hext.parts_subset hpart

theorem Extends.length_parts_le (hext : g.Extends h) : g.parts.length ≤ h.parts.length := by
  obtain ⟨added, hrules, -⟩ := hext
  rw [parts, parts, hrules, List.flatMap_append, List.length_append]
  exact Nat.le_add_right ..

end FlatGrammar

/-! ## Parts that are not on record -/

section

variable {parts : List Part} {part : Part} {k : Answered}

theorem unanswered_le_card (parts : List Part) (k : Answered) :
    unanswered parts k ≤ parts.toFinset.card := Finset.card_filter_le ..

theorem unanswered_cons_le (part : Part) (v : Option Completion) :
    unanswered parts ((part, v) :: k) ≤ unanswered parts k := by
  refine Finset.card_le_card fun P hP => ?_
  rw [Finset.mem_filter] at hP ⊢
  refine ⟨hP.1, ?_⟩
  by_cases heq : P = part
  · rw [heq, Recipe.lookup_cons_self] at hP
    cases hP.2
  · rw [← Recipe.lookup_cons_of_ne heq, hP.2]

theorem exists_lookup_of_unanswered (hpart : part ∈ parts) (h : unanswered parts k ≤ 0) :
    ∃ v, k.lookup part = some v := by
  refine Option.ne_none_iff_exists'.1 fun hnone => ?_
  have hmem : part ∈ parts.toFinset.filter fun P => k.lookup P = none :=
    Finset.mem_filter.2 ⟨List.mem_toFinset.2 hpart, hnone⟩
  exact absurd (Finset.card_pos.2 ⟨part, hmem⟩) (Nat.not_lt.2 h)

/-- Equal contexts with the given settings and at most `n` of the parts not on record. -/
structure SameLacking (parts : List Part) (cfg : Config) (n : Nat) (ctx ctx' : Context) :
    Prop where
  eq : ctx = ctx'
  config : ctx.config = cfg
  few : unanswered parts ctx.known ≤ n

variable {cfg : Config} {n : Nat}

theorem heeds_sameLacking (g : FlatGrammar) (parts : List Part) (cfg : Config) (n : Nat) :
    Heeds g (SameLacking parts cfg n) where
  journal_eq h := congrArg _ h.eq
  journal h _ := ⟨by rw [h.eq], h.config, h.few⟩
  reply h _ _ _ _ _ _ := by rw [h.eq]

theorem SameLacking.config_eq {ctx ctx' : Context} (h : SameLacking parts cfg n ctx ctx') :
    ctx.config = cfg ∧ ctx'.config = cfg := ⟨h.config, h.eq ▸ h.config⟩

theorem coupled_remember (part : Part) (v : Option Completion) :
    Coupled (SameLacking parts cfg n) (remember part v) (remember part v) :=
  .modify fun _ _ h => ⟨by rw [h.eq], h.config, (unanswered_cons_le part v).trans h.few⟩

/-! ## Unfolding attempts -/

variable {inner inner' iso : Isolate} {g : FlatGrammar}

/-- A completion of a part that is on record is what the record says. -/
def Recalls (part : Part) (complete : ParseM (Option Completion)) : Prop :=
  ∀ ctx v, ctx.known.lookup part = some v → complete.run ctx = (v, ctx)

theorem recalls_isolateWith (iso : Isolate) (g : FlatGrammar) (part : Part) :
    Recalls part (isolateWith iso g part) := by
  intro ctx v hv
  rw [run_isolateWith, hv]

theorem recalls_fromRecord (beyond : Isolate) (g : FlatGrammar) (part : Part) :
    Recalls part (fromRecord beyond g part) := by
  intro ctx v hv
  rw [fromRecord, StateT.run_bind]
  change StateT.run (match ctx.known.lookup part with | some completion => _ | none => _) ctx = _
  rw [hv]
  rfl

/-- **Attempts that are alike inside** are alike, if `n` parts at most are not on record once they
have begun. -/
theorem run_isolateWith_congr
    (h : ∀ Q, (g.isolating part.1 part.2).Asks cfg [] Q → Coupled (SameLacking parts cfg n)
      (inner (g.isolating part.1 part.2) Q) (inner' (g.isolating part.1 part.2) Q))
    {ctx : Context} (hcfg : ctx.config = cfg)
    (hnew : ctx.known.lookup part = none → unanswered parts ((part, none) :: ctx.known) ≤ n) :
    (isolateWith inner g part).run ctx = (isolateWith inner' g part).run ctx ∧
      (ctx.known.lookup part = none → SameLacking parts cfg n
        ((isolateWith inner g part).run ctx).2 ((isolateWith inner' g part).run ctx).2) := by
  rw [run_isolateWith, run_isolateWith]
  rcases hlookup : ctx.known.lookup part with _ | v
  · have hstart : SameLacking parts cfg n { ctx with known := (part, none) :: ctx.known }
        { ctx with known := (part, none) :: ctx.known } := ⟨rfl, hcfg, hnew hlookup⟩
    obtain ⟨hresult, hafter⟩ := (coupled_completeAlone (heeds_sameLacking _ parts cfg n)
      (fun _ _ => SameLacking.config_eq) (coupled_remember part) h).run hstart
    exact ⟨Prod.ext hresult hafter.eq, fun _ => hafter⟩
  · exact ⟨rfl, nofun⟩

/-- **A way to complete parts unfolds** at least `n` times into attempts inside each other, for the
parts asked for. -/
def Unfolds (asked : FlatGrammar → Part → Prop) : Nat → Isolate → Prop
  | 0, iso => ∀ g part, asked g part → Recalls part (iso g part)
  | n + 1, iso => ∀ g part, asked g part →
    ∃ inner, Unfolds asked n inner ∧ iso g part = isolateWith inner g part

variable {asked : FlatGrammar → Part → Prop}

/-- **Whatever is done beyond `n` attempts is not done**, if at most `n` parts are not on record. -/
theorem Unfolds.coupled
    (hclosed : ∀ g part Q, asked g part → (g.isolating part.1 part.2).Asks cfg [] Q →
      asked (g.isolating part.1 part.2) Q)
    (hparts : ∀ g part, asked g part → part ∈ parts) {iso' : Isolate} (h : Unfolds asked n iso)
    (h' : Unfolds asked n iso') (hasked : asked g part) :
    Coupled (SameLacking parts cfg n) (iso g part) (iso' g part) := by
  induction n generalizing iso iso' g part with
  | zero =>
    refine ⟨fun {ctx ctx'} hctx => ?_⟩
    obtain rfl := hctx.eq
    obtain ⟨v, hv⟩ := exists_lookup_of_unanswered (hparts g part hasked) hctx.few
    rw [h g part hasked ctx v hv, h' g part hasked ctx v hv]
    exact ⟨rfl, hctx⟩
  | succ n ih =>
    obtain ⟨inner, hinner, heq⟩ := h g part hasked
    obtain ⟨inner', hinner', heq'⟩ := h' g part hasked
    refine ⟨fun {ctx ctx'} hctx => ?_⟩
    obtain rfl := hctx.eq
    obtain ⟨hsame, hafter⟩ := run_isolateWith_congr (n := n)
      (fun Q hQ => ih hinner hinner' (hclosed g part Q hasked hQ)) hctx.config fun hnone =>
        Nat.le_of_lt_succ ((unanswered_cons_lt (hparts g part hasked) hnone none).trans_le hctx.few)
    rw [heq, heq']
    refine ⟨congrArg Prod.fst hsame, ?_⟩
    rcases hlookup : ctx.known.lookup part with _ | v
    · obtain ⟨heq, hconfig, hfew⟩ := hafter hlookup
      exact ⟨heq, hconfig, hfew.trans (Nat.le_succ n)⟩
    · rw [recalls_isolateWith inner g part ctx v hlookup,
        recalls_isolateWith inner' g part ctx v hlookup]
      exact hctx

/-- Attempts with a bound unfold up to it. -/
theorem unfolds_isolateUpTo (beyond : Isolate) (n : Nat) :
    Unfolds asked n (isolateUpTo beyond n) := by
  induction n with
  | zero => exact fun g part _ => recalls_fromRecord beyond g part
  | succ n ih => exact fun g part _ => ⟨_, ih, rfl⟩

theorem unfolds_isolateWithin {depth : Nat} (h : n < depth) :
    Unfolds asked n (isolateWithin depth) := by
  obtain ⟨depth, rfl⟩ : ∃ d, depth = d + 1 := ⟨depth - 1, by omega⟩
  induction n generalizing depth with
  | zero => exact fun g part _ => recalls_isolateWith _ g part
  | succ n ih =>
    obtain ⟨depth, rfl⟩ : ∃ d, depth = d + 1 := ⟨depth - 1, by omega⟩
    exact fun g part _ => ⟨_, ih depth (by omega), rfl⟩

/-- Completing in isolation unfolds as often as there are attempts inside each other. -/
theorem unfolds_isolate (h : ∀ g part, asked g part → n + 1 < isolationDepth g) :
    Unfolds asked n isolate := by
  have hunfold : ∀ g part, asked g part → ∃ depth, n < depth ∧
      isolate g part = isolateWith (isolateWithin depth) g part :=
    fun g part hasked => ⟨isolationDepth g - 1, by have := h g part hasked; omega, rfl⟩
  cases n with
  | zero =>
    intro g part hasked
    obtain ⟨depth, -, heq⟩ := hunfold g part hasked
    rw [heq]
    exact recalls_isolateWith _ g part
  | succ n =>
    intro g part hasked
    obtain ⟨depth, hdepth, heq⟩ := hunfold g part hasked
    exact ⟨_, unfolds_isolateWithin (by omega), heq⟩

theorem Unfolds.congr (h : Unfolds asked n iso) {iso' : Isolate}
    (heq : ∀ g part, asked g part → iso' g part = iso g part) : Unfolds asked n iso' := by
  cases n with
  | zero =>
    intro g part hasked
    rw [heq g part hasked]
    exact h g part hasked
  | succ n =>
    intro g part hasked
    rw [heq g part hasked]
    exact h g part hasked

/-- A way to complete parts that is its own inside unfolds without end. -/
theorem unfolds_of_eq_isolateWith (h : ∀ g part, asked g part → iso g part = isolateWith iso g part)
    (n : Nat) : Unfolds asked n iso := by
  induction n with
  | zero =>
    intro g part hasked
    rw [h g part hasked]
    exact recalls_isolateWith iso g part
  | succ n ih => exact fun g part hasked => ⟨iso, ih, h g part hasked⟩

end

/-! ## Completing in isolation ends -/

/-- What may be asked for while a part of the grammar is completed. -/
def FlatGrammar.MayAsk (g h : FlatGrammar) (part : Part) : Prop := g.Extends h ∧ part ∈ g.parts

namespace FlatGrammar

variable {g : FlatGrammar} {inner inner' : Isolate}

/-- **Attempts that unfold as often as there are parts** complete everything alike. -/
theorem SelfContained.isolateWith_eq_of_unfolds (hg : g.SelfContained)
    (h : Unfolds g.MayAsk g.parts.toFinset.card inner)
    (h' : Unfolds g.MayAsk g.parts.toFinset.card inner') (part : Part) :
    isolateWith inner g part = isolateWith inner' g part := by
  have hext := (Extends.refl g).isolating part.1 part.2
  funext ctx
  refine (run_isolateWith_congr (fun Q hQ => ?_) rfl fun _ => unanswered_le_card g.parts _).1
  refine Unfolds.coupled (fun h part Q hasked hQ => ?_) (fun _ _ => And.right) h h'
    ⟨hext, hg.mem_parts_of_asks hext hQ⟩
  have hinside := hasked.1.isolating part.1 part.2
  exact ⟨hinside, hg.mem_parts_of_asks hinside hQ⟩

theorem card_lt_isolationDepth {h : FlatGrammar} (hext : g.Extends h) :
    g.parts.toFinset.card + 1 < isolationDepth h := by
  have hcard := List.toFinset_card_le g.parts
  have hlength := hext.length_parts_le
  rw [isolationDepth, ← length_parts]
  omega

/-- A way to complete parts that unfolds as often as there are parts completes all as `isolate`. -/
theorem SelfContained.isolateWith_eq_isolate (hg : g.SelfContained)
    (h : Unfolds g.MayAsk g.parts.toFinset.card inner) (part : Part) :
    isolateWith inner g part = isolate g part := by
  have hdepth := card_lt_isolationDepth (Extends.refl g)
  have hdepth : g.parts.toFinset.card < isolationDepth g - 1 := by omega
  exact hg.isolateWith_eq_of_unfolds h (unfolds_isolateWithin hdepth) part

end FlatGrammar

/-- **Completing in isolation ends**, for every grammar whose completers ask for parts of its rules
only, and for every part and record.  It is the only way to complete parts by attempts that complete
parts in the same way, in this grammar and in those made of it by isolating parts; and the attempts
inside each other that are not answered from the record are never more than there are parts of rules
and one, so what would be done beyond these does not matter. -/
theorem isolate_eq_isolateUpTo (g : FlatGrammar) (hg : g.SelfContained) :
    (∀ iso : Isolate, (∀ h, g.Extends h → ∀ part, iso h part = isolateWith iso h part) ↔
      ∀ h, g.Extends h → ∀ part, iso h part = isolate h part) ∧
    ∀ (part : Part) (beyond : Isolate),
      isolateUpTo beyond (g.parts.toFinset.card + 1) g part = isolate g part := by
  refine ⟨fun iso => ⟨fun hiso h hext part => ?_, fun hiso h hext part => ?_⟩, fun part beyond =>
    hg.isolateWith_eq_isolate (unfolds_isolateUpTo beyond _) part⟩
  · rw [hiso h hext part]
    refine (hg.extends hext).isolateWith_eq_isolate
      (unfolds_of_eq_isolateWith (fun h' part hasked => hiso h' ?_ part) _) part
    exact hext.trans hasked.1
  · rw [hiso h hext part]
    refine ((hg.extends hext).isolateWith_eq_isolate ?_ part).symm
    refine Unfolds.congr (unfolds_isolate fun h' part hasked => ?_) fun h' part hasked =>
      hiso h' (hext.trans hasked.1) part
    exact FlatGrammar.card_lt_isolationDepth hasked.1

/-! ### Two sequences that ask for each other -/

/-- Offers what the last of the parts that can be completed is completed to. -/
def Completer.lastPart : Completer where
  reply v _ _ := .askAll v.rule.parts fun parts => .offer (parts.getLast?.map ([·]))

theorem Completer.asksParts_lastPart : lastPart.AsksParts := by
  intro view around probe part h
  rcases Asking.mem_or_asks_of_askAll h with hmem | ⟨answers, hasks⟩
  · exact hmem
  · cases hasks

namespace Grammar

/-- `x` and `y` in turns, with a template and with a completer of its own, or `z` as a placeholder.
-/
def askingTurns : Grammar :=
  let first :=
    (templated "a" [(Symbol.literal "x").unnamed, (Symbol.nonterminal "b").unnamed]).run {}
  let second := (sequenceWith .lastPart "b"
    [(Symbol.literal "y").unnamed, (Symbol.nonterminal "a").unnamed]).run first.2
  ((sequenceWith .placeholder "b" [(Symbol.literal "z").unnamed]).run second.2).2

/-- The grammar after its compile. -/
def askingTurnsCompiled : Grammar := ((compile (.nonterminal "a")).run.run askingTurns).2

theorem selfContained_askingTurns : askingTurnsCompiled.flat.SelfContained := by
  refine FlatGrammar.selfContained_of_asksParts (FlatGrammar.allCompleters_of_map
    [some .template, some .lastPart, some .placeholder, none] rfl fun c hc => ?_)
  obtain rfl | rfl | rfl : c = .template ∨ c = .lastPart ∨ c = .placeholder := by simpa using hc
  · exact Completer.asksParts_template
  · exact Completer.asksParts_lastPart
  · exact (Completer.isSettled_ofNode _).asksParts

end Grammar

open Grammar in
/-- The sequence `a` asks for `b`, and this for `a`.  There are six parts of rules, so what is
done beyond seven attempts inside each other does not matter. -/
theorem isolate_eq_isolateUpTo_askingTurns :
    askingTurnsCompiled.flat.SelfContained ∧
    askingTurnsCompiled.flat.parts.toFinset.card = 6 ∧
    ∀ beyond, isolateUpTo beyond 7 askingTurnsCompiled.flat (.nonterminal "a", none)
      = isolate askingTurnsCompiled.flat (.nonterminal "a", none) := by
  have hcard : askingTurnsCompiled.flat.parts.toFinset.card = 6 := by decide
  refine ⟨selfContained_askingTurns, hcard, fun beyond => ?_⟩
  have hbound := (isolate_eq_isolateUpTo _ selfContained_askingTurns).2 (.nonterminal "a", none)
    beyond
  rwa [hcard] at hbound

end Typeahead
