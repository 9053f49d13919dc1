import Typeahead.Parse.Offer

/-!
# Proofs/Completer — what completers ask for and look at

A completer may be any function, so what is true of a parse under some completers only is stated
for those that keep to something: that answer by themselves (`Completer.IsSettled`), that claim an
offer at once (`Completer.ClaimsAtOnce`), that do not look at the settings either
(`Completer.Discreet`), or that ask for the parts of their rule only (`Completer.AsksParts`).  A
completer that is a function of its node is all of that, and a template is discreet and asks for the
parts of its rule.

What a node offers is a matter of two cases: a completer speaks for it, or none does
(`Visit.speaker?`).
-/

namespace Typeahead

/-! ## Asking -/

/-- What is asked for on the way to an offer that needs some parts: these, and what is asked for
once they are completed. -/
theorem Asking.mem_or_asks_of_askAll {parts : List Part} {more : List Completion → Asking}
    {part : Part} (h : (askAll parts more).Asks part) :
    part ∈ parts ∨ ∃ answers, (more answers).Asks part := by
  induction parts generalizing more with
  | nil => exact .inr ⟨[], h⟩
  | cons first parts ih =>
    cases h with
    | here => exact .inl (List.mem_cons_self ..)
    | later _ answer h =>
      rcases ih h with hmem | ⟨answers, hasks⟩
      · exact .inl (List.mem_cons_of_mem _ hmem)
      · exact .inr ⟨_, hasks⟩

/-- Having parts completed one after the other, and going on with their completions. -/
theorem Asking.run_askAll (iso : Isolate) (g : FlatGrammar) (parts : List Part)
    (more : List Completion → Asking) : (askAll parts more).run iso g =
      (do (more ((← parts.mapM (iso g)).flatMap Option.toList)).run iso g) := by
  induction parts generalizing more with
  | nil => simp [askAll]
  | cons part parts ih =>
    rw [askAll, run, List.mapM_cons]
    simp only [ih, bind_assoc, pure_bind, List.flatMap_cons]

theorem Asking.not_asks_offer (offers : Option (List Completion)) (part : Part) :
    ¬ (Asking.offer offers).Asks part := nofun

/-! ## Completers that keep to something -/

namespace Completer

/-- **A completer answers by itself**: it has nothing completed in isolation. -/
def IsSettled (c : Completer) : Prop :=
  ∀ view around probe, ∃ offers, c.reply view around probe = .offer offers

/-- **A completer claims an offer at once**: if it is only probed for an empty node, it answers by
itself. -/
def ClaimsAtOnce (c : Completer) : Prop :=
  ∀ view around, view.label.text = "" → ∃ offers, c.reply view around true = .offer offers

/-- **A completer is discreet**: it does not look at the settings, and it claims an offer at once. -/
structure Discreet (c : Completer) : Prop where
  settings (view : View) (around : Circumstances) (cfg : Config) (probe : Bool) :
    c.reply view { around with config := cfg } probe = c.reply view around probe
  atOnce : c.ClaimsAtOnce

/-- **A completer is plain**: it is a template, or it answers by itself. -/
def IsPlain (c : Completer) : Prop := c = .template ∨ c.IsSettled

theorem isSettled_ofNode (offers : View → Bool → Option (List Completion)) :
    (ofNode offers).IsSettled := fun view _ probe => ⟨offers view probe, rfl⟩

theorem IsSettled.claimsAtOnce {c : Completer} (h : c.IsSettled) : c.ClaimsAtOnce :=
  fun view around _ => h view around true

/-- A function of the node is discreet. -/
theorem discreet_ofNode (offers : View → Bool → Option (List Completion)) :
    (ofNode offers).Discreet where
  settings _ _ _ _ := rfl
  atOnce := (isSettled_ofNode offers).claimsAtOnce

theorem reply_template_of_empty {view : View} (h : view.label.text = "")
    (around : Circumstances) (probe : Bool) : template.reply view around probe =
      if probe then .offer (some [.available {}])
      else .askAll view.rule.parts fun parts => .offer (some [.template {} parts]) := by
  have hprefix : ∀ text : String, "".toList.isPrefixOf text.toList = true := fun _ => rfl
  simp only [template, h, and_true, hprefix, if_true]

/-- A template is discreet. -/
theorem discreet_template : template.Discreet where
  settings _ _ _ _ := rfl
  atOnce _ around h := ⟨_, reply_template_of_empty h around true⟩

theorem IsPlain.claimsAtOnce {c : Completer} (h : c.IsPlain) : c.ClaimsAtOnce := by
  rcases h with rfl | h
  · exact discreet_template.atOnce
  · exact h.claimsAtOnce

/-- **A completer asks for the parts of its rule** only. -/
def AsksParts (c : Completer) : Prop :=
  ∀ view around probe part, (c.reply view around probe).Asks part → part ∈ view.rule.parts

/-- A template asks for the parts of its rule. -/
theorem asksParts_template : template.AsksParts := by
  intro view around probe part h
  simp only [template] at h
  split at h
  · cases h
  · rcases Asking.mem_or_asks_of_askAll h with hmem | ⟨answers, hasks⟩
    · exact hmem
    · cases hasks

/-- A completer that answers by itself asks for nothing. -/
theorem IsSettled.asksParts {c : Completer} (h : c.IsSettled) : c.AsksParts := by
  intro view around probe part hasks
  obtain ⟨offers, hreply⟩ := h view around probe
  rw [hreply] at hasks
  exact absurd hasks (Asking.not_asks_offer offers part)

end Completer

/-- **A rule asks for nothing but parts with a property**: none of its nodes has its completer ask
for another. -/
def Rule.AsksOnly (r : Rule) (p : Part → Prop) : Prop :=
  ∀ c ∈ r.completer, ∀ view : View, view.rule = r.toRuleBody → ∀ around probe part,
    (c.reply view around probe).Asks part → p part

namespace Rule

variable {r : Rule} {p q : Part → Prop}

theorem AsksOnly.mono (h : r.AsksOnly p) (hpq : ∀ part, p part → q part) : r.AsksOnly q :=
  fun c hc view hview around probe part hasks =>
    hpq part (h c hc view hview around probe part hasks)

theorem asksOnly_of_completer_eq_none (h : r.completer = none) : r.AsksOnly p := by
  intro c hc
  rw [h] at hc
  cases hc

/-- With a completer that asks for the parts of its rule, a rule asks for its own. -/
theorem asksOnly_of_asksParts (h : ∀ c ∈ r.completer, c.AsksParts) :
    r.AsksOnly (· ∈ r.parts) :=
  fun c hc view hview around probe part hasks => hview ▸ h c hc view around probe part hasks

end Rule

/-! ## Who speaks for a node -/

namespace Visit

variable {iso : Isolate} {g : FlatGrammar} {v : Visit} {place : Place} {r : Rule} {c : Completer}
  {probe : Bool}

/-- The rule whose completer speaks for a node, and that completer.  None speaks for a node that
continues the rule of its parent. -/
def speaker? (g : FlatGrammar) (v : Visit) : Option (Rule × Completer) :=
  (v.label.rule g).bind fun r => r.completer.bind fun c => if v.continues then none else some (r, c)

theorem speaker?_eq_some : v.speaker? g = some (r, c) ↔
    v.label.rule g = some r ∧ r.completer = some c ∧ v.continues = false := by
  simp only [speaker?, Option.bind_eq_some_iff]
  constructor
  · rintro ⟨r', hrule, c', hc, h⟩
    split at h
    · cases h
    next hcontinues =>
      cases h
      exact ⟨hrule, hc, Bool.eq_false_iff.2 hcontinues⟩
  · rintro ⟨hrule, hc, hcontinues⟩
    exact ⟨r, hrule, c, hc, by rw [hcontinues]; rfl⟩

/-- **If a completer speaks for a node**, that offers what the completer replies. -/
theorem offer_of_speaker (h : v.speaker? g = some (r, c)) : v.offer iso g probe place =
    (do (c.reply (v.view g r place) (← get).circumstances probe).run iso g) := by
  obtain ⟨hrule, hc, hcontinues⟩ := speaker?_eq_some.1 h
  simp only [offer, hrule, hc, hcontinues, Bool.false_eq_true, if_false]

/-- Any other node offers what its symbol does. -/
theorem offer_of_no_speaker (h : v.speaker? g = none) :
    v.offer iso g probe place = pure v.label.plainOffer := by
  rw [offer]
  split
  next r hrule =>
    split
    next c hc =>
      split
      · rfl
      next hcontinues =>
        rw [speaker?_eq_some.2 ⟨hrule, hc, Bool.eq_false_iff.2 hcontinues⟩] at h
        cases h
    next => rfl
  next => rfl

end Visit

end Typeahead
