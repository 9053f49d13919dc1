import Typeahead.Proofs.Grammar.Isolating
import Typeahead.Proofs.Parse.Standing
import Typeahead.Proofs.Search.TieBreak

/-!
# Proofs/Parse/Isolation — completing parts by their recipes

Isolated parts pile up: each is completed on a copy of the grammar in which the parts that it is
inside of have left a name, a rule and a production each.  The derivations of a part are the same in
all copies up to the name and the index made up for it, and if the completers are blind to the copy
(`Completer.CopyBlind`), so is what its nodes offer (`FlatGrammar.standing_relabel`).  A part then
has one plan in all copies (`FlatGrammar.planFor_eq`), and asks for parts of the rules of the
grammar at the bottom only (`WellFormed.mem_parts_of_asks`).

There are only so many of these, and each goes on record before it asks for more.  So the attempts
inside each other suffice for all of them, and completing parts follows the recipe of the grammar
(`WellFormed.run_isolate`).
-/

namespace Typeahead

open ParseTree (holds_node holdsAny_nil)

/-! ## The plan of a part -/

/-- A label of the tree of a derivation has a production for its symbol, or none. -/
theorem Derivation.Part.production_of_holds {g : FlatGrammar} {d : Derivation} {t : ParseTree}
    {l : Label} (h : d.Part g t) (hl : t.Holds l) :
    l.production = none ∨
      ∃ p ∈ g.productions, l.production = some p ∧ l.symbol = .nonterminal p.left := by
  induction h with
  | leaf hproduction =>
    rcases holds_node.1 hl with rfl | hchild
    · exact .inl hproduction
    · exact absurd hchild holdsAny_nil
  | node hp hproduction hsymbol _ _ _ ih =>
    rcases holds_node.1 hl with rfl | ⟨t, ht, hchild⟩
    · exact .inr ⟨_, hp, hproduction, hsymbol⟩
    · exact ih t ht hchild

/-- A nonterminal without completer offers nothing. -/
theorem Visit.standing_eq_none {around : Circumstances} {g : FlatGrammar} {v : Visit} {x : String}
    (hsymbol : v.label.symbol = .nonterminal x)
    (hrule : (v.label.rule g).bind (·.completer) = none) (place : Place) :
    v.standing around g place = none := by
  have hspeaker : v.speaker? g = none := by
    refine Option.eq_none_iff_forall_ne_some.2 fun ⟨r, c⟩ hsome => ?_
    obtain ⟨hr, hc, -⟩ := speaker?_eq_some.1 hsome
    rw [hr, Option.bind_some, hc] at hrule
    cases hrule
  rw [standing_of_no_speaker hspeaker, Label.plainOffer, hsymbol]
  rfl

theorem map_firstStanding (around : Circumstances) (g : FlatGrammar) (path : List Node) :
    ((firstStanding around g path).map fun (l, o) => (l.symbol, o))
      = path.findSome? fun n => (n.standing around g).map (n.label.symbol, ·) := by
  rw [firstStanding, List.map_findSome?]
  congr 1
  funext n
  rw [Function.comp, Option.map_map]
  rfl

/-! ## Copies of a grammar -/

/-- **The copies of a grammar** that completing parts in isolation works on. -/
inductive FlatGrammar.Copy (g : FlatGrammar) : FlatGrammar → Prop
  | self : Copy g g
  | isolating {h : FlatGrammar} (hh : Copy g h) (s : Symbol) (name : Option String) :
    Copy g (h.isolating s name)

theorem FlatGrammar.WellFormed.over_of_copy {g h : FlatGrammar} (hg : g.WellFormed)
    (hh : g.Copy h) : g.Over h := by
  induction hh with
  | self => exact hg.over
  | isolating _ s name ih => exact ih.isolating hg s name

/-- The view of the node in another copy, if both isolate the same part: the name and the index made
up for the part are other ones there. -/
def View.inCopy (g h : FlatGrammar) (s : Symbol) (name : Option String) (view : View) : View where
  grammar := (h.isolating s name).outline
  rule := view.rule
  label := view.label
  place := view.place.relabel (FlatGrammar.swapNames g h) (FlatGrammar.swapRules g h)

/-- **A completer is blind to the copy** of the grammar that it meets its node in: it does not look
at what is left there of other isolated parts, that is their names, rules and productions. -/
def Completer.CopyBlind (g : FlatGrammar) (c : Completer) : Prop :=
  ∀ h, g.Copy h → ∀ (s : Symbol) (name : Option String) (view : View) (around : Circumstances)
    (probe : Bool), view.grammar = (g.isolating s name).outline →
      c.reply (view.inCopy g h s name) around probe = c.reply view around probe

/-- A completer that looks at the rule and the label of its node only is blind to the copy. -/
theorem Completer.copyBlind_ofNode (g : FlatGrammar)
    (offers : RuleBody → Label → Bool → Option (List Completion)) :
    (ofNode fun view probe => offers view.rule view.label probe).CopyBlind g :=
  fun _ _ _ _ _ _ _ _ => rfl

theorem Completer.CopyBlind.standing {g h : FlatGrammar} {c : Completer} (hc : c.CopyBlind g)
    (hh : g.Copy h) {s : Symbol} {name : Option String} {view : View}
    (hview : view.grammar = (g.isolating s name).outline) (around : Circumstances) :
    c.standing around (view.inCopy g h s name) = c.standing around view := by
  rw [Completer.standing, Completer.standing, hc h hh s name view around true hview,
    hc h hh s name view around false hview]
  rfl

theorem Completer.copyBlind_template (g : FlatGrammar) : template.CopyBlind g :=
  fun _ _ _ _ _ _ _ _ => rfl

namespace FlatGrammar

variable {g h : FlatGrammar} {s : Symbol} {name : Option String}

section

variable (hg : g.WellFormed) (hover : g.Over h)
  (hs : ∀ x, s = .nonterminal x → g.symbols.knows x = true)

include hg hover

/-- The rules of the grammar below are where they were. -/
theorem Over.ruleOf_isolating {p : Production} (hp : p ∈ g.productions) :
    (h.isolating s name).ruleOf p = g.ruleOf p := by
  obtain ⟨added, hrules, -⟩ := (hover.isolating hg s name).rules
  exact ruleOf_eq hrules (hg.bounded p hp)

theorem Over.ruleOf_isolatedProduction :
    (h.isolating s name).ruleOf (h.isolatedProduction s name) = some (h.isolatedRule s name) := by
  rw [isolating_eq (hover.knows _ hg.start) hover.lefts]
  simp [ruleOf, isolatedProduction]

/-- A node that isolating adds offers nothing. -/
theorem Over.standing_added (around : Circumstances) {v : Visit} {x : String}
    (hsymbol : v.label.symbol = .nonterminal x)
    (hproduction : v.label.production = some (h.isolatedProduction s name) ∨
      v.label.production = some h.isolatedStart) (place : Place) :
    v.standing around (h.isolating s name) place = none := by
  refine Visit.standing_eq_none hsymbol ?_ place
  rcases hproduction with hproduction | hproduction
  · rw [Label.rule, hproduction, Option.bind_some, hover.ruleOf_isolatedProduction hg]
    rfl
  · rw [Label.rule, hproduction]
    rfl

/-- A node of the grammar below stays as it is. -/
theorem Over.label_relabel {v : Visit} {p : Production} (hp : p ∈ g.productions)
    (hproduction : v.label.production = some p) (hsymbol : v.label.symbol = .nonterminal p.left) :
    (v.relabel (swapNames g h) (swapRules g h)).label = v.label := by
  rw [Visit.relabel, Label.relabel, hsymbol, hproduction, Symbol.rename_nonterminal,
    hover.swapNames_eq (hg.lefts hp), Option.map_some, hover.relabel_eq hg hp, ← hsymbol,
    ← hproduction]

omit hover in
/-- **What a node of the grammar below offers** is the same in all copies. -/
theorem standing_relabel_of_mem (hblind : g.AllCompleters (Completer.CopyBlind g)) (hh : g.Copy h)
    (around : Circumstances) {n : Node} {p : Production} (hp : p ∈ g.productions)
    (hproduction : n.label.production = some p) (hsymbol : n.label.symbol = .nonterminal p.left) :
    (n.relabel (swapNames g h) (swapRules g h)).standing around (h.isolating s name)
      = n.standing around (g.isolating s name) := by
  have hover := hg.over_of_copy hh
  have hlabel : (n.toVisit.relabel (swapNames g h) (swapRules g h)).label = n.label :=
    hover.label_relabel hg hp hproduction hsymbol
  have hcontinues : (n.toVisit.relabel (swapNames g h) (swapRules g h)).continues = n.continues :=
    n.continues_relabel (swapRules g h).injective
  have hrule : n.label.rule (h.isolating s name) = n.label.rule (g.isolating s name) := by
    rw [Label.rule, Label.rule, hproduction, Option.bind_some, Option.bind_some,
      hover.ruleOf_isolating hg hp, hg.over.ruleOf_isolating hg hp]
  have hspeakers : (n.toVisit.relabel (swapNames g h) (swapRules g h)).speaker?
      (h.isolating s name) = n.speaker? (g.isolating s name) := by
    rw [Visit.speaker?, Visit.speaker?, hlabel, hcontinues, hrule]
  rw [Node.standing, Node.standing, Node.relabel]
  rcases hspeaker : n.speaker? (g.isolating s name) with _ | ⟨r, c⟩
  · rw [Visit.standing_of_no_speaker hspeaker,
      Visit.standing_of_no_speaker (hspeakers.trans hspeaker), hlabel]
  · obtain ⟨hr, hc, -⟩ := Visit.speaker?_eq_some.1 hspeaker
    have hmem : r ∈ g.rules :=
      ((Extends.refl g).isolating s name).mem_rules (Label.mem_rules hr) hc
    have hview : (n.toVisit.relabel (swapNames g h) (swapRules g h)).view (h.isolating s name) r
        (n.toPlace.relabel (swapNames g h) (swapRules g h))
          = (n.view (g.isolating s name) r n.toPlace).inCopy g h s name := by
      rw [Visit.view, hlabel]
      rfl
    rw [Visit.standing_of_speaker hspeaker,
      Visit.standing_of_speaker (hspeakers.trans hspeaker), hview,
      (hblind r hmem c hc).standing hh rfl]

omit hover in
include hs in
/-- **What a node offers** does not depend on the name and the index made up for the part. -/
theorem standing_relabel (hblind : g.AllCompleters (Completer.CopyBlind g)) (hh : g.Copy h)
    (around : Circumstances) {n : Node}
    (hn : n.label.production = none ∨ ∃ p ∈ (g.isolating s name).productions,
      n.label.production = some p ∧ n.label.symbol = .nonterminal p.left) :
    ((n.relabel (swapNames g h) (swapRules g h)).standing around (h.isolating s name)).map
        ((n.relabel (swapNames g h) (swapRules g h)).label.symbol, ·)
      = (n.standing around (g.isolating s name)).map (n.label.symbol, ·) := by
  have hover := hg.over_of_copy hh
  rcases hn with hproduction | ⟨p, hp, hproduction, hsymbol⟩
  · obtain ⟨⟨⟨_ | _, production, result, tag⟩, parentRule⟩, place⟩ := n <;>
      obtain rfl := hproduction <;> rfl
  rcases mem_isolating hg.start (fun _ => hg.lefts) hp with hp | hadded
  · have hlabel : (n.relabel (swapNames g h) (swapRules g h)).label = n.label :=
      hover.label_relabel hg hp hproduction hsymbol
    rw [hlabel, standing_relabel_of_mem hg hblind hh around hp hproduction hsymbol]
  · have hproduction' : (n.relabel (swapNames g h) (swapRules g h)).label.production
        = some (p.relabel (swapNames g h) (swapRules g h)) := by
      rw [Node.relabel, Visit.relabel, Label.relabel, hproduction, Option.map_some]
    have hsymbol' : (n.relabel (swapNames g h) (swapRules g h)).label.symbol
        = .nonterminal (swapNames g h p.left) := by
      rw [Node.relabel, Visit.relabel, Label.relabel, hsymbol, Symbol.rename_nonterminal]
    have hadded' : (n.relabel (swapNames g h) (swapRules g h)).label.production
          = some (h.isolatedProduction s name) ∨
        (n.relabel (swapNames g h) (swapRules g h)).label.production = some h.isolatedStart := by
      rw [hproduction']
      rcases hadded with rfl | rfl
      · exact .inl (congrArg some (hover.relabel_isolatedProduction hs))
      · exact .inr (congrArg some (hover.relabel_isolatedStart hg))
    rw [Node.standing, Node.standing,
      hg.over.standing_added hg around hsymbol (by rw [hproduction]; simpa using hadded),
      hover.standing_added hg around hsymbol' hadded']
    rfl

include hs

/-- The same derivations run out of input before the first success. -/
theorem Over.cut_isolating (cfg : Config) : (search (h.isolating s name) cfg []).cut
    = (search (g.isolating s name) cfg []).cut.map
      (Derivation.relabel (swapNames g h) (swapRules g h)) := by
  have hcomplete : (fun d : Derivation => !d.isComplete)
      ∘ Derivation.relabel (swapNames g h) (swapRules g h) = fun d => !d.isComplete :=
    funext fun d => by simp [Derivation.isComplete, Derivation.relabel]
  rw [search_cut, search_cut, hover.ends_isolating hg hs, List.takeWhile_map, hcomplete,
    List.filter_map]
  rfl

omit hs in
/-- The same nodes lie on the ways to their ends. -/
theorem Over.stuckNodes_relabel (d : Derivation) :
    ParseTree.stuckNodes [(d.relabel (swapNames g h) (swapRules g h)).tree]
      = (ParseTree.stuckNodes [d.tree]).map (Node.relabel (swapNames g h) (swapRules g h)) := by
  rw [Derivation.tree_relabel (swapRules g h).injective (hover.swapNames_eq hg.start),
    ← ParseTree.stuckNodes_relabel, List.map_singleton]

omit hover in
/-- **A part has one plan** in all copies of a grammar. -/
theorem planFor_eq (hblind : g.AllCompleters (Completer.CopyBlind g)) (hh : g.Copy h)
    (ctx : Context) : h.planFor ctx (s, name) = g.planFor ctx (s, name) := by
  have hover := hg.over_of_copy hh
  rw [planFor, planFor, hover.cut_isolating hg hs, plan, plan, List.filterMap_map]
  refine List.filterMap_congr fun d hd => ?_
  have hends := mem_ends_of_mem_cut hd
  rw [Function.comp, map_firstStanding, map_firstStanding, hover.stuckNodes_relabel hg,
    List.findSome?_map, ← List.head?_filterMap, ← List.head?_filterMap]
  refine congrArg List.head? (List.filterMap_congr fun n hn => ?_)
  obtain ⟨path, hpath, hv⟩ := ParseTree.exists_stuckPath_of_mem_stuckNodes hn
  exact standing_relabel hg hs hblind hh _ ((Derivation.part_tree hends).production_of_holds
    (ParseTree.holds_of_mem_stuckPath hpath hv))

end

/-! ## The parts that are asked for -/

/-- All parts of rules. -/
def parts (g : FlatGrammar) : List Part := g.rules.toList.flatMap (·.parts)

theorem length_parts (g : FlatGrammar) :
    g.parts.length = (g.rules.toList.flatMap (·.children)).length := by
  simp [parts, List.length_flatMap, RuleBody.parts]

end FlatGrammar

theorem Completer.parts_of_standing {around : Circumstances} {view : View} {parts : List Part}
    {c : Completer} (h : c.standing around view = some (.template parts)) :
    parts = view.rule.parts := by
  rw [standing] at h
  split at h
  · cases h
  · split at h
    next offers _ => cases offers <;> cases h
    next => exact (StandingOffer.template.inj (Option.some.inj h)).symm

/-- Only a rule with a completer offers a template, of all its parts. -/
theorem Node.rule_of_template {around : Circumstances} {g : FlatGrammar} {n : Node}
    {parts : List Part} (h : n.standing around g = some (.template parts)) :
    ∃ r ∈ g.rules, r.completer ≠ none ∧ parts = r.parts := by
  have hplain : n.label.plainOffer.map StandingOffer.given ≠ some (.template parts) := by
    cases n.label.plainOffer <;> simp
  rw [standing] at h
  rcases hspeaker : n.speaker? g with _ | ⟨r, c⟩
  · rw [Visit.standing_of_no_speaker hspeaker] at h
    exact absurd h hplain
  · obtain ⟨hrule, hcompleter, -⟩ := Visit.speaker?_eq_some.1 hspeaker
    rw [Visit.standing_of_speaker hspeaker] at h
    exact ⟨r, Label.mem_rules hrule, by rw [hcompleter]; exact Option.some_ne_none c,
      Completer.parts_of_standing h⟩

theorem exists_template_of_mem_askedFor {plan : List (Symbol × StandingOffer)} {part : Part}
    (h : part ∈ askedFor plan) : ∃ s parts, (s, .template parts) ∈ plan ∧ part ∈ parts := by
  induction plan with
  | nil => cases h
  | cons entry plan ih =>
    obtain ⟨s, parts | offers⟩ := entry
    · rcases List.mem_append.1 h with h | h
      · exact ⟨s, parts, List.mem_cons_self .., h⟩
      · obtain ⟨s', parts', hmem, hpart⟩ := ih h
        exact ⟨s', parts', List.mem_cons_of_mem _ hmem, hpart⟩
    · rw [askedFor] at h
      split at h
      · cases h
      · obtain ⟨s', parts', hmem, hpart⟩ := ih h
        exact ⟨s', parts', List.mem_cons_of_mem _ hmem, hpart⟩

namespace FlatGrammar

variable {g h : FlatGrammar} {ctx : Context} {part : Part}

/-- **What is asked for** is a part of some rule of the grammar. -/
theorem WellFormed.mem_parts_of_asks (hg : g.WellFormed) {asked : Part}
    (h : asked ∈ (g.recipe ctx).asks part) : asked ∈ g.parts := by
  obtain ⟨s, parts, hmem, hasked⟩ := exists_template_of_mem_askedFor h
  obtain ⟨d, -, hd⟩ := List.mem_filterMap.1 hmem
  rw [map_firstStanding] at hd
  obtain ⟨n, -, hn⟩ := List.exists_of_findSome?_eq_some hd
  obtain ⟨o, ho, heq⟩ := Option.map_eq_some_iff.1 hn
  obtain ⟨-, rfl⟩ := Prod.mk.inj heq
  obtain ⟨r, hr, hcompleter, rfl⟩ := Node.rule_of_template ho
  rw [isolating_eq hg.start fun _ => hg.lefts, Array.mem_push] at hr
  rcases hr with hr | rfl
  · exact List.mem_flatMap.2 ⟨r, Array.mem_toList_iff.2 hr, hasked⟩
  · exact absurd rfl hcompleter

/-- Parts of rules are written with known names. -/
theorem WellFormed.knows_of_mem_parts (hg : g.WellFormed) (h : part ∈ g.parts) :
    ∀ x, part.1 = .nonterminal x → g.symbols.knows x = true := by
  intro x hx
  obtain ⟨r, hr, hpart⟩ := List.mem_flatMap.1 h
  obtain ⟨⟨s, i⟩, hmem, rfl⟩ := List.mem_map.1 hpart
  refine hg.children r (Array.mem_toList_iff.1 hr) x (hx ▸ ?_)
  exact List.fst_mem_of_mem_zipIdx hmem

end FlatGrammar

/-! ## Running -/

open Recipe (Answers)

variable {R : Recipe} {k k' k₁ : Answered} {P : Part} {Ps : List Part} {v : Option Completion}
  {vs : List (Option Completion)}

/-- The number of parts that are not on record. -/
def unanswered (parts : List Part) (k : Answered) : Nat :=
  (parts.toFinset.filter fun P => k.lookup P = none).card

theorem unanswered_le (parts : List Part) (k : Answered) : unanswered parts k ≤ parts.length :=
  (Finset.card_filter_le ..).trans (List.toFinset_card_le parts)

theorem Recipe.Answers.unanswered_le (h : R.Answers k Ps vs k') (parts : List Part) :
    unanswered parts k' ≤ unanswered parts k := by
  refine Finset.card_le_card fun P hP => ?_
  rw [Finset.mem_filter] at hP ⊢
  refine ⟨hP.1, ?_⟩
  rcases hk : k.lookup P with _ | v
  · rfl
  · rw [h.lookup_eq_some hk] at hP
    cases hP.2

theorem unanswered_cons_lt {parts : List Part} (hmem : P ∈ parts) (hP : k.lookup P = none)
    (v : Option Completion) : unanswered parts ((P, v) :: k) < unanswered parts k := by
  refine Finset.card_lt_card ((Finset.ssubset_iff_of_subset fun Q hQ => ?_).2 ⟨P, ?_, ?_⟩)
  · rw [Finset.mem_filter] at hQ ⊢
    refine ⟨hQ.1, ?_⟩
    by_cases heq : Q = P
    · rw [heq, hP]
    · rw [← Recipe.lookup_cons_of_ne heq, hQ.2]
  · exact Finset.mem_filter.2 ⟨List.mem_toFinset.2 hmem, hP⟩
  · rw [Finset.mem_filter, Recipe.lookup_cons_self]
    simp

/-- With plain completers, completing in isolation keeps the settings and the journal. -/
theorem keepsCircumstances_isolateWithin (depth : Nat) {g : FlatGrammar}
    (hg : g.AllCompleters Completer.IsPlain) (part : Part) :
    KeepsCircumstances (isolateWithin depth g part) := by
  induction depth generalizing g part with
  | zero => exact fun ctx => ⟨rfl, rfl⟩
  | succ depth ih =>
    intro ctx
    have halone := hg.extends ((FlatGrammar.Extends.refl g).isolating part.1 part.2)
    rw [isolateWithin, run_isolateWith]
    split
    · exact ⟨rfl, rfl⟩
    · rw [run_isolateAnew_of_isPlain hg (ih halone)]
      exact keepsCircumstances_mapM (ih halone) _ _

/-- **A part that is not on record** is completed by its recipe, inside so many other parts. -/
theorem run_isolateWithin_of_isPlain (depth : Nat) {g : FlatGrammar}
    (hg : g.AllCompleters Completer.IsPlain) {ctx : Context} {part : Part}
    (hnew : ctx.known.lookup part = none) :
    (isolateWithin (depth + 1) g part).run ctx =
      let answered := (((g.recipe ctx).asks part).mapM
        (isolateWithin depth (g.isolating part.1 part.2))).run
        (ctx.knowing ((part, none) :: ctx.known))
      let completion := (g.recipe ctx).make part answered.1
      (completion, answered.2.knowing ((part, completion) :: answered.2.known)) := by
  have halone := hg.extends ((FlatGrammar.Extends.refl g).isolating part.1 part.2)
  rw [isolateWithin, run_isolateWith, hnew]
  exact run_isolateAnew_of_isPlain hg (keepsCircumstances_isolateWithin depth halone)

/-- **A way to complete parts follows a recipe**, as long as fewer than `n` of the given parts are
not on record. -/
def Recipe.Directs (R : Recipe) (ctx : Context) (parts : List Part) (n : Nat)
    (complete : Part → ParseM (Option Completion)) : Prop :=
  ∀ P ∈ parts, ∀ k, unanswered parts k < n → ∃ v k', R.Answers k [P] [v] k' ∧
    (complete P).run (ctx.knowing k) = (v, ctx.knowing k')

variable {ctx : Context} {parts : List Part} {n : Nat}

theorem Recipe.Directs.mapM {complete : Part → ParseM (Option Completion)}
    (h : R.Directs ctx parts n complete) (hPs : ∀ P ∈ Ps, P ∈ parts)
    (hk : unanswered parts k < n) : ∃ vs k', R.Answers k Ps vs k' ∧
      (Ps.mapM complete).run (ctx.knowing k) = (vs, ctx.knowing k') := by
  induction Ps generalizing k with
  | nil => exact ⟨[], k, .nil k, rfl⟩
  | cons P Ps ih =>
    obtain ⟨hP, hPs⟩ := List.forall_mem_cons.1 hPs
    obtain ⟨v, k₁, hv, hrun⟩ := h P hP k hk
    obtain ⟨vs, k', hvs, hruns⟩ := ih hPs ((hv.unanswered_le parts).trans_lt hk)
    refine ⟨v :: vs, k', hv.cons hvs, ?_⟩
    rw [List.mapM_cons, StateT.run_bind, hrun]
    change StateT.run (List.mapM complete Ps >>= _) (ctx.knowing k₁) = _
    rw [StateT.run_bind, hruns]
    rfl

/-- **Parts that ask for no others** are completed one after the other, and are remembered. -/
theorem run_mapM_of_asks_nil (depth : Nat) {g : FlatGrammar}
    (hg : g.AllCompleters Completer.IsPlain) (hasks : ∀ P ∈ Ps, (g.recipe ctx).asks P = [])
    (hk : ∀ P ∈ Ps, k.lookup P = none ∨ k.lookup P = some ((g.recipe ctx).make P [])) :
    ∃ k', (Ps.mapM (isolateWithin (depth + 1) g)).run (ctx.knowing k)
        = (Ps.map fun P => (g.recipe ctx).make P [], ctx.knowing k') ∧
      ∀ P ∈ Ps, k'.lookup P = some ((g.recipe ctx).make P []) := by
  have hdirects : (g.recipe ctx).Directs ctx Ps (Ps.length + 1) (isolateWithin (depth + 1) g) := by
    intro P hP k _
    rcases hlookup : k.lookup P with _ | v
    · have hinside : (g.recipe ctx).Answers ((P, none) :: k) ((g.recipe ctx).asks P) []
          ((P, none) :: k) := by
        rw [hasks P hP]
        exact .nil _
      have hnone : (g.recipe (ctx.knowing k)).asks P = [] := hasks P hP
      refine ⟨_, _, .anew hlookup hinside (.nil _), ?_⟩
      rw [run_isolateWithin_of_isPlain depth hg hlookup, hnone]
      rfl
    · have hknown : (ctx.knowing k).known = k := rfl
      refine ⟨v, k, .known hlookup (.nil k), ?_⟩
      rw [isolateWithin, run_isolateWith, hknown, hlookup]
  obtain ⟨k', hanswers, hlookup⟩ := Recipe.exists_answers_of_asks_nil hasks hk
  obtain ⟨vs, k₁, hanswers', hruns⟩ :=
    hdirects.mapM (fun _ => id) (Nat.lt_succ_of_le (unanswered_le ..))
  obtain ⟨rfl, rfl⟩ := hanswers.unique hanswers'
  exact ⟨k', hruns, hlookup⟩

namespace FlatGrammar

variable {g h : FlatGrammar}

/-- **One part is completed** by its recipe, if the parts it asks for are. -/
theorem run_isolateWith_of_directs {iso : Isolate} (hplain : h.AllCompleters Completer.IsPlain)
    (hiso : ∀ Q, KeepsCircumstances (iso (h.isolating P.1 P.2) Q)) (hg : g.WellFormed)
    (hplan : h.planFor ctx P = g.planFor ctx P)
    (hdirects : (g.recipe ctx).Directs ctx g.parts n (iso (h.isolating P.1 P.2)))
    (hk : k.lookup P = none → unanswered g.parts ((P, none) :: k) < n) :
    ∃ v k', (g.recipe ctx).Answers k [P] [v] k' ∧
      (isolateWith iso h P).run (ctx.knowing k) = (v, ctx.knowing k') := by
  have hknown : (ctx.knowing k).known = k := rfl
  rw [run_isolateWith, hknown]
  rcases hP : k.lookup P with _ | v
  · obtain ⟨us, k', hus, hrun⟩ :=
      hdirects.mapM (fun Q hQ => hg.mem_parts_of_asks hQ) (hk hP)
    have hasks : (h.recipe (ctx.knowing k)).asks P = (g.recipe ctx).asks P :=
      congrArg askedFor hplan
    have hmake : (h.recipe (ctx.knowing k)).make P = (g.recipe ctx).make P :=
      congrArg (fun plan answers => soleCompletion P (gather plan answers [])) hplan
    refine ⟨_, _, .anew hP hus (.nil _), ?_⟩
    have hrun : (((g.recipe ctx).asks P).mapM (iso (h.isolating P.1 P.2))).run
        ((ctx.knowing k).knowing ((P, none) :: (ctx.knowing k).known))
          = (us, ctx.knowing k') := hrun
    dsimp only
    rw [run_isolateAnew_of_isPlain hplain hiso, hasks, hmake, hrun]
    rfl
  · exact ⟨v, k, .known hP (.nil k), rfl⟩

section

variable (hg : g.WellFormed) (hplain : g.AllCompleters Completer.IsPlain)
  (hblind : g.AllCompleters (Completer.CopyBlind g))

include hg hplain hblind

/-- **Parts inside each other** are completed by the recipe of the grammar below, if there are
enough attempts left for those that are not on record. -/
theorem directs_isolateWithin (hh : g.Copy h) (ctx : Context) (depth : Nat) :
    (g.recipe ctx).Directs ctx g.parts depth (isolateWithin depth h) := by
  induction depth generalizing h with
  | zero => exact fun _ _ _ hk => absurd hk (Nat.not_lt_zero _)
  | succ depth ih =>
    intro P hP k hk
    have hcopy := hplain.extends (hg.over_of_copy hh).rules
    have halone := hplain.extends (hg.over_of_copy (hh.isolating P.1 P.2)).rules
    refine run_isolateWith_of_directs hcopy (keepsCircumstances_isolateWithin depth halone) hg
      (planFor_eq hg (hg.knows_of_mem_parts hP) hblind hh ctx) (ih (hh.isolating ..))
      fun hnew => ?_
    exact Nat.lt_of_lt_of_le (unanswered_cons_lt hP hnew none) (Nat.le_of_lt_succ hk)

/-- **Completing a part in isolation follows the recipe**: the attempts inside each other suffice.
-/
theorem WellFormed.run_isolate (ctx : Context) (k : Answered) (part : Part) :
    ∃ v k', (g.recipe ctx).Answers k [part] [v] k' ∧
      (isolate g part).run (ctx.knowing k) = (v, ctx.knowing k') := by
  have hdepth : isolationDepth g = g.parts.length + 1 + 1 := by rw [length_parts, isolationDepth]
  have halone := hplain.extends ((Extends.refl g).isolating part.1 part.2)
  rw [isolate, hdepth]
  exact run_isolateWith_of_directs hplain (keepsCircumstances_isolateWithin _ halone) hg rfl
    (directs_isolateWithin hg hplain hblind (.isolating .self ..) ctx _)
    fun _ => Nat.lt_succ_of_le (unanswered_le ..)

/-- **Parts completed one after the other**. -/
theorem WellFormed.run_isolates (ctx : Context) (k : Answered) (parts : List Part) :
    ∃ vs k', (g.recipe ctx).Answers k parts vs k' ∧
      (parts.mapM (isolate g)).run (ctx.knowing k) = (vs, ctx.knowing k') := by
  have hdirects : (g.recipe ctx).Directs ctx parts (parts.length + 1) (isolate g) :=
    fun P _ k _ => hg.run_isolate hplain hblind ctx k P
  exact hdirects.mapM (fun _ => id) (Nat.lt_succ_of_le (unanswered_le ..))

end

end FlatGrammar

end Typeahead
