import Typeahead.Proofs.Parse.Isolation

/-!
# Proofs/Parse/Remembered — whether it matters what was asked before

The completions of parts are remembered, also those found on the way to another.  For most parts
this makes no difference (`isolate_after`): a part is completed as if nothing had been asked for
before it, unless both lead to a circle of several parts.

A part that only asks for itself is on no circle: it has no completion within itself, whenever it
is asked for.  On a circle the part that is asked for first is under way when the others are
completed, so they are remembered without it (`WellFormed.isolate_circle`).  A completer, too, can
tell within which parts it was asked for, by what these leave in the grammar.
-/

namespace Typeahead

/-- The first offer on a way is made by the first node that makes one wherever it is. -/
theorem firstStanding_nodesOn {around : Circumstances} {g : FlatGrammar} {before path : List Visit}
    {v : Visit} {o : StandingOffer}
    (hbefore : ∀ u ∈ before, ∀ place, u.standing around g place = none)
    (hv : ∀ place, v.standing around g place = some o) (ts : List ParseTree) :
    firstStanding around g (ParseTree.nodesOn ts (before ++ v :: path)) = some (v.label, o) := by
  rw [ParseTree.nodesOn]
  dsimp only
  generalize (ParseTree.stuckWayAll? 0 ts).getD [] = way
  generalize 0 = i
  induction before generalizing i with
  | nil => exact firstStanding_cons_some (n := ⟨v, _⟩) (hv _)
  | cons u before ih =>
    obtain ⟨hu, hbefore⟩ := List.forall_mem_cons.1 hbefore
    exact (firstStanding_cons_none (n := ⟨u, _⟩) (hu _)).trans (ih hbefore (i + 1))

/-- A template of a rule that has parts is one of all of them. -/
theorem Completer.standing_template {around : Circumstances} {view : View}
    (h : view.label.text = "") (hparts : view.rule.parts ≠ []) :
    template.standing around view = some (.template view.rule.parts) := by
  obtain ⟨part, parts, hcons⟩ := List.exists_cons_of_ne_nil hparts
  rw [standing, reply_template_of_empty h, reply_template_of_empty h, hcons]
  rfl

namespace FlatGrammar

/-! ## What some parts ask for -/

variable {g : FlatGrammar} {ctx : Context} {s : Symbol} {name : Option String} {x c : String}

/-- The branch that has an isolated part pending. -/
def isolatedBranch (g : FlatGrammar) (s : Symbol) (name : Option String) : Branch :=
  ((Branch.initial []).expand g.isolatedStart).expand (g.isolatedProduction s name)

/-- What a literal matches of the empty text. -/
def emptyMatch : Match := ⟨.endOfInput, 0, ""⟩

/-- The way down to an isolated part. -/
def isolatedPath (g : FlatGrammar) (s : Symbol) (name : Option String) : List Visit :=
  [⟨⟨.nonterminal SymbolTable.start, some g.isolatedStart, emptyMatch, {}⟩, none⟩,
    ⟨⟨.nonterminal g.isolatedName, some (g.isolatedProduction s name), emptyMatch, {}⟩, none⟩]

/-- The node of an isolated part. -/
def isolatedVisit (g : FlatGrammar) (s : Symbol) (p : Option Production) (name : Option String) :
    Visit :=
  ⟨⟨s, p, emptyMatch, ⟨ChildNames.nameAt [name] 0, 0⟩⟩, some g.rules.size⟩

theorem WellFormed.ends_isolating (hg : g.WellFormed) {cfg : Config} (hdepth : 2 ≤ cfg.maxDepth) :
    (Branch.initial []).ends (g.isolating s name) cfg
      = (g.isolatedBranch s name).ends (g.isolating s name) cfg := by
  have hstart : (g.isolating s name).alternatives SymbolTable.start = [g.isolatedStart] :=
    alternatives_isolating_start hg.start fun _ => hg.lefts
  have hself : (g.isolating s name).alternatives g.isolatedName = [g.isolatedProduction s name] :=
    alternatives_isolating_self hg.start fun _ => hg.lefts
  rw [Branch.ends_expand (x := SymbolTable.start) rfl (by simp only [Branch.initial]; omega)
      (by rw [hstart]; exact List.cons_ne_nil _ _), hstart, List.flatMap_singleton,
    Branch.ends_expand (x := g.isolatedName) rfl
      (by simp only [Branch.initial, Branch.expand]; omega)
      (by rw [hself]; exact List.cons_ne_nil _ _), hself, List.flatMap_singleton, isolatedBranch]

/-- The nodes above an isolated part offer nothing. -/
theorem WellFormed.standing_isolatedPath (hg : g.WellFormed) (around : Circumstances) {v : Visit}
    (hv : v ∈ g.isolatedPath s name) (place : Place) :
    v.standing around (g.isolating s name) place = none := by
  rcases List.mem_pair.1 hv with rfl | rfl
  · exact hg.over.standing_added hg around rfl (.inr rfl) place
  · exact hg.over.standing_added hg around rfl (.inl rfl) place

/-- The plan of a part with a single derivation, which is stuck below a node that offers something.
-/
theorem WellFormed.planFor_of_ends (hg : g.WellFormed) (hdepth : 2 ≤ ctx.config.maxDepth)
    {d : Derivation} {v : Visit} {path : List Visit} {o : StandingOffer}
    (hends : (g.isolatedBranch s name).ends (g.isolating s name) ctx.config = [d])
    (hd : d.ranOut = true) (hstuck : d.isComplete = false)
    (hpath : d.tree.stuckPath? none = some (g.isolatedPath s name ++ v :: path))
    (hv : ∀ place, v.standing ctx.circumstances (g.isolating s name) place = some o) :
    g.planFor ctx (s, name) = [(v.label.symbol, o)] := by
  have hcut : (search (g.isolating s name) ctx.config []).cut = [d] := by
    rw [search_cut, hg.ends_isolating hdepth, hends]
    simp [hd, hstuck]
  rw [planFor, hcut, plan, List.filterMap_cons, ParseTree.stuckNodes_of_stuckPath? hpath,
    firstStanding_nodesOn (fun u hu place => hg.standing_isolatedPath _ hu place) hv]
  rfl

theorem scan_literal_nil (hc : c.toList ≠ []) :
    (Terminal.literal c).scan [] true = (.endOfInput, []) := by
  rw [Terminal.scan]
  rcases h : c.toList with _ | ⟨e, es⟩
  · exact absurd h hc
  · rfl

/-- **A literal** offers its text. -/
theorem WellFormed.planFor_literal (hg : g.WellFormed) (hdepth : 2 ≤ ctx.config.maxDepth)
    (hc : c.toList ≠ []) :
    g.planFor ctx (.literal c, name) = [(.literal c, .given [.literal {} c])] := by
  let b := g.isolatedBranch (.literal c) name
  let v := g.isolatedVisit (.literal c) none name
  have hends : b.ends (g.isolating (.literal c) name) ctx.config = [b.stick emptyMatch] :=
    Branch.ends_stuck rfl (scan_literal_nil hc) (by decide)
  have hpath : (b.stick emptyMatch).tree.stuckPath? none
      = some (g.isolatedPath (.literal c) name ++ [v]) := rfl
  exact hg.planFor_of_ends hdepth hends rfl rfl hpath fun _ => rfl

section

variable {p : Production} {r : Rule} {ss : List Symbol}

/-- A nonterminal with a single alternative, which starts with a literal. -/
theorem WellFormed.ends_isolatedBranch (hg : g.WellFormed) {cfg : Config}
    (hdepth : 3 ≤ cfg.maxDepth) (hp : p ∈ g.productions) (hx : p.left ≠ SymbolTable.start)
    (halternatives : g.alternatives p.left = [p]) (hright : p.right = .literal c :: ss)
    (hc : c.toList ≠ []) :
    (g.isolatedBranch (.nonterminal p.left) name).ends (g.isolating (.nonterminal p.left) name) cfg
      = [((g.isolatedBranch (.nonterminal p.left) name).expand p).stick emptyMatch] := by
  have hsame : (g.isolating (.nonterminal p.left) name).alternatives p.left = [p] := by
    rw [alternatives_isolating hg.start (fun _ => hg.lefts) (hg.lefts hp) hx, halternatives]
  have hpending : ((g.isolatedBranch (.nonterminal p.left) name).expand p).pending
      = .literal c :: ss := by
    rw [← hright]
    exact List.append_nil p.right
  rw [Branch.ends_expand (x := p.left) rfl
      (by simp only [isolatedBranch, Branch.initial, Branch.expand]; omega)
      (by rw [hsame]; exact List.cons_ne_nil _ _),
    hsame, List.flatMap_singleton, Branch.ends_stuck hpending (scan_literal_nil hc) (by decide)]
  rfl

theorem exists_stuckPath?_isolatedBranch (g : FlatGrammar) (name : Option String)
    (hright : p.right = .literal c :: ss) :
    ∃ path, (((g.isolatedBranch (.nonterminal p.left) name).expand p).stick
        emptyMatch).tree.stuckPath? none
      = some (g.isolatedPath (.nonterminal p.left) name
        ++ g.isolatedVisit (.nonterminal p.left) (some p) name :: path) := by
  obtain ⟨left, right, rule, naming, shaping⟩ := p
  obtain rfl := hright
  exact ⟨_, rfl⟩

/-- The node of an isolated part that has a rule is asked for its completer's offer. -/
theorem WellFormed.standing_isolatedVisit (hg : g.WellFormed) (around : Circumstances)
    (hp : p ∈ g.productions) (hrule : g.ruleOf p = some r) {c : Completer}
    (hc : r.completer = some c) (place : Place) :
    (g.isolatedVisit (.nonterminal p.left) (some p) name).standing around
        (g.isolating (.nonterminal p.left) name) place
      = c.standing around ((g.isolatedVisit (.nonterminal p.left) (some p) name).view
        (g.isolating (.nonterminal p.left) name) r place) := by
  have hnew : p.rule ≠ some g.rules.size := fun h => (hg.bounded p hp _ h).ne rfl
  have hcontinues : (g.isolatedVisit (.nonterminal p.left) (some p) name).continues = false := by
    simp [Visit.continues, Label.continues, Label.ruleIndex, isolatedVisit, hnew]
  have hrule : (g.isolatedVisit (.nonterminal p.left) (some p) name).label.rule
      (g.isolating (.nonterminal p.left) name) = some r :=
    (hg.over.ruleOf_isolating hg hp).trans hrule
  exact Visit.standing_of_speaker (Visit.speaker?_eq_some.2 ⟨hrule, hc, hcontinues⟩)

/-- **A sequence that starts with a literal** offers what its completer does. -/
theorem WellFormed.planFor_of_standing (hg : g.WellFormed) (hdepth : 3 ≤ ctx.config.maxDepth)
    (hx : x ≠ SymbolTable.start) (halternatives : g.alternatives x = [p])
    (hright : p.right = .literal c :: ss) (hc : c.toList ≠ []) (hrule : g.ruleOf p = some r)
    {completer : Completer} (hr : r.completer = some completer) {o : StandingOffer}
    (ho : ∀ place, completer.standing ctx.circumstances
      ((g.isolatedVisit (.nonterminal p.left) (some p) name).view
        (g.isolating (.nonterminal p.left) name) r place) = some o) :
    g.planFor ctx (.nonterminal x, name) = [(.nonterminal x, o)] := by
  obtain ⟨hp, rfl⟩ : p ∈ g.productions ∧ p.left = x := by
    have hp : p ∈ g.alternatives x := by rw [halternatives]; exact List.mem_singleton_self p
    simpa [alternatives] using hp
  have hends : (g.isolatedBranch (.nonterminal p.left) name).ends
      (g.isolating (.nonterminal p.left) name) ctx.config = [_] :=
    hg.ends_isolatedBranch hdepth hp hx halternatives hright hc
  obtain ⟨path, hpath⟩ := exists_stuckPath?_isolatedBranch g name hright
  have hsome : p.right ≠ [] := by
    rw [hright]
    exact List.cons_ne_nil _ _
  have hstuck : p.right ++ [] ≠ [] := List.append_ne_nil_of_left_ne_nil hsome []
  refine hg.planFor_of_ends (by omega) hends rfl (List.isEmpty_eq_false_iff.2 hstuck) hpath
    fun place => ?_
  rw [hg.standing_isolatedVisit _ hp hrule hr, ho]

/-- **A sequence with a template** that starts with a literal offers a template of all its parts. -/
theorem WellFormed.planFor_template (hg : g.WellFormed) (hdepth : 3 ≤ ctx.config.maxDepth)
    (hx : x ≠ SymbolTable.start) (halternatives : g.alternatives x = [p])
    (hright : p.right = .literal c :: ss) (hc : c.toList ≠ []) (hrule : g.ruleOf p = some r)
    (hr : r.completer = some .template) (hparts : r.parts ≠ []) :
    g.planFor ctx (.nonterminal x, name) = [(.nonterminal x, .template r.parts)] :=
  hg.planFor_of_standing hdepth hx halternatives hright hc hrule hr fun _ =>
    Completer.standing_template rfl hparts

end

theorem WellFormed.recipe_literal (hg : g.WellFormed) (hdepth : 2 ≤ ctx.config.maxDepth)
    (hc : c.toList ≠ []) :
    (g.recipe ctx).asks (.literal c, name) = [] ∧
      ∀ us, (g.recipe ctx).make (.literal c, name) us
        = some (.literal ⟨some (.literal c), ""⟩ c) := by
  simp only [recipe, hg.planFor_literal hdepth hc]
  exact ⟨rfl, fun _ => rfl⟩

theorem WellFormed.recipe_template (hg : g.WellFormed) (hdepth : 3 ≤ ctx.config.maxDepth)
    {p : Production} {r : Rule} {ss : List Symbol} (hx : x ≠ SymbolTable.start)
    (halternatives : g.alternatives x = [p]) (hright : p.right = .literal c :: ss)
    (hc : c.toList ≠ []) (hrule : g.ruleOf p = some r) (hr : r.completer = some .template)
    (hparts : r.parts ≠ []) :
    (g.recipe ctx).asks (.nonterminal x, name) = r.parts ∧
      ∀ us, (g.recipe ctx).make (.nonterminal x, name) us = some (.template
        ⟨some (.nonterminal x), ""⟩ ((us.take r.parts.length).flatMap Option.toList)) := by
  simp only [recipe, hg.planFor_template hdepth hx halternatives hright hc hrule hr hparts]
  exact ⟨List.append_nil _, fun _ => rfl⟩

end FlatGrammar

/-! ## Queries one after the other -/

open FlatGrammar

theorem Context.knowing_nil {ctx : Context} (h : ctx.known = []) : ctx.knowing [] = ctx := by
  rw [knowing, ← h]

/-- **Completing a part does not depend on what was asked for before it**, unless a part on a circle
is led to both by it and by what had been asked for when it was asked for the first time.  The
completers are templates or answer by themselves, and they answer the same in whichever copy of the
grammar they meet their node. -/
theorem isolate_after {g : FlatGrammar} (hg : g.WellFormed)
    (hplain : g.AllCompleters Completer.IsPlain)
    (hblind : g.AllCompleters (Completer.CopyBlind g)) {ctx : Context} (hctx : ctx.known = [])
    (before : List Part) (part : Part)
    (hapart : ∀ P, (g.recipe ctx).LedTo (before.takeWhile (· ≠ part)) P →
      (g.recipe ctx).Leads part P → ¬ (g.recipe ctx).Circular P) :
    ((isolate g part).run ((before.mapM (isolate g)).run ctx).2).1
      = ((isolate g part).run ctx).1 := by
  obtain ⟨us, k, hbefore, hruns⟩ := hg.run_isolates hplain hblind ctx [] before
  obtain ⟨v, k₁, hafter, hrun⟩ := hg.run_isolate hplain hblind ctx k part
  obtain ⟨w, k₂, hfresh, hrun'⟩ := hg.run_isolate hplain hblind ctx [] part
  rw [ctx.knowing_nil hctx] at hruns hrun'
  rw [hruns, hrun, hrun']
  exact hbefore.eq_fresh hafter hfresh hapart

/-! ### Literals -/

/-- A literal as a part without a name. -/
def literalPart (text : String) : Part := (.literal text, none)

/-- What a literal is completed to. -/
def literalAlone (text : String) : Completion := .literal ⟨some (.literal text), ""⟩ text

/-- **Literals are completed to their texts**, one after the other, and are remembered so. -/
theorem FlatGrammar.WellFormed.run_literals {g : FlatGrammar} (hg : g.WellFormed)
    (hplain : g.AllCompleters Completer.IsPlain) {ctx : Context}
    (hdepth : 2 ≤ ctx.config.maxDepth) (cs : List String) (hcs : ∀ c ∈ cs, c.toList ≠ [])
    {k : Answered} (hk : ∀ c ∈ cs, k.lookup (literalPart c) = none ∨
      k.lookup (literalPart c) = some (some (literalAlone c))) :
    ∃ k', ((cs.map literalPart).mapM (isolate g)).run (ctx.knowing k)
        = (cs.map fun c => some (literalAlone c), ctx.knowing k') ∧
      ∀ c ∈ cs, k'.lookup (literalPart c) = some (some (literalAlone c)) := by
  have hliteral (c : String) (hc : c ∈ cs) : (g.recipe ctx).asks (literalPart c) = [] ∧
      (g.recipe ctx).make (literalPart c) [] = some (literalAlone c) :=
    (hg.recipe_literal hdepth (hcs c hc)).imp_right (· [])
  have hasks : ∀ P ∈ cs.map literalPart, (g.recipe ctx).asks P = [] :=
    List.forall_mem_map.2 fun c hc => (hliteral c hc).1
  obtain ⟨k', hruns, hknown⟩ := run_mapM_of_asks_nil _ hplain hasks <|
    List.forall_mem_map.2 fun c hc => (hliteral c hc).2 ▸ hk c hc
  refine ⟨k', hruns.trans ?_, fun c hc => ?_⟩
  · rw [List.map_map]
    exact Prod.ext (List.map_congr_left fun c hc => (hliteral c hc).2) rfl
  · rw [hknown _ (List.mem_map_of_mem hc), (hliteral c hc).2]

/-! ### A sequence that refers to itself -/

theorem FlatGrammar.AllCompleters.isPlain {g : FlatGrammar} (hg : g.AllCompleters (· = .template)) :
    g.AllCompleters Completer.IsPlain := hg.mono fun _ => .inl

theorem FlatGrammar.AllCompleters.copyBlind {g : FlatGrammar}
    (hg : g.AllCompleters (· = .template)) : g.AllCompleters (Completer.CopyBlind g) := by
  refine hg.mono fun c hc => ?_
  rw [hc]
  exact Completer.copyBlind_template g

namespace Grammar

/-- A sequence with a completer. -/
def sequenceWith (c : Completer) (name : String) (children : List Named) :
    StateM Grammar RuleRef := do
  completing c (← sequence (some name) children)

/-- A sequence with a template. -/
abbrev templated := sequenceWith .template

theorem Reachable.sequenceWith {G : Grammar} (hG : G.Reachable) (c : Completer) (name : String)
    (children : List Named) : ((Grammar.sequenceWith c name children).run G).2.Reachable := by
  have hkind : ∀ j, RuleKind.sequence ≠ .join j := fun _ => by simp
  have hsequence : ((sequence (some name) children).run G).2.Reachable :=
    hG.tail (.insert G hkind (some name) children)
  exact hsequence.tail (.modifyRule _ _ (fun _ => rfl) fun _ => rfl)

/-- Any number of `x`. -/
def chain : Grammar :=
  ((templated "a" [(Symbol.literal "x").unnamed, (Symbol.nonterminal "a").unnamed]).run {}).2

/-- The grammar after its compile. -/
def chainCompiled : Grammar := ((compile (.nonterminal "a")).run.run chain).2

theorem compile_chain :
    (compile (.nonterminal "a")).run.run chain = (.ok (), chainCompiled) := rfl

theorem wellFormed_chain : chainCompiled.flat.WellFormed :=
  wellFormed_of_compile (Reachable.sequenceWith .refl ..) compile_chain

theorem templates_chain : chainCompiled.flat.AllCompleters (· = .template) :=
  allCompleters_of_map [some .template, none] rfl (by simp)

/-- The literal of the grammar. -/
def chainLiteral : Part := (.literal "x", none)

/-- The sequence of the grammar. -/
def chainSequence (name : Option String) : Part := (.nonterminal "a", name)

theorem asks_chainLiteral : (chainCompiled.flat.recipe {}).asks chainLiteral = [] :=
  (wellFormed_chain.recipe_literal (c := "x") (by decide) (by decide)).1

theorem asks_chainSequence (name : Option String) :
    (chainCompiled.flat.recipe {}).asks (chainSequence name)
      = [chainLiteral, chainSequence none] :=
  (wellFormed_chain.recipe_template (x := "a") (c := "x") (by decide) (by decide) rfl rfl
    (by decide) rfl rfl (List.cons_ne_nil _ _)).1

/-- The sequence asks for itself, but is on no circle with another part. -/
theorem straight_chain : (chainCompiled.flat.recipe {}).Straight (chainSequence none) := by
  have hliteral : (chainCompiled.flat.recipe {}).Straight chainLiteral :=
    .of_self (by simp [asks_chainLiteral])
  refine .of_self fun Q hQ => ?_
  rw [asks_chainSequence, List.mem_pair] at hQ
  rcases hQ with rfl | rfl
  · refine .inr ⟨hliteral, fun hleads => ?_⟩
    cases hleads.eq_of_asks_nil asks_chainLiteral
  · exact .inl rfl

end Grammar

open Grammar in
theorem isolate_after_chain :
    let flat := chainCompiled.flat
    let before := [chainSequence (some "first"), chainLiteral]
    ((isolate flat (chainSequence none)).run ((before.mapM (isolate flat)).run {}).2).1
      = ((isolate flat (chainSequence none)).run {}).1 :=
  isolate_after wellFormed_chain templates_chain.isPlain templates_chain.copyBlind rfl _ _
    fun P _ hP => straight_chain P hP

/-! ### Two sequences that refer to each other -/

/-- **On a circle of two it matters what was asked for first**: the other part is remembered without
it, but gets a completion with it in it if nothing was asked for before. -/
theorem FlatGrammar.WellFormed.isolate_circle {g : FlatGrammar} (hg : g.WellFormed)
    (hcompleters : g.AllCompleters (· = .template)) {ctx : Context}
    (hctx : ctx.known = []) {P Q T U : Part} (hP : (g.recipe ctx).asks P = [T, Q])
    (hQ : (g.recipe ctx).asks Q = [U, P]) (hT : (g.recipe ctx).asks T = [])
    (hU : (g.recipe ctx).asks U = []) (hnodup : [P, Q, T, U].Nodup) :
    let make := (g.recipe ctx).make
    ((isolate g Q).run ((isolate g P).run ctx).2).1 = make Q [make U [], none] ∧
      ((isolate g Q).run ctx).1 = make Q [make U [], make P [make T [], none]] := by
  have hnodup' : [Q, P, U, T].Nodup := by
    simp only [List.nodup_cons, List.mem_cons] at hnodup ⊢
    tauto
  obtain ⟨k, hfirst, hknown⟩ := Recipe.exists_answers_of_circle hP hQ hT hU hnodup
  obtain ⟨k', hfresh, -⟩ := Recipe.exists_answers_of_circle hQ hP hU hT hnodup'
  obtain ⟨v, k₁, hv, hrun⟩ := hg.run_isolate hcompleters.isPlain hcompleters.copyBlind ctx [] P
  obtain ⟨-, rfl⟩ := hfirst.unique hv
  obtain ⟨w, k₂, hw, hrunAfter⟩ := hg.run_isolate hcompleters.isPlain hcompleters.copyBlind ctx k Q
  obtain rfl := hw.eq_of_lookup hknown
  obtain ⟨w, k₃, hw, hrunFresh⟩ := hg.run_isolate hcompleters.isPlain hcompleters.copyBlind ctx [] Q
  obtain rfl := List.head_eq_of_cons_eq (hfresh.unique hw).1
  rw [Context.knowing_nil hctx] at hrun hrunFresh
  rw [hrun, hrunAfter, hrunFresh]
  exact ⟨rfl, rfl⟩

namespace Grammar

/-- `x` and `y` in turns. -/
def turns : Grammar :=
  let first :=
    (templated "a" [(Symbol.literal "x").unnamed, (Symbol.nonterminal "b").unnamed]).run {}
  ((templated "b" [(Symbol.literal "y").unnamed, (Symbol.nonterminal "a").unnamed]).run first.2).2

/-- The grammar after its compile. -/
def turnsCompiled : Grammar := ((compile (.nonterminal "a")).run.run turns).2

theorem compile_turns : (compile (.nonterminal "a")).run.run turns = (.ok (), turnsCompiled) := rfl

theorem wellFormed_turns : turnsCompiled.flat.WellFormed :=
  wellFormed_of_compile (Reachable.sequenceWith (Reachable.sequenceWith .refl ..) ..) compile_turns

theorem templates_turns : turnsCompiled.flat.AllCompleters (· = .template) :=
  allCompleters_of_map [some .template, some .template, none] rfl (by simp)

theorem recipe_turns_a :
    (turnsCompiled.flat.recipe {}).asks (.nonterminal "a", none)
      = [(.literal "x", none), (.nonterminal "b", none)] ∧
    ∀ us, (turnsCompiled.flat.recipe {}).make (.nonterminal "a", none) us = some (.template
      ⟨some (.nonterminal "a"), ""⟩ ((us.take 2).flatMap Option.toList)) :=
  wellFormed_turns.recipe_template (x := "a") (c := "x") (show 3 ≤ 4096 by decide) (by decide)
    rfl rfl (by decide) rfl rfl (List.cons_ne_nil _ _)

theorem recipe_turns_b :
    (turnsCompiled.flat.recipe {}).asks (.nonterminal "b", none)
      = [(.literal "y", none), (.nonterminal "a", none)] ∧
    ∀ us, (turnsCompiled.flat.recipe {}).make (.nonterminal "b", none) us = some (.template
      ⟨some (.nonterminal "b"), ""⟩ ((us.take 2).flatMap Option.toList)) :=
  wellFormed_turns.recipe_template (x := "b") (c := "y") (show 3 ≤ 4096 by decide) (by decide)
    rfl rfl (by decide) rfl rfl (List.cons_ne_nil _ _)

theorem asks_turns_literal {c : String} (hc : c.toList ≠ []) :
    (turnsCompiled.flat.recipe {}).asks (.literal c, none) = [] :=
  (wellFormed_turns.recipe_literal (by decide) hc).1

/-! ### A completer that looks at what other parts left -/

/-- Offers the number of productions. -/
def counting : Completer := .ofNode fun v _ =>
  some [.literal {} (toString v.grammar.productions.length)]

/-- A sequence with a template, and in it one that counts. -/
def counted : Grammar :=
  let first :=
    (templated "a" [(Symbol.literal "x").unnamed, (Symbol.nonterminal "b").unnamed]).run {}
  ((sequenceWith counting "b" [(Symbol.literal "y").unnamed]).run first.2).2

/-- The grammar after its compile. -/
def countedCompiled : Grammar := ((compile (.nonterminal "a")).run.run counted).2

theorem compile_counted :
    (compile (.nonterminal "a")).run.run counted = (.ok (), countedCompiled) := rfl

theorem wellFormed_counted : countedCompiled.flat.WellFormed :=
  wellFormed_of_compile (Reachable.sequenceWith (Reachable.sequenceWith .refl ..) ..)
    compile_counted

theorem plain_counted : countedCompiled.flat.AllCompleters Completer.IsPlain := by
  refine allCompleters_of_map [some .template, some counting, none] rfl fun c hc => ?_
  obtain rfl | rfl : c = .template ∨ c = counting := by simpa using hc
  · exact .inl rfl
  · exact .inr (Completer.isSettled_ofNode _)

/-- The number that is offered, at the beginning of a part that is isolated in a grammar. -/
def countIn (g : FlatGrammar) : Completion :=
  .literal ⟨some (.nonterminal "b"), ""⟩
    (toString (g.isolating (.nonterminal "b") none).productions.length)

theorem recipe_counted {g : FlatGrammar} (hg : g.WellFormed) {p : Production} {r : Rule}
    (halternatives : g.alternatives "b" = [p]) (hright : p.right = [.literal "y"])
    (hrule : g.ruleOf p = some r) (hr : r.completer = some counting) {ctx : Context}
    (hdepth : 3 ≤ ctx.config.maxDepth) :
    (g.recipe ctx).asks (.nonterminal "b", none) = [] ∧
      (g.recipe ctx).make (.nonterminal "b", none) [] = some (countIn g) := by
  have hplan : g.planFor ctx (.nonterminal "b", none) = [(.nonterminal "b", .given [.literal {}
      (toString (g.isolating (.nonterminal "b") none).productions.length)])] := by
    refine hg.planFor_of_standing hdepth (by decide) halternatives hright (by decide) hrule hr
      fun _ => ?_
    have hleft : p.left = "b" := by
      have hp : p ∈ g.alternatives "b" := by rw [halternatives]; exact List.mem_singleton_self p
      exact of_decide_eq_true (List.mem_filter.1 hp).2
    rw [hleft]
    rfl
  simp only [recipe, hplan]
  exact ⟨rfl, rfl⟩

theorem asks_counted : (countedCompiled.flat.recipe {}).asks (.nonterminal "a", none)
    = [literalPart "x", (.nonterminal "b", none)] :=
  (wellFormed_counted.recipe_template (x := "a") (c := "x") (by decide) (by decide) rfl rfl
    (by decide) rfl rfl (List.cons_ne_nil _ _)).1

/-- The copy of the grammar for `a`. -/
def countedCopy : FlatGrammar := countedCompiled.flat.isolating (.nonterminal "a") none

theorem wellFormed_countedCopy : countedCopy.WellFormed :=
  wellFormed_counted.isolating fun x hx => by
    obtain rfl := Symbol.nonterminal.inj hx
    rfl

theorem plain_countedCopy : countedCopy.AllCompleters Completer.IsPlain :=
  plain_counted.extends ((Extends.refl _).isolating ..)

/-- If nothing was asked for, the number is that of the copy for `b`. -/
theorem isolate_counted : ((isolate countedCompiled.flat (.nonterminal "b", none)).run {}).1
    = some (countIn countedCompiled.flat) := by
  obtain ⟨hnone, hmake⟩ := recipe_counted wellFormed_counted rfl rfl rfl rfl
    (show 3 ≤ ({} : Context).config.maxDepth by decide)
  rw [isolate, isolationDepth, run_isolateWithin_of_isPlain _ plain_counted rfl, hnone]
  exact hmake

/-- Once `a` was asked for, it is that of the copy for `b` of the copy for `a`. -/
theorem isolate_counted_after :
    ((isolate countedCompiled.flat (.nonterminal "b", none)).run
      ((isolate countedCompiled.flat (.nonterminal "a", none)).run {}).2).1
      = some (countIn countedCopy) := by
  obtain ⟨hnone, hmake⟩ := recipe_counted wellFormed_countedCopy rfl rfl rfl rfl
    (show 3 ≤ ({} : Context).config.maxDepth by decide)
  have hasks : ∀ P ∈ [literalPart "x", (.nonterminal "b", none)],
      (countedCopy.recipe {}).asks P = [] :=
    List.forall_mem_cons.2 ⟨(wellFormed_countedCopy.recipe_literal (by decide) (by decide)).1,
      List.forall_mem_singleton.2 hnone⟩
  -- both parts of `a` are completed on its copy, and remembered
  obtain ⟨depth, hdepth⟩ : ∃ depth, isolationDepth countedCompiled.flat = depth + 1 + 1 := ⟨_, rfl⟩
  obtain ⟨k, hruns, hknown⟩ := run_mapM_of_asks_nil (k := [((.nonterminal "a", none), none)]) depth
    plain_countedCopy hasks
    (List.forall_mem_cons.2 ⟨.inl rfl, List.forall_mem_singleton.2 (.inl rfl)⟩)
  have hlookup : ((isolate countedCompiled.flat (.nonterminal "a", none)).run {}).2.known.lookup
      (.nonterminal "b", none) = some (some (countIn countedCopy)) := by
    rw [isolate, hdepth, run_isolateWithin_of_isPlain _ plain_counted rfl, asks_counted]
    change List.lookup _ (_ :: _) = _
    rw [Recipe.lookup_cons_of_ne (by decide), ← countedCopy, hruns]
    exact (hknown _ (by simp)).trans (congrArg some hmake)
  rw [isolate, hdepth, isolateWithin, run_isolateWith, hlookup]

end Grammar

open Grammar in
/-- **It matters what was asked for before** on a circle, where the sequence `b` is remembered
without `a` if `a` was asked for first, and for a completer that looks at what an isolated part
leaves in the grammar, which finds more if it is asked for within that part. -/
theorem isolate_turns_counted :
    ((isolate turnsCompiled.flat (.nonterminal "b", none)).run
        ((isolate turnsCompiled.flat (.nonterminal "a", none)).run {}).2).1
      ≠ ((isolate turnsCompiled.flat (.nonterminal "b", none)).run {}).1 ∧
    ((isolate countedCompiled.flat (.nonterminal "b", none)).run
        ((isolate countedCompiled.flat (.nonterminal "a", none)).run {}).2).1
      ≠ ((isolate countedCompiled.flat (.nonterminal "b", none)).run {}).1 := by
  constructor
  · have hknown : ({} : Context).known = [] := rfl
    obtain ⟨hafter, hfresh⟩ := wellFormed_turns.isolate_circle templates_turns hknown
      recipe_turns_a.1 recipe_turns_b.1 (asks_turns_literal (by decide))
      (asks_turns_literal (by decide)) (by decide)
    rw [hafter, hfresh, recipe_turns_b.2, recipe_turns_b.2, recipe_turns_a.2]
    simp
  · rw [isolate_counted_after, isolate_counted]
    decide

end Typeahead
