import Typeahead.Proofs.Grammar.Built
import Typeahead.Proofs.Parse.Nesting
import Typeahead.Proofs.ParseTree.Inner

/-!
# Proofs/Parse/Attempts — all grammars that a parse searches

Besides its own grammar a parse searches those of the parts that are completed in isolation, which
may ask for parts in turn (`FlatGrammar.Attempts`).  That these are all is seen by completing other
parts in any way at all: the parse comes out the same (`parseWith_eq_parse`).

Compiling looks at its own productions only.  But where a node asks for a part of its own rule, the
node has something below it, so that part has productions (`FlatGrammar.Asks.defines`); and
isolating a part takes no productions away but those of the start symbol, which gets one in their
place (`FlatGrammar.Live.isolating`).  So no search ever comes upon a nonterminal without
productions (`Grammar.exhausted_of_attempts`), as long as completers ask for no other parts than
those of their rule, or for some that have productions (`FlatGrammar.AsksForDefined`).  A completer
could ask for a name that was only declared.
-/

namespace Typeahead

/-! ## What is searched -/

/-- **The searches of a parse**: of the input, of its beginnings when a failure is explained, and of
the empty text on the grammar of every part that is asked for. -/
inductive FlatGrammar.Attempts (cfg : Config) (g : FlatGrammar) (input : List Char) :
    FlatGrammar → List Char → Prop
  | input : Attempts cfg g input g input
  | beginning (n : Nat) : Attempts cfg g input g (Text.slice input 0 n)
  | part {h : FlatGrammar} {text : List Char} {part : Part} (hh : Attempts cfg g input h text)
    (hasks : h.Asks cfg text part) : Attempts cfg g input (h.isolating part.1 part.2) []

/-- A parse that completes parts in another way. -/
def parseWith (iso : Isolate) (g : FlatGrammar) (listeners : Nat) (input : String)
    (found : Option (List Completion)) : ParseM Parsed := do
  let cs := input.toList
  let a ← attempt iso g (some listeners) cs found
  let failure ← if a.hasFailed then some <$> explain iso g cs a else pure none
  return ⟨a.tree, a.completions, failure⟩

theorem parseWith_isolate : parseWith isolate = parse := rfl

section

variable {R : Context → Context → Prop} {iso iso' : Isolate} {g : FlatGrammar} {cfg : Config}
  {input : List Char} (hR : Heeds g R)
  (hconfig : ∀ ctx ctx', R ctx ctx' → ctx.config = cfg ∧ ctx'.config = cfg)

include hR hconfig

theorem coupled_expectations
    (h : ∀ part, g.Asks cfg input part → Coupled R (iso g part) (iso' g part)) :
    Coupled R (expectations iso g input) (expectations iso' g input) := by
  refine coupled_attempt_bind hR h hconfig none (some []) fun a hancestor => ?_
  split
  · exact .bind (.bind hancestor fun _ => .pure _) fun _ => .pure _
  · exact .pure _

/-- **Parses run alike** if parts that they ask for are completed alike. -/
theorem coupled_parseWith (input : String)
    (h : ∀ text, g.Attempts cfg input.toList g text → ∀ part, g.Asks cfg text part →
      Coupled R (iso g part) (iso' g part)) (listeners : Nat)
    (found : Option (List Completion)) :
    Coupled R (parseWith iso g listeners input found) (parseWith iso' g listeners input found) := by
  refine coupled_attempt_bind hR (h _ .input) hconfig (some listeners) found fun a hancestor => ?_
  dsimp only
  split
  · refine .bind (.map (.bind hancestor fun _ => ?_) _) fun _ => .pure _
    dsimp only
    split <;> exact .bind (coupled_expectations hR hconfig (h _ (.beginning _))) fun _ => .pure _
  · exact .bind (.pure _) fun _ => .pure _

end

/-- A node on the way to an end has something below it, if it stands for a production. -/
theorem Derivation.right_ne_nil_of_leadsPast {g : FlatGrammar} {cfg : Config} {input : List Char}
    {d : Derivation} {n : Node} {p : Production} (hd : d ∈ (Branch.initial input).ends g cfg)
    (hn : d.LeadsPast n) (hp : n.label.production = some p) :
    p ∈ g.productions ∧ p.right ≠ [] := by
  obtain ⟨ts, hts, hn⟩ : ∃ ts, (∀ t ∈ ts, t ∈ d.tree :: d.tree.shape.1 :: d.tree.shape.2) ∧
      n ∈ ParseTree.stuckNodes ts := by
    rcases hn with hn | hn
    · exact ⟨[d.tree], by simp, hn⟩
    · exact ⟨_, fun _ => List.mem_cons_of_mem _, hn⟩
  obtain ⟨t, ht, path, hpath, hv⟩ := ParseTree.exists_path_of_mem_stuckNodes hn
  exact right_ne_nil_of_mem_stuckPath hd (hts t ht) hpath hv hp

namespace FlatGrammar

variable {g h : FlatGrammar} {cfg : Config} {input text : List Char} {part : Part}

theorem Attempts.extends (hh : g.Attempts cfg input h text) : g.Extends h := by
  induction hh with
  | input | beginning => exact .refl g
  | part _ _ ih => exact ih.isolating ..

/-- **A parse makes no other searches**: parts that it does not ask for may be completed in any way.
-/
theorem SelfContained.parseWith_eq_parse (hg : g.SelfContained) {iso : Isolate} (input : String)
    (hiso : ∀ h text part, g.Attempts cfg input.toList h text → h.Asks cfg text part →
      iso h part = isolateWith iso h part) (listeners : Nat) (found : Option (List Completion))
    {ctx : Context} (hcfg : ctx.config = cfg) :
    (parseWith iso g listeners input found).run ctx = (parse g listeners input found).run ctx := by
  let asked : FlatGrammar → Part → Prop := fun h part =>
    ∃ text, g.Attempts cfg input.toList h text ∧ h.Asks cfg text part
  have hclosed : ∀ h part Q, asked h part → (h.isolating part.1 part.2).Asks cfg [] Q →
      asked (h.isolating part.1 part.2) Q := by
    rintro h part Q ⟨text, hh, hasks⟩ hQ
    exact ⟨[], .part hh hasks, hQ⟩
  have hparts : ∀ h part, asked h part → part ∈ g.parts := by
    rintro h part ⟨text, hh, hasks⟩
    exact hg.mem_parts_of_asks hh.extends hasks
  have hunfolds : Unfolds asked g.parts.toFinset.card iso :=
    unfolds_of_eq_isolateWith (fun h part ⟨text, hh, hasks⟩ => hiso h text part hh hasks) _
  have hunfolds' : Unfolds asked g.parts.toFinset.card isolate := by
    refine unfolds_isolate fun h part ⟨text, hh, _⟩ => card_lt_isolationDepth hh.extends
  obtain ⟨hresult, hafter⟩ := (coupled_parseWith (heeds_sameLacking g g.parts cfg _)
    (fun _ _ => SameLacking.config_eq) input (fun text hh part hasks =>
      Unfolds.coupled hclosed hparts hunfolds hunfolds' ⟨text, hh, hasks⟩) listeners found).run
    (SameLacking.mk rfl hcfg (unanswered_le_card g.parts ctx.known))
  rw [← parseWith_isolate]
  exact Prod.ext hresult hafter.eq

/-! ## Live grammars -/

/-- **A grammar over another in which every nonterminal has productions**, and whose own productions
belong to rules that complete to nothing. -/
structure Live (g h : FlatGrammar) : Prop where
  lies : g.Over h
  bounded : ∀ p ∈ h.productions, ∀ i, p.rule = some i → i < h.rules.size
  own : ∀ p ∈ h.productions, p ∈ g.productions ∨ ∀ r, h.ruleOf p = some r → r.completer = none
  defines : ∀ p ∈ h.productions, h.Defines p.right
  start : h.Defines [.nonterminal SymbolTable.start]

variable {s : Symbol} {name : Option String} {x : String}

theorem WellFormed.live (hg : g.WellFormed) (hdefines : ∀ p ∈ g.productions, g.Defines p.right)
    (hstart : g.Defines [.nonterminal SymbolTable.start]) : g.Live g :=
  ⟨hg.over, hg.bounded, fun _ hp => .inl hp, hdefines, hstart⟩

/-- A production has no other nonterminals than it was asked for with. -/
theorem Defines.ofSymbols {symbols : List Symbol} (h : g.Defines symbols) (left : String) :
    g.Defines (Production.ofSymbols left symbols).right := by
  intro x hx
  have hx : .nonterminal x ∈ symbols.filter (· ≠ .terminal .epsilon) := hx
  exact h x (List.mem_of_mem_filter hx)

/-- Nonterminals keep their productions. -/
theorem Live.alternatives_ne_nil (hlive : g.Live h) (hg : g.WellFormed)
    (hx : g.alternatives x ≠ []) : h.alternatives x ≠ [] := by
  by_cases hne : x = SymbolTable.start
  · rw [hne]
    exact hlive.start _ (List.mem_singleton_self _)
  · obtain ⟨p, hp⟩ := List.exists_mem_of_ne_nil _ hx
    obtain ⟨hmem, hleft⟩ := List.mem_filter.1 hp
    have hknown : g.symbols.knows x = true := of_decide_eq_true hleft ▸ hg.lefts hmem
    rwa [hlive.lies.alternatives x hknown hne]

/-- Isolating a part leaves a nonterminal its productions. -/
theorem Live.alternatives_isolating_ne_nil (hlive : g.Live h) (hg : g.WellFormed)
    (hx : h.alternatives x ≠ []) : (h.isolating s name).alternatives x ≠ [] := by
  have hstart := hlive.lies.knows _ hg.start
  by_cases hne : x = SymbolTable.start
  · rw [hne, alternatives_isolating_start hstart hlive.lies.lefts]
    exact List.cons_ne_nil _ _
  · obtain ⟨p, hp⟩ := List.exists_mem_of_ne_nil _ hx
    obtain ⟨hmem, hleft⟩ := List.mem_filter.1 hp
    have hknown : h.symbols.knows x = true := of_decide_eq_true hleft ▸ hlive.lies.lefts p hmem
    rwa [alternatives_isolating hstart hlive.lies.lefts hknown hne]

/-- **Isolating a part that has productions** leaves no nonterminal without. -/
theorem Live.isolating (hlive : g.Live h) (hg : g.WellFormed) (hs : h.Defines [s])
    (name : Option String) : g.Live (h.isolating s name) := by
  have hstart := hlive.lies.knows _ hg.start
  have hmem (p : Production) (hp : p ∈ (h.isolating s name).productions) :=
    mem_isolating hstart hlive.lies.lefts hp
  obtain ⟨added, hrules, -⟩ := (Extends.refl h).isolating s name
  have hsize : (h.isolating s name).rules.size = h.rules.size + 1 := by
    rw [isolating_eq hstart hlive.lies.lefts, Array.size_push]
  have hold : ∀ symbols, h.Defines symbols → (h.isolating s name).Defines symbols :=
    fun symbols hsymbols x hx => hlive.alternatives_isolating_ne_nil hg (hsymbols x hx)
  have hself : (h.isolating s name).Defines [.nonterminal h.isolatedName] := by
    intro x hx
    rw [Symbol.nonterminal.inj (List.mem_singleton.1 hx),
      alternatives_isolating_self hstart hlive.lies.lefts]
    exact List.cons_ne_nil _ _
  refine ⟨hlive.lies.isolating hg s name, fun p hp i hi => ?_, fun p hp => ?_, fun p hp => ?_,
    hold _ hlive.start⟩
  · rw [hsize]
    rcases hmem p hp with hp | rfl | rfl
    · exact Nat.lt_succ_of_lt (hlive.bounded p hp i hi)
    · exact Option.some.inj hi ▸ Nat.lt_succ_self _
    · cases hi
  · rcases hmem p hp with hp | rfl | rfl
    · rw [ruleOf_eq hrules (hlive.bounded p hp)]
      exact hlive.own p hp
    · refine .inr fun r hr => ?_
      rw [hlive.lies.ruleOf_isolatedProduction hg] at hr
      exact Option.some.inj hr ▸ rfl
    · have hnone : h.isolatedStart.rule = none := rfl
      refine .inr fun r hr => ?_
      rw [ruleOf, hnone] at hr
      cases hr
  · rcases hmem p hp with hp | rfl | rfl
    · exact hold _ (hlive.defines p hp)
    · exact (hold _ hs).ofSymbols h.isolatedName
    · exact hself.ofSymbols SymbolTable.start

/-- **Completers ask for parts that have productions** whenever a node of their rule does: for parts
of their own rule, or for other parts of rules, if these have productions anyway. -/
def AsksForDefined (g : FlatGrammar) : Prop :=
  ∀ r ∈ g.rules, r.AsksOnly fun part => part ∈ r.parts ∨ part ∈ g.parts ∧ g.Defines [part.1]

theorem AsksForDefined.selfContained (hasks : g.AsksForDefined) : g.SelfContained :=
  fun r hr => (hasks r hr).mono fun _ hpart => hpart.elim (mem_parts hr) And.left

theorem asksForDefined_of_asksParts (hg : g.AllCompleters Completer.AsksParts) :
    g.AsksForDefined := fun r hr => (Rule.asksOnly_of_asksParts (hg r hr)).mono fun _ => .inl

/-- **A part that is asked for has productions**, if the children of rules have where a node has
something below it. -/
theorem Asks.defines (hasks : h.Asks cfg text part) (hlive : g.Live h) (hg : g.WellFormed)
    (hdefined : g.AsksForDefined)
    (hchildren : ∀ p ∈ g.productions, p.right ≠ [] → ∀ r, g.ruleOf p = some r →
      r.completer ≠ none → g.Defines r.children) : h.Defines [part.1] := by
  obtain ⟨d, hd, n, hn, r, c, around, probe, hrule, hc, hpart⟩ := hasks
  have hcompleter : r.completer ≠ none := hc ▸ Option.some_ne_none _
  obtain ⟨p, hproduction, hr⟩ := Option.bind_eq_some_iff.1 hrule
  obtain ⟨hmem, hright⟩ := d.right_ne_nil_of_leadsPast hd hn hproduction
  have hp : p ∈ g.productions := (hlive.own p hmem).resolve_right fun h => hcompleter (h r hr)
  have hold : r ∈ g.rules := Extends.mem_rules hlive.lies.rules (Label.mem_rules hrule) hc
  obtain ⟨added, hrules, -⟩ := hlive.lies.rules
  rw [ruleOf_eq hrules (hg.bounded p hp)] at hr
  have hkeeps : ∀ x, g.alternatives x ≠ [] → h.alternatives x ≠ [] :=
    fun x => hlive.alternatives_ne_nil hg
  rcases hdefined r hold c hc _ rfl around probe part hpart with hown | ⟨-, hdef⟩
  · obtain ⟨⟨t, i⟩, hmem, rfl⟩ := List.mem_map.1 hown
    intro x hx
    obtain rfl := List.mem_singleton.1 hx
    exact hkeeps x (hchildren p hp hright r hr hcompleter x (List.fst_mem_of_mem_zipIdx hmem))
  · exact fun x hx => hkeeps x (hdef x hx)

/-- **All grammars that a parse searches are live**, if its own one is. -/
theorem Attempts.live (hh : g.Attempts cfg input h text) (hlive : g.Live g) (hg : g.WellFormed)
    (hdefined : g.AsksForDefined)
    (hchildren : ∀ p ∈ g.productions, p.right ≠ [] → ∀ r, g.ruleOf p = some r →
      r.completer ≠ none → g.Defines r.children) : g.Live h := by
  induction hh with
  | input | beginning => exact hlive
  | part _ hasks ih => exact ih.isolating hg (hasks.defines ih hg hdefined hchildren) _

end FlatGrammar

/-! ## Compiled grammars -/

namespace Grammar

variable {G G' : Grammar} {top : Symbol} {cfg : Config}

/-- **No search comes upon a nonterminal without productions.**  Let a built grammar be compiled, and
let its completers ask for parts of their own rules only, or for such as have productions.  In every
search that a parse of an input makes, of the input itself or for a part that is completed in
isolation, a derivation is stuck on a nonterminal only if it has used up the depth limit, and never
for want of productions.  And these are all searches that a parse makes: parts that none of them
asks for may be completed in any way. -/
theorem exhausted_of_attempts (hG : G.Built) (hcompile : (compile top).run.run G = (.ok (), G'))
    (hasks : G'.flat.AsksForDefined) (cfg : Config) (input : String) :
    (∀ h text, G'.flat.Attempts cfg input.toList h text →
      ∀ d ∈ (Branch.initial text).ends h cfg, ∀ x m, d.StuckOn (.nonterminal x) m →
        h.alternatives x ≠ [] ∧ d.Exhausted cfg.maxDepth) ∧
    ∀ iso : Isolate, (∀ h text part, G'.flat.Attempts cfg input.toList h text →
        h.Asks cfg text part → iso h part = isolateWith iso h part) →
      ∀ listeners found ctx, ctx.config = cfg →
        (parseWith iso G'.flat listeners input found).run ctx =
          (parse G'.flat listeners input found).run ctx := by
  have hg := wellFormed_of_compile hG.reachable hcompile
  have hlive := hg.live (defines_of_compile hcompile) (defines_start_of_compile hcompile)
  refine ⟨fun h text hh d hd x m hstuck => ?_, fun iso hiso listeners found ctx hcfg =>
    hasks.selfContained.parseWith_eq_parse input hiso listeners found hcfg⟩
  have hlive := hh.live hlive hg hasks fun p hp hright r hr =>
    defines_children_of_compile hG hcompile hp hright hr
  exact Branch.exhausted_of_mem_ends hlive.defines hlive.start (Branch.idles_initial text) hd hstuck

/-! ### A child that nothing derives -/

/-- Whatever is missing, not even once. -/
def never : Grammar :=
  ((repetition (some "never") (Symbol.nonterminal "missing").unnamed 0 0).run {}).2

/-- The letter `x` and what is never there, both with templates. -/
def neverMissing : Grammar :=
  let never := ((completing .template ⟨0, "never"⟩).run never).2
  let whole := (sequence (some "a")
    [(Symbol.literal "x").unnamed, (Symbol.nonterminal "never").unnamed]).run never
  ((completing .template whole.1).run whole.2).2

/-- The grammar after its compile. -/
def neverMissingCompiled : Grammar := ((compile (.nonterminal "a")).run.run neverMissing).2

theorem compile_neverMissing :
    (compile (.nonterminal "a")).run.run neverMissing = (.ok (), neverMissingCompiled) := rfl

theorem Built.completing {G : Grammar} (hG : G.Built) (c : Completer) (r : RuleRef) :
    ((completing c r).run G).2.Built :=
  Relation.ReflTransGen.tail hG
    (.modifyRule G r (fun _ => rfl) (fun _ => rfl) (fun _ => rfl) fun _ => rfl)

theorem built_neverMissing : neverMissing.Built := by
  have hnever : never.Built := Relation.ReflTransGen.single (.repetition ..)
  have hwhole := Relation.ReflTransGen.tail (hnever.completing .template ⟨0, "never"⟩)
    (.sequence _ (some "a")
      [(Symbol.literal "x").unnamed, (Symbol.nonterminal "never").unnamed])
  exact Built.completing hwhole ..

theorem asksForDefined_neverMissing : neverMissingCompiled.flat.AsksForDefined := by
  refine FlatGrammar.asksForDefined_of_asksParts (FlatGrammar.allCompleters_of_map
    [some .template, some .template, none] rfl fun c hc => ?_)
  obtain rfl : c = .template := by simpa using hc
  exact Completer.asksParts_template

/-- Nothing derives `missing`, and no search for `x` comes upon it. -/
theorem exhausted_of_attempts_neverMissing :
    neverMissing.Built ∧
    (compile (.nonterminal "a")).run.run neverMissing = (.ok (), neverMissingCompiled) ∧
    neverMissingCompiled.flat.AsksForDefined ∧
    neverMissingCompiled.flat.alternatives "missing" = [] ∧
    ∀ h text, neverMissingCompiled.flat.Attempts {} "x".toList h text →
      ∀ d ∈ (Branch.initial text).ends h {}, ∀ x m, d.StuckOn (.nonterminal x) m →
        h.alternatives x ≠ [] ∧ d.Exhausted ({} : Config).maxDepth :=
  ⟨built_neverMissing, compile_neverMissing, asksForDefined_neverMissing, by decide,
    (exhausted_of_attempts built_neverMissing compile_neverMissing asksForDefined_neverMissing {}
      "x").1⟩

end Grammar

end Typeahead
