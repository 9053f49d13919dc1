import Typeahead.Proofs.FlatGrammar.Ownership
import Typeahead.Proofs.Parse.Viable
import Typeahead.Proofs.ParseTree.Nodes
import Mathlib

/-!
# Proofs/Parse/Completions — every way to go on is offered

Without completers a node offers what its symbol says (`firstOffer_eq`), so a derivation that ran
out of input offers the terminal it is stuck on (`firstOffer_stuckNodes`): a literal its text, any
other terminal a placeholder.  None of these is a veto, so the collection keeps them all
(`exists_mem_collect`).

If an input can be continued by `v`, one of the derivations of the input awaits `v`
(`exists_awaits_of_append`), and what it offers fits (`exists_completion_fits`).
-/

namespace Typeahead

/-! ## Offers without completers -/

/-- No rule has a completer. -/
def FlatGrammar.Plain (g : FlatGrammar) : Prop := ∀ r ∈ g.rules, r.completer = none

/-- Compiling gives no rule a completer. -/
theorem Grammar.exists_completer_of_compile {G G' : Grammar} {top : Symbol}
    (h : (Grammar.compile top).run.run G = (.ok (), G')) {r : Rule} (hr : r ∈ G'.flat.rules)
    {c : Completer} (hc : c ∈ r.completer) : ∃ r' ∈ G'.rules, c ∈ r'.completer := by
  obtain ⟨hlower, hrules, -⟩ := Grammar.compile_ok h
  obtain ⟨hfold, -⟩ := Grammar.lowerAll_ok hlower
  refine Grammar.lower_induction (P := fun g => ∀ r ∈ g.rules, c ∈ r.completer →
    ∃ r' ∈ G'.rules, c ∈ r'.completer) hfold ?_ ?_ r hr hc
  · exact fun r hr => absurd hr (Array.not_mem_empty r)
  · intro r hr g g' hg hlower r' hr' hc'
    obtain ⟨a, -, added, hadded, hputs⟩ := FlatGrammar.lower_puts hlower
    rw [← Array.mem_toList_iff, hputs.rules, List.mem_append, List.mem_cons] at hr'
    rcases hr' with hr' | rfl | hr'
    · exact hg r' (Array.mem_toList_iff.1 hr') hc'
    · exact ⟨r', hrules ▸ Array.mem_toList_iff.1 hr, hc'⟩
    · rw [(hadded r' hr').completer] at hc'
      cases hc'

theorem Grammar.plain_of_compile {G G' : Grammar} {top : Symbol}
    (h : (Grammar.compile top).run.run G = (.ok (), G'))
    (hplain : ∀ r ∈ G'.rules, r.completer = none) : G'.flat.Plain := by
  intro r hr
  refine Option.eq_none_iff_forall_not_mem.2 fun c hc => ?_
  obtain ⟨r', hr', hc'⟩ := exists_completer_of_compile h hr hc
  rw [hplain r' hr'] at hc'
  cases hc'

section

variable {g : FlatGrammar} (hg : g.Plain) (iso : Isolate)

include hg

theorem Node.offer_eq (probe : Bool) (n : Node) :
    n.offer iso g probe = pure n.label.plainOffer := by
  unfold Node.offer Visit.offer
  rcases hrule : n.label.rule g with _ | r
  · rfl
  · simp only [hg r (Label.mem_rules hrule)]

/-- **Without completers** the first node whose symbol has an offer makes it. -/
theorem firstOffer_eq (path : List Node) :
    firstOffer iso g path =
      pure ((path.map (·.toVisit)).findSome? fun v => v.label.plainOffer.map (v.label, ·)) := by
  induction path with
  | nil => rfl
  | cons n ns ih =>
    have hoffers : n.offers iso g = pure n.label.plainOffer.isSome := by
      rw [Node.offers, Visit.offers, ← Node.offer, Node.offer_eq hg]
      rfl
    rw [firstOffer, hoffers, Node.offer_eq hg, ih, List.map_cons, List.findSome?_cons]
    rcases n.label.plainOffer with _ | offers <;> rfl

end

/-- What a terminal offers when the input ends: a literal its text, any other a placeholder. -/
def Completion.IsOfferOf (t : Terminal) (origin : Origin) (c : Completion) : Prop :=
  (∃ text, t = .literal text ∧ c = .literal origin text) ∨
    (∀ text, t ≠ .literal text) ∧ ∃ name, c = .placeholder origin name

theorem Label.plainOffer_terminal {l : Label} {t : Terminal} (hsymbol : l.symbol = .terminal t)
    (ht : (∃ text, t = .literal text) ∨ l.text = "") :
    ∃ c, l.plainOffer = some [c] ∧ c.isVeto = false ∧
      ∀ origin, (c.attach origin).IsOfferOf t origin := by
  rw [plainOffer, hsymbol]
  by_cases hliteral : ∃ text, t = .literal text
  · obtain ⟨text, rfl⟩ := hliteral
    exact ⟨_, rfl, rfl, fun origin => .inl ⟨text, rfl, rfl⟩⟩
  · have hother : ∀ text, t ≠ .literal text := fun text h => hliteral ⟨text, h⟩
    refine ⟨.placeholder {} l.name, ?_, rfl, fun origin => .inr ⟨hother, l.name, rfl⟩⟩
    simp [ht.resolve_left hliteral]

/-- A derivation that ran out of input in the middle of a terminal or in front of it. -/
def Derivation.RanOutOn (d : Derivation) (t : Terminal) (pos : Nat) : Prop :=
  ∃ text, d.StuckOn (.terminal t) ⟨.endOfInput, pos, text⟩ ∧ ((∃ s, t = .literal s) ∨ text = "")

theorem Derivation.RanOutOn.unique {d : Derivation} {t t' : Terminal} {pos pos' : Nat}
    (h : d.RanOutOn t pos) (h' : d.RanOutOn t' pos') : t' = t ∧ pos' = pos := by
  obtain ⟨text, ⟨hpending, hstuck⟩, -⟩ := h
  obtain ⟨text', ⟨hpending', hstuck'⟩, -⟩ := h'
  exact ⟨by simpa using hpending'.symm.trans hpending,
    congrArg Match.pos (Option.some.inj (hstuck'.symm.trans hstuck))⟩

/-- **A derivation that ran out of input** offers the terminal it is stuck on. -/
theorem firstOffer_stuckNodes {g : FlatGrammar} (hg : g.Plain) (iso : Isolate) {cfg : Config}
    {input : List Char} {d : Derivation} {t : Terminal} {pos : Nat}
    (hd : d ∈ (Branch.initial input).ends g cfg) (hran : d.RanOutOn t pos) :
    ∃ l c, firstOffer iso g (ParseTree.stuckNodes [d.tree]) = pure (some (l, [c])) ∧
      l.symbol = .terminal t ∧ l.result.pos = pos ∧ c.isVeto = false ∧
      ∀ origin, (c.attach origin).IsOfferOf t origin := by
  obtain ⟨text, hstuck, ht⟩ := hran
  have hpart := Derivation.part_tree hd
  have houtcome : d.tree.outcome.isStuck = true := by
    rw [Derivation.outcome_tree hd hstuck.2]
    rfl
  obtain ⟨path, hpath⟩ := hpart.exists_stuckPath houtcome none
  obtain ⟨before, v, rfl, hbefore, -, hsymbol, hresult⟩ := hpart.stuckPath hpath
  have hsymbol : v.label.symbol = .terminal t := Option.some.inj (hsymbol.symm.trans hstuck.1)
  have hresult : v.label.result = ⟨.endOfInput, pos, text⟩ :=
    Option.some.inj (hresult.symm.trans hstuck.2)
  obtain ⟨c, hc, hveto, hoffer⟩ := Label.plainOffer_terminal hsymbol
    (ht.imp_right fun ht => by rw [Label.text, hresult, ht])
  refine ⟨v.label, c, ?_, hsymbol, by rw [hresult], hveto, hoffer⟩
  -- the nonterminals on the way leave the offer to the terminal
  have hnone : before.findSome? (fun u => u.label.plainOffer.map (u.label, ·)) = none := by
    refine List.findSome?_eq_none_iff.2 fun u hu => ?_
    obtain ⟨x, hx⟩ := hbefore u hu
    rw [Label.plainOffer, hx]
    rfl
  rw [firstOffer_eq hg, ParseTree.stuckNodes_of_stuckPath? hpath,
    ParseTree.map_toVisit_nodesOn, List.findSome?_append, hnone, List.findSome?_singleton, hc]
  rfl

/-! ## The collection -/

theorem mem_addOffers {found : List Completion} {origin : Origin} {offer c : Completion}
    (h : c ∈ found ∨ c = offer.attach origin) : c ∈ addOffers found origin [offer] := by
  rw [addOffers, List.foldl_cons, List.foldl_nil]
  dsimp only
  split
  next hmem => exact h.elim id fun h => h ▸ hmem
  next => simpa using h

theorem run_collect_cons {iso : Isolate} {g : FlatGrammar} {d : Derivation} {l : Label}
    {c : Completion} (listeners : Option Nat) (input : List Char) (ds : List Derivation)
    (found : List Completion) (ctx : Context)
    (hoffer : firstOffer iso g (ParseTree.stuckNodes [d.tree]) = pure (some (l, [c])))
    (hveto : c.isVeto = false) :
    (collect iso g listeners input (d :: ds) found).run ctx =
      (collect iso g listeners input ds (addOffers found
        ⟨some l.symbol, String.ofList (Text.sliceFrom input l.result.pos)⟩ [c])).run
        ((d.build g listeners).run ctx).2 := by
  have hbuild : (d.build g listeners).run ctx = (d.tree, ((d.build g listeners).run ctx).2) :=
    Prod.ext (run_build ..) rfl
  rw [collect, StateT.run_bind, hbuild]
  change StateT.run (_ >>= _) _ = _
  rw [hoffer, pure_bind]
  simp only [List.any_cons, List.any_nil, hveto, Bool.or_self, Bool.false_eq_true, if_false]

/-- **The collection keeps every offer**, if none of the derivations has a completer to ask. -/
theorem exists_mem_collect {g : FlatGrammar} (hg : g.Plain) (iso : Isolate) {cfg : Config}
    {input : List Char} (listeners : Option Nat) {ds : List Derivation}
    (hds : ∀ d ∈ ds, d ∈ (Branch.initial input).ends g cfg ∧ ∃ t pos, d.RanOutOn t pos)
    (found : List Completion) (ctx : Context) :
    (∀ c ∈ found, c ∈ ((collect iso g listeners input ds found).run ctx).1) ∧
    ∀ d ∈ ds, ∀ t pos, d.RanOutOn t pos →
      ∃ c ∈ ((collect iso g listeners input ds found).run ctx).1,
        c.IsOfferOf t ⟨some (.terminal t), String.ofList (Text.sliceFrom input pos)⟩ := by
  induction ds generalizing found ctx with
  | nil => exact ⟨fun c hc => hc, fun d hd => absurd hd List.not_mem_nil⟩
  | cons d ds ih =>
    obtain ⟨hd, t, pos, hran⟩ := hds d (List.mem_cons_self ..)
    obtain ⟨l, c, hoffer, hsymbol, hpos, hveto, hc⟩ := firstOffer_stuckNodes hg iso hd hran
    rw [run_collect_cons listeners input ds found ctx hoffer hveto, hsymbol, hpos]
    obtain ⟨hfound, hrest⟩ := ih (fun d hd => hds d (List.mem_cons_of_mem _ hd))
      (addOffers found ⟨some (.terminal t), String.ofList (Text.sliceFrom input pos)⟩ [c])
      ((d.build g listeners).run ctx).2
    refine ⟨fun c hc => hfound c (mem_addOffers (.inl hc)), fun e he t' pos' hran' => ?_⟩
    rcases List.mem_cons.1 he with rfl | he
    · obtain ⟨rfl, rfl⟩ := hran.unique hran'
      exact ⟨_, hfound _ (mem_addOffers (.inr rfl)), hc _⟩
    · exact hrest e he t' pos' hran'

/-! ## Completions that fit -/

/-- **A completion fits the text `v` after `w`**: a literal takes the place of what was entered for
it and is continued by `v`, a placeholder stands for a terminal that accepts what `v` begins
with. -/
def Completion.Fits (w v : List Char) : Completion → Prop
  | literal origin text =>
    ∃ before, w = before ++ origin.entered.toList ∧ before ++ text.toList <+: w ++ v
  | placeholder origin _ =>
    ∃ t c, origin.symbol = some (.terminal t) ∧ v.head? = some c ∧ t.accepts c = true
  | veto _ | available _ | template _ _ => False

/-- What a derivation that awaits `v` offers fits `v`. -/
theorem Completion.IsOfferOf.fits {t : Terminal} {before rest v : List Char} {c : Completion}
    (h : c.IsOfferOf t ⟨some (.terminal t), String.ofList rest⟩) (hspans : t.Spans rest v) :
    c.Fits (before ++ rest) v := by
  rcases h with ⟨text, rfl, rfl⟩ | ⟨hother, name, rfl⟩
  · rcases hspans with ⟨text', htext, hstarts⟩ | ⟨c, -, haccepts⟩
    · cases htext
      refine ⟨before, by rw [String.toList_ofList], ?_⟩
      rw [List.append_assoc]
      exact (List.prefix_append_right_inj before).2 hstarts
    · cases haccepts
  · rcases hspans with ⟨text, htext, -⟩ | ⟨c, hc, haccepts⟩
    · exact absurd htext (hother text)
    · exact ⟨t, c, rfl, hc, haccepts⟩

/-- Every end that ran out of input did so on a terminal. -/
theorem Branch.ranOutOn_of_mem_ends {g : FlatGrammar} {cfg : Config} {b : Branch} {d : Derivation}
    (hd : d ∈ b.ends g cfg) (hran : d.ranOut) : ∃ t pos, d.RanOutOn t pos := by
  fun_induction ends g cfg b with
  | case1 b hp =>
    obtain rfl := List.mem_singleton.1 hd
    cases hran
  | case2 b t pending hp seen hm ih => exact ih hd
  | case3 b t pending hp outcome seen hne hm =>
    obtain rfl := List.mem_singleton.1 hd
    obtain rfl : outcome = .endOfInput := by simpa [Derivation.ranOut, stick] using hran
    refine ⟨t, b.pos, String.ofList seen, ⟨by rw [stick, hp]; rfl, rfl⟩, ?_⟩
    exact (Terminal.literal_or_nil_of_scan hm).imp_right fun h => by rw [h]
  | case4 b x pending hp | case6 b x pending hp =>
    obtain rfl := List.mem_singleton.1 hd
    cases hran
  | case5 b x pending hp hidle halt ih =>
    obtain ⟨p, -, hdp⟩ := List.mem_flatMap.1 hd
    exact ih p hdp

/-! ### An instance cut off within a literal -/

namespace Grammar

/-- The order `go` with a digit. -/
def numberedOrder : Grammar :=
  ((insert .sequence (some "order")
    [(Symbol.literal "go").unnamed, (Symbol.terminal .digit).unnamed]).run {}).2

/-- The grammar after its compile. -/
def numberedOrderCompiled : Grammar :=
  ((compile (.nonterminal "order")).run.run numberedOrder).2

theorem compile_numberedOrder :
    (compile (.nonterminal "order")).run.run numberedOrder = (.ok (), numberedOrderCompiled) := rfl

end Grammar

/-- **No completion is lost**: if an input ends too early and could go on with `v`, one of its
completions fits `v`. -/
theorem exists_completion_fits {G G' : Grammar} {top : Symbol}
    (hcompile : (Grammar.compile top).run.run G = (.ok (), G'))
    (hplain : ∀ r ∈ G'.rules, r.completer = none) {w v : String} {listeners listeners' : Nat}
    {found : List Completion} {found' : Option (List Completion)} {ctx ctx' : Context}
    (hconfig : ctx'.config = ctx.config)
    (hw : ((parse G'.flat listeners w (some found)).run ctx).1.tree.outcome = .endOfInput)
    (hwv : ((parse G'.flat listeners' (w ++ v) found').run ctx').1.tree.outcome = .successful) :
    ∃ c ∈ ((parse G'.flat listeners w (some found)).run ctx).1.completions,
      c.Fits w.toList v.toList := by
  have hg := exists_terminal_of_compile hcompile
  rw [parse_tree, outcome_eq_successful_iff hg, String.toList_append, hconfig] at hwv
  rw [parse_tree] at hw
  have hincomplete : ¬ ∃ d ∈ (Branch.initial w.toList).ends G'.flat ctx.config, d.isComplete := by
    rw [← outcome_eq_successful_iff hg, hw]
    nofun
  -- a derivation of the whole, cut off after `w`, awaits `v`
  obtain ⟨d, hd, hc⟩ := hwv
  obtain ⟨e, he, hend⟩ := Branch.exists_awaits_of_append hd hc rfl
  have hawaits : e.Awaits 0 w.toList v.toList := hend.resolve_left fun hc => hincomplete ⟨e, he, hc⟩
  have hcut : (search G'.flat ctx.config w.toList).cut =
      ((Branch.initial w.toList).ends G'.flat ctx.config).filter (·.ranOut) := by
    obtain ⟨_, -, hsearch⟩ := (search_settles G'.flat ctx.config w.toList).2
      (by simpa using hincomplete)
    rw [hsearch]
  have hmem : e ∈ (search G'.flat ctx.config w.toList).cut := by
    rw [hcut]
    exact List.mem_filter.2 ⟨he, hawaits.ranOut⟩
  have hran : ∀ d ∈ (search G'.flat ctx.config w.toList).cut,
      d ∈ (Branch.initial w.toList).ends G'.flat ctx.config ∧ ∃ t pos, d.RanOutOn t pos := by
    intro d hd
    rw [hcut] at hd
    obtain ⟨hd, hran⟩ := List.mem_filter.1 hd
    exact ⟨hd, Branch.ranOutOn_of_mem_ends hd hran⟩
  -- so its offer is among the completions
  obtain ⟨t, before, rest, seen, hinput, hscan, hspans, hstuck⟩ := hawaits
  have hranOn : e.RanOutOn t (Text.byteLength before) := by
    rw [Nat.zero_add] at hstuck
    exact ⟨_, hstuck, (Terminal.literal_or_nil_of_scan hscan).imp_right fun h => by rw [h]⟩
  obtain ⟨c, hc, hoffer⟩ := (exists_mem_collect (Grammar.plain_of_compile hcompile hplain) isolate
    (some listeners) hran found ctx).2 e hmem t _ hranOn
  rw [hinput, Text.sliceFrom_append] at hoffer
  refine ⟨c, ?_, hinput ▸ hoffer.fits hspans⟩
  rw [run_parse]
  exact hc

/-- After `g` the literal `go` is offered, which goes on with `o1`. -/
theorem exists_completion_fits_numberedOrder :
    ((parse Grammar.numberedOrderCompiled.flat 0 "g" (some [])).run {}).1.tree.outcome
      = .endOfInput ∧
    ((parse Grammar.numberedOrderCompiled.flat 0 ("g" ++ "o1") none).run {}).1.tree.outcome
      = .successful ∧
    ∃ c ∈ ((parse Grammar.numberedOrderCompiled.flat 0 "g" (some [])).run {}).1.completions,
      c.Fits "g".toList "o1".toList := by
  have hplain : ∀ r ∈ Grammar.numberedOrderCompiled.rules, r.completer = none := by
    have hall : Grammar.numberedOrderCompiled.rules.all (·.completer.isNone) = true := by
      decide +kernel
    exact fun r hr => Option.isNone_iff_eq_none.1 (Array.all_eq_true_iff_forall_mem.1 hall r hr)
  have hg : ((parse Grammar.numberedOrderCompiled.flat 0 "g" (some [])).run {}).1.tree.outcome
      = .endOfInput := by
    rw [parse_tree]
    cbv
  have hgo : ((parse Grammar.numberedOrderCompiled.flat 0 ("g" ++ "o1") none).run {}).1.tree.outcome
      = .successful := by
    rw [parse_tree]
    cbv
  exact ⟨hg, hgo, exists_completion_fits Grammar.compile_numberedOrder hplain rfl hg hgo⟩

end Typeahead
