import Typeahead.Proofs.Parse.Completions
import Typeahead.Proofs.Parse.FailureOffset
import Typeahead.Proofs.Parse.Joins

/-!
# Proofs/Parse/Offered — what becomes of a literal that is completed

A literal is offered because a derivation ran out of input within it or in front of it
(`exists_ranOutOn_of_mem_collect`).  With the whole literal entered, the same derivation matches it
and stands at the end of the input.  There nothing can fail (`ends_of_rest_eq_nil`), so one of the
derivations of the longer input is complete or runs out of input as well, unless it is given up
(`exists_end_of_ranOutOn`).  How the search ranks the others is of no importance, since to run out
of input ranks above every failure.

The derivation must not have matched the end of input before it came to the literal.  In a grammar
whose rules leave the end of input to the start symbol it has not (`pending_of_closed`).  A rule that
goes on after the start symbol offers literals that lead into failures (`offered_literal_fails`).
-/

namespace Typeahead

/-! ## At the end of the input -/

namespace Branch

variable {g : FlatGrammar} {cfg : Config} {b : Branch} {d : Derivation}

/-- **At the end of the input nothing fails**: a derivation is complete there, or runs out of input,
or is given up. -/
theorem ends_of_rest_eq_nil (hrest : b.rest = []) (hd : d ∈ b.ends g cfg) :
    d.isComplete ∨ d.ranOut ∨ d.IsCut := by
  fun_induction ends g cfg b with
  | case1 b hp =>
    obtain rfl := List.mem_singleton.1 hd
    exact .inl (by rw [Derivation.isComplete, leave, hp]; rfl)
  | case2 b t pending hp seen hm ih =>
    exact ih (by rw [accept, hrest, List.drop_nil]) hd
  | case3 b t pending hp outcome seen hne hm =>
    obtain rfl := List.mem_singleton.1 hd
    rw [hrest] at hm
    obtain rfl : outcome = .endOfInput := by
      have hout : outcome = (t.scan [] true).1 := (congrArg Prod.fst hm).symm
      exact hout.trans (t.scan_nil.resolve_left fun h => hne (hout.trans h))
    exact .inr (.inl rfl)
  | case4 b x pending hp | case6 b x pending hp =>
    obtain rfl := List.mem_singleton.1 hd
    exact .inr (.inr ⟨x, by rw [stick, hp]; rfl⟩)
  | case5 b x pending hp hidle halt ih =>
    obtain ⟨p, -, hdp⟩ := List.mem_flatMap.1 hd
    exact ih p hrest hdp

/-- After the end of input, more of it is all that can be left. -/
theorem pending_of_closed (hpending : ∀ s ∈ b.pending, s = .terminal .endOfInput)
    (hd : d ∈ b.ends g cfg) : ∀ s ∈ d.pending, s = .terminal .endOfInput := by
  fun_induction ends g cfg b with
  | case1 | case3 =>
    obtain rfl := List.mem_singleton.1 hd
    exact hpending
  | case2 b t pending hp seen hm ih =>
    refine ih (fun s hs => hpending s ?_) hd
    rw [accept_pending hp] at hs
    rw [hp]
    exact List.mem_cons_of_mem _ hs
  | case4 b x pending hp | case5 b x pending hp | case6 b x pending hp =>
    cases hpending (.nonterminal x) (by rw [hp]; exact List.mem_cons_self ..)

/-- A terminal that matches goes on matching if the text after it changes, unless it is the end of
input. -/
theorem ends_accept_of_ne_endOfInput {t : Terminal} {pending : List Symbol}
    {seen before rest : List Char} (hp : b.pending = .terminal t :: pending)
    (hrest : b.rest = seen ++ (before ++ rest))
    (hm : t.scan b.rest b.rest.isEmpty = (.successful, seen)) (ht : t ≠ .endOfInput)
    (more : List Char) : ({ b with rest := seen ++ (before ++ more) } : Branch).ends g cfg =
      ({ b.accept t seen with rest := before ++ more } : Branch).ends g cfg := by
  have hshort : t.scan (seen ++ before) (seen ++ before).isEmpty = (.successful, seen) := by
    refine Terminal.scan_of_prefix (v := rest) ?_ (List.prefix_append ..)
    rwa [hrest, ← List.append_assoc] at hm
  have hscan := Terminal.scan_append_right hshort ht more
  rw [List.append_assoc] at hscan
  rw [ends_accept (b := { b with rest := seen ++ (before ++ more) }) hp hscan]
  simp only [accept, List.drop_left]

/-- What stands before a literal that is still pending is not the end of input. -/
theorem ne_endOfInput_of_closing {t : Terminal} {pending : List Symbol} {seen : List Char}
    {text : String} (hp : b.pending = .terminal t :: pending) (hclosing : Closing b.pending)
    (hd : d ∈ (b.accept t seen).ends g cfg) (hhead : d.pending.head? = some (.literal text)) :
    t ≠ .endOfInput := by
  rintro rfl
  rw [hp] at hclosing
  have hclosed : ∀ s ∈ (b.accept .endOfInput seen).pending, s = .terminal .endOfInput := by
    rw [accept_pending hp]
    exact fun s hs => (List.pairwise_cons.1 hclosing).1 s hs (.inl rfl)
  cases pending_of_closed hclosed hd _ (List.mem_of_mem_head? hhead)

/-- A literal matches if it is all that is left, and what comes after it runs out of input. -/
theorem exists_end_of_literal {text : String} {pending : List Symbol}
    (hp : b.pending = .literal text :: pending) :
    ∃ e ∈ ({ b with rest := text.toList } : Branch).ends g cfg,
      e.isComplete ∨ e.ranOut ∨ e.IsCut := by
  have hscan : (Terminal.literal text).scan text.toList text.toList.isEmpty =
      (.successful, text.toList) := Terminal.scanLiteral_of_prefix List.prefix_rfl
  rw [ends_accept (b := { b with rest := text.toList }) hp hscan]
  have hne : (({ b with rest := text.toList } : Branch).accept (.literal text)
      text.toList).ends g cfg ≠ [] := ends_ne_nil
  obtain ⟨e, he⟩ := List.exists_mem_of_ne_nil _ hne
  exact ⟨e, he, ends_of_rest_eq_nil (by rw [accept, List.drop_length]) he⟩

/-- **With the literal entered that a derivation ran out of input on**, there is a derivation that
does not fail, if it is not given up. -/
theorem exists_end_of_ranOutOn (hg : g.Closing) (hclosing : Closing b.pending)
    (hd : d ∈ b.ends g cfg) {text : String} {pos : Nat} (hran : d.RanOutOn (.literal text) pos) :
    ∃ before rest, b.rest = before ++ rest ∧ pos = b.pos + Text.byteLength before ∧
      rest <+: text.toList ∧
      ∃ e ∈ ({ b with rest := before ++ text.toList } : Branch).ends g cfg,
        e.isComplete ∨ e.ranOut ∨ e.IsCut := by
  fun_induction ends g cfg b with
  | case1 b hp =>
    obtain rfl := List.mem_singleton.1 hd
    obtain ⟨_, ⟨-, hstuck⟩, -⟩ := hran
    cases hstuck
  | case2 b t pending hp seen hm ih =>
    have ht : t ≠ .endOfInput := by
      obtain ⟨_, ⟨hhead, -⟩, -⟩ := hran
      exact ne_endOfInput_of_closing hp hclosing hd hhead
    rw [hp] at hclosing
    have hpending := (List.pairwise_cons.1 hclosing).2
    obtain ⟨before, rest, hrest, hpos, hstarts, e, he, hend⟩ :=
      ih (by rwa [accept_pending hp]) hd
    obtain ⟨more, hmore⟩ := Terminal.scan_successful hm
    have hrest' : b.rest = seen ++ (before ++ rest) := by
      rw [← hrest, accept, ← hmore, List.drop_left]
    refine ⟨seen ++ before, rest, by rw [hrest', List.append_assoc], ?_, hstarts, e, ?_, hend⟩
    · rw [hpos, accept, Text.byteLength_append, Nat.add_assoc]
    · rwa [List.append_assoc, ends_accept_of_ne_endOfInput hp hrest' hm ht]
  | case3 b t pending hp outcome seen hne hm =>
    obtain rfl := List.mem_singleton.1 hd
    obtain ⟨_, ⟨hhead, hstuck⟩, -⟩ := hran
    obtain rfl : t = .literal text := by simpa [stick, hp] using hhead
    obtain ⟨rfl, rfl, -⟩ := Match.mk.inj (Option.some.inj hstuck)
    exact ⟨[], b.rest, rfl, rfl, Terminal.prefix_of_scanLiteral (congrArg Prod.fst hm),
      exists_end_of_literal hp⟩
  | case4 b x pending hp | case6 b x pending hp =>
    obtain rfl := List.mem_singleton.1 hd
    obtain ⟨_, ⟨-, hstuck⟩, -⟩ := hran
    cases hstuck
  | case5 b x pending hp hidle halt ih =>
    obtain ⟨p, hmem, hdp⟩ := List.mem_flatMap.1 hd
    obtain ⟨before, rest, hrest, hpos, hstarts, e, he, hend⟩ :=
      ih p (hg.expand_pending hclosing hp hmem) hdp
    refine ⟨before, rest, hrest, hpos, hstarts, e, ?_, hend⟩
    rw [ends_expand (b := { b with rest := before ++ text.toList }) hp hidle halt]
    exact List.mem_flatMap.2 ⟨p, hmem, he⟩

end Branch

/-! ## Where an offered literal comes from -/

section

variable {g : FlatGrammar} {iso : Isolate} {ctx : Context} {d : Derivation} {c : Completion}

theorem mem_of_mem_addOffers {found offers : List Completion} {origin : Origin}
    (h : c ∈ addOffers found origin offers) :
    c ∈ found ∨ ∃ offer ∈ offers, c = offer.attach origin := by
  induction offers generalizing found with
  | nil => exact .inl h
  | cons offer offers ih =>
    rw [addOffers, List.foldl_cons] at h
    rcases ih h with h | ⟨offer', hmem, hc⟩
    · dsimp only at h
      split at h
      · exact .inl h
      · rcases List.mem_append.1 h with h | h
        · exact .inl h
        · exact .inr ⟨offer, List.mem_cons_self .., List.mem_singleton.1 h⟩
    · exact .inr ⟨offer', List.mem_cons_of_mem _ hmem, hc⟩

/-- **What is collected** was found before, or is the offer of a node on the way to the end of one
of the derivations. -/
theorem exists_offer_of_mem_collect {listeners : Option Nat} {input : List Char}
    {ds : List Derivation} {found : List Completion}
    (h : c ∈ ((collect iso g listeners input ds found).run ctx).1) :
    c ∈ found ∨ ∃ d ∈ ds, ∃ n ∈ ParseTree.stuckNodes [d.tree], ∃ offers,
      (∃ ctx', ((n.offer iso g false).run ctx').1 = some offers) ∧
      ∃ offer ∈ offers, c = offer.attach
        ⟨some n.label.symbol, String.ofList (Text.sliceFrom input n.label.result.pos)⟩ := by
  induction ds generalizing found ctx with
  | nil => exact .inl h
  | cons d ds ih =>
    have hlater : ∀ {found ctx}, c ∈ ((collect iso g listeners input ds found).run ctx).1 →
        c ∈ found ∨ ∃ e ∈ d :: ds, ∃ n ∈ ParseTree.stuckNodes [e.tree], ∃ offers,
          (∃ ctx', ((n.offer iso g false).run ctx').1 = some offers) ∧
          ∃ offer ∈ offers, c = offer.attach
            ⟨some n.label.symbol, String.ofList (Text.sliceFrom input n.label.result.pos)⟩ := by
      intro found ctx h
      exact (ih h).imp_right fun ⟨e, he, hoffer⟩ => ⟨e, List.mem_cons_of_mem _ he, hoffer⟩
    have hbuild : (d.build g listeners).run ctx = (d.tree, ((d.build g listeners).run ctx).2) :=
      Prod.ext (run_build ..) rfl
    rw [collect, StateT.run_bind, hbuild] at h
    change c ∈ (StateT.run (firstOffer iso g (ParseTree.stuckNodes [d.tree]) >>= fun _ => _)
      ((d.build g listeners).run ctx).2).1 at h
    rw [StateT.run_bind] at h
    rcases hoffer : (firstOffer iso g (ParseTree.stuckNodes [d.tree])).run
      ((d.build g listeners).run ctx).2 with ⟨_ | ⟨l, offers⟩, ctx₁⟩ <;> rw [hoffer] at h
    · exact hlater h
    · obtain ⟨n, hn, rfl, hn'⟩ := exists_offer_of_firstOffer (congrArg Prod.fst hoffer)
      dsimp only [bind] at h
      split at h
      · cases h
      · rcases hlater h with h | h
        · exact (mem_of_mem_addOffers h).imp_right fun hoffer =>
            ⟨d, List.mem_cons_self .., n, hn, offers, hn', hoffer⟩
        · exact .inr h

/-- **A literal that is offered for a literal terminal** is the text of that terminal, and one of
the derivations ran out of input on it. -/
theorem exists_ranOutOn_of_mem_collect {cfg : Config} {listeners : Option Nat} {input : List Char}
    {ds : List Derivation} {found : List Completion} {origin : Origin} {text s : String}
    (hds : ∀ d ∈ ds, d ∈ (Branch.initial input).ends g cfg ∧ d.ranOut)
    (h : .literal origin text ∈ ((collect iso g listeners input ds found).run ctx).1)
    (hnew : .literal origin text ∉ found) (hsymbol : origin.symbol = some (.terminal (.literal s))) :
    text = s ∧ ∃ d ∈ ds, ∃ pos, d.RanOutOn (.literal s) pos ∧
      origin.entered = String.ofList (Text.sliceFrom input pos) := by
  obtain ⟨d, hd, n, hn, offers, ⟨ctx', hoffers⟩, offer, hoffer, hc⟩ :=
    (exists_offer_of_mem_collect h).resolve_left hnew
  have horigin : origin = ⟨some n.label.symbol,
      String.ofList (Text.sliceFrom input n.label.result.pos)⟩ := by
    cases offer <;> cases hc
    rfl
  obtain rfl := horigin
  have hlabel : n.label.symbol = .terminal (.literal s) := Option.some.inj hsymbol
  obtain ⟨hmem, hran⟩ := hds d hd
  -- the node is the last one of the way, since the others are nonterminals
  obtain ⟨path, hpath, hn⟩ := ParseTree.exists_stuckPath_of_mem_stuckNodes hn
  obtain ⟨before, u, rfl, hbefore, hproduction, hstuck⟩ :=
    (Derivation.part_tree hmem).stuckPath hpath
  obtain rfl : n.toVisit = u := by
    rcases List.mem_append.1 hn with hn | hn
    · obtain ⟨x, hx⟩ := hbefore _ hn
      cases hlabel.symm.trans hx
    · exact List.mem_singleton.1 hn
  have hplain : n.label.plainOffer = some [.literal {} s] := by rw [Label.plainOffer, hlabel]
  have hrule : n.label.rule g = none := by rw [Label.rule, hproduction]; rfl
  rw [Node.offer, Visit.offer, hrule, hplain] at hoffers
  obtain rfl := Option.some.inj hoffers
  obtain rfl := List.mem_singleton.1 hoffer
  obtain ⟨-, rfl⟩ := Completion.literal.inj hc
  obtain ⟨m, hm, hout⟩ := Derivation.stuck_of_ranOut hran
  obtain rfl : n.label.result = m := Option.some.inj (hstuck.2.symm.trans hm)
  refine ⟨rfl, d, hd, n.label.result.pos, ⟨n.label.result.text, ?_, .inl ⟨_, rfl⟩⟩, rfl⟩
  rw [← hlabel, ← hout]
  exact hstuck

end

/-! ## Literals that lead on -/

/-- The derivations that a search tries before it comes to a complete one. -/
def FlatGrammar.tried (g : FlatGrammar) (cfg : Config) (input : List Char) : List Derivation :=
  ((Branch.initial input).ends g cfg).takeWhile (!·.isComplete)

/-- Whether derivations were given up can be read off the symbols they ended at. -/
theorem uncut_of_all {ds : List Derivation}
    (h : ds.all (fun d => d.pending.head?.all Symbol.isTerminal) = true) :
    ∀ d ∈ ds, ¬ d.IsCut := by
  rintro d hd ⟨x, hx⟩
  have hhead := List.all_eq_true.1 h d hd
  rw [hx] at hhead
  cases hhead

/-- A parse does not fail if one of the derivations tried is complete, ran out of input, or would be
given up, and none is. -/
theorem parse_outcome_of_uncut {g : FlatGrammar}
    (hg : ∀ p ∈ g.alternatives SymbolTable.start, ∃ t, .terminal t ∈ p.right) {listeners : Nat}
    {input : String} {found : Option (List Completion)} {ctx : Context}
    (h : ∃ e ∈ (Branch.initial input.toList).ends g ctx.config, e.isComplete ∨ e.ranOut ∨ e.IsCut)
    (huncut : ∀ d ∈ g.tried ctx.config input.toList, ¬ d.IsCut) :
    ((parse g listeners input found).run ctx).1.failure = none ∧
      (((parse g listeners input found).run ctx).1.tree.outcome = .successful ∨
        ((parse g listeners input found).run ctx).1.tree.outcome = .endOfInput) := by
  have hviable : ∃ e ∈ (Branch.initial input.toList).ends g ctx.config,
      e.isComplete ∨ e.ranOut := by
    by_cases hc : ∃ d ∈ (Branch.initial input.toList).ends g ctx.config, d.isComplete
    · obtain ⟨d, hd, hc⟩ := hc
      exact ⟨d, hd, .inl hc⟩
    · -- without a complete one all derivations are tried
      have hall : g.tried ctx.config input.toList =
          (Branch.initial input.toList).ends g ctx.config :=
        List.takeWhile_eq_self_iff.2 fun d hd => by simpa using fun hc' => hc ⟨d, hd, hc'⟩
      obtain ⟨e, he, hend⟩ := h
      rw [← or_assoc] at hend
      exact ⟨e, he, hend.resolve_right (huncut e (hall ▸ he))⟩
  refine ⟨(parse_failure_eq_none_iff hg).2 hviable, ?_⟩
  rw [parse_tree]
  exact outcome_of_exists_ranOut hg hviable

/-! ### A rule that goes on after the start symbol -/

namespace Grammar

theorem open_numberedOrder : ∀ r ∈ numberedOrder.rules, r.target ≠ SymbolTable.start →
    ∀ s ∈ r.symbols, ¬ s.Closes := by
  have hall : ∀ r ∈ numberedOrder.rules, ∀ s ∈ r.symbols,
      s ≠ .terminal .endOfInput ∧ s ≠ .nonterminal SymbolTable.start := by decide +kernel
  exact fun r hr _ s hs hcloses => hcloses.elim (hall r hr s hs).1 (hall r hr s hs).2

/-- A `y`, or all of it again between a `z` and an `x`. -/
def selfEmbedding : Grammar :=
  ((do
    discard <| insert .sequence (some "a") [(Symbol.literal "z").unnamed,
      (Symbol.nonterminal SymbolTable.start).unnamed, (Symbol.literal "x").unnamed]
    discard <| insert .sequence (some "a") [(Symbol.literal "y").unnamed] :
      StateM Grammar Unit).run {}).2

/-- The grammar after its compile. -/
def selfEmbeddingCompiled : Grammar :=
  ((compile (.nonterminal "a")).run.run selfEmbedding).2

theorem compile_selfEmbedding :
    (compile (.nonterminal "a")).run.run selfEmbedding = (.ok (), selfEmbeddingCompiled) := rfl

end Grammar

/-- **To enter a literal that is offered does not lead to a failure**: the literal begins with what
was entered for it, which is the end of the input, and in its place parses, or ends too early. -/
theorem parse_offered_literal {G G' : Grammar} {top : Symbol}
    (hcompile : (Grammar.compile top).run.run G = (.ok (), G'))
    (hrules : ∀ r ∈ G.rules, r.target ≠ SymbolTable.start → ∀ s ∈ r.symbols, ¬ s.Closes)
    {w : String} {listeners listeners' : Nat} {found : List Completion}
    {found' : Option (List Completion)} {ctx ctx' : Context} {origin : Origin} {text s : String}
    (hconfig : ctx'.config = ctx.config)
    (hmem : .literal origin text ∈ ((parse G'.flat listeners w (some found)).run ctx).1.completions)
    (hnew : .literal origin text ∉ found)
    (hsymbol : origin.symbol = some (.terminal (.literal s))) :
    origin.entered.toList <+: text.toList ∧ ∃ before, w = before ++ origin.entered ∧
      ((∀ d ∈ G'.flat.tried ctx'.config (before ++ text).toList, ¬ d.IsCut) →
        ((parse G'.flat listeners' (before ++ text) found').run ctx').1.failure = none ∧
        (((parse G'.flat listeners' (before ++ text) found').run ctx').1.tree.outcome
            = .successful ∨
          ((parse G'.flat listeners' (before ++ text) found').run ctx').1.tree.outcome
            = .endOfInput)) := by
  have hg := exists_terminal_of_compile hcompile
  have hclosing := Grammar.closing_of_compile hcompile hrules
  have hcut := (search_mem_ends G'.flat ctx.config w.toList).2
  rw [run_parse] at hmem
  obtain ⟨rfl, d, hd, pos, hran, hentered⟩ := exists_ranOutOn_of_mem_collect hcut hmem hnew hsymbol
  obtain ⟨before, rest, hinput, hpos, hstarts, hend⟩ :=
    Branch.exists_end_of_ranOutOn hclosing (closing_initial _) (hcut d hd).1 hran
  have hinput : w.toList = before ++ rest := hinput
  have hpos : pos = Text.byteLength before := hpos.trans (Nat.zero_add _)
  rw [hinput, hpos, Text.sliceFrom_append] at hentered
  rw [hentered]
  refine ⟨by rwa [String.toList_ofList], String.ofList before, ?_, ?_⟩
  · rw [← String.ofList_append, ← hinput, String.ofList_toList]
  · refine parse_outcome_of_uncut hg ?_
    rw [String.toList_append, String.toList_ofList, hconfig]
    exact hend

/-- After `g` the literal `go` is offered, which ends too early when it is entered. -/
theorem parse_offered_literal_numberedOrder :
    .literal ⟨some (Symbol.literal "go"), "g"⟩ "go" ∈
      ((parse Grammar.numberedOrderCompiled.flat 0 "g" (some [])).run {}).1.completions ∧
    "g".toList <+: "go".toList ∧
    (∀ d ∈ Grammar.numberedOrderCompiled.flat.tried {} ("" ++ "go").toList, ¬ d.IsCut) ∧
    ((parse Grammar.numberedOrderCompiled.flat 0 ("" ++ "go") none).run {}).1.failure = none ∧
    (((parse Grammar.numberedOrderCompiled.flat 0 ("" ++ "go") none).run {}).1.tree.outcome
        = .successful ∨
      ((parse Grammar.numberedOrderCompiled.flat 0 ("" ++ "go") none).run {}).1.tree.outcome
        = .endOfInput) := by
  have hcompletions :
      ((parse Grammar.numberedOrderCompiled.flat 0 "g" (some [])).run {}).1.completions
        = [.literal ⟨some (Symbol.literal "go"), "g"⟩ "go"] := by
    rw [run_parse]
    cbv
  have hmem : .literal ⟨some (Symbol.literal "go"), "g"⟩ "go" ∈
      ((parse Grammar.numberedOrderCompiled.flat 0 "g" (some [])).run {}).1.completions := by
    rw [hcompletions]
    exact List.mem_singleton_self _
  have huncut : ∀ d ∈ Grammar.numberedOrderCompiled.flat.tried {} ("" ++ "go").toList,
      ¬ d.IsCut := uncut_of_all (by cbv)
  obtain ⟨hstarts, before, hbefore, hparse⟩ := @parse_offered_literal _ _ _
    Grammar.compile_numberedOrder Grammar.open_numberedOrder "g" 0 0 [] none {} {} _ _ _ rfl hmem
    List.not_mem_nil rfl
  obtain rfl : before = "" := by
    have hlength := congrArg String.length hbefore
    simp only [String.length_append] at hlength
    exact String.length_eq_zero_iff.1 (by omega)
  exact ⟨hmem, hstarts, huncut, hparse huncut⟩

/-- **A literal that is offered may lead to a failure**, if a rule goes on after the start symbol:
`x` is offered after `zy`, although `zyx` fails. -/
theorem offered_literal_fails :
    (Grammar.compile (.nonterminal "a")).run.run Grammar.selfEmbedding
      = (.ok (), Grammar.selfEmbeddingCompiled) ∧
    (∀ r ∈ Grammar.selfEmbedding.rules, .terminal .endOfInput ∉ r.symbols) ∧
    .literal ⟨some (Symbol.literal "x"), ""⟩ "x" ∈
      ((parse Grammar.selfEmbeddingCompiled.flat 0 "zy" (some [])).run {}).1.completions ∧
    (∀ d ∈ Grammar.selfEmbeddingCompiled.flat.tried {} ("zy" ++ "x").toList, ¬ d.IsCut) ∧
    ((parse Grammar.selfEmbeddingCompiled.flat 0 ("zy" ++ "x") none).run {}).1.failure ≠ none := by
  refine ⟨Grammar.compile_selfEmbedding, ?_, ?_, ?_, ?_⟩
  · decide +kernel
  · have hcompletions :
        ((parse Grammar.selfEmbeddingCompiled.flat 0 "zy" (some [])).run {}).1.completions
          = [.literal ⟨some (Symbol.literal "x"), ""⟩ "x"] := by
      rw [run_parse]
      cbv
    rw [hcompletions]
    exact List.mem_singleton_self _
  · refine uncut_of_all ?_
    cbv
  · have houtcome : ((parse Grammar.selfEmbeddingCompiled.flat 0 ("zy" ++ "x") none).run
        {}).1.tree.outcome = .failed := by
      rw [parse_tree]
      cbv
    exact fun hnone => parse_failure_eq_none.1 hnone houtcome

end Typeahead
