import Typeahead.Proofs.Parse.Collection
import Typeahead.Proofs.Parse.Completions
import Typeahead.Proofs.Parse.Remembered

/-!
# Proofs/Parse/Looks — completions that look alike

A parse lists each offer once.  Offers are compared part by part, but a user sees of a completion no
more than its rendering, the symbol it completes and the text entered for it.  Completions of one
kind, fixed texts or placeholders, differ in these (`Completion.eq_of_look`), and so all completions
look different where there are no completers (`looks_nodup_of_plain`).  A template does not show how
its text is split into parts, though, so two templates may look alike (`looks_not_nodup`).
-/

namespace Typeahead

/-! ## Looks -/

/-- **What a user can tell a completion by**: its symbol, the text entered for that, and how it is
shown. -/
def Completion.look (c : Completion) : Origin × String := (c.origin, c.render)

/-- Both are fixed texts, or both are placeholders. -/
def Completion.Matches : Completion → Completion → Prop
  | literal .., literal .. | placeholder .., placeholder .. => True
  | _, _ => False

/-- **Fixed texts that look alike are the same**, and so are placeholders. -/
theorem Completion.eq_of_look {c c' : Completion} (hlook : c.look = c'.look)
    (hmatches : c.Matches c') : c = c' := by
  obtain ⟨horigin, hrender⟩ := Prod.mk.inj hlook
  cases c <;> cases c'
  case literal.literal o text o' text' =>
    simp_all [origin, render, pieces, Piece.render]
  case placeholder.placeholder o name o' name' =>
    simp_all [origin, render, pieces, Piece.render]
  all_goals exact hmatches.elim

theorem Completion.IsOfferOf.matches {t : Terminal} {o o' : Origin} {c c' : Completion}
    (h : c.IsOfferOf t o) (h' : c'.IsOfferOf t o') : c.Matches c' := by
  rcases h with ⟨text, rfl, rfl⟩ | ⟨hother, name, rfl⟩ <;>
    rcases h' with ⟨text', htext, rfl⟩ | ⟨hother', name', rfl⟩
  · trivial
  · exact absurd rfl (hother' text)
  · exact absurd htext (hother text')
  · trivial

theorem Completion.IsOfferOf.origin {t : Terminal} {o : Origin} {c : Completion}
    (h : c.IsOfferOf t o) : c.origin = o := by
  rcases h with ⟨text, -, rfl⟩ | ⟨-, name, rfl⟩ <;> rfl

/-- What a node offers by its symbol is the offer of a terminal, unless it is a veto. -/
theorem Label.isOfferOf_of_plainOffer {l : Label} {offers : List Completion}
    (h : l.plainOffer = some offers) (hveto : offers.any Completion.isVeto = false)
    (entered : String) : ∃ t, ∀ c ∈ offers, (c.attach ⟨some l.symbol, entered⟩).IsOfferOf t
      ⟨some (.terminal t), entered⟩ := by
  rcases hsymbol : l.symbol with t | x
  · have ht : (∃ text, t = .literal text) ∨ l.text = "" := by
      by_contra hnot
      obtain ⟨hother, htext⟩ := not_or.1 hnot
      rw [plainOffer, hsymbol] at h
      cases t with
      | literal text => exact hother ⟨text, rfl⟩
      | _ =>
        obtain rfl : [Completion.veto {}] = offers := by simpa [htext] using h
        cases hveto
    obtain ⟨c, hc, -, hoffer⟩ := plainOffer_terminal hsymbol ht
    obtain rfl : [c] = offers := Option.some.inj (hc.symm.trans h)
    exact ⟨t, fun e he => List.mem_singleton.1 he ▸ hoffer _⟩
  · rw [plainOffer, hsymbol] at h
    cases h

/-- **Without completers** only terminals are offered. -/
theorem isOfferOf_of_offered {g : FlatGrammar} (hg : g.Plain) (iso : Isolate)
    {listeners : Option Nat} {input : List Char} {ds : List Derivation} {ctx : Context}
    {cs : List Completion} (h : ((offered iso g listeners input ds).run ctx).1 = some cs) :
    ∀ c ∈ cs, ∃ t entered, c.IsOfferOf t ⟨some (.terminal t), entered⟩ := by
  induction ds generalizing ctx cs with
  | nil =>
    obtain rfl : [] = cs := Option.some.inj h
    simp
  | cons d ds ih =>
    simp only [offered, ParseM.run_bind, firstOffer_eq hg] at h
    generalize (d.build g listeners).run ctx = built at h
    obtain ⟨t, ctx⟩ := built
    dsimp only at h
    rcases hfirst : ((ParseTree.stuckNodes [t]).map (·.toVisit)).findSome? fun v =>
      v.label.plainOffer.map (v.label, ·) with _ | ⟨l, offers⟩
    · rw [hfirst] at h
      exact ih h
    · rw [hfirst] at h
      change (StateT.run (ite _ _ _ : ParseM (Option (List Completion))) ctx).1 = _ at h
      split at h
      · cases h
      next hveto =>
        obtain ⟨more, hmore, rfl⟩ := Option.map_eq_some_iff.1 h
        obtain ⟨v, -, hv⟩ := List.exists_of_findSome?_eq_some hfirst
        obtain ⟨_, hplain, hv⟩ := Option.map_eq_some_iff.1 hv
        obtain ⟨rfl, rfl⟩ := Prod.mk.inj hv
        obtain ⟨t, ht⟩ := Label.isOfferOf_of_plainOffer hplain (Bool.eq_false_iff.2 hveto)
          (String.ofList (Text.sliceFrom input v.label.result.pos))
        intro c hc
        rcases List.mem_append.1 hc with hc | hc
        · obtain ⟨e, he, rfl⟩ := List.mem_map.1 hc
          exact ⟨t, _, ht e he⟩
        · exact ih hmore c hc

/-- **Completions look different**, each taken once, if different ones do. -/
theorem nodup_looks_iff {offers : List Completion} :
    ((addEach [] offers).map Completion.look).Nodup ↔
      ∀ c ∈ offers, ∀ c' ∈ offers, c.look = c'.look → c = c' := by
  rw [List.nodup_map_iff_inj_on (nodup_addEach List.nodup_nil)]
  simp [mem_addEach]

/-- **Without completers all completions look different.** -/
theorem looks_nodup_of_plain {g : FlatGrammar} (hg : g.Plain) (listeners : Nat) (input : String)
    (ctx : Context) :
    (((parse g listeners input (some [])).run ctx).1.completions.map Completion.look).Nodup := by
  rw [completions_parse, nodup_looks_iff]
  intro c hc c' hc' hlook
  rcases hoffered : ((offered isolate g (some listeners) input.toList
    (search g ctx.config input.toList).cut).run ctx).1 with _ | cs
  · rw [hoffered] at hc
    cases hc
  · rw [hoffered] at hc hc'
    obtain ⟨t, entered, h⟩ := isOfferOf_of_offered hg isolate hoffered c hc
    obtain ⟨t', entered', h'⟩ := isOfferOf_of_offered hg isolate hoffered c' hc'
    have horigin := congrArg Prod.fst hlook
    rw [Completion.look, Completion.look, h.origin, h'.origin] at horigin
    obtain ⟨rfl, rfl⟩ : t = t' ∧ entered = entered' := by simpa using horigin
    exact Completion.eq_of_look hlook (h.matches h')

/-! ## Offers of a silent grammar -/

/-- A grammar that nobody listens to tells nothing. -/
theorem Derivation.build_silent {g : FlatGrammar} (hg : g.rules.any (·.listener.isSome) = false)
    (d : Derivation) : d.build g (some 0) = d.build g none := by
  funext ctx
  rw [build, build]
  dsimp only
  rw [hg]
  rfl

theorem collect_silent {g : FlatGrammar} (hg : g.rules.any (·.listener.isSome) = false)
    (iso : Isolate) (input : List Char) (ds : List Derivation) (found : List Completion) :
    collect iso g (some 0) input ds found = collect iso g none input ds found := by
  induction ds generalizing found with
  | nil => rfl
  | cons d ds ih => simp only [collect, Derivation.build_silent hg, ih]

namespace Grammar

/-- A pair of letters written in two ways, as two literals and as one, each with a template. -/
def twoWays : Grammar :=
  let first :=
    (templated "x" [(Symbol.literal "a").unnamed, (Symbol.literal "b").unnamed]).run {}
  ((templated "x" [(Symbol.literal "ab").unnamed]).run first.2).2

/-- The grammar after its compile. -/
def twoWaysCompiled : Grammar := ((compile (.nonterminal "x")).run.run twoWays).2

theorem compile_twoWays :
    (compile (.nonterminal "x")).run.run twoWays = (.ok (), twoWaysCompiled) := rfl

theorem reachable_twoWays : twoWays.Reachable :=
  Reachable.sequenceWith (Reachable.sequenceWith .refl ..) ..

theorem wellFormed_twoWays : twoWaysCompiled.flat.WellFormed :=
  wellFormed_of_compile reachable_twoWays compile_twoWays

theorem templates_twoWays : twoWaysCompiled.flat.AllCompleters (· = .template) :=
  FlatGrammar.allCompleters_of_map [some .template, some .template, none] rfl (by simp)

/-- The two templates of the empty text. -/
theorem plan_twoWays :
    twoWaysCompiled.flat.plan ⟨{}, []⟩ (search twoWaysCompiled.flat {} []).cut =
      [(.nonterminal "x", .template (["a", "b"].map literalPart)),
        (.nonterminal "x", .template (["ab"].map literalPart))] := by
  cbv

theorem completions_twoWays :
    ((parse twoWaysCompiled.flat 0 "" (some [])).run {}).1.completions =
      [.template ⟨some (.nonterminal "x"), ""⟩ [literalAlone "a", literalAlone "b"],
        .template ⟨some (.nonterminal "x"), ""⟩ [literalAlone "ab"]] := by
  have hplain := templates_twoWays.isPlain
  -- the literals are completed one after the other
  obtain ⟨k, hruns, -⟩ := wellFormed_twoWays.run_literals hplain
    (show 2 ≤ ({} : Context).config.maxDepth by decide) ["a", "b", "ab"] (by decide) (k := [])
    fun _ _ => .inl rfl
  rw [Context.knowing_nil rfl] at hruns
  have hkeeps : ∀ part, KeepsCircumstances (isolate twoWaysCompiled.flat part) :=
    keepsCircumstances_isolateWithin _ hplain
  have hcollect := run_collect hplain
    (fun d (hd : d ∈ (search twoWaysCompiled.flat {} []).cut) => mem_ends_of_mem_cut hd) hkeeps {}
    rfl []
  rw [run_parse, run_attempt_some]
  dsimp only
  rw [String.toList_empty, collect_silent (by decide +kernel), hcollect]
  dsimp only
  rw [show (({} : Context).circumstances) = ⟨{}, []⟩ from rfl, plan_twoWays,
    show askedFor _ = ["a", "b", "ab"].map literalPart from rfl, hruns]
  rfl

end Grammar

/-- **The completions of a parse** are the offers of the derivations that ran out of input, each
once.  They look different if and only if no two different offers look alike, and if two of them do
look alike, these are not two fixed texts or two placeholders. -/
theorem looks_of_parse (g : FlatGrammar) (listeners : Nat) (input : String) (ctx : Context) :
    let cut := (search g ctx.config input.toList).cut
    let offers := ((offered isolate g (some listeners) input.toList cut).run ctx).1.getD []
    let found := ((parse g listeners input (some [])).run ctx).1.completions
    found = offers.eraseDups ∧
      ((found.map Completion.look).Nodup ↔
        ∀ c ∈ offers, ∀ c' ∈ offers, c.look = c'.look → c = c') ∧
      ∀ c ∈ found, ∀ c' ∈ found, c.look = c'.look → c.Matches c' → c = c' := by
  intro cut offers found
  have hfound : found = addEach [] offers := completions_parse g listeners input ctx
  refine ⟨?_, ?_, fun c _ c' _ => Completion.eq_of_look⟩
  · rw [hfound, addEach_eq]
    simp [List.removeAll]
  · rw [hfound]
    exact nodup_looks_iff

/-- **Completions that look alike**: at the beginning of a pair of letters that may be written as
two literals or as one, either way is offered. -/
theorem looks_not_nodup :
    (Grammar.compile (.nonterminal "x")).run.run Grammar.twoWays
      = (.ok (), Grammar.twoWaysCompiled) ∧
    ¬ (((parse Grammar.twoWaysCompiled.flat 0 "" (some [])).run {}).1.completions.map
      Completion.look).Nodup := by
  refine ⟨rfl, ?_⟩
  rw [Grammar.completions_twoWays]
  decide +kernel

end Typeahead
