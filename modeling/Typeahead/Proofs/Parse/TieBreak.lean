import Typeahead.Proofs.Parse.Anew
import Typeahead.Proofs.Search.TieBreak

/-!
# Proofs/Parse/TieBreak — what a parse takes from its tie-break

The completions of a parse are collected from derivations that are noted whatever the tie-break, so
collecting is blind to it (`TieBlind`) if completing in isolation is.  An isolated attempt may still
end up with another tree when it fails, but under discreet completers that changes nothing
(`run_isolateAnew`).  So completing in isolation is blind at every depth (`tieBlind_isolateWithin`),
and the tie-break of a parse decides only which of several equally good failures, or derivations
that ran out of input, it shows (`parse_tieBreak`).

Completers have to be discreet for this: one that looks at the settings may offer the tie-break
itself.  Every function of the node is discreet, and so is a template.
-/

namespace Typeahead

/-- The context with another tie-break. -/
def Context.breaking (tie : TieBreak) (ctx : Context) : Context :=
  { ctx with config := { ctx.config with tieBreak := tie } }

theorem Context.maxDepth_breaking (ctx : Context) (tie : TieBreak) :
    (ctx.breaking tie).config.maxDepth = ctx.config.maxDepth := rfl

/-- **A computation is blind to the tie-break**: with another one it has the same result and leaves
the same records behind. -/
structure TieBlind {α : Type} (m : ParseM α) : Prop where
  run_breaking (tie : TieBreak) (ctx : Context) :
    m.run (ctx.breaking tie) = ((m.run ctx).1, (m.run ctx).2.breaking tie)

/-- One context is the other with the given tie-break. -/
def Context.Rebreaks (tie : TieBreak) (ctx ctx' : Context) : Prop := ctx' = ctx.breaking tie

/-- Discreet completers do not notice the tie-break. -/
theorem heeds_rebreaks {g : FlatGrammar} (hg : g.AllCompleters Completer.Discreet)
    (tie : TieBreak) : Heeds g (Context.Rebreaks tie) where
  journal_eq h := by rw [h]; rfl
  journal h _ := by rw [h]; rfl
  reply {ctx ctx'} h r hr c hc view probe := by
    have hcircumstances : ctx'.circumstances
        = { ctx.circumstances with config := (ctx.breaking tie).config } := by rw [h]; rfl
    rw [hcircumstances]
    exact ((hg r hr c hc).settings view ctx.circumstances _ probe).symm

/-- **To be blind to the tie-break** is to be coupled with oneself whatever tie-break is put in. -/
theorem tieBlind_iff_coupled {α : Type} {m : ParseM α} :
    TieBlind m ↔ ∀ tie, Coupled (Context.Rebreaks tie) m m := by
  refine ⟨fun h tie => ⟨?_⟩, fun h => ⟨fun tie ctx => ?_⟩⟩
  · rintro ctx _ rfl
    rw [h.run_breaking]
    exact ⟨rfl, rfl⟩
  · obtain ⟨hresult, hafter⟩ := (h tie).run (rfl : ctx.Rebreaks tie _)
    exact Prod.ext hresult.symm hafter

/-! ## Completion in isolation -/

theorem tieBlind_isolateWith {iso : Isolate}
    (hiso : ∀ g part, g.AllCompleters Completer.Discreet → TieBlind (iso g part)) {g : FlatGrammar}
    (hg : g.AllCompleters Completer.Discreet) (part : Part) :
    TieBlind (isolateWith iso g part) := by
  refine tieBlind_iff_coupled.2 fun tie => ?_
  refine coupled_isolateWith (fun _ _ h => by rw [h]; rfl) ⟨fun {ctx ctx'} h => ?_⟩
  have halone := hg.extends ((FlatGrammar.Extends.refl g).isolating part.1 part.2)
  have hcut : (search (g.isolating part.1 part.2) ctx'.config []).cut
      = (search (g.isolating part.1 part.2) ctx.config []).cut := by
    rw [h]
    exact search_cut_congr (ctx.maxDepth_breaking tie)
  have hatOnce := hg.mono fun _ => Completer.Discreet.atOnce
  rw [run_isolateAnew hatOnce, run_isolateAnew hatOnce, hcut]
  refine (coupled_isolateFrom (heeds_rebreaks halone tie) (fun v => ?_) fun Q _ =>
    tieBlind_iff_coupled.1 (hiso _ Q halone) tie).run h
  exact .modify fun _ _ h => by rw [h]; rfl

/-- **Completing in isolation is blind** to the tie-break, however many attempts are inside each
other. -/
theorem tieBlind_isolateWithin (depth : Nat) {g : FlatGrammar}
    (hg : g.AllCompleters Completer.Discreet) (part : Part) :
    TieBlind (isolateWithin depth g part) := by
  induction depth generalizing g part with
  | zero => exact ⟨fun _ _ => rfl⟩
  | succ depth ih => exact tieBlind_isolateWith (fun g part hg => ih hg part) hg part

/-! ## Attempts and parses -/

/-- **Two attempts agree** if they differ at most in which of several equally good derivations they
show. -/
structure Attempt.Agrees (a b : Attempt) : Prop where
  outcome : a.tree.outcome = b.tree.outcome
  tree : a.tree.outcome = .successful → a.tree = b.tree
  completions : a.completions = b.completions

variable {g : FlatGrammar} {listeners : Nat} {input : String} {found : Option (List Completion)}
  {ctx : Context}

/-- **Attempts under two tie-breaks agree.** -/
theorem agrees_attempt {iso : Isolate} (hg : g.AllCompleters Completer.Discreet)
    (hiso : ∀ part, TieBlind (iso g part)) (listeners : Option Nat) (cs : List Char)
    (found : Option (List Completion)) (ctx : Context) (tie : TieBreak) :
    ((attempt iso g listeners cs found).run ctx).1.Agrees
      ((attempt iso g listeners cs found).run (ctx.breaking tie)).1 where
  outcome := by
    rw [attempt_tree, attempt_tree]
    exact search_outcome_congr (ctx.maxDepth_breaking tie).symm
  tree h := by
    rw [attempt_tree] at h ⊢
    rw [attempt_tree, search_derivation_congr (ctx.maxDepth_breaking tie).symm h]
  completions := by
    cases found with
    | none => rw [run_attempt_none, run_attempt_none]
    | some found =>
      have hcut : (search g (ctx.breaking tie).config cs).cut = (search g ctx.config cs).cut :=
        search_cut_congr (ctx.maxDepth_breaking tie)
      have hcollect : Coupled (Context.Rebreaks tie)
          (collect iso g listeners cs (search g ctx.config cs).cut found)
          (collect iso g listeners cs (search g ctx.config cs).cut found) :=
        coupled_collect (heeds_rebreaks hg tie)
          (fun part _ => tieBlind_iff_coupled.1 (hiso part) tie)
          (fun _ => mem_ends_of_mem_cut) ..
      rw [run_attempt_some, run_attempt_some, hcut]
      exact (hcollect.run rfl).1

/-- **The failed nodes of two failures** under different tie-breaks end at one offset. -/
theorem stop_of_failures (tie : TieBreak) {f f' : Failure}
    (hf : ((parse g listeners input found).run ctx).1.failure = some f)
    (hf' : ((parse g listeners input found).run (ctx.breaking tie)).1.failure = some f') :
    ∃ l l', f.failed = some l ∧ f'.failed = some l' ∧ l.result.stop = l'.result.stop := by
  obtain ⟨l, hl, -, -, hstuck⟩ := failed_of_parse hf
  obtain ⟨l', hl', -, -, hstuck'⟩ := failed_of_parse hf'
  refine ⟨l, l', hl, hl', ?_⟩
  rcases @search_alike g ctx.config (ctx.breaking tie).config input.toList
    (ctx.maxDepth_breaking tie).symm with heq | ⟨m, m', hm, hm', -, -, hstop⟩
  · rw [Option.some.inj (hstuck.symm.trans (heq ▸ hstuck'))]
  · rwa [Option.some.inj (hstuck.symm.trans hm), Option.some.inj (hstuck'.symm.trans hm')]

/-- **The tie-break only chooses among equally ranked derivations.**  Let the completers of a
grammar be discreet, as all functions of the node and templates are.  Parses under the two
tie-breaks have the same outcome, the same tree if that is a success, and the same completions; if
both fail, the failed nodes end at one offset.  Completing a part in isolation has the same result
and leaves the same records, and the attempts made for it agree. -/
theorem parse_tieBreak (g : FlatGrammar) (hg : g.AllCompleters Completer.Discreet)
    (listeners : Nat) (input : String) (found : Option (List Completion)) (ctx : Context) :
    let later := ((parse g listeners input found).run (ctx.breaking .later)).1
    let earlier := ((parse g listeners input found).run (ctx.breaking .earlier)).1
    later.tree.outcome = earlier.tree.outcome ∧
    (later.tree.outcome = .successful → later.tree = earlier.tree) ∧
    later.completions = earlier.completions ∧
    (∀ f ∈ later.failure, ∀ f' ∈ earlier.failure, ∃ l l',
      f.failed = some l ∧ f'.failed = some l' ∧ l.result.stop = l'.result.stop) ∧
    ∀ (depth : Nat) (part : Part) (ctx' : Context),
      let completing := isolateWithin depth g part
      let alone := attempt (isolateWithin depth) (g.isolating part.1 part.2) none [] (some [])
      (completing.run (ctx'.breaking .later)).1 = (completing.run (ctx'.breaking .earlier)).1 ∧
      (completing.run (ctx'.breaking .later)).2.breaking .earlier
        = (completing.run (ctx'.breaking .earlier)).2 ∧
      (alone.run (ctx'.breaking .later)).1.Agrees (alone.run (ctx'.breaking .earlier)).1 := by
  have hblind : ∀ part, TieBlind (isolate g part) := tieBlind_isolateWithin (isolationDepth g) hg
  have hagrees : ((attempt isolate g (some listeners) input.toList found).run
      (ctx.breaking .later)).1.Agrees
        ((attempt isolate g (some listeners) input.toList found).run (ctx.breaking .earlier)).1 :=
    agrees_attempt hg hblind _ _ _ (ctx.breaking .later) .earlier
  dsimp only
  refine ⟨?_, ?_, ?_, fun f hf f' hf' => stop_of_failures .earlier hf hf', ?_⟩
  · rw [run_parse, run_parse]
    exact hagrees.outcome
  · rw [run_parse, run_parse]
    exact hagrees.tree
  · rw [run_parse, run_parse]
    exact hagrees.completions
  · intro depth part ctx'
    have hblind := (tieBlind_isolateWithin depth hg part).run_breaking .earlier
      (ctx'.breaking .later)
    refine ⟨(congrArg Prod.fst hblind).symm, (congrArg Prod.snd hblind).symm, ?_⟩
    have halone := hg.extends ((FlatGrammar.Extends.refl g).isolating part.1 part.2)
    exact agrees_attempt halone (tieBlind_isolateWithin depth halone) _ _ _
      (ctx'.breaking .later) .earlier

theorem Grammar.discreet_exclaimed : exclaimedCompiled.flat.AllCompleters Completer.Discreet := by
  refine FlatGrammar.allCompleters_of_map
    [some (.ofNode fun v _ => some [.literal {} (v.label.text ++ "!")]), none] rfl
    fun c hc => ?_
  obtain rfl : c = _ := by simpa using hc
  exact Completer.discreet_ofNode _

/-- `42` is a number under both tie-breaks, with `42!` to come, and `42x` is none. -/
theorem parse_tieBreak_exclaimed :
    let parsed (input : String) (found : Option (List Completion)) (tie : TieBreak) :=
      ((parse Grammar.exclaimedCompiled.flat 0 input found).run (Context.breaking tie {})).1
    Grammar.exclaimedCompiled.flat.AllCompleters Completer.Discreet ∧
    (parsed "42" (some []) .later).tree.outcome = .successful ∧
    (parsed "42" (some []) .later).tree = (parsed "42" (some []) .earlier).tree ∧
    (parsed "42" (some []) .earlier).completions
      = [.literal ⟨some (.nonterminal "number"), "42"⟩ "42!"] ∧
    ∃ f, (parsed "42x" none .later).failure = some f ∧
      ∃ f', (parsed "42x" none .earlier).failure = some f' ∧
        ∃ l l', f.failed = some l ∧ f'.failed = some l' ∧ l.result.stop = l'.result.stop := by
  dsimp only
  have hdiscreet := Grammar.discreet_exclaimed
  have hsuccess : ((parse Grammar.exclaimedCompiled.flat 0 "42" (some [])).run
      (Context.breaking .later {})).1.tree.outcome = .successful := by
    rw [parse_tree]
    exact Grammar.outcome_exclaimed
  obtain ⟨-, htree, hcompletions, -⟩ :=
    parse_tieBreak Grammar.exclaimedCompiled.flat hdiscreet 0 "42" (some []) {}
  obtain ⟨hout, -, -, hfailed, -⟩ :=
    parse_tieBreak Grammar.exclaimedCompiled.flat hdiscreet 0 "42x" none {}
  obtain ⟨f, hf, -⟩ := Option.map_eq_some_iff.1 Grammar.offset_exclaimed
  have hlater : ((parse Grammar.exclaimedCompiled.flat 0 "42x" none).run
      (Context.breaking .later {})).1.failure = some f := hf
  have hearlier : ((parse Grammar.exclaimedCompiled.flat 0 "42x" none).run
      (Context.breaking .earlier {})).1.failure ≠ none := by
    rw [Ne, parse_failure_eq_none, ← hout, ← parse_failure_eq_none, hlater]
    exact Option.some_ne_none f
  obtain ⟨f', hf'⟩ := Option.ne_none_iff_exists'.1 hearlier
  exact ⟨hdiscreet, hsuccess, htree hsuccess,
    hcompletions.symm.trans Grammar.completions_exclaimed, f, hlater, f', hf',
    hfailed f hlater f' hf'⟩

end Typeahead
