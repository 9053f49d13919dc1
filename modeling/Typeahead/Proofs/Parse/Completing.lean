import Typeahead.Proofs.Parse.FailureOffset

/-!
# Proofs/Parse/Completing — asking for completions

Completions come from the derivations that ran out of input, and one of these is enough for a parse
not to fail: it ranks above every derivation that failed.  So a failed search has no such derivation
(`cut_eq_nil_of_failed`), and an attempt that fails does the same whether or not it is asked for
completions.  A parse therefore explains a failure alike in both cases (`parse_completing`).

This holds whatever the completers of the grammar do, as it is not them that decide which
derivations there are.
-/

namespace Typeahead

variable {g : FlatGrammar} {cfg : Config} {cs : List Char}

/-! ## A failed search -/

/-- **A search that fails met no derivation that ran out of input.** -/
theorem cut_eq_nil_of_failed (h : (search g cfg cs).derivation.tree.shape.1.outcome = .failed) :
    (search g cfg cs).cut = [] := by
  cases hfind : ((Branch.initial cs).ends g cfg).find? (·.isComplete) with
  | some d =>
    rw [(search_settles g cfg cs).1 d hfind] at h
    have := outcome_isStuck_of_isComplete (List.mem_of_find?_eq_some hfind) (List.find?_some hfind)
    rw [h] at this
    cases this
  | none =>
    obtain ⟨d, hbest, hsearch⟩ := (search_settles g cfg cs).2 hfind
    obtain ⟨m, hm⟩ := hbest.stuck
    rw [hsearch, outcome_of_stuck hbest.mem hm] at h
    rw [hsearch, List.filter_eq_nil_iff]
    intro e he hran
    obtain ⟨n, hn, hout⟩ := (Option.any_eq_true ..).1 hran
    have hrank := hbest.rank_le hm he hn
    rw [h, of_decide_eq_true hout] at hrank
    exact absurd hrank (by decide)

/-! ## A failed attempt -/

section Attempt

variable {iso : Isolate} {listeners : Option Nat} {found : List Completion} {ctx : Context}

/-- An attempt that is not asked for completions searches and builds its tree. -/
theorem run_attempt_none : (attempt iso g listeners cs none).run ctx =
    let built := ((search g ctx.config cs).derivation.build g listeners).run ctx
    (⟨built.1.shape.1, built.1.shape.2, []⟩, built.2) := rfl

/-- One that is asked collects completions in between. -/
theorem run_attempt_some : (attempt iso g listeners cs (some found)).run ctx =
    let collected := (collect iso g listeners cs (search g ctx.config cs).cut found).run ctx
    let built := ((search g ctx.config cs).derivation.build g listeners).run collected.2
    (⟨built.1.shape.1, built.1.shape.2, collected.1⟩, built.2) := rfl

/-- **An attempt that fails leaves the completions as they are**, and does what it would do without
any. -/
theorem run_attempt_of_failed
    (h : (search g ctx.config cs).derivation.tree.shape.1.outcome = .failed) :
    (attempt iso g listeners cs (some found)).run ctx =
      let plain := (attempt iso g listeners cs none).run ctx
      ({ plain.1 with completions := found }, plain.2) := by
  rw [run_attempt_some, run_attempt_none, cut_eq_nil_of_failed h]
  rfl

end Attempt

/-! ## A parse -/

/-- **Asking for completions never changes a parse**: it has the same tree, and the same failure if
it fails.  A failed parse adds no completion. -/
theorem parse_completing (g : FlatGrammar) (listeners : Nat) (input : String)
    (found : List Completion) (ctx : Context) :
    ((parse g listeners input (some found)).run ctx).1.tree
        = ((parse g listeners input none).run ctx).1.tree ∧
    ((parse g listeners input (some found)).run ctx).1.failure
        = ((parse g listeners input none).run ctx).1.failure ∧
    (((parse g listeners input (some found)).run ctx).1.failure ≠ none →
      ((parse g listeners input (some found)).run ctx).1.completions = found) := by
  have htree : ((parse g listeners input (some found)).run ctx).1.tree
      = ((parse g listeners input none).run ctx).1.tree := by rw [parse_tree, parse_tree]
  refine ⟨htree, ?_⟩
  by_cases hfailed : ((parse g listeners input none).run ctx).1.tree.outcome = .failed
  · rw [parse_tree] at hfailed
    rw [run_parse, run_parse, run_attempt_of_failed hfailed]
    exact ⟨rfl, fun _ => rfl⟩
  · have hnone := parse_failure_eq_none.2 hfailed
    have hsome := parse_failure_eq_none.2 (htree ▸ hfailed)
    exact ⟨hsome.trans hnone.symm, fun h => absurd hsome h⟩

/-! ### An instance with a completer of its own -/

namespace Grammar

/-- Digits, with what was typed and an exclamation mark to come. -/
def exclaimed : Grammar :=
  ((do
    let number ← insert .plus (some "number") [(Symbol.terminal .digit).unnamed]
    completing (.ofNode fun v _ => some [.literal {} (v.label.text ++ "!")]) number :
      StateM Grammar RuleRef).run {}).2

/-- The grammar after its compile. -/
def exclaimedCompiled : Grammar := ((compile (.nonterminal "number")).run.run exclaimed).2

theorem completions_exclaimed :
    ((parse exclaimedCompiled.flat 0 "42" (some [])).run {}).1.completions
      = [.literal ⟨some (.nonterminal "number"), "42"⟩ "42!"] := by
  cbv

theorem outcome_exclaimed :
    (search exclaimedCompiled.flat {} "42".toList).derivation.tree.shape.1.outcome
      = .successful := by
  cbv

theorem offset_exclaimed :
    ((parse exclaimedCompiled.flat 0 "42x" none).run {}).1.failure.map (·.offset) = some 2 := by
  cbv

end Grammar

/-- The failure on `42x`, with a completion found before. -/
theorem parse_completing_exclaimed :
    ((parse Grammar.exclaimedCompiled.flat 0 "42x" (some [.literal {} "43"])).run {}).1.failure
        ≠ none ∧
    ((parse Grammar.exclaimedCompiled.flat 0 "42x" (some [.literal {} "43"])).run
        {}).1.completions = [.literal {} "43"] := by
  obtain ⟨-, hfailure, hkept⟩ :=
    parse_completing Grammar.exclaimedCompiled.flat 0 "42x" [.literal {} "43"] {}
  obtain ⟨f, hf, -⟩ := Option.map_eq_some_iff.1 Grammar.offset_exclaimed
  have hfailed : ((parse Grammar.exclaimedCompiled.flat 0 "42x" (some [.literal {} "43"])).run
      {}).1.failure ≠ none := by
    rw [hfailure, hf]
    nofun
  exact ⟨hfailed, hkept hfailed⟩

end Typeahead
