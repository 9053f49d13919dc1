import Typeahead.Proofs.ParseTree.Outcome
import Typeahead.Proofs.Search.Frames
import Mathlib.Data.List.TakeWhile

/-!
# Proofs/Search/TieBreak — what a search takes from its tie-break

The ends of a branch depend on the depth alone (`Branch.ends_congr`), and so does the list of those
that ran out of input.  The tie-break only chooses among best ends, whose matches have one outcome
and end at one offset (`search_alike`).
-/

namespace Typeahead

open Typeahead.Derivation (IsBest)

variable {g : FlatGrammar} {cfg cfg' : Config} {cs : List Char}

theorem Branch.ends_congr (h : cfg.maxDepth = cfg'.maxDepth) (b : Branch) :
    b.ends g cfg = b.ends g cfg' := by
  fun_induction Branch.ends g cfg b with
  | case1 b hp => rw [Branch.ends_nil hp]
  | case2 b t pending hp seen hm ih => rw [Branch.ends_accept hp hm, ih]
  | case3 b t pending hp outcome seen hne hm =>
    rw [Branch.ends_stuck hp hm (by rintro rfl; exact hne rfl)]
  | case4 b x pending hp hidle halt => rw [Branch.ends_givenUp hp (.inl halt)]
  | case5 b x pending hp hidle halt ih =>
    rw [Branch.ends_expand hp (h ▸ hidle) halt]
    exact List.flatMap_congr fun p _ => ih p
  | case6 b x pending hp hidle => rw [Branch.ends_givenUp hp (.inr (by omega))]

/-- Before the first complete end, or in all, those ends are noted that ran out of input. -/
theorem search_cut (g : FlatGrammar) (cfg : Config) (cs : List Char) : (search g cfg cs).cut =
    (((Branch.initial cs).ends g cfg).takeWhile (!·.isComplete)).filter (·.ranOut) := by
  cases hfind : ((Branch.initial cs).ends g cfg).find? (·.isComplete) with
  | some d => rw [(search_settles g cfg cs).1 d hfind]
  | none =>
    obtain ⟨d, -, hsearch⟩ := (search_settles g cfg cs).2 hfind
    rw [hsearch, List.takeWhile_eq_self_iff.2]
    simpa using hfind

theorem search_cut_congr (h : cfg.maxDepth = cfg'.maxDepth) :
    (search g cfg cs).cut = (search g cfg' cs).cut := by
  rw [search_cut, search_cut, Branch.ends_congr h]

/-- The matches of two best ends have one outcome and end at one offset. -/
theorem Derivation.IsBest.alike {tie tie' : TieBreak} {ds : List Derivation} {d d' : Derivation}
    {m m' : Match} (hd : IsBest tie ds d) (hd' : IsBest tie' ds d') (hm : d.stuck = some m)
    (hm' : d'.stuck = some m') : m.outcome = m'.outcome ∧ m.stop = m'.stop := by
  have hout : m.outcome = m'.outcome := Outcome.rank_inj.1
    (Nat.le_antisymm (hd.rank_le hm hd'.mem hm') (hd'.rank_le hm' hd.mem hm))
  exact ⟨hout, Nat.le_antisymm (hd'.stop_le hm' hd.mem hm hout)
    (hd.stop_le hm hd'.mem hm' hout.symm)⟩

/-- **Under two tie-breaks** a search returns the same derivation, or one that is stuck with the
same outcome and as far on. -/
theorem search_alike (h : cfg.maxDepth = cfg'.maxDepth) :
    (search g cfg cs).derivation = (search g cfg' cs).derivation ∨
    ∃ m m', (search g cfg cs).derivation.stuck = some m ∧
      (search g cfg' cs).derivation.stuck = some m' ∧
      m.outcome.isStuck = true ∧ m.outcome = m'.outcome ∧ m.stop = m'.stop := by
  cases hfind : ((Branch.initial cs).ends g cfg).find? (·.isComplete) with
  | some d =>
    rw [(search_settles g cfg cs).1 d hfind]
    rw [Branch.ends_congr h] at hfind
    rw [(search_settles g cfg' cs).1 d hfind]
    exact .inl rfl
  | none =>
    obtain ⟨d, hbest, hsearch⟩ := (search_settles g cfg cs).2 hfind
    have hcomplete : ¬ d.isComplete := by simpa using List.find?_eq_none.1 hfind d hbest.mem
    obtain ⟨m, hm, hstuck⟩ :=
      (Branch.ended_of_mem_ends hbest.mem).stuck_of_not_isComplete hcomplete
    rw [Branch.ends_congr h] at hfind hbest
    obtain ⟨d', hbest', hsearch'⟩ := (search_settles g cfg' cs).2 hfind
    obtain ⟨m', hm'⟩ := hbest'.stuck
    rw [hsearch, hsearch']
    exact .inr ⟨m, m', hm, hm', hstuck, hbest.alike hbest' hm hm'⟩

theorem search_outcome_congr (h : cfg.maxDepth = cfg'.maxDepth) :
    (search g cfg cs).derivation.tree.shape.1.outcome
      = (search g cfg' cs).derivation.tree.shape.1.outcome := by
  rcases search_alike h with heq | ⟨m, m', hm, hm', -, hout, -⟩
  · rw [heq]
  · rw [outcome_of_stuck (search_mem_ends g cfg cs).1 hm,
      outcome_of_stuck (search_mem_ends g cfg' cs).1 hm', hout]

theorem search_derivation_congr (h : cfg.maxDepth = cfg'.maxDepth)
    (hout : (search g cfg cs).derivation.tree.shape.1.outcome = .successful) :
    (search g cfg cs).derivation = (search g cfg' cs).derivation := by
  refine (search_alike h).resolve_right ?_
  rintro ⟨m, m', hm, -, hstuck, -⟩
  rw [outcome_of_stuck (search_mem_ends g cfg cs).1 hm] at hout
  rw [hout] at hstuck
  cases hstuck

end Typeahead
