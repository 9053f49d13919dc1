import Typeahead.Search
import Mathlib.Data.List.Basic

/-!
# Proofs/Search/Ranking — the best of several stuck derivations

Stuck derivations are ranked by their matches: by outcome, and by how far they reach among those of
the same outcome (`Match.Below`).  `Derivation.IsBest` says which of a list is taken: no other ranks
above it, and among its equals it is the last or the first, as the tie-break wants it.

The frames of a search choose step by step, each among the results of its own alternatives and all
of them by `Frame.offer`.  `IsBest.append` is why that comes to the same as choosing once: the
choice from two lists one after the other is the choice between the choices.
-/

namespace Typeahead

/-- **One match ranks below another**: its outcome is worse, or it is the same and reaches less
far. -/
def Match.Below (a b : Match) : Prop :=
  b.outcome.rank < a.outcome.rank ∨ a.outcome.rank = b.outcome.rank ∧ a.stop < b.stop

theorem Outcome.rank_inj {a b : Outcome} : a.rank = b.rank ↔ a = b := by
  cases a <;> cases b <;> simp [rank]

namespace Match

variable {a b c : Match} {tie : TieBreak}

theorem beats_later : a.beats .later b = true ↔ ¬ a.Below b := by
  have hinj := Outcome.rank_inj (a := a.outcome) (b := b.outcome)
  by_cases h : a.outcome = b.outcome
  · simp [beats, Below, h]
  · rw [beats, if_neg h, Below, Outcome.beats, decide_eq_true_eq]
    have := mt hinj.1 h
    omega

theorem beats_earlier : a.beats .earlier b = true ↔ b.Below a := by
  have hinj := Outcome.rank_inj (a := a.outcome) (b := b.outcome)
  by_cases h : a.outcome = b.outcome
  · simp [beats, Below, h]
  · rw [beats, if_neg h, Below, Outcome.beats, decide_eq_true_eq]
    have := mt hinj.1 h
    omega

theorem beats_trans (hab : a.beats tie b = true) (hbc : b.beats tie c = true) :
    a.beats tie c = true := by
  cases tie with
  | later =>
    rw [beats_later] at *
    unfold Below at *
    omega
  | earlier =>
    rw [beats_earlier] at *
    unfold Below at *
    omega

/-- What replaces a match also replaces one that does not. -/
theorem beats_of_not_beats (hab : a.beats tie b = true) (hcb : ¬ c.beats tie b = true) :
    a.beats tie c = true := by
  cases tie with
  | later =>
    rw [beats_later] at *
    unfold Below at *
    omega
  | earlier =>
    rw [beats_earlier] at *
    unfold Below at *
    omega

end Match

namespace Derivation

/-- **The derivation taken from a list of stuck ones.**  It stands between those `before` and those
`after` it, none of which ranks above it; with the tie-break `later` those after it, with `earlier`
those before it rank below it. -/
def IsBest (tie : TieBreak) (ds : List Derivation) (d : Derivation) : Prop :=
  ∃ before after m, ds = before ++ d :: after ∧ d.stuck = some m ∧
    match tie with
    | .later =>
      (∀ e ∈ before, ∀ n ∈ e.stuck, ¬ m.Below n) ∧ ∀ e ∈ after, ∀ n ∈ e.stuck, n.Below m
    | .earlier =>
      (∀ e ∈ before, ∀ n ∈ e.stuck, n.Below m) ∧ ∀ e ∈ after, ∀ n ∈ e.stuck, ¬ m.Below n

theorem IsBest.stuck {tie : TieBreak} {ds : List Derivation} {d : Derivation}
    (h : IsBest tie ds d) : ∃ m, d.stuck = some m := by
  obtain ⟨-, -, m, -, hm, -⟩ := h
  exact ⟨m, hm⟩

theorem IsBest.mem {tie : TieBreak} {ds : List Derivation} {d : Derivation}
    (h : IsBest tie ds d) : d ∈ ds := by
  obtain ⟨before, after, -, rfl, -⟩ := h
  simp

/-- Being the best in terms of replacing: it replaces what is before it, and is not replaced. -/
theorem isBest_iff {tie : TieBreak} {ds : List Derivation} {d : Derivation} :
    IsBest tie ds d ↔ ∃ before after m, ds = before ++ d :: after ∧ d.stuck = some m ∧
      (∀ e ∈ before, ∀ n ∈ e.stuck, m.beats tie n = true) ∧
      ∀ e ∈ after, ∀ n ∈ e.stuck, ¬ n.beats tie m = true := by
  cases tie with
  | later => simp only [IsBest, Match.beats_later, not_not]
  | earlier => simp only [IsBest, Match.beats_earlier]

theorem isBest_singleton {tie : TieBreak} {d : Derivation} {m : Match} (hm : d.stuck = some m) :
    IsBest tie [d] d :=
  isBest_iff.2 ⟨[], [], m, rfl, hm, by simp, by simp⟩

/-- No derivation ranks above the best. -/
theorem IsBest.not_below {tie : TieBreak} {ds : List Derivation} {d e : Derivation} {m n : Match}
    (h : IsBest tie ds d) (hm : d.stuck = some m) (he : e ∈ ds) (hn : e.stuck = some n) :
    ¬ m.Below n := by
  obtain ⟨before, after, m', rfl, hm', hrank⟩ := h
  obtain rfl : m' = m := Option.some.inj (hm'.symm.trans hm)
  have hasymm : n.Below m' → ¬ m'.Below n := by
    unfold Match.Below
    omega
  rcases List.mem_append.1 he with he | he
  · cases tie with
    | later => exact hrank.1 e he n hn
    | earlier => exact hasymm (hrank.1 e he n hn)
  · rcases List.mem_cons.1 he with rfl | he
    · obtain rfl : m' = n := Option.some.inj (hm.symm.trans hn)
      unfold Match.Below
      omega
    · cases tie with
      | later => exact hasymm (hrank.2 e he n hn)
      | earlier => exact hrank.2 e he n hn

/-- The best of several derivations has as good an outcome as any of them. -/
theorem IsBest.rank_le {tie : TieBreak} {ds : List Derivation} {d e : Derivation} {m n : Match}
    (h : IsBest tie ds d) (hm : d.stuck = some m) (he : e ∈ ds) (hn : e.stuck = some n) :
    m.outcome.rank ≤ n.outcome.rank := by
  have hbelow := h.not_below hm he hn
  unfold Match.Below at hbelow
  omega

/-- The best of several derivations reaches as far as any of them with its outcome. -/
theorem IsBest.stop_le {tie : TieBreak} {ds : List Derivation} {d e : Derivation} {m n : Match}
    (h : IsBest tie ds d) (hm : d.stuck = some m) (he : e ∈ ds) (hn : e.stuck = some n)
    (hout : n.outcome = m.outcome) : n.stop ≤ m.stop := by
  have hbelow := h.not_below hm he hn
  unfold Match.Below at hbelow
  rw [hout] at hbelow
  omega

/-- **Choosing twice is choosing once**: the best of two lists one after the other is the second
list's best if that replaces the first's, and the first's otherwise. -/
theorem IsBest.append {tie : TieBreak} {ds es : List Derivation} {d e : Derivation} {m n : Match}
    (hd : IsBest tie ds d) (he : IsBest tie es e) (hm : d.stuck = some m) (hn : e.stuck = some n) :
    IsBest tie (ds ++ es) (if n.beats tie m then e else d) := by
  obtain ⟨before, after, m', rfl, hm', hbefore, hafter⟩ := isBest_iff.1 hd
  obtain ⟨before', after', n', rfl, hn', hbefore', hafter'⟩ := isBest_iff.1 he
  obtain rfl : m' = m := Option.some.inj (hm'.symm.trans hm)
  obtain rfl : n' = n := Option.some.inj (hn'.symm.trans hn)
  refine isBest_iff.2 ?_
  split
  · rename_i hnm
    refine ⟨before ++ d :: after ++ before', after', n', by simp, hn, ?_, hafter'⟩
    intro x hx k hk
    simp only [List.append_assoc, List.cons_append, List.mem_append, List.mem_cons] at hx
    rcases hx with hx | rfl | hx | hx
    · exact Match.beats_trans hnm (hbefore x hx k hk)
    · rwa [← Option.some.inj (hm.symm.trans hk)]
    · exact Match.beats_of_not_beats hnm (hafter x hx k hk)
    · exact hbefore' x hx k hk
  · rename_i hnm
    refine ⟨before, after ++ (before' ++ e :: after'), m', by simp, hm, hbefore, ?_⟩
    intro x hx k hk
    simp only [List.mem_append, List.mem_cons] at hx
    rcases hx with hx | hx | rfl | hx
    · exact hafter x hx k hk
    · exact fun hkm => hnm (Match.beats_trans (hbefore' x hx k hk) hkm)
    · rwa [← Option.some.inj (hn.symm.trans hk)]
    · exact fun hkm => hafter' x hx k hk (Match.beats_of_not_beats hkm hnm)

end Derivation

/-! ## What a frame holds -/

namespace Frame

open Typeahead.Derivation (IsBest)

variable {tie : TieBreak} {f : Frame} {ds es : List Derivation}

/-- A frame holds the best of `ds`, if there are any. -/
def Holds (tie : TieBreak) (ds : List Derivation) (f : Frame) : Prop :=
  ds = [] ∧ f.best = none ∨ ∃ d, f.best = some d ∧ IsBest tie ds d

theorem holds_of_eq_best {f' : Frame} (h : f.Holds tie ds) (hbest : f'.best = f.best) :
    f'.Holds tie ds := by
  rwa [Holds, hbest]

/-- **Offering the best of some derivations** is as good as offering all of them. -/
theorem Holds.offer {e : Derivation} (h : f.Holds tie ds) (he : IsBest tie es e) :
    (f.offer tie e).Holds tie (ds ++ es) := by
  obtain ⟨n, hn⟩ := he.stuck
  have hlast : e.lastMatch = some n := by rw [Derivation.lastMatch, hn]; rfl
  refine .inr ?_
  rcases h with ⟨rfl, hbest⟩ | ⟨d, hbest, hd⟩
  · exact ⟨e, by simp [Frame.offer, hlast, hbest], he⟩
  · obtain ⟨m, hm⟩ := hd.stuck
    have hlast' : d.lastMatch = some m := by rw [Derivation.lastMatch, hm]; rfl
    refine ⟨_, ?_, hd.append he hm hn⟩
    simp only [Frame.offer, hlast, hbest, Option.bind_some, hlast']
    split
    · rfl
    · exact hbest

/-- The result of a frame that holds something is what it holds. -/
theorem Holds.finish (h : f.Holds tie ds) (hds : ds ≠ []) :
    f.best = some f.finish ∧ IsBest tie ds f.finish := by
  rcases h with ⟨rfl, -⟩ | ⟨d, hbest, hd⟩
  · exact absurd rfl hds
  · have hfinish : f.finish = d := by rw [Frame.finish, hbest]; rfl
    exact ⟨hfinish ▸ hbest, hfinish ▸ hd⟩

end Frame

end Typeahead
