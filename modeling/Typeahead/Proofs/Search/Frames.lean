import Typeahead.Proofs.Search.Enumeration
import Typeahead.Proofs.Search.Ranking

/-!
# Proofs/Search/Frames — the stack of frames against the plain enumeration

What a search still has to do in a frame is a list of ends (`Frame.remaining`).  `Settles` says what
comes of following such a list: its first complete derivation is the result of the whole search, or,
without one, the best of it is handed to the frames below.  Lists followed one after the other
settle together (`Settles.append`), an ended branch settles, and hence so does every frame
(`settles_frame`), by induction on the turns it takes.
-/

namespace Typeahead

open Typeahead.Derivation (IsBest)

/-- The ends of the alternatives a frame has not tried yet. -/
def Frame.remaining (g : FlatGrammar) (cfg : Config) (f : Frame) : List Derivation :=
  f.untried.flatMap fun p => (f.branch.expand p).ends g cfg

namespace SearchState

variable {g : FlatGrammar} {cfg : Config} {start : Derivation}
variable {f : Frame} {frames : List Frame} {d : Derivation} {cut : List Derivation}

/-! ## Turns -/

theorem run_of_inl {s s' : SearchState} (h : s.step g cfg start = .inl s') :
    run g cfg start s = run g cfg start s' := by
  rw [run]
  split <;> simp_all

theorem run_of_inr {s : SearchState} {r : SearchResult} (h : s.step g cfg start = .inr r) :
    run g cfg start s = r := by
  rw [run]
  split <;> simp_all

theorem run_nil : run g cfg start ⟨[], some d, cut⟩ = ⟨d, cut.reverse⟩ := run_of_inr rfl

theorem run_cons : run g cfg start ⟨f :: frames, none, cut⟩
    = run g cfg start (tryNext g cfg f frames cut) := run_of_inl rfl

theorem run_complete (h : d.isComplete) :
    run g cfg start ⟨f :: frames, some d, cut⟩ = ⟨d, cut.reverse⟩ :=
  run_of_inr (if_pos h)

theorem run_offer (h : ¬ d.isComplete) : run g cfg start ⟨f :: frames, some d, cut⟩
    = run g cfg start ⟨f.offer cfg.tieBreak d :: frames, none, cut⟩ := by
  rw [run_cons]
  exact run_of_inl (if_neg h)

/-! ## Settling -/

/-- **What comes of following `ds`** from the state `s`, with `frames` below: the first complete
derivation of `ds`, with those before it that ran out of input, or a turn to the frames below with
the best of `all`. -/
def Settles (g : FlatGrammar) (cfg : Config) (start : Derivation) (s : SearchState)
    (frames : List Frame) (cut all ds : List Derivation) : Prop :=
  (∀ d, ds.find? (·.isComplete) = some d → run g cfg start s
    = ⟨d, cut.reverse ++ (ds.takeWhile (!·.isComplete)).filter (·.ranOut)⟩) ∧
  (ds.find? (·.isComplete) = none → ∃ d, IsBest cfg.tieBreak all d ∧
    run g cfg start s = run g cfg start ⟨frames, some d, (ds.filter (·.ranOut)).reverse ++ cut⟩)

variable {s : SearchState} {all ds es : List Derivation}

theorem Settles.congr_run {s' : SearchState} (h : Settles g cfg start s frames cut all ds)
    (hrun : run g cfg start s' = run g cfg start s) : Settles g cfg start s' frames cut all ds := by
  rwa [Settles, hrun]

theorem settles_ended (h : d.Ended) :
    Settles g cfg start ⟨f :: frames, some d, note d cut⟩ (f :: frames) cut [d] [d] := by
  by_cases hc : d.isComplete
  · refine ⟨fun e he => ?_, fun hnone => ?_⟩
    · obtain rfl : d = e := by simpa [hc] using he
      simp [run_complete hc, note, h.ranOut_of_isComplete hc, hc]
    · simp [hc] at hnone
  · obtain ⟨m, hm, -⟩ := h.stuck_of_not_isComplete hc
    refine ⟨fun e he => ?_, fun _ => ⟨d, Derivation.isBest_singleton hm, ?_⟩⟩
    · simp [hc] at he
    · by_cases hr : d.ranOut <;> simp [note, hr]

/-- **Following one list after the other.**  The best of the first is offered to the frame that goes
on with the second. -/
theorem Settles.append (h : Settles g cfg start s (f :: frames) cut ds ds)
    (hds : ∀ d ∈ ds, d.Ended)
    (hes : ∀ d, IsBest cfg.tieBreak ds d → Settles g cfg start
      ⟨f.offer cfg.tieBreak d :: frames, none, (ds.filter (·.ranOut)).reverse ++ cut⟩ frames
      ((ds.filter (·.ranOut)).reverse ++ cut) all es) :
    Settles g cfg start s frames cut all (ds ++ es) := by
  cases hfind : ds.find? (·.isComplete) with
  | some d =>
    -- the second list is never looked at
    have hcut : (ds ++ es).takeWhile (!·.isComplete) = ds.takeWhile (!·.isComplete) := by
      obtain ⟨hd, before, after, rfl, -⟩ := List.find?_eq_some_iff_append.1 hfind
      simp [List.takeWhile_append, hd]
    refine ⟨fun e he => ?_, fun hnone => ?_⟩
    · rw [List.find?_append, hfind] at he
      cases he
      rw [hcut]
      exact h.1 d hfind
    · simp [List.find?_append, hfind] at hnone
  | none =>
    have hall : ∀ d ∈ ds, ¬ d.isComplete := by simpa using hfind
    obtain ⟨d, hbest, hrun⟩ := h.2 hfind
    have hnext : run g cfg start s = run g cfg start
        ⟨f.offer cfg.tieBreak d :: frames, none, (ds.filter (·.ranOut)).reverse ++ cut⟩ :=
      hrun.trans (run_offer (hall d hbest.mem))
    obtain ⟨hfirst, hlast⟩ := (hes d hbest).congr_run hnext
    have htake : (ds ++ es).takeWhile (!·.isComplete) = ds ++ es.takeWhile (!·.isComplete) :=
      List.takeWhile_append_of_pos fun d hd => by simpa using hall d hd
    refine ⟨fun e he => ?_, fun hnone => ?_⟩
    · rw [List.find?_append, hfind, Option.none_or] at he
      rw [hfirst e he, htake]
      simp
    · rw [List.find?_append, hfind, Option.none_or] at hnone
      obtain ⟨e, he, hrun'⟩ := hlast hnone
      exact ⟨e, he, by rw [hrun']; simp⟩

/-- An alternative settles if the frame it may open does. -/
theorem settles_alternative {p : Production} {ps : List Production} (hf : f.untried = p :: ps)
    (hopen : ∀ inner, (f.branch.expand p).advance g cfg = .opened inner →
      Settles g cfg start ⟨inner :: { f with untried := ps } :: frames, none, cut⟩
        ({ f with untried := ps } :: frames) cut (inner.remaining g cfg) (inner.remaining g cfg)) :
    Settles g cfg start ⟨f :: frames, none, cut⟩ ({ f with untried := ps } :: frames) cut
      ((f.branch.expand p).ends g cfg) ((f.branch.expand p).ends g cfg) := by
  cases hadv : (f.branch.expand p).advance g cfg with
  | ended d =>
    rw [Branch.ends_of_ended hadv]
    refine (settles_ended (Branch.ended_of_advance hadv)).congr_run ?_
    rw [run_cons]
    simp only [tryNext, hf, hadv]
  | opened inner =>
    rw [Branch.ends_of_opened hadv]
    refine (hopen inner hadv).congr_run ?_
    rw [run_cons]
    simp only [tryNext, hf, hadv]

/-- **A frame settles what remains of it**, together with what it has `seen`. -/
theorem settles_frame {seen : List Derivation} (hf : f.Holds cfg.tieBreak seen)
    (hne : seen ++ f.remaining g cfg ≠ []) :
    Settles g cfg start ⟨f :: frames, none, cut⟩ frames cut (seen ++ f.remaining g cfg)
      (f.remaining g cfg) := by
  induction hn : f.turns g cfg using Nat.strongRecOn generalizing f frames cut seen with
  | ind n ih =>
    subst hn
    cases huntried : f.untried with
    | nil =>
      have hrest : f.remaining g cfg = [] := by simp [Frame.remaining, huntried]
      rw [hrest, List.append_nil] at hne ⊢
      refine ⟨by simp, fun _ => ⟨f.finish, (hf.finish hne).2, ?_⟩⟩
      rw [run_cons]
      simp only [tryNext, huntried, List.filter_nil, List.reverse_nil, List.nil_append]
    | cons p ps =>
      have hturns : f.turns g cfg = _ := Frame.turns_eq huntried
      have hrest : f.remaining g cfg = (f.branch.expand p).ends g cfg
          ++ ({ f with untried := ps } : Frame).remaining g cfg := by
        simp [Frame.remaining, huntried]
      rw [hrest, ← List.append_assoc]
      refine Settles.append (settles_alternative huntried fun inner hadv => ?_)
        (fun d hd => Branch.ended_of_mem_ends hd) fun d hd => ?_
      · -- the frame that the first alternative opens has not seen anything
        have hlt : inner.turns g cfg < f.turns g cfg := by
          rw [hturns, Frame.turns_of_opened hadv]
          omega
        have hends : inner.remaining g cfg ≠ [] := by
          rw [Frame.remaining, ← Branch.ends_of_opened hadv]
          exact Branch.ends_ne_nil
        have hfresh : inner.Holds cfg.tieBreak [] := .inl ⟨rfl, (Branch.opened_fresh hadv).2⟩
        exact ih _ hlt hfresh hends rfl
      · -- `f` goes on, having seen the ends of the first alternative
        have hsame : ({ f with untried := ps } : Frame).Holds cfg.tieBreak seen :=
          Frame.holds_of_eq_best hf rfl
        have hlt : (({ f with untried := ps } : Frame).offer cfg.tieBreak d).turns g cfg
            < f.turns g cfg := by
          rw [hturns, Frame.offer_turns]
          omega
        have hrest' : ({ f with untried := ps } : Frame).remaining g cfg
            = (({ f with untried := ps } : Frame).offer cfg.tieBreak d).remaining g cfg := by
          simp only [Frame.remaining, Frame.offer_branch, Frame.offer_untried]
        rw [hrest']
        exact ih _ hlt (hsame.offer hd) (by simp [Branch.ends_ne_nil]) rfl

end SearchState

/-- **The search in terms of the enumeration**: the first complete derivation, or the best one. -/
theorem search_settles (g : FlatGrammar) (cfg : Config) (input : List Char) :
    (∀ d, ((Branch.initial input).ends g cfg).find? (·.isComplete) = some d →
      search g cfg input = ⟨d, (((Branch.initial input).ends g cfg).takeWhile
        (!·.isComplete)).filter (·.ranOut)⟩) ∧
    (((Branch.initial input).ends g cfg).find? (·.isComplete) = none →
      ∃ d, IsBest cfg.tieBreak ((Branch.initial input).ends g cfg) d ∧
        search g cfg input = ⟨d, ((Branch.initial input).ends g cfg).filter (·.ranOut)⟩) := by
  unfold search
  dsimp only
  split
  next d hadv =>
    rw [Branch.ends_of_ended hadv]
    have hd : d.Ended := Branch.ended_of_advance hadv
    by_cases hc : d.isComplete
    · simp [hc, SearchState.note, hd.ranOut_of_isComplete hc]
    · obtain ⟨m, hm, -⟩ := hd.stuck_of_not_isComplete hc
      refine ⟨by simp [hc], fun _ => ⟨d, Derivation.isBest_singleton hm, ?_⟩⟩
      by_cases hr : d.ranOut <;> simp [SearchState.note, hr]
  next f hadv =>
    have hends : (Branch.initial input).ends g cfg = f.remaining g cfg := Branch.ends_of_opened hadv
    rw [hends]
    have hfresh : f.Holds cfg.tieBreak [] := .inl ⟨rfl, (Branch.opened_fresh hadv).2⟩
    have hne : [] ++ f.remaining g cfg ≠ [] := by
      rw [List.nil_append, ← hends]
      exact Branch.ends_ne_nil
    obtain ⟨hfirst, hbest⟩ : SearchState.Settles g cfg (Branch.initial input).leave
        ⟨[f], none, []⟩ [] [] ([] ++ f.remaining g cfg) (f.remaining g cfg) :=
      SearchState.settles_frame hfresh hne
    refine ⟨hfirst, fun hnone => ?_⟩
    obtain ⟨d, hd, hrun⟩ := hbest hnone
    exact ⟨d, hd, by rw [hrun, SearchState.run_nil]; simp⟩

/-- **A search comes back with ends of the enumeration only.** -/
theorem search_mem_ends (g : FlatGrammar) (cfg : Config) (input : List Char) :
    (search g cfg input).derivation ∈ (Branch.initial input).ends g cfg ∧
      ∀ d ∈ (search g cfg input).cut, d ∈ (Branch.initial input).ends g cfg ∧ d.ranOut := by
  obtain ⟨hfirst, hbest⟩ := search_settles g cfg input
  rcases hfind : ((Branch.initial input).ends g cfg).find? (·.isComplete) with _ | d
  · obtain ⟨d, hd, hsearch⟩ := hbest hfind
    rw [hsearch]
    exact ⟨hd.mem, fun e he => List.mem_filter.1 he⟩
  · rw [hfirst d hfind]
    refine ⟨List.mem_of_find?_eq_some hfind, fun e he => ?_⟩
    obtain ⟨he, hran⟩ := List.mem_filter.1 he
    exact ⟨List.takeWhile_subset _ he, hran⟩

theorem mem_ends_of_mem_cut {g : FlatGrammar} {cfg : Config} {input : List Char} {d : Derivation}
    (h : d ∈ (search g cfg input).cut) : d ∈ (Branch.initial input).ends g cfg :=
  ((search_mem_ends g cfg input).2 d h).1

/-! ## Results that never were

A frame without a result would have to hand on its own branch, and a search without one its start.
The states that a search gets to never ask for that: only a frame with alternatives is opened, so
something is offered to it before it is closed. -/

namespace SearchState

/-- The states a search gets to. -/
inductive Reached (g : FlatGrammar) (cfg : Config) (input : List Char) : SearchState → Prop
  | opened {f : Frame} (h : (Branch.initial input).advance g cfg = .opened f) :
    Reached g cfg input { frames := [f] }
  | turn {s s' : SearchState} (hs : Reached g cfg input s)
    (h : s.step g cfg (Branch.initial input).leave = .inl s') : Reached g cfg input s'

/-- **The next turn lacks a result**: the search is over without one, or the innermost frame is to
be closed without one. -/
def Lacking (cfg : Config) (s : SearchState) : Prop :=
  match s.frames, s.done with
  | [], done => done = none
  | f :: _, none => f.untried = [] ∧ f.best = none
  | f :: _, some d =>
    ¬ d.isComplete ∧ f.untried = [] ∧ (f.offer cfg.tieBreak d).best = none

/-- All results are ends of derivations, and a frame is current only with something to try or to
hand on. -/
structure Supplied (s : SearchState) : Prop where
  best : ∀ f ∈ s.frames, ∀ d ∈ f.best, d.Ended
  done : ∀ d ∈ s.done, d.Ended
  current : s.done = none → ∃ f frames, s.frames = f :: frames ∧ (f.untried ≠ [] ∨ f.best ≠ none)

variable {g : FlatGrammar} {cfg : Config} {input : List Char} {f : Frame} {frames : List Frame}
  {cut : List Derivation} {d : Derivation} {s s' : SearchState}

theorem offer_best (tie : TieBreak) (hd : d.Ended) (hc : ¬ d.isComplete)
    (hf : ∀ d ∈ f.best, d.Ended) : ∃ c, (f.offer tie d).best = some c ∧ c.Ended := by
  obtain ⟨m, hm, -⟩ := hd.stuck_of_not_isComplete hc
  have hlast : d.lastMatch = some m := by rw [Derivation.lastMatch, hm]; rfl
  unfold Frame.offer
  split
  · simp_all
  · exact ⟨d, rfl, hd⟩
  · rename_i n current _ hcurrent
    split
    · exact ⟨d, rfl, hd⟩
    · obtain ⟨c, hbest, -⟩ := Option.bind_eq_some_iff.1 hcurrent
      exact ⟨c, hbest, hf c hbest⟩

theorem supplied_tryNext (hcurrent : f.untried ≠ [] ∨ f.best ≠ none)
    (hbest : ∀ f' ∈ f :: frames, ∀ d ∈ f'.best, d.Ended) :
    Supplied (tryNext g cfg f frames cut) := by
  have hf := hbest f (List.mem_cons_self ..)
  have hframes : ∀ f' ∈ frames, ∀ d ∈ f'.best, d.Ended :=
    fun f' hf' => hbest f' (List.mem_cons_of_mem _ hf')
  unfold tryNext
  split
  next hnil =>
    obtain ⟨c, hc⟩ := Option.ne_none_iff_exists'.1 (hcurrent.resolve_left (absurd hnil))
    refine ⟨hframes, fun d hd => ?_, fun h => by cases h⟩
    obtain rfl : f.finish = d := Option.some.inj hd
    rw [Frame.finish, hc]
    exact hf c hc
  next p ps _ =>
    dsimp only
    split
    next d hadv =>
      refine ⟨fun f' hf' => ?_, fun e he => ?_, fun h => by cases h⟩
      · rcases List.mem_cons.1 hf' with rfl | hf'
        · exact hf
        · exact hframes f' hf'
      · obtain rfl : d = e := Option.some.inj he
        exact Branch.ended_of_advance hadv
    next inner hadv =>
      refine ⟨fun f' hf' => ?_, by simp,
        fun _ => ⟨inner, _, rfl, .inl (Branch.opened_fresh hadv).1⟩⟩
      rcases List.mem_cons.1 hf' with rfl | hf'
      · simp [(Branch.opened_fresh hadv).2]
      · rcases List.mem_cons.1 hf' with rfl | hf'
        · exact hf
        · exact hframes f' hf'

theorem Supplied.step {start : Derivation} (hs : s.Supplied)
    (h : s.step g cfg start = .inl s') : s'.Supplied := by
  obtain ⟨frames, done, cut⟩ := s
  obtain ⟨hbest, hdone, hcurrent⟩ := hs
  match frames, done with
  | [], _ => cases h
  | f :: frames, none =>
    cases h
    obtain ⟨f', frames', heq, hf'⟩ := hcurrent rfl
    cases heq
    exact supplied_tryNext hf' hbest
  | f :: frames, some d =>
    unfold SearchState.step at h
    dsimp only at h
    split at h
    · cases h
    · rename_i hc
      cases h
      obtain ⟨c, hoffer, hended⟩ := offer_best cfg.tieBreak (hdone d rfl) hc
        (hbest f (List.mem_cons_self ..))
      refine supplied_tryNext (.inr (by simp [hoffer])) fun f' hf' e he => ?_
      rcases List.mem_cons.1 hf' with rfl | hf'
      · rw [hoffer] at he
        cases he
        exact hended
      · exact hbest f' (List.mem_cons_of_mem _ hf') e he

theorem Reached.supplied (h : Reached g cfg input s) : s.Supplied := by
  induction h with
  | opened hadv =>
    have hfresh := Branch.opened_fresh hadv
    refine ⟨fun f hf d hd => ?_, by simp, fun _ => ⟨_, [], rfl, .inl hfresh.1⟩⟩
    obtain rfl := List.mem_singleton.1 hf
    simp [hfresh.2] at hd
  | turn _ hstep ih => exact ih.step hstep

theorem Supplied.not_lacking (hs : s.Supplied) : ¬ s.Lacking cfg := by
  obtain ⟨frames, done, cut⟩ := s
  obtain ⟨hbest, hdone, hcurrent⟩ := hs
  match frames, done with
  | [], none =>
    obtain ⟨f, frames, heq, -⟩ := hcurrent rfl
    cases heq
  | [], some d => exact fun h => by cases h
  | f :: frames, none =>
    obtain ⟨f', frames', heq, hf'⟩ := hcurrent rfl
    cases heq
    exact fun h => hf'.elim (· h.1) (· h.2)
  | f :: frames, some d =>
    rintro ⟨hc, -, hnone⟩
    obtain ⟨c, hoffer, -⟩ := offer_best cfg.tieBreak (hdone d rfl) hc
      (hbest f (List.mem_cons_self ..))
    rw [hoffer] at hnone
    cases hnone

end SearchState

/-- **A search by frames is a plain depth-first enumeration.**  Of all ends of derivations, in the
order in which they are met, the first complete one is the result; without one, it is the best of
them.  Those that ran out of input are collected in that order up to the result, each once.  No
frame is closed, and no search ends, without a result. -/
theorem search_eq_enumeration (g : FlatGrammar) (cfg : Config) (input : List Char) :
    (∀ d ∈ (Branch.initial input).ends g cfg, d.Ended) ∧
    (g.productions.Nodup → ((Branch.initial input).ends g cfg).Nodup) ∧
    (∀ before d after, (Branch.initial input).ends g cfg = before ++ d :: after →
      d.isComplete → (∀ e ∈ before, ¬ e.isComplete) →
      search g cfg input = ⟨d, before.filter (·.ranOut)⟩) ∧
    ((∀ d ∈ (Branch.initial input).ends g cfg, ¬ d.isComplete) →
      IsBest cfg.tieBreak ((Branch.initial input).ends g cfg) (search g cfg input).derivation ∧
      (search g cfg input).cut = ((Branch.initial input).ends g cfg).filter (·.ranOut)) ∧
    ∀ s, SearchState.Reached g cfg input s → ¬ s.Lacking cfg := by
  obtain ⟨hfirst, hbest⟩ := search_settles g cfg input
  refine ⟨fun d hd => Branch.ended_of_mem_ends hd, Branch.nodup_ends, ?_, ?_,
    fun s hs => hs.supplied.not_lacking⟩
  · intro before d after hends hd hbefore
    have hfind : ((Branch.initial input).ends g cfg).find? (·.isComplete) = some d :=
      List.find?_eq_some_iff_append.2 ⟨hd, before, after, hends, by simpa using hbefore⟩
    have htake : (before ++ d :: after).takeWhile (!·.isComplete) = before := by
      rw [List.takeWhile_append_of_pos (by simpa using hbefore)]
      simp [hd]
    rw [hfirst d hfind, hends, htake]
  · intro hnone
    obtain ⟨d, hd, hsearch⟩ := hbest (by simpa using hnone)
    rw [hsearch]
    exact ⟨hd, rfl⟩

end Typeahead
