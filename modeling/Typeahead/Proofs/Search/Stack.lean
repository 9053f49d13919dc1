import Typeahead.Proofs.Derivation.Leftmost
import Typeahead.Proofs.Search.Frames
import Mathlib.Algebra.Order.Ring.Nat
import Mathlib.Data.List.Perm.Subperm

/-!
# Proofs/Search/Stack — how long a search takes and how deep its stack gets

Following a branch adds an expansion or consumes input, so its `rank`, the expansions since input was
last consumed on top of a full count for every byte before, goes up from a frame to the one it
opens.  A frame has room for another expansion, hence ranks below `ceiling`.  The stack is thus no
longer than the ceiling (`SearchState.Reached.length_le`), whichever rules are left-recursive or
derive nothing, and the number of turns is bounded as well (`Branch.turns_lt`).
-/

namespace Typeahead

variable {g : FlatGrammar} {cfg : Config} {input : List Char}

/-! ## Ranks -/

/-- **How far a branch is on its way**: a byte counts as much as all expansions that can be made
without consuming one. -/
def Branch.rank (cfg : Config) (b : Branch) : Nat := b.pos * cfg.maxDepth + b.idle

/-- No frame of a search through `input` ranks as high as this. -/
def ceiling (cfg : Config) (input : List Char) : Nat :=
  (Text.byteLength input + 1) * cfg.maxDepth

namespace Branch

variable {b : Branch} {f : Frame} {p : Production}

@[simp] theorem rank_expand (cfg : Config) (b : Branch) (p : Production) :
    (b.expand p).rank cfg = b.rank cfg + 1 := rfl

theorem Within.pos_le (hb : b.Within input) : b.pos ≤ Text.byteLength input := by
  obtain ⟨before, hinput, hpos⟩ := hb
  rw [hinput, Text.byteLength_append, hpos]
  exact Nat.le_add_right ..

theorem Within.rank_lt (hb : b.Within input) (hidle : b.idle < cfg.maxDepth) :
    b.rank cfg < ceiling cfg input := by
  have hpos : b.pos * cfg.maxDepth ≤ Text.byteLength input * cfg.maxDepth :=
    Nat.mul_le_mul_right _ hb.pos_le
  rw [rank, ceiling, Nat.succ_mul]
  omega

theorem Within.advance (hb : b.Within input) (h : b.advance g cfg = .opened f) :
    f.branch.Within input := by
  fun_induction Branch.advance g cfg b with
  | case1 => cases h
  | case2 b t pending hp seen hm ih => exact ih (hb.accept hm) h
  | case3 => cases h
  | case4 => cases h
  | case5 => cases h; exact hb

/-- Matching text wins more than the expansions that are forgotten. -/
theorem rank_accept_le (hidle : b.idle ≤ cfg.maxDepth) (t : Terminal) (seen : List Char) :
    b.rank cfg ≤ (b.accept t seen).rank cfg ∧ (b.accept t seen).idle ≤ cfg.maxDepth := by
  by_cases hs : seen = []
  · simp [hs, rank, accept, Text.byteLength, hidle]
  · have hlen : 0 < Text.byteLength seen :=
      Nat.pos_of_ne_zero fun h => hs (Text.byteLength_eq_zero.1 h)
    have hgain : b.pos * cfg.maxDepth + cfg.maxDepth
        ≤ (b.pos + Text.byteLength seen) * cfg.maxDepth := by
      rw [← Nat.succ_mul]
      exact Nat.mul_le_mul_right _ (by omega)
    simp only [rank, accept, List.isEmpty_iff, hs, if_false]
    omega

theorem rank_le_of_opened (hidle : b.idle ≤ cfg.maxDepth) (h : b.advance g cfg = .opened f) :
    b.rank cfg ≤ f.branch.rank cfg := by
  fun_induction Branch.advance g cfg b with
  | case1 => cases h
  | case2 b t pending hp seen hm ih =>
    obtain ⟨hle, hidle'⟩ := rank_accept_le hidle t seen
    exact Nat.le_trans hle (ih hidle' h)
  | case3 => cases h
  | case4 => cases h
  | case5 => cases h; exact Nat.le_refl _

theorem untried_le_of_opened (h : b.advance g cfg = .opened f) :
    f.untried.length ≤ g.productions.length := by
  fun_induction Branch.advance g cfg b with
  | case1 => cases h
  | case2 b t pending hp seen hm ih => exact ih h
  | case3 => cases h
  | case4 => cases h
  | case5 => cases h; exact List.length_filter_le ..

/-! ## Turns -/

/-- Trying some alternatives takes at most as many turns as trying each takes. -/
theorem foldr_turns_le {bound : Nat} {ps : List Production}
    (h : ∀ p ∈ ps, (b.expand p).turns g cfg + 1 ≤ bound) :
    ps.foldr (fun p n => (b.expand p).turns g cfg + 1 + n) 1 ≤ ps.length * bound + 1 := by
  induction ps with
  | nil => simp
  | cons p ps ih =>
    have hp := h p (List.mem_cons_self ..)
    have hps := ih fun q hq => h q (List.mem_cons_of_mem _ hq)
    rw [List.foldr_cons, List.length_cons, Nat.succ_mul]
    omega

/-- **Every rank multiplies the turns** by at most two more than there are productions. -/
theorem turns_lt (hb : b.Within input) (hidle : b.idle ≤ cfg.maxDepth) :
    b.turns g cfg < (g.productions.length + 2) ^ (ceiling cfg input - b.rank cfg) := by
  fun_induction Branch.turns g cfg b with
  | case1 => exact Nat.pow_pos (by omega)
  | case2 b f hf ih =>
    have hroom : f.branch.idle < cfg.maxDepth := (advance_opened hf).1
    have hrank : b.rank cfg ≤ f.branch.rank cfg := rank_le_of_opened hidle hf
    have htop : f.branch.rank cfg < ceiling cfg input := (hb.advance hf).rank_lt hroom
    have hlen : f.untried.length ≤ g.productions.length := untried_le_of_opened hf
    set bound := (g.productions.length + 2) ^ (ceiling cfg input - (f.branch.rank cfg + 1))
    have hbound : 0 < bound := Nat.pow_pos (by omega)
    have heach : ∀ p ∈ f.untried, (f.branch.expand p).turns g cfg + 1 ≤ bound :=
      fun p _ => ih p (hb.advance hf).expand hroom
    calc f.untried.foldr (fun p n => (f.branch.expand p).turns g cfg + 1 + n) 1
      _ ≤ f.untried.length * bound + 1 := foldr_turns_le heach
      _ ≤ g.productions.length * bound + 1 := by
        have := Nat.mul_le_mul_right bound hlen
        omega
      _ < (g.productions.length + 2) * bound := by
        rw [Nat.add_mul]
        omega
      _ = (g.productions.length + 2) ^ (ceiling cfg input - f.branch.rank cfg) := by
        rw [← Nat.pow_succ', Nat.succ_eq_add_one]
        congr 1
        omega
      _ ≤ (g.productions.length + 2) ^ (ceiling cfg input - b.rank cfg) :=
        Nat.pow_le_pow_right (by omega) (by omega)

end Branch

namespace SearchState

/-- **A search that is over** after a number of turns, with a result. -/
inductive Takes (g : FlatGrammar) (cfg : Config) (start : Derivation) :
    Nat → SearchState → SearchResult → Prop
  | over {s : SearchState} {r : SearchResult} (h : s.step g cfg start = .inr r) :
    Takes g cfg start 1 s r
  | turn {n : Nat} {s s' : SearchState} {r : SearchResult} (h : s.step g cfg start = .inl s')
    (hrest : Takes g cfg start n s' r) : Takes g cfg start (n + 1) s r

theorem takes_run (g : FlatGrammar) (cfg : Config) (start : Derivation) (s : SearchState) :
    ∃ n ≤ s.turns g cfg + 1, Takes g cfg start n s (run g cfg start s) := by
  induction hn : s.turns g cfg generalizing s with
  | zero =>
    cases hstep : s.step g cfg start with
    | inl s' => have := step_turns hstep; omega
    | inr r => exact ⟨1, Nat.le_refl _, .over (run_of_inr hstep ▸ hstep)⟩
  | succ k ih =>
    cases hstep : s.step g cfg start with
    | inl s' =>
      obtain ⟨n, hle, htakes⟩ := ih s' (by have := step_turns hstep; omega)
      exact ⟨n + 1, by omega, .turn hstep (run_of_inl hstep ▸ htakes)⟩
    | inr r => exact ⟨1, by omega, .over (run_of_inr hstep ▸ hstep)⟩

/-! ## The stack -/

/-- The branches of the open frames, the innermost first. -/
def path (s : SearchState) : List Branch := s.frames.map Frame.branch

variable {s s' : SearchState} {start : Derivation} {f : Frame} {frames : List Frame}
  {cut : List Derivation}

theorem path_tryNext (g : FlatGrammar) (cfg : Config) (f : Frame) (frames : List Frame)
    (cut : List Derivation) :
    f.branch :: frames.map Frame.branch = f.branch :: (tryNext g cfg f frames cut).path ∨
    (tryNext g cfg f frames cut).path = f.branch :: frames.map Frame.branch ∨
    ∃ p inner, (f.branch.expand p).advance g cfg = .opened inner ∧
      (tryNext g cfg f frames cut).path = inner.branch :: f.branch :: frames.map Frame.branch := by
  unfold tryNext
  split
  next => exact .inl rfl
  next p ps _ =>
    dsimp only
    split
    next => exact .inr (.inl rfl)
    next inner hinner => exact .inr (.inr ⟨p, inner, hinner, rfl⟩)

/-- **What a turn does to the stack**: it closes the innermost frame, leaves the stack as it is, or
opens a frame within the innermost one. -/
theorem path_step (h : s.step g cfg start = .inl s') :
    (∃ b, s.path = b :: s'.path) ∨ s'.path = s.path ∨
    ∃ b path p inner, s.path = b :: path ∧ (b.expand p).advance g cfg = .opened inner ∧
      s'.path = inner.branch :: s.path := by
  obtain ⟨frames, done, cut⟩ := s
  -- the frame that goes on is the innermost one or has only taken a result into account
  have hnext : ∃ f fs f', frames = f :: fs ∧ f'.branch = f.branch ∧ s' = tryNext g cfg f' fs cut := by
    unfold step at h
    match frames, done with
    | [], _ => cases h
    | f :: fs, none =>
      cases h
      exact ⟨f, fs, f, rfl, rfl, rfl⟩
    | f :: fs, some d =>
      dsimp only at h
      split at h
      · cases h
      · cases h
        exact ⟨f, fs, _, rfl, Frame.offer_branch .., rfl⟩
  obtain ⟨f, fs, f', rfl, hbranch, rfl⟩ := hnext
  have hpath := path_tryNext g cfg f' fs cut
  rw [hbranch] at hpath
  rcases hpath with hclosed | hsame | ⟨p, inner, hinner, hopened⟩
  · exact .inl ⟨f.branch, hclosed⟩
  · exact .inr (.inl hsame)
  · exact .inr (.inr ⟨f.branch, _, p, inner, rfl, hinner, hopened⟩)

/-- **Branches that lie within each other**: each has room for an expansion, and its rank is above
those of the branches around it. -/
structure Nested (cfg : Config) (input : List Char) (path : List Branch) : Prop where
  within : ∀ b ∈ path, b.Within input
  room : ∀ b ∈ path, b.idle < cfg.maxDepth
  apart : path.Pairwise fun inner outer => outer.rank cfg < inner.rank cfg

theorem Nested.of_cons {b : Branch} {path : List Branch} (h : Nested cfg input (b :: path)) :
    Nested cfg input path where
  within c hc := h.within c (List.mem_cons_of_mem _ hc)
  room c hc := h.room c (List.mem_cons_of_mem _ hc)
  apart := (List.pairwise_cons.1 h.apart).2

/-- A frame that is opened ranks above the innermost one, hence above all. -/
theorem Nested.open {b : Branch} {path : List Branch} {p : Production} {inner : Frame}
    (h : Nested cfg input (b :: path)) (hinner : (b.expand p).advance g cfg = .opened inner) :
    Nested cfg input (inner.branch :: b :: path) := by
  have hb : b.Within input := h.within b (List.mem_cons_self ..)
  have hroom : b.idle < cfg.maxDepth := h.room b (List.mem_cons_self ..)
  have hrank : b.rank cfg < inner.branch.rank cfg :=
    Branch.rank_le_of_opened (b := b.expand p) hroom hinner
  refine ⟨?_, ?_, List.pairwise_cons.2 ⟨fun c hc => ?_, h.apart⟩⟩
  · exact List.forall_mem_cons.2 ⟨hb.expand.advance hinner, h.within⟩
  · exact List.forall_mem_cons.2 ⟨(Branch.advance_opened hinner).1, h.room⟩
  · rcases List.mem_cons.1 hc with rfl | hc
    · exact hrank
    · exact Nat.lt_trans ((List.pairwise_cons.1 h.apart).1 c hc) hrank

theorem Nested.step (hs : Nested cfg input s.path) (h : s.step g cfg start = .inl s') :
    Nested cfg input s'.path := by
  rcases path_step h with ⟨b, hclosed⟩ | hsame | ⟨b, path, p, inner, hpath, hinner, hopened⟩
  · exact (hclosed ▸ hs).of_cons
  · exact hsame ▸ hs
  · rw [hopened]
    rw [hpath] at hs ⊢
    exact hs.open hinner

theorem Reached.nested (h : Reached g cfg input s) : Nested cfg input s.path := by
  induction h with
  | opened hopened =>
    refine ⟨fun b hb => ?_, fun b hb => ?_, List.pairwise_singleton ..⟩
    · obtain rfl := List.mem_singleton.1 hb
      exact (Branch.within_initial input).advance hopened
    · obtain rfl := List.mem_singleton.1 hb
      exact (Branch.advance_opened hopened).1
  | turn _ hstep ih => exact ih.step hstep

/-- There are no more branches within each other than ranks. -/
theorem Nested.length_le {path : List Branch} (h : Nested cfg input path) :
    path.length ≤ ceiling cfg input := by
  have hnodup : (path.map (Branch.rank cfg)).Nodup :=
    List.pairwise_map.2 (h.apart.imp fun hlt => (Nat.ne_of_lt hlt).symm)
  have hsub : path.map (Branch.rank cfg) ⊆ List.range (ceiling cfg input) := by
    intro n hn
    obtain ⟨b, hb, rfl⟩ := List.mem_map.1 hn
    exact List.mem_range.2 ((h.within b hb).rank_lt (h.room b hb))
  simpa using (hnodup.subperm hsub).length_le

theorem Reached.length_le (h : Reached g cfg input s) :
    s.frames.length ≤ ceiling cfg input := by
  simpa [path] using h.nested.length_le

end SearchState

/-- **A search always ends**, on any productions, left-recursive ones and cycles that derive nothing
included: without a turn, or after a number of turns that is exponential at most.  Whenever it is
looked at, its stack holds at most as many frames as there are expansions to make, that is the depth
for every byte of the input and once more at its end. -/
theorem search_terminates (g : FlatGrammar) (cfg : Config) (input : List Char) :
    ((∃ d, (Branch.initial input).advance g cfg = .ended d ∧
        search g cfg input = ⟨d, (SearchState.note d []).reverse⟩) ∨
      ∃ f n, (Branch.initial input).advance g cfg = .opened f ∧
        n ≤ (g.productions.length + 2) ^ ((Text.byteLength input + 1) * cfg.maxDepth) ∧
        SearchState.Takes g cfg (Branch.initial input).leave n { frames := [f] }
          (search g cfg input)) ∧
    ∀ s, SearchState.Reached g cfg input s →
      s.frames.length ≤ (Text.byteLength input + 1) * cfg.maxDepth := by
  refine ⟨?_, fun s hs => hs.length_le⟩
  cases hadv : (Branch.initial input).advance g cfg with
  | ended d => exact .inl ⟨d, rfl, by simp only [search, hadv]⟩
  | opened f =>
    obtain ⟨n, hn, htakes⟩ :=
      SearchState.takes_run g cfg (Branch.initial input).leave { frames := [f] }
    have hsearch : search g cfg input
        = SearchState.run g cfg (Branch.initial input).leave { frames := [f] } := by
      simp only [search, hadv]
    have hturns : (Branch.initial input).turns g cfg
        < (g.productions.length + 2) ^ ceiling cfg input := by
      simpa [Branch.rank, Branch.initial] using
        Branch.turns_lt (g := g) (Branch.within_initial input) (Nat.zero_le cfg.maxDepth)
    rw [Frame.turns_of_opened hadv] at hturns
    refine .inr ⟨f, n, rfl, ?_, hsearch ▸ htakes⟩
    simp only [SearchState.turns, List.foldr_cons, List.foldr_nil] at hn
    exact Nat.le_trans hn (Nat.succ_le_of_lt hturns)

end Typeahead
