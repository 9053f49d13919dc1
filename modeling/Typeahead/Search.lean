import Typeahead.Search.Branch

/-!
# Search — derivations of the input, depth first

The search keeps a stack of frames, one for every nonterminal whose alternatives are being tried.
In a turn it takes the next alternative of the innermost frame and follows it as far as it goes by
itself: to an end, which is offered to the frame in the next turn, or to a nonterminal, which opens a
frame of its own.  A frame without alternatives left is closed, and the best it was offered is
offered to the frame around it.

The first complete derivation ends the search.  Without one, the result is what the outermost frame
ends up with; the derivations that ran out of input are collected on the way.

The search ends because every turn brings it closer to having followed every branch to its ends
(`SearchState.step_turns`).
-/

namespace Typeahead

namespace Frame

/-- Takes the result of an alternative into account. -/
def offer (tie : TieBreak) (d : Derivation) (f : Frame) : Frame :=
  match d.lastMatch, f.best.bind (·.lastMatch) with
  | none, _ => f
  | some _, none => { f with best := some d }
  | some m, some current => if m.beats tie current then { f with best := some d } else f

/-- The result of a frame: the best it was offered, or the branch as it stands. -/
def finish (f : Frame) : Derivation := f.best.getD f.branch.leave

/-- The number of turns it takes to try the alternatives that are left. -/
def turns (g : FlatGrammar) (cfg : Config) (f : Frame) : Nat :=
  f.untried.foldr (fun p n => (f.branch.expand p).turns g cfg + 1 + n) 1

theorem turns_eq {g : FlatGrammar} {cfg : Config} {f : Frame} {p : Production}
    {ps : List Production} (h : f.untried = p :: ps) : f.turns g cfg
      = (f.branch.expand p).turns g cfg + 1 + ({ f with untried := ps } : Frame).turns g cfg := by
  rw [turns, h]
  rfl

theorem turns_of_opened {g : FlatGrammar} {cfg : Config} {b : Branch} {f : Frame}
    (h : b.advance g cfg = .opened f) : b.turns g cfg = f.turns g cfg := by
  rw [Branch.turns, h]
  rfl

@[simp] theorem offer_branch (tie : TieBreak) (d : Derivation) (f : Frame) :
    (f.offer tie d).branch = f.branch := by
  unfold offer
  split
  · rfl
  · rfl
  · split <;> rfl

@[simp] theorem offer_untried (tie : TieBreak) (d : Derivation) (f : Frame) :
    (f.offer tie d).untried = f.untried := by
  unfold offer
  split
  · rfl
  · rfl
  · split <;> rfl

@[simp] theorem offer_turns (g : FlatGrammar) (cfg : Config) (tie : TieBreak) (d : Derivation)
    (f : Frame) : (f.offer tie d).turns g cfg = f.turns g cfg := by
  rw [turns, turns, offer_branch, offer_untried]

end Frame

/-- The result of a search: a complete derivation or the best stuck one, and the derivations that
ran out of input before, in the order in which they were met. -/
structure SearchResult where
  derivation : Derivation
  cut : List Derivation

/-- A search under way. -/
structure SearchState where
  /-- The open frames, the innermost first. -/
  frames : List Frame
  /-- The result of the last alternative, to be offered to the innermost frame. -/
  done : Option Derivation := none
  /-- The derivations that ran out of input, the latest first. -/
  cut : List Derivation := []

namespace SearchState

/-- Notes a derivation if it ran out of input. -/
def note (d : Derivation) (cut : List Derivation) : List Derivation :=
  if d.ranOut then d :: cut else cut

/-- Tries the next alternative of the innermost frame `f`, or closes it. -/
def tryNext (g : FlatGrammar) (cfg : Config) (f : Frame) (frames : List Frame)
    (cut : List Derivation) : SearchState :=
  match f.untried with
  | [] => { frames := frames, done := some f.finish, cut := cut }
  | p :: ps =>
    let f := { f with untried := ps }
    match (f.branch.expand p).advance g cfg with
    | .ended d => { frames := f :: frames, done := some d, cut := note d cut }
    | .opened inner => { frames := inner :: f :: frames, cut := cut }

/-- One turn of a search.  The result once it is over; `start` stands in for one that never was. -/
def step (g : FlatGrammar) (cfg : Config) (start : Derivation) (s : SearchState) :
    SearchState ⊕ SearchResult :=
  match s.frames, s.done with
  | [], done => .inr ⟨done.getD start, s.cut.reverse⟩
  | f :: frames, none => .inl (tryNext g cfg f frames s.cut)
  | f :: frames, some d =>
    if d.isComplete then .inr ⟨d, s.cut.reverse⟩
    else .inl (tryNext g cfg (f.offer cfg.tieBreak d) frames s.cut)

/-- The number of turns that are left if no derivation is complete. -/
def turns (g : FlatGrammar) (cfg : Config) (s : SearchState) : Nat :=
  s.frames.foldr (fun f n => f.turns g cfg + n) 0

theorem tryNext_turns (g : FlatGrammar) (cfg : Config) (f : Frame) (frames : List Frame)
    (cut : List Derivation) :
    (tryNext g cfg f frames cut).turns g cfg + 1
      = f.turns g cfg + frames.foldr (fun f n => f.turns g cfg + n) 0 := by
  unfold tryNext
  split
  next hnil => simp [turns, Frame.turns, hnil, Nat.add_comm]
  next p ps hcons =>
    rw [Frame.turns_eq hcons]
    dsimp only
    split
    next d hd =>
      have h0 : (f.branch.expand p).turns g cfg = 0 := by rw [Branch.turns, hd]
      simp only [turns, List.foldr_cons, h0]
      omega
    next inner hinner =>
      simp only [turns, List.foldr_cons, Frame.turns_of_opened hinner]
      omega

/-- **Every turn is one of finitely many.** -/
theorem step_turns {g : FlatGrammar} {cfg : Config} {start : Derivation} {s s' : SearchState}
    (h : s.step g cfg start = .inl s') : s'.turns g cfg + 1 = s.turns g cfg := by
  obtain ⟨frames, done, cut⟩ := s
  unfold step at h
  match frames, done with
  | [], _ => cases h
  | f :: frames, none =>
    cases h
    exact tryNext_turns g cfg f frames cut
  | f :: frames, some d =>
    dsimp only at h
    split at h
    · cases h
    · cases h
      rw [tryNext_turns, Frame.offer_turns]
      rfl

/-- Takes turns until the search is over. -/
def run (g : FlatGrammar) (cfg : Config) (start : Derivation) (s : SearchState) : SearchResult :=
  match _h : s.step g cfg start with
  | .inr result => result
  | .inl s' => s'.run g cfg start
termination_by s.turns g cfg
decreasing_by have := step_turns _h; omega

end SearchState

/-- **Searches for a derivation of the input.** -/
def search (g : FlatGrammar) (cfg : Config) (input : List Char) : SearchResult :=
  let start := Branch.initial input
  match start.advance g cfg with
  | .ended d => ⟨d, (SearchState.note d []).reverse⟩
  | .opened f => SearchState.run g cfg start.leave { frames := [f] }

end Typeahead
