import Typeahead.FlatGrammar

/-!
# Search/Branch — derivations, under way and ended

A derivation expands the start symbol from the left.  A `Branch` is a derivation under way: the
symbols still pending, the input still to be read and the steps taken.  It ends, as a `Derivation`,
in one of three ways: nothing is pending (it is complete), a terminal does not match, or a
nonterminal is given up because it has no productions or too many expansions happened without
consuming input.

`Branch.advance` matches the leading terminals of a branch.  It comes to an end or to a nonterminal
that can be expanded; for the latter it opens a `Frame`, in which the alternatives are tried.
-/

namespace Typeahead

/-- One step of a derivation. -/
inductive Step
  /-- The leading nonterminal was expanded at an offset. -/
  | expand (p : Production) (pos : Nat)
  /-- The leading terminal was matched. -/
  | accept (t : Terminal) (m : Match)
deriving DecidableEq

/-- The match of a step that matched a terminal. -/
def Step.result? : Step → Option Match
  | expand _ _ => none
  | accept _ m => some m

/-- A derivation under way. -/
structure Branch where
  pending : List Symbol
  /-- The input not read yet. -/
  rest : List Char
  /-- The byte offset where `rest` starts. -/
  pos : Nat
  /-- The number of expansions since input was last consumed. -/
  idle : Nat
  /-- The steps taken, the latest first. -/
  trace : List Step

/-- A derivation that came to its end. -/
structure Derivation where
  /-- The steps taken, the latest first. -/
  trace : List Step
  /-- The symbols never matched; the first of them is the one the derivation is stuck on. -/
  pending : List Symbol
  /-- The match of the symbol the derivation is stuck on, if it is. -/
  stuck : Option Match
  /-- The byte offset it reached. -/
  stop : Nat
deriving DecidableEq

namespace Derivation

/-- Whether everything was matched. -/
def isComplete (d : Derivation) : Bool := d.pending.isEmpty

/-- Whether the input ended before the symbol the derivation is stuck on did. -/
def ranOut (d : Derivation) : Bool := d.stuck.any (·.outcome = .endOfInput)

/-- The match a derivation is ranked by: the one it is stuck on, or else its last. -/
def lastMatch (d : Derivation) : Option Match := d.stuck.or (d.trace.findSome? Step.result?)

end Derivation

/-- A branch at a nonterminal whose alternatives are being tried. -/
structure Frame where
  branch : Branch
  /-- The alternatives not tried yet. -/
  untried : List Production
  /-- The best result of those that were tried. -/
  best : Option Derivation := none

/-- Where a branch gets by itself. -/
inductive Advance
  /-- It came to its end. -/
  | ended (d : Derivation)
  /-- It has to choose among alternatives. -/
  | opened (f : Frame)

namespace Branch

/-- The branch that has done nothing yet. -/
def initial (input : List Char) : Branch := ⟨[.nonterminal SymbolTable.start], input, 0, 0, []⟩

/-- The branch after its leading terminal matched the characters `seen`. -/
def accept (b : Branch) (t : Terminal) (seen : List Char) : Branch where
  pending := b.pending.tail
  rest := b.rest.drop seen.length
  pos := b.pos + Text.byteLength seen
  idle := if seen.isEmpty then b.idle else 0
  trace := .accept t ⟨.successful, b.pos, String.ofList seen⟩ :: b.trace

/-- The branch after its leading nonterminal was expanded by `p`. -/
def expand (b : Branch) (p : Production) : Branch :=
  { b with
    pending := p.right ++ b.pending.tail
    idle := b.idle + 1
    trace := .expand p b.pos :: b.trace }

/-- The derivation of a branch that is left where it stands. -/
def leave (b : Branch) : Derivation := ⟨b.trace, b.pending, none, b.pos⟩

/-- The end of a branch whose leading symbol did not match. -/
def stick (b : Branch) (m : Match) : Derivation := ⟨b.trace, b.pending, some m, b.pos⟩

theorem accept_pending {b : Branch} {s : Symbol} {pending : List Symbol} (h : b.pending = s :: pending)
    (t : Terminal) (seen : List Char) : (b.accept t seen).pending = pending := by
  rw [accept, h, List.tail_cons]

theorem expand_pending {b : Branch} {s : Symbol} {pending : List Symbol} (h : b.pending = s :: pending)
    (p : Production) : (b.expand p).pending = p.right ++ pending := by
  rw [expand, h, List.tail_cons]

/-- Matches the leading terminals. -/
def advance (g : FlatGrammar) (cfg : Config) (b : Branch) : Advance :=
  match _hp : b.pending with
  | [] => .ended b.leave
  | .terminal t :: _ =>
    match t.scan b.rest b.rest.isEmpty with
    | (.successful, seen) => (b.accept t seen).advance g cfg
    | (outcome, seen) => .ended (b.stick ⟨outcome, b.pos, String.ofList seen⟩)
  | .nonterminal x :: _ =>
    if g.alternatives x = [] ∨ cfg.maxDepth ≤ b.idle then .ended (b.stick ⟨.failed, b.pos, ""⟩)
    else .opened { branch := b, untried := g.alternatives x }
termination_by b.pending.length
decreasing_by simp [accept, _hp]

/-- **Between two choices** a branch consumes input or stays where it is, and there is room for an
expansion when it gets to choose. -/
theorem advance_opened {g : FlatGrammar} {cfg : Config} {b : Branch} {f : Frame}
    (h : b.advance g cfg = .opened f) :
    f.branch.idle < cfg.maxDepth ∧ (f.branch.rest.length < b.rest.length ∨
      f.branch.rest.length = b.rest.length ∧ f.branch.idle = b.idle) := by
  fun_induction advance g cfg b with
  | case1 => cases h
  | case2 b t pending hp seen hm ih =>
    obtain ⟨hroom, hstep⟩ := ih h
    refine ⟨hroom, ?_⟩
    have hle := (Terminal.scan_successful hm).length_le
    by_cases hs : seen = []
    · subst hs
      simpa [accept] using hstep
    · have : 0 < seen.length := List.length_pos_iff.2 hs
      simp only [accept, List.length_drop] at hstep
      omega
  | case3 => cases h
  | case4 => cases h
  | case5 b x pending hp hopen =>
    cases h
    exact ⟨by simp only [not_or, Nat.not_le] at hopen; exact hopen.2, .inr ⟨rfl, rfl⟩⟩

/-- The number of turns it takes to follow a branch to all its ends. -/
def turns (g : FlatGrammar) (cfg : Config) (b : Branch) : Nat :=
  match h : b.advance g cfg with
  | .ended _ => 0
  | .opened f => f.untried.foldr (fun p n => (f.branch.expand p).turns g cfg + 1 + n) 1
termination_by (b.rest.length, cfg.maxDepth - b.idle)
decreasing_by
  obtain ⟨hroom, hstep⟩ := advance_opened h
  simp only [expand, Prod.lex_def]
  omega

end Branch

end Typeahead
