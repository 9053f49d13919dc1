import Typeahead.Proofs.Symbol.Scan
import Typeahead.Search
import Mathlib.Data.List.Nodup

/-!
# Proofs/Search/Enumeration — all ends of a branch, depth first

`Branch.ends` is the plain enumeration: it follows a branch symbol by symbol, tries the alternatives
of a nonterminal in the order of their declaration, and lists every derivation it ends in.  There is
no stack, no best result and no early exit.

* `ends_of_ended`, `ends_of_opened` read the list off what a branch can do by itself;
* `ended_of_mem_ends`: a derivation in the list is complete, or stuck short of a success;
* `nodup_ends`: the list repeats nothing, because two ends differ in the steps taken.
-/

namespace Typeahead

namespace Branch

/-- **All ends of a branch**, in the order in which a depth-first search meets them. -/
def ends (g : FlatGrammar) (cfg : Config) (b : Branch) : List Derivation :=
  match _hp : b.pending with
  | [] => [b.leave]
  | .terminal t :: _ =>
    match _hm : t.scan b.rest b.rest.isEmpty with
    | (.successful, seen) => (b.accept t seen).ends g cfg
    | (outcome, seen) => [b.stick ⟨outcome, b.pos, String.ofList seen⟩]
  | .nonterminal x :: _ =>
    if _hidle : b.idle < cfg.maxDepth then
      if g.alternatives x = [] then [b.stick ⟨.failed, b.pos, ""⟩]
      else (g.alternatives x).flatMap fun p => (b.expand p).ends g cfg
    else [b.stick ⟨.failed, b.pos, ""⟩]
termination_by (b.rest.length, cfg.maxDepth - b.idle, b.pending.length)
decreasing_by
  · have hle := (Terminal.scan_successful _hm).length_le
    by_cases hs : seen = []
    · subst hs
      simp [accept, _hp, Prod.lex_def]
    · have : 0 < seen.length := List.length_pos_iff.2 hs
      simp only [accept, List.length_drop, Prod.lex_def]
      omega
  · simp only [expand, Prod.lex_def]
    exact .inr ⟨trivial, .inl (by omega)⟩

variable {g : FlatGrammar} {cfg : Config} {b : Branch}

theorem ends_nil (hp : b.pending = []) : b.ends g cfg = [b.leave] := by
  obtain ⟨pending, rest, pos, idle, trace⟩ := b
  cases hp
  rw [ends]

theorem ends_accept {t : Terminal} {pending : List Symbol} {seen : List Char}
    (hp : b.pending = .terminal t :: pending)
    (hm : t.scan b.rest b.rest.isEmpty = (.successful, seen)) :
    b.ends g cfg = (b.accept t seen).ends g cfg := by
  obtain ⟨_, rest, pos, idle, trace⟩ := b
  cases hp
  rw [ends]
  dsimp only at hm ⊢
  split <;> simp_all

theorem ends_stuck {t : Terminal} {pending : List Symbol} {outcome : Outcome} {seen : List Char}
    (hp : b.pending = .terminal t :: pending)
    (hm : t.scan b.rest b.rest.isEmpty = (outcome, seen)) (ho : outcome ≠ .successful) :
    b.ends g cfg = [b.stick ⟨outcome, b.pos, String.ofList seen⟩] := by
  obtain ⟨_, rest, pos, idle, trace⟩ := b
  cases hp
  rw [ends]
  dsimp only at hm ⊢
  split <;> simp_all

theorem ends_expand {x : String} {pending : List Symbol}
    (hp : b.pending = .nonterminal x :: pending) (hidle : b.idle < cfg.maxDepth)
    (halt : g.alternatives x ≠ []) :
    b.ends g cfg = (g.alternatives x).flatMap fun p => (b.expand p).ends g cfg := by
  obtain ⟨_, rest, pos, idle, trace⟩ := b
  cases hp
  rw [ends]
  simp only [hidle, halt, if_false, dif_pos]

theorem ends_givenUp {x : String} {pending : List Symbol}
    (hp : b.pending = .nonterminal x :: pending)
    (h : g.alternatives x = [] ∨ cfg.maxDepth ≤ b.idle) :
    b.ends g cfg = [b.stick ⟨.failed, b.pos, ""⟩] := by
  obtain ⟨_, rest, pos, idle, trace⟩ := b
  cases hp
  rw [ends]
  dsimp only at h ⊢
  split
  · rw [if_pos (h.resolve_right (by omega))]
  · rfl

theorem ends_of_ended {d : Derivation} (h : b.advance g cfg = .ended d) : b.ends g cfg = [d] := by
  fun_induction advance g cfg b with
  | case1 b hp =>
    cases h
    exact ends_nil hp
  | case2 b t pending hp seen hm ih => rw [ends_accept hp hm, ih h]
  | case3 b t pending hp outcome seen hne hm =>
    cases h
    exact ends_stuck hp hm hne
  | case4 b x pending hp hclosed =>
    cases h
    exact ends_givenUp hp hclosed
  | case5 => cases h

theorem ends_of_opened {f : Frame} (h : b.advance g cfg = .opened f) :
    b.ends g cfg = f.untried.flatMap fun p => (f.branch.expand p).ends g cfg := by
  fun_induction advance g cfg b with
  | case1 => cases h
  | case2 b t pending hp seen hm ih => rw [ends_accept hp hm, ih h]
  | case3 => cases h
  | case4 => cases h
  | case5 b x pending hp hopen =>
    cases h
    rw [not_or, Nat.not_le] at hopen
    exact ends_expand hp hopen.2 hopen.1

/-- A frame is opened with alternatives to try and nothing found. -/
theorem opened_fresh {f : Frame} (h : b.advance g cfg = .opened f) :
    f.untried ≠ [] ∧ f.best = none := by
  fun_induction advance g cfg b with
  | case1 => cases h
  | case2 b t pending hp seen hm ih => exact ih h
  | case3 => cases h
  | case4 => cases h
  | case5 b x pending hp hopen =>
    cases h
    exact ⟨fun h => hopen (.inl h), rfl⟩

end Branch

/-! ## How derivations end -/

/-- **How a derivation can end**: nothing is left of it, or it is stuck on a symbol with a match
that is not a success. -/
def Derivation.Ended (d : Derivation) : Prop :=
  d.pending = [] ∧ d.stuck = none ∨
    d.pending ≠ [] ∧ ∃ m, d.stuck = some m ∧ m.outcome.isStuck = true

namespace Derivation.Ended

variable {d : Derivation}

theorem stuck_of_not_isComplete (h : d.Ended) (hc : ¬ d.isComplete) :
    ∃ m, d.stuck = some m ∧ m.outcome.isStuck = true := by
  rcases h with ⟨hp, -⟩ | ⟨-, hm⟩
  · simp [isComplete, hp] at hc
  · exact hm

theorem stuck_of_isComplete (h : d.Ended) (hc : d.isComplete) : d.stuck = none := by
  rcases h with ⟨-, hs⟩ | ⟨hp, -⟩
  · exact hs
  · simp [isComplete, hp] at hc

/-- A complete derivation did not run out of input. -/
theorem ranOut_of_isComplete (h : d.Ended) (hc : d.isComplete) : d.ranOut = false := by
  rw [ranOut, h.stuck_of_isComplete hc]
  rfl

end Derivation.Ended

theorem Derivation.stuck_of_ranOut {d : Derivation} (h : d.ranOut) :
    ∃ m, d.stuck = some m ∧ m.outcome = .endOfInput := by
  rcases hs : d.stuck with _ | m
  · rw [ranOut, hs] at h
    cases h
  · rw [ranOut, hs] at h
    exact ⟨m, rfl, by simpa using h⟩

namespace Branch

variable {g : FlatGrammar} {cfg : Config} {b : Branch}

theorem ended_stick {s : Symbol} {pending : List Symbol} {m : Match} (hp : b.pending = s :: pending)
    (hm : m.outcome.isStuck = true) : (b.stick m).Ended :=
  .inr ⟨by simp [stick, hp], m, rfl, hm⟩

theorem ended_of_mem_ends {d : Derivation} (h : d ∈ b.ends g cfg) : d.Ended := by
  fun_induction ends g cfg b with
  | case1 b hp =>
    obtain rfl := List.mem_singleton.1 h
    exact .inl ⟨hp, rfl⟩
  | case2 b t pending hp seen hm ih => exact ih h
  | case3 b t pending hp outcome seen hne hm =>
    obtain rfl := List.mem_singleton.1 h
    exact ended_stick hp (Terminal.scan_isStuck hm hne)
  | case4 b x pending hp =>
    obtain rfl := List.mem_singleton.1 h
    exact ended_stick hp rfl
  | case5 b x pending hp hidle halt ih =>
    obtain ⟨p, -, hd⟩ := List.mem_flatMap.1 h
    exact ih p hd
  | case6 b x pending hp =>
    obtain rfl := List.mem_singleton.1 h
    exact ended_stick hp rfl

theorem ended_of_advance {d : Derivation} (h : b.advance g cfg = .ended d) : d.Ended := by
  have hd : d ∈ b.ends g cfg := by
    rw [ends_of_ended h]
    exact List.mem_singleton_self d
  exact ended_of_mem_ends hd

theorem ends_ne_nil : b.ends g cfg ≠ [] := by
  fun_induction ends g cfg b with
  | case1 | case3 | case4 | case6 => exact List.cons_ne_nil _ _
  | case2 b t pending hp seen hm ih => exact ih
  | case5 b x pending hp hidle halt ih =>
    obtain ⟨p, ps, hps⟩ := List.exists_cons_of_ne_nil halt
    rw [hps, List.flatMap_cons]
    exact List.append_ne_nil_of_left_ne_nil (ih p) _

/-- The steps of a branch are the first ones of all its ends. -/
theorem trace_suffix_of_mem_ends {d : Derivation} (h : d ∈ b.ends g cfg) : b.trace <:+ d.trace := by
  fun_induction ends g cfg b with
  | case1 | case3 | case4 | case6 =>
    obtain rfl := List.mem_singleton.1 h
    exact List.suffix_refl _
  | case2 b t pending hp seen hm ih => exact (List.suffix_cons _ _).trans (ih h)
  | case5 b x pending hp hidle halt ih =>
    obtain ⟨p, -, hd⟩ := List.mem_flatMap.1 h
    exact (List.suffix_cons _ _).trans (ih p hd)

/-- **The enumeration repeats nothing** if no production does. -/
theorem nodup_ends (hg : g.productions.Nodup) : (b.ends g cfg).Nodup := by
  fun_induction ends g cfg b with
  | case1 | case3 | case4 | case6 => exact List.nodup_singleton _
  | case2 b t pending hp seen hm ih => exact ih
  | case5 b x pending hp hidle halt ih =>
    refine List.nodup_flatMap.2 ⟨fun p _ => ih p, ?_⟩
    refine (hg.filter _).imp fun {p q} hpq d hp hq => hpq ?_
    -- both suffixes of the steps of `d` have the length of one step more than `b` took
    have heq : (b.expand p).trace = (b.expand q).trace :=
      (List.suffix_or_suffix_of_suffix (trace_suffix_of_mem_ends hp)
        (trace_suffix_of_mem_ends hq)).elim (·.eq_of_length rfl) fun h => (h.eq_of_length rfl).symm
    simpa [expand] using heq

end Branch

end Typeahead
