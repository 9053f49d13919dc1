import Typeahead.FlatGrammar.Store
import Mathlib.Tactic.SplitIfs

/-!
# Proofs/FlatGrammar/Sink — lowering into sinks that go along with each other

If the operations of two sinks keep related states related, so does lowering
(`Sink.Simulates.lower`), by one lemma for each of its parts.  The lowering into the sink of flat
grammars is the one that grammars are compiled with (`FlatGrammar.sink_lower`).
-/

namespace Typeahead

namespace Sink

variable {σ τ : Type}

/-- **One sink does what another does**: states that are related stay so, and both make up the same
names and numbers. -/
structure Simulates (S : Sink σ) (T : Sink τ) (R : σ → τ → Prop) : Prop where
  extend {s : σ} {t : τ} (h : R s t) (rule : Nat) (left : String) (right : List Symbol)
    (naming : Naming) (shaping : Shaping) :
    R (S.extend s rule left right naming shaping) (T.extend t rule left right naming shaping)
  addRule {s : σ} {t : τ} (h : R s t) (r : Rule) :
    (S.addRule s r).1 = (T.addRule t r).1 ∧ R (S.addRule s r).2 (T.addRule t r).2
  fresh {s : σ} {t : τ} (h : R s t) (base : String) :
    (S.fresh s base).1 = (T.fresh t base).1 ∧ R (S.fresh s base).2 (T.fresh t base).2

namespace Simulates

variable {S : Sink σ} {T : Sink τ} {R : σ → τ → Prop} {s : σ} {t : τ} {rule : Nat}
  {target : String} {child : Symbol} {names : ChildNames}

/-- Productions added one after the other. -/
theorem foldl {α : Type} (h : S.Simulates T R) (d : α → String × List Symbol × Naming) (as : List α)
    (hs : R s t) :
    R (as.foldl (fun s a => S.extend s rule (d a).1 (d a).2.1 (d a).2.2 .keep) s)
      (as.foldl (fun t a => T.extend t rule (d a).1 (d a).2.1 (d a).2.2 .keep) t) := by
  induction as generalizing s t with
  | nil => exact hs
  | cons a as ih => exact ih (h.extend hs ..)

theorem lowerStar (h : S.Simulates T R) (hs : R s t) :
    R (S.lowerStar s rule target child names) (T.lowerStar t rule target child names) :=
  h.extend (h.extend hs ..) ..

theorem lowerRepetition (h : S.Simulates T R) (hs : R s t) (least most : Nat) :
    R (S.lowerRepetition s rule target child names least most)
      (T.lowerRepetition t rule target child names least most) :=
  h.foldl (fun i => (target, List.replicate (most - i) child, .positional names)) _ hs

variable (rule target child names) in
theorem lowerNext (h : S.Simulates T R) (hs : R s t) (j : Join) :
    (S.lowerNext s rule target child names j).1 = (T.lowerNext t rule target child names j).1 ∧
    R (S.lowerNext s rule target child names j).2 (T.lowerNext t rule target child names j).2 := by
  obtain ⟨hname, hfresh⟩ := h.fresh hs (target ++ "_next")
  unfold Sink.lowerNext
  dsimp only
  rw [← hname]
  cases j.delimiter with
  | none => exact ⟨rfl, h.extend hfresh ..⟩
  | some delimiter => exact ⟨rfl, h.extend hfresh ..⟩

theorem lowerTail (h : S.Simulates T R) (hs : R s t) (kind : RuleKind) (tail next : String) :
    R (S.lowerTail s kind tail next) (T.lowerTail t kind tail next) := by
  obtain ⟨hrule, hadded⟩ := h.addRule hs (.ofChildren kind tail [⟨.nonterminal next, some "next"⟩])
  unfold Sink.lowerTail
  dsimp only
  rw [← hrule]
  split
  · exact h.lowerRepetition hadded ..
  · exact h.lowerStar hadded

theorem lowerEntries (h : S.Simulates T R) (hs : R s t) (repetition next : String)
    (count : Count) :
    R (S.lowerEntries s rule target child names repetition next count)
      (T.lowerEntries t rule target child names repetition next count) := by
  obtain ⟨hstar, hs₁⟩ := h.fresh hs (target ++ "_star")
  obtain ⟨hrepeat, hs₂⟩ := h.fresh hs (target ++ "_repeat")
  unfold Sink.lowerEntries
  dsimp only
  rw [← hstar, ← hrepeat]
  have htail := h.lowerTail hs₁ .star (S.fresh s (target ++ "_star")).1 next
  obtain ⟨hrest, hs₃⟩ := h.fresh htail (target ++ "_rest")
  split_ifs
  · exact h.extend (h.extend htail ..) ..
  · exact h.extend htail ..
  · exact h.extend (h.extend hs ..) ..
  · exact h.extend hs ..
  · exact h.extend hs ..
  · rw [← hrest]
    exact h.extend (h.extend hs₃ ..) ..
  · exact h.extend (h.extend (h.lowerTail hs₂ ..) ..) ..
  · exact h.extend (h.lowerTail hs₂ ..) ..

theorem lowerJoin (h : S.Simulates T R) (hs : R s t) (j : Join) :
    R (S.lowerJoin s rule target child names j) (T.lowerJoin t rule target child names j) := by
  obtain ⟨hnext, hs₁⟩ := h.lowerNext rule target child names hs j
  obtain ⟨hrepetition, hs₂⟩ := h.fresh hs₁ (target ++ "_repetition")
  unfold Sink.lowerJoin
  dsimp only
  rw [← hnext, ← hrepetition]
  split
  · exact h.extend (h.lowerEntries hs₂ ..) ..
  · exact h.extend (h.lowerEntries hs₂ ..) ..

/-- **Lowering a rule keeps states related**, and is refused by both or by none. -/
theorem lower (h : S.Simulates T R) (hs : R s t) (r : Rule) :
    R (S.lower s r).1 (T.lower t r).1 ∧ (S.lower s r).2 = (T.lower t r).2 := by
  obtain ⟨hrule, hadded⟩ := h.addRule hs r
  unfold Sink.lower
  dsimp only
  rw [← hrule]
  cases r.kind with
  | sequence => exact ⟨h.extend hadded .., rfl⟩
  | choice =>
    let option (o : Symbol × Nat) := (r.target, [o.1], Naming.alternative o.2 r.names)
    exact ⟨h.foldl option _ hadded, rfl⟩
  | optional =>
    cases r.children.head? with
    | none => exact ⟨hadded, rfl⟩
    | some child => exact ⟨h.extend (h.extend hadded ..) .., rfl⟩
  | star =>
    cases r.children.head? with
    | none => exact ⟨hadded, rfl⟩
    | some child => exact ⟨h.lowerStar hadded, rfl⟩
  | plus =>
    cases r.children.head? with
    | none => exact ⟨hadded, rfl⟩
    | some child => exact ⟨h.extend (h.extend hadded ..) .., rfl⟩
  | repetition least most =>
    dsimp only
    split
    · exact ⟨hadded, rfl⟩
    cases r.children.head? with
    | none => exact ⟨hadded, rfl⟩
    | some child => exact ⟨h.lowerRepetition hadded .., rfl⟩
  | join j =>
    dsimp only
    split
    · exact ⟨hadded, rfl⟩
    cases r.children.head? with
    | none => exact ⟨hadded, rfl⟩
    | some entry =>
      dsimp only
      split
      · exact ⟨hadded, rfl⟩
      · exact ⟨h.lowerJoin hadded j, rfl⟩

end Simulates

end Sink

/-- **Lowering into the sink of flat grammars is lowering**, where a refused rule is kept. -/
theorem FlatGrammar.sink_lower (g : FlatGrammar) (r : Rule) : FlatGrammar.sink.lower g r =
    match g.lower r with
    | .ok g' => (g', none)
    | .error e => ((g.addRule r).2, some e) := by
  unfold Sink.lower FlatGrammar.lower
  cases r.kind with
  | sequence => rfl
  | choice => rfl
  | optional => cases r.children.head? <;> rfl
  | star => cases r.children.head? <;> rfl
  | plus => cases r.children.head? <;> rfl
  | repetition least most =>
    by_cases hrange : most < least
    · simp only [if_pos hrange]
      rfl
    · simp only [if_neg hrange]
      cases r.children.head? <;> rfl
  | join j =>
    by_cases hbrackets : j.opening.isSome ≠ j.closing.isSome
    · simp only [if_pos hbrackets]
      rfl
    · simp only [if_neg hbrackets]
      cases r.children.head? with
      | none => rfl
      | some entry => by_cases hcount : j.count.upper < j.count.lower <;> simp [hcount] <;> rfl

end Typeahead
