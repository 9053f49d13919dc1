import Mathlib
import Typeahead.Pattern.Reader

/-!
# Proofs/Pattern/Brackets — text between brackets as a run of an automaton

Reading up to the closing bracket looks at a text once from left to right, and all it keeps is
whether the next character is protected and how many brackets are open.  `Nesting.run` makes that a
run over the characters, which cuts at every place of the text (`Nesting.run_append`).  What stands
between a pair of brackets is exactly a text whose run ends as it began
(`readBalanced_eq_some_iff`, `readBracketed_eq_some_iff`), whatever comes after the closing bracket.
-/

namespace Typeahead.Pattern

/-- How a text stands with its brackets: whether the character after it is protected by a
backslash, and how many brackets are open. -/
structure Nesting where
  escaped : Bool
  depth : Nat
deriving DecidableEq, Repr

namespace Nesting

/-- One character further, unless it closes a bracket that was not opened. -/
def step (opening closing : Char) (s : Nesting) (c : Char) : Option Nesting :=
  if s.escaped then some ⟨false, s.depth⟩
  else if c = '\\' then some ⟨true, s.depth⟩
  else if c = opening then some ⟨false, s.depth + 1⟩
  else if c = closing then
    match s.depth with
    | 0 => none
    | depth + 1 => some ⟨false, depth⟩
  else some s

/-- A whole text further. -/
def run (opening closing : Char) (s : Nesting) (cs : List Char) : Option Nesting :=
  cs.foldlM (step opening closing) s

variable {opening closing : Char} {s : Nesting} {depth : Nat} {c : Char} {cs ds : List Char}

@[simp] theorem run_nil : run opening closing s [] = some s := rfl

theorem run_cons : run opening closing s (c :: cs)
    = (step opening closing s c).bind (run opening closing · cs) := rfl

theorem run_append : run opening closing s (cs ++ ds)
    = (run opening closing s cs).bind (run opening closing · ds) := List.foldlM_append

theorem step_of_plain (h : c ≠ '\\' ∧ c ≠ opening ∧ c ≠ closing) :
    step opening closing s c = some ⟨false, s.depth⟩ := by
  obtain ⟨escaped, depth⟩ := s
  cases escaped <;> simp [step, h]

/-- **Plain text leaves the brackets as they are**, and protects nothing behind it. -/
theorem run_of_plain (h : ∀ c ∈ cs, c ≠ '\\' ∧ c ≠ opening ∧ c ≠ closing) (hne : cs ≠ []) :
    run opening closing s cs = some ⟨false, s.depth⟩ := by
  induction cs generalizing s with
  | nil => exact absurd rfl hne
  | cons c cs ih =>
    rw [run_cons, step_of_plain (h c List.mem_cons_self), Option.bind_some]
    cases cs with
    | nil => rfl
    | cons d cs => exact ih (fun e he => h e (List.mem_cons_of_mem _ he)) (List.cons_ne_nil _ _)

/-- Text without brackets opens and closes none. -/
theorem exists_run_of_bracketless (h : ∀ c ∈ cs, c ≠ opening ∧ c ≠ closing) :
    ∃ escaped, run opening closing s cs = some ⟨escaped, s.depth⟩ := by
  induction cs generalizing s with
  | nil => exact ⟨s.escaped, rfl⟩
  | cons c cs ih =>
    have hstep : ∃ escaped, step opening closing s c = some ⟨escaped, s.depth⟩ := by
      obtain ⟨escaped, depth⟩ := s
      have := h c List.mem_cons_self
      cases escaped <;> by_cases hc : c = '\\' <;> simp [step, hc, this]
    obtain ⟨escaped, hstep⟩ := hstep
    rw [run_cons, hstep, Option.bind_some]
    exact ih fun d hd => h d (List.mem_cons_of_mem _ hd)

end Nesting

/-- A text that closes every bracket it opens, and no other. -/
def Balanced (opening closing : Char) (cs : List Char) : Prop :=
  Nesting.run opening closing ⟨false, 0⟩ cs = some ⟨false, 0⟩

section Reading

variable {opening closing : Char} {depth : Nat} {cs inner rest : List Char}

/-- One character that does not end the reading. -/
theorem readBalanced_cons_iff {c : Char} {depth' : Nat}
    (hc : c ≠ closing ∨ depth ≠ 0)
    (hstep : Nesting.step opening closing ⟨false, depth⟩ c = some ⟨false, depth'⟩)
    (ih : ∀ inner rest, readBalanced opening closing depth' cs = some (inner, rest) ↔
      cs = inner ++ closing :: rest ∧
        Nesting.run opening closing ⟨false, depth'⟩ inner = some ⟨false, 0⟩) :
    (readBalanced opening closing depth' cs).map (fun (inner, rest) => (c :: inner, rest))
        = some (inner, rest) ↔
      c :: cs = inner ++ closing :: rest ∧
        Nesting.run opening closing ⟨false, depth⟩ inner = some ⟨false, 0⟩ := by
  constructor
  · intro h
    obtain ⟨⟨i, r⟩, hread, he⟩ := Option.map_eq_some_iff.1 h
    cases he
    obtain ⟨rfl, hrun⟩ := (ih i rest).1 hread
    exact ⟨rfl, by rw [Nesting.run_cons, hstep]; exact hrun⟩
  · rintro ⟨happend, hrun⟩
    cases inner with
    | nil =>
      rw [List.nil_append] at happend
      cases happend
      rcases hc with hc | hc
      · exact absurd rfl hc
      · simp only [Nesting.run_nil, Option.some.injEq, Nesting.mk.injEq, true_and] at hrun
        exact absurd hrun hc
    | cons d inner =>
      cases happend
      rw [Nesting.run_cons, hstep] at hrun
      rw [(ih inner rest).2 ⟨rfl, hrun⟩]
      rfl

/-- A backslash and the character it protects, which cannot end the reading. -/
theorem readBalanced_escaped_iff {c : Char} (hclosing : closing ≠ '\\')
    (ih : ∀ inner rest, readBalanced opening closing depth cs = some (inner, rest) ↔
      cs = inner ++ closing :: rest ∧
        Nesting.run opening closing ⟨false, depth⟩ inner = some ⟨false, 0⟩) :
    (readBalanced opening closing depth cs).map
        (fun (inner, rest) => ('\\' :: c :: inner, rest)) = some (inner, rest) ↔
      '\\' :: c :: cs = inner ++ closing :: rest ∧
        Nesting.run opening closing ⟨false, depth⟩ inner = some ⟨false, 0⟩ := by
  constructor
  · intro h
    obtain ⟨⟨i, r⟩, hread, he⟩ := Option.map_eq_some_iff.1 h
    cases he
    obtain ⟨rfl, hrun⟩ := (ih i rest).1 hread
    exact ⟨rfl, hrun⟩
  · rintro ⟨happend, hrun⟩
    rcases inner with _ | ⟨d, _ | ⟨e, inner⟩⟩
    · cases happend
      exact absurd rfl hclosing
    · cases happend
      exact absurd hrun (by simp [Nesting.run_cons, Nesting.step])
    · cases happend
      rw [(ih inner rest).2 ⟨rfl, hrun⟩]
      rfl

/-- **Reading up to the closing bracket** goes past exactly the text whose run comes out at no open
bracket there. -/
theorem readBalanced_eq_some_iff (hclosing : closing ≠ '\\') (hne : closing ≠ opening) :
    readBalanced opening closing depth cs = some (inner, rest) ↔
      cs = inner ++ closing :: rest ∧
        Nesting.run opening closing ⟨false, depth⟩ inner = some ⟨false, 0⟩ := by
  fun_induction readBalanced opening closing depth cs generalizing inner rest with
  | case1 => simp
  | case2 depth c cs ih => exact readBalanced_escaped_iff hclosing fun _ _ => ih
  | case3 depth cs hnil =>
    constructor
    · intro h
      cases h
    · rintro ⟨happend, hrun⟩
      rcases inner with _ | ⟨d, inner⟩
      · cases happend
        exact absurd rfl hclosing
      · cases happend
        obtain ⟨e, es, he⟩ := List.exists_cons_of_ne_nil (List.append_ne_nil_of_right_ne_nil inner
          (List.cons_ne_nil closing rest))
        exact (hnil e es rfl he).elim
  | case4 depth cs _ ho ih =>
    exact readBalanced_cons_iff (.inl hne.symm) (by simp [Nesting.step, ho]) fun _ _ => ih
  | case5 cs _ hc ho =>
    constructor
    · intro h
      cases h
      exact ⟨rfl, rfl⟩
    · rintro ⟨happend, hrun⟩
      rcases inner with _ | ⟨d, inner⟩
      · cases happend
        rfl
      · cases happend
        exact absurd hrun (by simp [Nesting.run_cons, Nesting.step, hclosing, hne])
  | case6 cs depth _ hc ho ih =>
    exact readBalanced_cons_iff (.inr (Nat.succ_ne_zero depth))
      (by simp [Nesting.step, hclosing, hne]) fun _ _ => ih
  | case7 depth c cs _ hc ho hend ih =>
    exact readBalanced_cons_iff (.inl hend) (by simp [Nesting.step, hc, ho, hend]) fun _ _ => ih

/-- Nothing is read where no bracket opens. -/
theorem readBracketed_eq_none {c : Char} (h : c ≠ opening) :
    readBracketed opening closing (c :: cs) = none := by
  rw [readBracketed, expect, if_neg h.symm]
  rfl

/-- **Text between brackets** is text that closes every bracket it opens, and no other; what comes
after the closing bracket plays no part. -/
theorem readBracketed_eq_some_iff (hclosing : closing ≠ '\\') (hne : closing ≠ opening) :
    readBracketed opening closing cs = some (inner, rest) ↔
      cs = opening :: inner ++ closing :: rest ∧ Balanced opening closing inner := by
  cases cs with
  | nil => simp [readBracketed, expect]
  | cons c cs =>
    by_cases hc : c = opening
    · subst hc
      simp [readBracketed, expect, Balanced, readBalanced_eq_some_iff hclosing hne]
    · simp [readBracketed_eq_none hc, hc]

end Reading

end Typeahead.Pattern
