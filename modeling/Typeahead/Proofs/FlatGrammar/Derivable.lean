import Typeahead.Proofs.Rule.Meaning
import Mathlib.Logic.Relation

/-!
# Proofs/FlatGrammar/Derivable — the terminal strings that productions derive

Productions rewrite a nonterminal anywhere in a form.  The terminal strings derived from the
nonterminals are the least valuation that holds for the sides of all productions: it holds
(`holds_language`), and it is below every other that does (`language_le`).
-/

namespace Typeahead

/-- A valuation holds for two sides: the left stands for all that the right does. -/
def Sides.Holds (ρ : Valuation) (s : Sides) : Prop := Symbol.meaningAll ρ s.right ≤ ρ s.left

/-- Symbols without the empty one, as productions have them on their right sides. -/
def Visible (ss : List Symbol) : Prop := .terminal .epsilon ∉ ss

theorem Sides.visible_bare (s : Sides) : Visible s.bare.right := by simp [Visible, bare]

theorem Symbol.meaning_terminal {ρ : Valuation} {t : Terminal} (h : t ≠ .epsilon) :
    (Symbol.terminal t).meaning ρ = {[t]} := by
  cases t with
  | epsilon => exact absurd rfl h
  | _ => rfl

theorem Symbol.meaningAll_filter (ρ : Valuation) (ss : List Symbol) :
    meaningAll ρ (ss.filter (· ≠ .terminal .epsilon)) = meaningAll ρ ss := by
  induction ss with
  | nil => rfl
  | cons s ss ih =>
    by_cases hs : s = .terminal .epsilon
    · rw [List.filter_cons_of_neg (by simpa using hs), meaningAll_cons, ih, hs]
      exact (one_mul _).symm
    · rw [List.filter_cons_of_pos (by simpa using hs), meaningAll_cons, meaningAll_cons, ih]

theorem Sides.holds_bare {ρ : Valuation} {s : Sides} : s.bare.Holds ρ ↔ s.Holds ρ := by
  rw [Holds, Holds, bare, Symbol.meaningAll_filter]

theorem Sides.Holds.congr {ρ ρ' : Valuation} {s : Sides} (h : s.Holds ρ)
    (hρ : ∀ x, s.Mentions x → ρ' x = ρ x) : s.Holds ρ' := by
  rw [Holds, hρ s.left (.inl rfl), Symbol.meaningAll_congr fun x hx => hρ x (.inr hx)]
  exact h

namespace FlatGrammar

/-- **One rewriting**: a nonterminal of a form is replaced by the right side of a production. -/
inductive Rewrites (g : FlatGrammar) : List Symbol → List Symbol → Prop
  | intro {s : Sides} (hs : s ∈ g.sides) (before after : List Symbol) :
    Rewrites g (before ++ .nonterminal s.left :: after) (before ++ s.right ++ after)

/-- Any number of rewritings. -/
def Derives (g : FlatGrammar) : List Symbol → List Symbol → Prop := Relation.ReflTransGen g.Rewrites

/-- **The terminal strings derived from a nonterminal.** -/
def language (g : FlatGrammar) : Valuation := fun x =>
  {w | g.Derives [.nonterminal x] (w.map .terminal)}

variable {g : FlatGrammar} {u v u' v' : List Symbol}

theorem Rewrites.append (h : g.Rewrites u v) (before after : List Symbol) :
    g.Rewrites (before ++ u ++ after) (before ++ v ++ after) := by
  obtain ⟨hs, before', after'⟩ := h
  simpa using Rewrites.intro hs (before ++ before') (after' ++ after)

theorem Derives.append (hu : g.Derives u v) (hu' : g.Derives u' v') :
    g.Derives (u ++ u') (v ++ v') := by
  have hleft : g.Derives (u ++ u') (v ++ u') :=
    hu.lift (· ++ u') fun a b h => by simpa using h.append [] u'
  have hright : g.Derives (v ++ u') (v ++ v') :=
    hu'.lift (v ++ ·) fun a b h => by simpa using h.append v []
  exact hleft.trans hright

/-! ## The least valuation -/

theorem derives_of_mem_meaningAll {w : List Terminal} (hu : Visible u)
    (hw : w ∈ Symbol.meaningAll g.language u) : g.Derives u (w.map .terminal) := by
  induction u generalizing w with
  | nil =>
    rw [(Language.mem_one w).1 hw]
    exact .refl
  | cons s u ih =>
    obtain ⟨hs, hu⟩ : .terminal .epsilon ≠ s ∧ Visible u := by simpa [Visible] using hu
    rw [Symbol.meaningAll_cons] at hw
    obtain ⟨w₁, hw₁, w₂, hw₂, rfl⟩ := hw
    rw [List.map_append]
    refine Derives.append (u := [s]) ?_ (ih hu hw₂)
    rcases s with t | x
    · rw [Symbol.meaning_terminal fun ht => hs (by rw [ht])] at hw₁
      obtain rfl : w₁ = [t] := hw₁
      exact .refl
    · exact hw₁

/-- What a nonterminal derives includes what its right sides do. -/
theorem holds_language {s : Sides} (hs : s ∈ g.sides) (hvisible : Visible s.right) :
    s.Holds g.language := by
  intro w hw
  have hstep : g.Rewrites [.nonterminal s.left] s.right := by
    simpa using Rewrites.intro hs [] []
  exact (derives_of_mem_meaningAll hvisible hw).head hstep

theorem Rewrites.meaningAll_le {ρ : Valuation} (hρ : ∀ s ∈ g.sides, s.Holds ρ)
    (h : g.Rewrites u v) : Symbol.meaningAll ρ v ≤ Symbol.meaningAll ρ u := by
  obtain ⟨hs, before, after⟩ := h
  simp only [Symbol.meaningAll_append, Symbol.meaningAll_cons, ← mul_assoc]
  exact mul_le_mul_left (mul_le_mul_right (hρ _ hs) _) _

theorem mem_meaningAll_map {ρ : Valuation} {w : List Terminal} (h : Visible (w.map .terminal)) :
    w ∈ Symbol.meaningAll ρ (w.map .terminal) := by
  induction w with
  | nil => exact Language.nil_mem_one
  | cons t w ih =>
    obtain ⟨ht, hw⟩ : .terminal .epsilon ≠ Symbol.terminal t ∧ Visible (w.map .terminal) := by
      simpa [Visible] using h
    rw [List.map_cons, Symbol.meaningAll_cons,
      Symbol.meaning_terminal fun h => ht (congrArg Symbol.terminal h).symm]
    exact Language.append_mem_mul (a := [t]) rfl (ih hw)

/-- **A valuation that holds for all productions** is above the derived strings. -/
theorem language_le {ρ : Valuation} (hρ : ∀ s ∈ g.sides, s.Holds ρ)
    (hvisible : ∀ s ∈ g.sides, Visible s.right) (x : String) : g.language x ≤ ρ x := by
  intro w hw
  -- along a derivation no empty symbol shows up, and forms stand for less and less
  have hform : ∀ u, g.Derives [.nonterminal x] u → Visible u ∧ Symbol.meaningAll ρ u ≤ ρ x := by
    intro u hu
    induction hu with
    | refl => exact ⟨by simp [Visible], by simp [Symbol.meaning]⟩
    | tail _ hstep ih =>
      refine ⟨?_, (hstep.meaningAll_le hρ).trans ih.2⟩
      obtain ⟨hs, before, after⟩ := hstep
      have hright := hvisible _ hs
      have hbefore := ih.1
      simp only [Visible, List.mem_append, List.mem_cons] at *
      tauto
  obtain ⟨hw', hle⟩ := hform _ hw
  exact hle (mem_meaningAll_map hw')

end FlatGrammar

end Typeahead
