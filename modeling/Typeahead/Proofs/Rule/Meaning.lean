import Typeahead.Proofs.FlatGrammar.Lowering
import Mathlib

/-!
# Proofs/Rule/Meaning — the terminal strings that rules stand for

Given what the nonterminals stand for, a rule stands for a set of terminal strings: concatenation,
union, powers and the star of sets say what the kinds of rules mean, without any production.  The
rules of a grammar read together are equations, of which `reading` is the least solution.

A rule means more when its nonterminals do (`Rule.meaning_le`), so there is such a solution.
-/

/-- Sets of terminal strings. -/
abbrev TerminalLanguage := Language Typeahead.Terminal

namespace Typeahead

open Computability

/-- What the nonterminals stand for. -/
abbrev Valuation := String → TerminalLanguage

/-- What a symbol stands for: a terminal for itself, the empty symbol for the empty string. -/
def Symbol.meaning (ρ : Valuation) : Symbol → TerminalLanguage
  | .terminal .epsilon => 1
  | .terminal t => {[t]}
  | .nonterminal x => ρ x

/-- What symbols stand for one after the other. -/
def Symbol.meaningAll (ρ : Valuation) (ss : List Symbol) : TerminalLanguage :=
  (ss.map (Symbol.meaning ρ)).prod

/-- A number of entries that a count admits; the largest upper bound is none. -/
def Count.Admits (c : Count) (n : Nat) : Prop := c.lower ≤ n ∧ (c.upper = limit ∨ n ≤ c.upper)

/-- A number of entries with delimiters between them. -/
def separated (entry delimiter : TerminalLanguage) : Nat → TerminalLanguage
  | 0 => 1
  | n + 1 => entry * (delimiter * entry) ^ n

/-- What a join stands for: as many entries as admitted, between the brackets. -/
def Join.meaning (ρ : Valuation) (j : Join) (entry : Symbol) : TerminalLanguage :=
  Symbol.meaningAll ρ j.opening.toList *
    (⨆ n, ⨆ _ : j.count.Admits n,
      separated (entry.meaning ρ) (Symbol.meaningAll ρ j.delimiter.toList) n) *
    Symbol.meaningAll ρ j.closing.toList

/-- **What a rule stands for.** -/
def Rule.meaning (ρ : Valuation) (r : Rule) : TerminalLanguage :=
  match r.kind, r.children with
  | .sequence, children => Symbol.meaningAll ρ children
  | .choice, children => ⨆ s ∈ children, s.meaning ρ
  | .optional, s :: _ => 1 + s.meaning ρ
  | .star, s :: _ => (s.meaning ρ)∗
  | .plus, s :: _ => s.meaning ρ * (s.meaning ρ)∗
  | .repetition least most, s :: _ => ⨆ n, ⨆ _ : least ≤ n ∧ n ≤ most, s.meaning ρ ^ n
  | .join j, s :: _ => j.meaning ρ s
  | _, [] => 0

/-! ## Monotonicity -/

section Mono

variable {ρ ρ' : Valuation}

@[simp] theorem Symbol.meaningAll_nil : meaningAll ρ [] = 1 := rfl

@[simp] theorem Symbol.meaningAll_cons (s : Symbol) (ss : List Symbol) :
    meaningAll ρ (s :: ss) = s.meaning ρ * meaningAll ρ ss := List.prod_cons

@[simp] theorem Symbol.meaningAll_append (ss ts : List Symbol) :
    meaningAll ρ (ss ++ ts) = meaningAll ρ ss * meaningAll ρ ts := by
  rw [meaningAll, List.map_append, List.prod_append]
  rfl

@[simp] theorem Symbol.meaningAll_replicate (s : Symbol) (n : Nat) :
    meaningAll ρ (List.replicate n s) = s.meaning ρ ^ n := by
  rw [meaningAll, List.map_replicate, List.prod_replicate]

theorem Symbol.meaning_le {s : Symbol} (h : ∀ x, s = .nonterminal x → ρ x ≤ ρ' x) :
    s.meaning ρ ≤ s.meaning ρ' := by
  rcases s with t | x
  · rcases t <;> exact le_rfl
  · exact h x rfl

theorem Symbol.meaningAll_le {ss : List Symbol} (h : ∀ x, .nonterminal x ∈ ss → ρ x ≤ ρ' x) :
    meaningAll ρ ss ≤ meaningAll ρ' ss := by
  induction ss with
  | nil => rfl
  | cons s ss ih =>
    rw [meaningAll_cons, meaningAll_cons]
    refine mul_le_mul' (meaning_le fun x hx => ?_) (ih fun x hx => h x (List.mem_cons_of_mem _ hx))
    exact h x (hx ▸ List.mem_cons_self ..)

theorem Symbol.meaning_congr {s : Symbol} (h : ∀ x, s = .nonterminal x → ρ x = ρ' x) :
    s.meaning ρ = s.meaning ρ' :=
  le_antisymm (meaning_le fun x hx => (h x hx).le) (meaning_le fun x hx => (h x hx).ge)

theorem Symbol.meaningAll_congr {ss : List Symbol} (h : ∀ x, .nonterminal x ∈ ss → ρ x = ρ' x) :
    meaningAll ρ ss = meaningAll ρ' ss :=
  le_antisymm (meaningAll_le fun x hx => (h x hx).le) (meaningAll_le fun x hx => (h x hx).ge)

theorem separated_le {e e' d d' : TerminalLanguage} (he : e ≤ e') (hd : d ≤ d') (n : Nat) :
    separated e d n ≤ separated e' d' n := by
  rcases n with _ | n
  · rfl
  · exact mul_le_mul' he (pow_le_pow_left' (mul_le_mul' hd he) n)

theorem Join.meaning_le {j : Join} {entry : Symbol} (hentry : entry.meaning ρ ≤ entry.meaning ρ')
    (h : ∀ x, .nonterminal x ∈ j.joints → ρ x ≤ ρ' x) : j.meaning ρ entry ≤ j.meaning ρ' entry := by
  have hall : ∀ ss ⊆ j.joints, Symbol.meaningAll ρ ss ≤ Symbol.meaningAll ρ' ss := fun ss hss =>
    Symbol.meaningAll_le fun x hx => h x (hss hx)
  have hopening := hall j.opening.toList (by simp [Join.joints])
  have hclosing := hall j.closing.toList (by simp [Join.joints])
  have hdelimiter := hall j.delimiter.toList (by simp [Join.joints])
  refine mul_le_mul' (mul_le_mul' hopening ?_) hclosing
  exact iSup₂_mono fun n _ => separated_le hentry hdelimiter n

/-- **A rule means more when its nonterminals do.** -/
theorem Rule.meaning_le {r : Rule} (h : ∀ x, .nonterminal x ∈ r.symbols → ρ x ≤ ρ' x) :
    r.meaning ρ ≤ r.meaning ρ' := by
  have hsymbol : ∀ s ∈ r.symbols, s.meaning ρ ≤ s.meaning ρ' := by
    intro s hs
    exact Symbol.meaning_le fun x hx => h x (hx ▸ hs)
  obtain ⟨⟨kind, target, children, names⟩, evaluator, completer, listener⟩ := r
  cases kind with
  | sequence => exact Symbol.meaningAll_le h
  | choice => exact iSup₂_mono hsymbol
  | optional =>
    rcases children with _ | ⟨s, more⟩
    · exact le_rfl
    · exact add_le_add_right (hsymbol s (List.mem_cons_self ..)) 1
  | star =>
    rcases children with _ | ⟨s, more⟩
    · exact le_rfl
    · exact kstar_mono (hsymbol s (List.mem_cons_self ..))
  | plus =>
    rcases children with _ | ⟨s, more⟩
    · exact le_rfl
    · have hs := hsymbol s (List.mem_cons_self ..)
      exact mul_le_mul' hs (kstar_mono hs)
  | repetition least most =>
    rcases children with _ | ⟨s, more⟩
    · exact le_rfl
    · have hs := hsymbol s (List.mem_cons_self ..)
      exact iSup₂_mono fun n _ => pow_le_pow_left' hs n
  | join j =>
    rcases children with _ | ⟨s, more⟩
    · exact le_rfl
    · refine Join.meaning_le (hsymbol s (List.mem_cons_self ..)) fun x hx => h x ?_
      exact List.mem_append.2 (.inr hx)

theorem Rule.meaning_congr {r : Rule} (h : ∀ x, .nonterminal x ∈ r.symbols → ρ x = ρ' x) :
    r.meaning ρ = r.meaning ρ' :=
  le_antisymm (meaning_le fun x hx => (h x hx).le) (meaning_le fun x hx => (h x hx).ge)

end Mono

/-! ## The least solution -/

/-- What the rules say about every nonterminal, given what the nonterminals stand for. -/
def readingStep (rules : List Rule) : Valuation →o Valuation where
  toFun ρ x := ⨆ r ∈ rules, ⨆ _ : r.target = x, r.meaning ρ
  monotone' := by
    intro ρ ρ' h x
    exact iSup₂_mono fun r _ => iSup_mono fun _ => Rule.meaning_le fun y _ => h y

/-- **What the rules say when read as equations**: each nonterminal stands for what its rules do. -/
def reading (rules : List Rule) : Valuation := (readingStep rules).lfp

section Reading

variable {rules : List Rule} {r : Rule} {ρ : Valuation}

theorem reading_eq (rules : List Rule) (x : String) :
    reading rules x = ⨆ r ∈ rules, ⨆ _ : r.target = x, r.meaning (reading rules) :=
  (congrFun (readingStep rules).map_lfp x).symm

theorem meaning_le_reading (hr : r ∈ rules) :
    r.meaning (reading rules) ≤ reading rules r.target := by
  rw [reading_eq rules r.target]
  exact le_iSup₂_of_le r hr (le_iSup_of_le rfl le_rfl)

/-- A nonterminal with one rule stands for no more than that rule. -/
theorem reading_le_meaning (hlone : ∀ r' ∈ rules, r'.target = r.target → r' = r) :
    reading rules r.target ≤ r.meaning (reading rules) := by
  rw [reading_eq rules r.target]
  refine iSup₂_le fun r' hr' => iSup_le fun htarget => ?_
  rw [hlone r' hr' htarget]

theorem reading_le (h : ∀ r ∈ rules, r.meaning ρ ≤ ρ r.target) : reading rules ≤ ρ := by
  refine OrderHom.lfp_le _ fun x => iSup₂_le fun r hr => iSup_le fun htarget => ?_
  exact htarget ▸ h r hr

end Reading

end Typeahead
