import Typeahead.Proofs.Grammar.Meaning

/-!
# Proofs/Grammar/Repeating — rules beside a repetition

Rules of one target are alternatives.  A star or a plus recurses on its own target, though, so what
stands behind its entries may be any other rule of that target: from the target derives, besides the
repetitions and what the other rules stand for, also each of the latter behind a repetition
(`language_of_repeating`).
-/

namespace Typeahead

open Computability

/-! ## The rules behind the productions of a name -/

namespace FlatGrammar

variable {rules : List Rule} {table : SymbolTable} {g : FlatGrammar}

/-- **All sides are those of some rule**, under names that are not in the table. -/
theorem exists_rule_of_mem_sides (h : rules.foldlM lower (ofSymbols table) = .ok g) :
    ∀ s ∈ g.sides, ∃ r ∈ rules, ∃ a, (∀ x ∈ r.auxiliaries a, table.knows x = false) ∧
      ∃ n ∈ r.sides a, s = n.bare := by
  refine (Grammar.lower_induction (P := fun g => (∀ x, table.knows x = true →
    g.symbols.knows x = true) ∧ ∀ s ∈ g.sides, ∃ r ∈ rules, ∃ a,
      (∀ x ∈ r.auxiliaries a, table.knows x = false) ∧ ∃ n ∈ r.sides a, s = n.bare) h
    ⟨fun _ => id, by simp [sides, ofSymbols]⟩ ?_).2
  rintro r hr g g' ⟨hg, hsides⟩ hlower
  obtain ⟨a, -, hadds⟩ := lower_adds hlower
  refine ⟨fun x hx => (hadds.knows x).2 (.inl (hg x hx)), fun s hs => ?_⟩
  rcases (hadds.sides s).1 hs with hs | ⟨n, hn, rfl⟩
  · exact hsides s hs
  · refine ⟨r, hr, a, fun x hx => ?_, n, hn, rfl⟩
    exact Bool.eq_false_iff.2 (mt (hg x) (Bool.eq_false_iff.1 (hadds.unknown x hx)))

/-- **What is derived from a name is the least that holds for the rules of that name**, the other
names standing for what is derived from them. -/
theorem language_le_of_holds {x : String} {l : TerminalLanguage}
    (h : rules.foldlM lower (ofSymbols table) = .ok g) (hx : table.knows x = true)
    (hle : l ≤ g.language x)
    (hholds : ∀ r ∈ rules, r.target = x →
      ∀ a, ∀ n ∈ r.sides a, n.Holds (Function.update g.language x l)) : g.language x ≤ l := by
  have hrule := exists_rule_of_mem_sides h
  have hvisible : ∀ s ∈ g.sides, Visible s.right := by
    intro s hs
    obtain ⟨r, -, a, -, n, -, rfl⟩ := hrule s hs
    exact n.visible_bare
  have hless : ∀ y, Function.update g.language x l y ≤ g.language y := by
    intro y
    rcases eq_or_ne y x with rfl | hy
    · rwa [Function.update_self]
    · rw [Function.update_of_ne hy]
  refine (language_le (ρ := Function.update g.language x l) (fun s hs => ?_) hvisible x).trans_eq
    (Function.update_self ..)
  by_cases hleft : s.left = x
  · obtain ⟨r, hr, a, hnames, n, hn, rfl⟩ := hrule s hs
    refine Sides.holds_bare.2 (hholds r hr ?_ a n hn)
    rcases List.mem_cons.1 (Rule.within_of_mem_sides hn).1 with htarget | hname
    · exact htarget.symm.trans hleft
    · rw [← Sides.bare_left, hleft] at hname
      exact absurd hx (Bool.eq_false_iff.1 (hnames x hname))
  · rw [Sides.Holds, Function.update_of_ne hleft]
    exact (Symbol.meaningAll_le fun y _ => hless y).trans (holds_language hs (hvisible s hs))

theorem Derives.eq_of_terminals {u v : List Symbol} (h : g.Derives u v)
    (hu : ∀ x, .nonterminal x ∉ u) : v = u := by
  induction h with
  | refl => rfl
  | tail _ hstep ih =>
    subst ih
    obtain ⟨-, before, after⟩ := hstep
    exact absurd (List.mem_append_cons_self ..) (hu _)

end FlatGrammar

/-! ## A repetition and sequences -/

/-- What the sequences for a target stand for, all together. -/
def bodies (rules : Array Rule) (ρ : Valuation) (x : String) : TerminalLanguage :=
  ⨆ r ∈ rules, ⨆ _ : r.target = x ∧ r.kind = .sequence, r.meaning ρ

/-- What a repetition may end with: nothing, or its last entry. -/
def Rule.ending (r : Rule) (s : Symbol) : List Symbol := if r.kind = .star then [] else [s]

section

variable {ρ : Valuation} {rules : Array Rule} {r : Rule} {s : Symbol} {a : Auxiliaries} {n : Sides}

theorem le_bodies (hr : r ∈ rules) (hkind : r.kind = .sequence) :
    r.meaning ρ ≤ bodies rules ρ r.target :=
  le_iSup₂_of_le r hr (le_iSup_of_le ⟨rfl, hkind⟩ le_rfl)

/-- A repetition is any number of entries in front of its ending. -/
theorem Rule.meaning_of_repeating (hkind : r.kind = .star ∨ r.kind = .plus)
    (hs : r.children = [s]) :
    r.meaning ρ = (s.meaning ρ)∗ * Symbol.meaningAll ρ (r.ending s) := by
  rcases hkind with hkind | hkind
  · simp [meaning, ending, hkind, hs]
  · simp [meaning, ending, hkind, hs, Language.mul_self_kstar_comm]

/-- **The sides of a repetition**: one more entry in front of the target, or the ending. -/
theorem Rule.mem_sides_of_repeating (hkind : r.kind = .star ∨ r.kind = .plus)
    (hs : r.children = [s]) :
    n ∈ r.sides a ↔ n = ⟨r.target, [s, .nonterminal r.target]⟩ ∨ n = ⟨r.target, r.ending s⟩ := by
  rcases hkind with hkind | hkind <;> simp [sides, ending, hkind, hs, starSides]

theorem Rule.holds_of_repeating (hkind : r.kind = .star ∨ r.kind = .plus) (hs : r.children = [s])
    (hmore : s.meaning ρ * ρ r.target ≤ ρ r.target)
    (hending : Symbol.meaningAll ρ (r.ending s) ≤ ρ r.target) (hn : n ∈ r.sides a) : n.Holds ρ := by
  rcases (mem_sides_of_repeating hkind hs).1 hn with rfl | rfl
  · simpa [Sides.Holds, Symbol.meaning] using hmore
  · exact hending

theorem Rule.holds_of_sequence (hkind : r.kind = .sequence) (h : r.meaning ρ ≤ ρ r.target)
    (hn : n ∈ r.sides a) : n.Holds ρ := by
  obtain rfl : n = ⟨r.target, r.children⟩ := by simpa [sides, hkind] using hn
  simpa [Sides.Holds, meaning, hkind] using h

end

namespace Grammar

variable {G G' : Grammar} {top : Symbol} {r : Rule} {s : Symbol}

/-- **The target stands for any number of entries in front of another rule.** -/
theorem mul_le_language (h : (compile top).run.run G = (.ok (), G')) (hr : r ∈ G'.rules)
    (hkind : r.kind = .star ∨ r.kind = .plus) (hs : r.children = [s]) :
    (s.meaning G'.flat.language)∗ * (Symbol.meaningAll G'.flat.language (r.ending s) +
      bodies G'.rules G'.flat.language r.target) ≤ G'.flat.language r.target := by
  obtain ⟨hlower, hrules, -⟩ := compile_ok h
  obtain ⟨hfold, -⟩ := lowerAll_ok hlower
  rw [← hrules] at hfold
  have hholds : ∀ r' ∈ G'.rules, ∃ a, ∀ n ∈ r'.sides a, n.Holds G'.flat.language := by
    intro r' hr'
    obtain ⟨a, ha⟩ := (FlatGrammar.sides_of_lower hfold).2 r' (Array.mem_toList_iff.2 hr')
    exact ⟨a, fun n hn => Sides.holds_bare.1 (FlatGrammar.holds_language (ha n hn) n.visible_bare)⟩
  obtain ⟨a, ha⟩ := hholds r hr
  simp only [Rule.mem_sides_of_repeating hkind hs, forall_eq_or_imp, forall_eq] at ha
  obtain ⟨hmore, hending⟩ := ha
  refine kstar_mul_le (add_le hending ?_) ?_
  · refine iSup₂_le fun r' hr' => iSup_le fun ⟨htarget, _⟩ => ?_
    obtain ⟨a', ha'⟩ := hholds r' hr'
    exact htarget ▸ Rule.meaning_le_of_holds ha'
  · simpa [Sides.Holds, Symbol.meaning] using hmore

/-- **It stands for nothing else**, if the other rules are sequences. -/
theorem language_le_mul (hG : G.Reachable) (h : (compile top).run.run G = (.ok (), G'))
    (hr : r ∈ G'.rules) (hkind : r.kind = .star ∨ r.kind = .plus) (hs : r.children = [s])
    (hothers : ∀ r' ∈ G'.rules, r'.target = r.target → r' = r ∨ r'.kind = .sequence) :
    G'.flat.language r.target ≤ (s.meaning G'.flat.language)∗ *
      (Symbol.meaningAll G'.flat.language (r.ending s) +
        bodies G'.rules G'.flat.language r.target) := by
  obtain ⟨hlower, hrules, -⟩ := compile_ok h
  obtain ⟨hfold, -⟩ := lowerAll_ok hlower
  have hge := mul_le_language h hr hkind hs
  refine FlatGrammar.language_le_of_holds hfold (hG.closed.withStart top r (hrules ▸ hr)).target hge
    fun r' hr' htarget a n hn => ?_
  rw [Array.mem_toList_iff, ← hrules] at hr'
  generalize hlast : Symbol.meaningAll G'.flat.language (r.ending s) +
    bodies G'.rules G'.flat.language r.target = last at hge ⊢
  -- fewer strings at the target make the right sides stand for fewer, too
  have hless : ∀ x, Function.update G'.flat.language r.target
      ((s.meaning G'.flat.language)∗ * last) x ≤ G'.flat.language x := by
    intro x
    rcases eq_or_ne x r.target with rfl | hx
    · rwa [Function.update_self]
    · rw [Function.update_of_ne hx]
  have hlast_le : last ≤ (s.meaning G'.flat.language)∗ * last :=
    le_mul_of_one_le_left' one_le_kstar
  rcases hothers r' hr' htarget with rfl | hsequence
  · refine Rule.holds_of_repeating hkind hs ?_ ?_ hn
    · rw [Function.update_self]
      refine (mul_le_mul_left (Symbol.meaning_le fun x _ => hless x) _).trans ?_
      rw [← mul_assoc]
      exact mul_le_mul_left mul_kstar_le_kstar _
    · rw [Function.update_self]
      refine (Symbol.meaningAll_le fun x _ => hless x).trans (le_trans ?_ hlast_le)
      exact hlast ▸ le_sup_left
  · refine Rule.holds_of_sequence hsequence ?_ hn
    rw [htarget, Function.update_self]
    refine (Rule.meaning_le fun x _ => hless x).trans (le_trans ?_ hlast_le)
    exact hlast ▸ (htarget ▸ le_bodies hr' hsequence).trans le_sup_right

/-! ## Digits and a cross -/

/-- A target with two rules, any number of digits and a cross. -/
def digitsOrCross : Grammar :=
  ((sequence (some "t") [(Symbol.literal "x").unnamed]).run
    ((star (some "t") (Symbol.terminal .digit).unnamed).run {}).2).2

/-- The grammar after its compile. -/
def digitsOrCrossCompiled : Grammar := ((compile (.nonterminal "t")).run.run digitsOrCross).2

/-- The rule for the digits. -/
def digitsRule : Rule := Rule.ofChildren .star "t" [(Symbol.terminal .digit).unnamed]

/-- The rule for the cross. -/
def crossRule : Rule := Rule.ofChildren .sequence "t" [(Symbol.literal "x").unnamed]

theorem reachable_digitsOrCross : digitsOrCross.Reachable :=
  (Relation.ReflTransGen.single (.insert {} (by simp) (some "t") _)).tail
    (.insert _ (by simp) (some "t") _)

theorem compile_digitsOrCross :
    (compile (.nonterminal "t")).run.run digitsOrCross = (.ok (), digitsOrCrossCompiled) := rfl

theorem rules_digitsOrCross : digitsOrCrossCompiled.rules =
    #[digitsRule, crossRule, startRule (.nonterminal "t")] := rfl

theorem eq_of_mem_rules {r : Rule} (hr : r ∈ digitsOrCrossCompiled.rules) :
    r = digitsRule ∨ r = crossRule ∨ r = startRule (.nonterminal "t") := by
  simpa [rules_digitsOrCross] using hr

theorem mem_digitsRule : digitsRule ∈ digitsOrCrossCompiled.rules := by
  simp [rules_digitsOrCross]

theorem mem_crossRule : crossRule ∈ digitsOrCrossCompiled.rules := by
  simp [rules_digitsOrCross]

theorem sequence_digitsOrCross : ∀ r ∈ digitsOrCrossCompiled.rules, r.target = digitsRule.target →
    r = digitsRule ∨ r.kind = .sequence := by
  intro r hr _
  rcases eq_of_mem_rules hr with rfl | rfl | rfl
  · exact .inl rfl
  · exact .inr rfl
  · exact .inr rfl

/-- Digits and crosses do not lead back to the target. -/
theorem not_mem_of_derives {r : Rule} (hr : r ∈ digitsOrCrossCompiled.rules)
    (htarget : r.target = "t") {u : List Symbol}
    (hu : digitsOrCrossCompiled.flat.Derives r.children u) : .nonterminal "t" ∉ u := by
  have hterminals : ∀ x, .nonterminal x ∉ r.children := by
    obtain rfl | rfl | rfl := eq_of_mem_rules hr
    · simp [digitsRule, Rule.ofChildren, Symbol.unnamed]
    · simp [crossRule, Rule.ofChildren, Symbol.unnamed, Symbol.literal]
    · exact absurd htarget (by decide)
  exact hu.eq_of_terminals hterminals ▸ hterminals "t"

theorem meaning_digitsRule (ρ : Valuation) :
    digitsRule.meaning ρ = ({[.digit]} : TerminalLanguage)∗ := rfl

theorem meaning_crossRule (ρ : Valuation) : crossRule.meaning ρ = {[.literal "x"]} :=
  mul_one _

/-- The cross is the only sequence for the target. -/
theorem bodies_digitsOrCross (ρ : Valuation) :
    bodies digitsOrCrossCompiled.rules ρ "t" = {[.literal "x"]} := by
  rw [← meaning_crossRule ρ]
  refine le_antisymm (iSup₂_le fun r hr => iSup_le fun ⟨htarget, hkind⟩ => ?_)
    (le_bodies mem_crossRule rfl)
  obtain rfl | rfl | rfl := eq_of_mem_rules hr
  · cases hkind
  · exact le_rfl
  · exact absurd htarget (by decide)

/-- A digit may stand in front of the cross. -/
theorem digit_cross_mem_language :
    [.digit, .literal "x"] ∈ digitsOrCrossCompiled.flat.language "t" := by
  refine mul_le_language compile_digitsOrCross mem_digitsRule (.inl rfl) rfl ?_
  refine Language.append_mem_mul (a := [Terminal.digit]) (b := [.literal "x"]) ?_ (.inr ?_)
  · exact le_kstar (a := ({[.digit]} : TerminalLanguage)) rfl
  · exact (bodies_digitsOrCross _).ge rfl

theorem digit_cross_notMem (ρ : Valuation) :
    [.digit, .literal "x"] ∉ digitsRule.meaning ρ + bodies digitsOrCrossCompiled.rules ρ "t" := by
  rw [meaning_digitsRule, bodies_digitsOrCross]
  rintro (hdigits | hcross)
  · obtain ⟨words, hwords, hdigit⟩ := Language.mem_kstar.1 hdigits
    have hx : Terminal.literal "x" ∈ words.flatten := hwords ▸ by simp
    obtain ⟨w, hw, hx⟩ := List.mem_flatten.1 hx
    rw [hdigit w hw] at hx
    cases List.mem_singleton.1 hx
  · cases hcross

end Grammar

/-- **A target with a repetition and sequences** stands for the repetition and for every sequence
behind entries of it; for no more than its rules do, if and only if an entry in front of a sequence
is not new. -/
theorem language_of_repeating {G G' : Grammar} {top : Symbol} {r : Rule} {s : Symbol}
    (hG : G.Reachable) (h : (Grammar.compile top).run.run G = (.ok (), G')) (hr : r ∈ G'.rules)
    (hkind : r.kind = .star ∨ r.kind = .plus) (hs : r.children = [s])
    (hothers : ∀ r' ∈ G'.rules, r'.target = r.target → r' = r ∨ r'.kind = .sequence) :
    G'.flat.language r.target = r.meaning G'.flat.language +
      (s.meaning G'.flat.language)∗ * bodies G'.rules G'.flat.language r.target ∧
    (G'.flat.language r.target =
        r.meaning G'.flat.language + bodies G'.rules G'.flat.language r.target ↔
      s.meaning G'.flat.language * bodies G'.rules G'.flat.language r.target ≤
        r.meaning G'.flat.language + bodies G'.rules G'.flat.language r.target) := by
  have heq : G'.flat.language r.target = r.meaning G'.flat.language +
      (s.meaning G'.flat.language)∗ * bodies G'.rules G'.flat.language r.target := by
    rw [Rule.meaning_of_repeating hkind hs, ← mul_add]
    exact le_antisymm (Grammar.language_le_mul hG h hr hkind hs hothers)
      (Grammar.mul_le_language h hr hkind hs)
  refine ⟨heq, fun hsum => ?_, fun hmore => ?_⟩
  · rw [← hsum, heq]
    exact (mul_le_mul_left le_kstar _).trans le_sup_right
  · have hentries : s.meaning G'.flat.language * r.meaning G'.flat.language ≤
        r.meaning G'.flat.language := by
      rw [Rule.meaning_of_repeating hkind hs, ← mul_assoc]
      exact mul_le_mul_left mul_kstar_le_kstar _
    rw [heq]
    refine le_antisymm (sup_le le_sup_left (kstar_mul_le le_sup_right ?_))
      (add_le_add_right (le_mul_of_one_le_left' one_le_kstar) _)
    rw [mul_add]
    exact sup_le (hentries.trans le_sup_left) hmore

/-- Digits and a cross: the digits are repeated, and so is what stands behind them. -/
theorem language_of_repeating_digitsOrCross :
    Grammar.digitsOrCross.Reachable ∧
    (Grammar.compile (.nonterminal "t")).run.run Grammar.digitsOrCross
      = (.ok (), Grammar.digitsOrCrossCompiled) ∧
    Grammar.digitsOrCrossCompiled.flat.language "t" =
      ({[.digit]} : TerminalLanguage)∗ + ({[.digit]} : TerminalLanguage)∗ * {[.literal "x"]} := by
  have h := (language_of_repeating Grammar.reachable_digitsOrCross Grammar.compile_digitsOrCross
    Grammar.mem_digitsRule (.inl rfl) rfl Grammar.sequence_digitsOrCross).1
  refine ⟨Grammar.reachable_digitsOrCross, rfl, h.trans ?_⟩
  rw [Grammar.meaning_digitsRule, ← Grammar.bodies_digitsOrCross]
  rfl

/-- **A repetition is not independent of the other rules of its target**: with the rules any number
of digits and a cross, none of which leads back to the target, a digit and a cross are derived. -/
theorem language_ne_digitsOrCross :
    Grammar.digitsOrCross.Reachable ∧
    (Grammar.compile (.nonterminal "t")).run.run Grammar.digitsOrCross
      = (.ok (), Grammar.digitsOrCrossCompiled) ∧
    Grammar.digitsRule ∈ Grammar.digitsOrCrossCompiled.rules ∧
    (∀ r ∈ Grammar.digitsOrCrossCompiled.rules, r.target = "t" →
      (r = Grammar.digitsRule ∨ r.kind = .sequence) ∧
      ∀ u, Grammar.digitsOrCrossCompiled.flat.Derives r.children u → .nonterminal "t" ∉ u) ∧
    Grammar.digitsOrCrossCompiled.flat.language "t" ≠
      Grammar.digitsRule.meaning Grammar.digitsOrCrossCompiled.flat.language +
        bodies Grammar.digitsOrCrossCompiled.rules
          Grammar.digitsOrCrossCompiled.flat.language "t" := by
  refine ⟨Grammar.reachable_digitsOrCross, rfl, Grammar.mem_digitsRule, fun r hr htarget => ?_, ?_⟩
  · exact ⟨Grammar.sequence_digitsOrCross r hr htarget,
      fun u hu => Grammar.not_mem_of_derives hr htarget hu⟩
  · intro heq
    exact Grammar.digit_cross_notMem _ (heq ▸ Grammar.digit_cross_mem_language)

end Typeahead
