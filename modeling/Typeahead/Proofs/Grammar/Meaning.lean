import Typeahead.Proofs.FlatGrammar.Meaning
import Typeahead.Proofs.Grammar.Reachable

/-!
# Proofs/Grammar/Meaning — compiling keeps the meaning of rules

The productions of a compiled grammar derive from a nonterminal the terminal strings that the rules
stand for when they are read as equations.

All sides of all rules end up among the productions, so what is derived solves the equations and is
above their least solution (`reading_le_language`).  Conversely that solution can be continued to
the names that joins make up such that it holds for every production (`Interpreted`), and so is
above what is derived.
-/

namespace Typeahead

variable {rules : List Rule} {r : Rule} {g g' : FlatGrammar}

namespace FlatGrammar

/-! ## What the rules stand for is derived -/

theorem sides_of_lower (h : rules.foldlM lower g = .ok g') :
    (∀ s ∈ g.sides, s ∈ g'.sides) ∧ ∀ r ∈ rules, ∃ a, ∀ s ∈ r.sides a, s.bare ∈ g'.sides := by
  induction rules generalizing g with
  | nil =>
    cases h
    exact ⟨fun _ hs => hs, by simp⟩
  | cons r rules ih =>
    rw [List.foldlM_cons, bind_eq_ok] at h
    obtain ⟨g₁, hlower, h⟩ := h
    obtain ⟨hkept, hrules⟩ := ih h
    obtain ⟨a, -, hadds⟩ := lower_adds hlower
    refine ⟨fun s hs => hkept s ((hadds.sides s).2 (.inl hs)), ?_⟩
    rw [List.forall_mem_cons]
    exact ⟨⟨a, fun s hs => hkept _ ((hadds.sides _).2 (.inr ⟨s, hs, rfl⟩))⟩, hrules⟩

/-- **The derived strings include what the rules stand for.** -/
theorem reading_le_language (h : rules.foldlM lower g = .ok g') : reading rules ≤ g'.language := by
  refine reading_le fun r hr => ?_
  obtain ⟨a, ha⟩ := (sides_of_lower h).2 r hr
  refine Rule.meaning_le_of_holds (a := a) fun s hs => ?_
  exact Sides.holds_bare.1 (holds_language (ha s hs) s.visible_bare)

/-! ## Nothing else is derived -/

/-- **The productions are read in a valuation** that is given for the names of a table: it can be
continued such that it holds for all of them. -/
structure Interpreted (ρ : Valuation) (table : SymbolTable) (g : FlatGrammar) : Prop where
  knows : ∀ x, table.knows x = true → g.symbols.knows x = true
  closed : ∀ s ∈ g.sides, ∀ x, s.Mentions x → g.symbols.knows x = true
  visible : ∀ s ∈ g.sides, Visible s.right
  holds : ∃ ρ' : Valuation, (∀ x, table.knows x = true → ρ' x = ρ x) ∧ ∀ s ∈ g.sides, s.Holds ρ'

theorem interpreted_ofSymbols (ρ : Valuation) (table : SymbolTable) :
    Interpreted ρ table (ofSymbols table) where
  knows _ hx := hx
  closed := by simp [sides, ofSymbols]
  visible := by simp [sides, ofSymbols]
  holds := ⟨ρ, fun _ _ => rfl, by simp [sides, ofSymbols]⟩

variable {ρ : Valuation} {table : SymbolTable}

/-- **Lowering a rule keeps the productions read**, if the target stands for what the rule does, and
for nothing else if the rule recurses on it. -/
theorem Interpreted.lower (h : Interpreted ρ table g) (hr : r.Known table)
    (hmeaning : r.meaning ρ ≤ ρ r.target)
    (hlone : r.kind = .star ∨ r.kind = .plus → ρ r.target ≤ r.meaning ρ)
    (hlower : g.lower r = .ok g') : Interpreted ρ table g' := by
  obtain ⟨a, ha, hadds⟩ := lower_adds hlower
  obtain ⟨ρ₁, hρ₁, hold⟩ := h.holds
  have hknown : r.Known g.symbols := hr.mono h.knows
  -- the rule cannot tell the continued valuation from the given one
  have hsame : r.meaning ρ₁ = r.meaning ρ := Rule.meaning_congr fun x hx => hρ₁ x (hr.symbols x hx)
  have htarget : ρ₁ r.target = ρ r.target := hρ₁ _ hr.target
  obtain ⟨ρ₂, hρ₂, hnew⟩ : ∃ ρ₂ : Valuation, (∀ x, g.symbols.knows x = true → ρ₂ x = ρ₁ x) ∧
      ∀ s ∈ r.sides a, s.Holds ρ₂ := by
    refine Rule.exists_holds ha hknown.target hknown.symbols
      (fun _ hj => (lower_join hlower hj).2) ?_ ?_
    · rwa [hsame, htarget]
    · rwa [hsame, htarget]
  refine ⟨fun x hx => (hadds.knows x).2 (.inl (h.knows x hx)), ?_, ?_, ρ₂, ?_, ?_⟩
  · exact knows_of_lower hknown h.closed hlower
  · intro s hs
    rcases (hadds.sides s).1 hs with hs | ⟨n, -, rfl⟩
    · exact h.visible s hs
    · exact n.visible_bare
  · intro x hx
    rw [hρ₂ x (h.knows x hx), hρ₁ x hx]
  · intro s hs
    rcases (hadds.sides s).1 hs with hs | ⟨n, hn, rfl⟩
    · exact (hold s hs).congr fun x hx => hρ₂ x (h.closed s hs x hx)
    · exact Sides.holds_bare.2 (hnew n hn)

/-- **The derived strings are among those that the rules stand for**, if recursion on a target is
not mixed with other rules. -/
theorem language_le_reading (h : rules.foldlM lower (ofSymbols table) = .ok g')
    (hknown : ∀ r ∈ rules, r.Known table)
    (hlone : ∀ r ∈ rules, r.kind = .star ∨ r.kind = .plus →
      ∀ r' ∈ rules, r'.target = r.target → r' = r)
    {x : String} (hx : table.knows x = true) : g'.language x ≤ reading rules x := by
  have hinterpreted : Interpreted (reading rules) table g' := by
    refine Grammar.lower_induction h (interpreted_ofSymbols _ _) ?_
    intro r hr g g' hg hlower
    refine hg.lower (hknown r hr) (meaning_le_reading hr) (fun hkind => ?_) hlower
    exact reading_le_meaning (hlone r hr hkind)
  obtain ⟨ρ', hρ', hholds⟩ := hinterpreted.holds
  exact (language_le hholds hinterpreted.visible x).trans_eq (hρ' x hx)

end FlatGrammar

/-! ## Compiling -/

namespace Grammar

/-- The start symbol stands for the top symbol followed by the end of input. -/
theorem reading_start (G : Grammar) (top : Symbol) :
    reading (G.withStart top).rules.toList SymbolTable.start =
      top.meaning (reading (G.withStart top).rules.toList) * {[.endOfInput]} := by
  have hmem : startRule top ∈ (G.withStart top).rules.toList :=
    Array.mem_toList_iff.2 (mem_rules_withStart.2 (.inr rfl))
  have hmeaning : ∀ ρ, (startRule top).meaning ρ = top.meaning ρ * {[.endOfInput]} := by
    intro ρ
    change Symbol.meaningAll ρ [top, .terminal .endOfInput] = _
    rw [Symbol.meaningAll_cons, Symbol.meaningAll_cons, Symbol.meaningAll_nil, mul_one]
    rfl
  rw [← hmeaning]
  change reading _ (startRule top).target = _
  refine le_antisymm (reading_le_meaning fun r hr htarget => ?_) (meaning_le_reading hmem)
  rcases mem_rules_withStart.1 (Array.mem_toList_iff.1 hr) with ⟨-, hne⟩ | rfl
  · exact absurd htarget hne
  · rfl

/-- Digits with blanks between them, two at least. -/
def spaced : Grammar :=
  ((join (some "digits") (Symbol.terminal .digit).unnamed
    { delimiter := some (.nonterminal "blanks"), count := ⟨2, Count.limit⟩ }).run
    ((star (some "blanks") (Symbol.terminal .whitespace).unnamed).run {}).2).2

/-- The grammar after its compile. -/
def spacedCompiled : Grammar := ((compile (.nonterminal "digits")).run.run spaced).2

theorem compile_spaced :
    (compile (.nonterminal "digits")).run.run spaced = (.ok (), spacedCompiled) := rfl

theorem reachable_spaced : spaced.Reachable := by
  have hstar : ∀ j, RuleKind.star ≠ .join j := by simp
  exact (Relation.ReflTransGen.single (.insert {} hstar _ _)).tail (.join ..)

theorem lone_spaced : ∀ r ∈ spacedCompiled.rules, r.kind = .star ∨ r.kind = .plus →
    ∀ r' ∈ spacedCompiled.rules, r'.target = r.target → r' = r := by
  have htargets : (spacedCompiled.rules.toList.map (·.target)).Nodup := by decide +kernel
  intro r hr _ r' hr' htarget
  exact List.inj_on_of_nodup_map htargets (Array.mem_toList_iff.2 hr') (Array.mem_toList_iff.2 hr)
    htarget

end Grammar

/-- **Compiling keeps the meaning of rules.**  From every name of the grammar the productions derive
what the rules stand for, and from the start symbol the top symbol followed by the end of input. -/
theorem compile_language_eq_reading {G G' : Grammar} {top : Symbol} (hG : G.Reachable)
    (h : (Grammar.compile top).run.run G = (.ok (), G'))
    (hlone : ∀ r ∈ G'.rules, r.kind = .star ∨ r.kind = .plus →
      ∀ r' ∈ G'.rules, r'.target = r.target → r' = r) :
    (∀ x, G'.symbols.knows x = true → G'.flat.language x = reading G'.rules.toList x) ∧
      G'.flat.language SymbolTable.start = top.meaning G'.flat.language * {[.endOfInput]} := by
  obtain ⟨hlower, hrules, hsymbols⟩ := Grammar.compile_ok h
  obtain ⟨hfold, -⟩ := Grammar.lowerAll_ok hlower
  have hclosed : (G.withStart top).Closed := hG.closed.withStart top
  rw [hrules] at hlone
  rw [hrules, hsymbols]
  have heq : ∀ x, (G.withStart top).symbols.knows x = true →
      G'.flat.language x = reading (G.withStart top).rules.toList x := by
    intro x hx
    refine le_antisymm (FlatGrammar.language_le_reading hfold ?_ ?_ hx)
      (FlatGrammar.reading_le_language hfold x)
    · exact fun r hr => hclosed r (Array.mem_toList_iff.1 hr)
    · simpa only [Array.mem_toList_iff] using hlone
  have htop : ∀ x, top = .nonterminal x → (G.withStart top).symbols.knows x = true := by
    rintro x rfl
    exact SymbolTable.knows_register_of_knows SymbolTable.knows_register_nonterminal
  refine ⟨heq, ?_⟩
  rw [heq _ Grammar.knows_start_withStart, Grammar.reading_start,
    Symbol.meaning_congr fun x hx => (heq x (htop x hx)).symm]

theorem compile_language_eq_reading_spaced :
    Grammar.spaced.Reachable ∧
    (Grammar.compile (.nonterminal "digits")).run.run Grammar.spaced
      = (.ok (), Grammar.spacedCompiled) ∧
    Grammar.spacedCompiled.flat.language "digits"
      = reading Grammar.spacedCompiled.rules.toList "digits" ∧
    Grammar.spacedCompiled.flat.language SymbolTable.start
      = Grammar.spacedCompiled.flat.language "digits" * {[.endOfInput]} := by
  obtain ⟨heq, hstart⟩ := compile_language_eq_reading Grammar.reachable_spaced
    Grammar.compile_spaced Grammar.lone_spaced
  exact ⟨Grammar.reachable_spaced, rfl, heq "digits" rfl, hstart⟩

end Typeahead
