import Typeahead.Proofs.Grammar.Reachable

/-!
# Proofs/Grammar/Recompiled — compiling again

A compile replaces the rule of the start symbol and makes three names known: the start symbol, the
end of input and the top symbol.  For a top symbol that was known before, no trace of that is left:
the next compile replaces the rule once more and knows the same names (`Alike.withStart_eq`).  The
nonterminals that lowering makes up stay in the flat grammar, so a compile has the same result
whatever was compiled before it (`compile_after_compiles`).
-/

namespace Typeahead.Grammar

variable {G G' G'' : Grammar} {top : String}

/-- The grammar after compiles for several top symbols, whether these succeed or fail. -/
def compileEach (G : Grammar) (tops : List String) : Grammar :=
  tops.foldl (fun G top => ((compile (.nonterminal top)).run.run G).2) G

/-- The rules that a compile leaves alone. -/
def ownRules (G : Grammar) : Array Rule := G.rules.filter (·.target ≠ SymbolTable.start)

/-- The names known to any compile for a known top symbol. -/
def startSymbols (G : Grammar) : SymbolTable :=
  (G.symbols.declare SymbolTable.start).register (.terminal .endOfInput)

/-! ## What a compile leaves behind -/

theorem flat_of_compile_error {top : Symbol} {e : GrammarError}
    (h : ((compile top).run.run G).1 = .error e) :
    ((compile top).run.run G).2.flat = G.flat ∧ ((compile top).run.run G).2.compiled = false := by
  rw [compile_eq] at h ⊢
  split
  next flat hflat =>
    rw [hflat] at h
    cases h
  next => exact ⟨rfl, rfl⟩

theorem rules_compile (G : Grammar) (top : Symbol) :
    ((compile top).run.run G).2.rules = (G.withStart top).rules := by
  rw [compile_eq]
  split <;> rfl

theorem symbols_compile (G : Grammar) (top : Symbol) :
    ((compile top).run.run G).2.symbols = (G.withStart top).symbols := by
  rw [compile_eq]
  split <;> rfl

theorem symbols_withStart (h : G.symbols.knows top = true) :
    (G.withStart (.nonterminal top)).symbols = G.startSymbols := by
  have hknows : (G.symbols.declare SymbolTable.start).knows top = true :=
    SymbolTable.knows_declare.2 (.inr h)
  exact congrArg (SymbolTable.register · _) (SymbolTable.register_eq_self hknows)

/-- Once the start symbol and the end of input are known, a compile makes no further name known. -/
theorem startSymbols_of_symbols_eq (h : G'.symbols = G.startSymbols) :
    G'.startSymbols = G.startSymbols := by
  have hstart : ∃ y, G.startSymbols.get? SymbolTable.start = some (.nonterminal y) := by
    rw [startSymbols, SymbolTable.get?_register_of_knows (SymbolTable.knows_declare.2 (.inl rfl))]
    exact SymbolTable.exists_get?_declare
  have hend : G.startSymbols.knows (Symbol.terminal .endOfInput).name = true :=
    SymbolTable.knows_register_self nofun
  rw [startSymbols, h, SymbolTable.declare_eq_self hstart, SymbolTable.register_eq_self hend]

theorem ownRules_compile (G : Grammar) (top : Symbol) :
    ((compile top).run.run G).2.ownRules = G.ownRules := by
  have htarget : (startRule top).target = SymbolTable.start := rfl
  simp [ownRules, rules_compile, withStart, htarget]

/-! ## Grammars that compile alike -/

/-- Of two grammars, the second has the same rules and knows the same names, apart from what
compiles replace and make known. -/
structure Alike (G G' : Grammar) : Prop where
  rules : G'.ownRules = G.ownRules
  startSymbols : G'.startSymbols = G.startSymbols
  knows : ∀ x, G.symbols.knows x = true → G'.symbols.knows x = true

theorem Alike.refl (G : Grammar) : G.Alike G := ⟨rfl, rfl, fun _ => id⟩

theorem Alike.trans (h : G.Alike G') (h' : G'.Alike G'') : G.Alike G'' :=
  ⟨h'.rules.trans h.rules, h'.startSymbols.trans h.startSymbols,
    fun x hx => h'.knows x (h.knows x hx)⟩

/-- **One compile** for a known top symbol leaves a grammar alike. -/
theorem Alike.compile (h : G.symbols.knows top = true) :
    G.Alike ((Grammar.compile (.nonterminal top)).run.run G).2 where
  rules := ownRules_compile ..
  startSymbols := startSymbols_of_symbols_eq ((symbols_compile ..).trans (symbols_withStart h))
  knows x hx := by
    rw [symbols_compile]
    exact knows_withStart hx

/-- **Any number of compiles** for known top symbols leave a grammar alike. -/
theorem alike_compileEach {tops : List String} (htops : ∀ t ∈ tops, G.symbols.knows t = true) :
    G.Alike (G.compileEach tops) := by
  induction tops generalizing G with
  | nil => exact .refl G
  | cons t tops ih =>
    have hstep := Alike.compile (htops t (List.mem_cons_self ..))
    exact hstep.trans (ih fun t ht => hstep.knows t (htops t (List.mem_cons_of_mem _ ht)))

/-- For a known top symbol, the next compile works on the same grammar. -/
theorem Alike.withStart_eq (h : G.Alike G') (htop : G.symbols.knows top = true) :
    G'.withStart (.nonterminal top) = { G.withStart (.nonterminal top) with flat := G'.flat } := by
  have hsymbols := (symbols_withStart (h.knows top htop)).trans
    (h.startSymbols.trans (symbols_withStart htop).symm)
  have hrules := congrArg (·.push (startRule (.nonterminal top))) h.rules
  exact congrArg₂ (fun symbols rules => (⟨symbols, rules, G'.flat, false⟩ : Grammar)) hsymbols hrules

theorem Alike.run_compile (h : G.Alike G') (htop : G.symbols.knows top = true) :
    (Grammar.compile (.nonterminal top)).run.run G' =
      match (Grammar.compile (.nonterminal top)).run.run G with
      | (.ok _, G₁) => (.ok (), G₁)
      | (.error e, G₁) => (.error e, { G₁ with flat := G'.flat }) := by
  have hlower : (G'.withStart (.nonterminal top)).lowerAll =
      (G.withStart (.nonterminal top)).lowerAll := by
    rw [h.withStart_eq htop]
    rfl
  rw [compile_eq, compile_eq, hlower, h.withStart_eq htop]
  cases (G.withStart (.nonterminal top)).lowerAll <;> rfl

/-- **A compile depends on the rules alone**, not on the compiles before it: it is refused with the
same error, or reaches the same grammar.  Compiles leave all rules but that of the start symbol in
place, and one that is refused leaves the result of the last one that was not. -/
theorem compile_after_compiles {G : Grammar} {tops : List String} {top : String}
    (htops : ∀ t ∈ tops, G.symbols.knows t = true) (htop : G.symbols.knows top = true) :
    ((compile (.nonterminal top)).run.run (G.compileEach tops)).1
        = ((compile (.nonterminal top)).run.run G).1 ∧
    (((compile (.nonterminal top)).run.run G).1 = .ok () →
      ((compile (.nonterminal top)).run.run (G.compileEach tops)).2
        = ((compile (.nonterminal top)).run.run G).2) ∧
    (G.compileEach tops).ownRules = G.ownRules ∧
    ((compile (.nonterminal top)).run.run (G.compileEach tops)).2.ownRules = G.ownRules ∧
    ∀ e, ((compile (.nonterminal top)).run.run (G.compileEach tops)).1 = .error e →
      ((compile (.nonterminal top)).run.run (G.compileEach tops)).2.flat
          = (G.compileEach tops).flat ∧
        ((compile (.nonterminal top)).run.run (G.compileEach tops)).2.compiled = false := by
  have halike := alike_compileEach htops
  have hrun := halike.run_compile htop
  refine ⟨?_, fun hok => ?_, halike.rules, (ownRules_compile ..).trans halike.rules,
    fun e => flat_of_compile_error⟩
  · rw [hrun]
    rcases (compile (.nonterminal top)).run.run G with ⟨_ | _, _⟩ <;> rfl
  · rw [hrun]
    rcases h : (compile (.nonterminal top)).run.run G with ⟨_ | _, G₁⟩
    · rw [h] at hok
      cases hok
    · rfl

/-- Digits any number of times, and a name without a rule. -/
def digitsAndGap : Grammar :=
  ((declare "gap").run ((star (some "digits") (Symbol.terminal .digit).unnamed).run {}).2).2

/-- Compiles for the digits around one for the name without a rule, which is refused. -/
theorem compile_after_compiles_digits :
    (∀ t ∈ ["digits", "gap", "digits"], digitsAndGap.symbols.knows t = true) ∧
    ((compile (.nonterminal "gap")).run.run digitsAndGap).1 = .error (.undefinedNonterminal "gap") ∧
    ((compile (.nonterminal "digits")).run.run digitsAndGap).1 = .ok () ∧
    ((compile (.nonterminal "digits")).run.run
        (digitsAndGap.compileEach ["digits", "gap", "digits"])).2 =
      ((compile (.nonterminal "digits")).run.run digitsAndGap).2 ∧
    ((compile (.nonterminal "gap")).run.run (digitsAndGap.compileEach ["digits"])).2.flat
      = (digitsAndGap.compileEach ["digits"]).flat := by
  have hknown : ∀ t ∈ ["digits", "gap", "digits"], digitsAndGap.symbols.knows t = true := by decide
  have hrefused : ((compile (.nonterminal "gap")).run.run digitsAndGap).1 =
      .error (.undefinedNonterminal "gap") := rfl
  have hok : ((compile (.nonterminal "digits")).run.run digitsAndGap).1 = .ok () := rfl
  have hdigits : digitsAndGap.symbols.knows "digits" = true := by decide
  have hgap : digitsAndGap.symbols.knows "gap" = true := by decide
  have hfirst : ∀ t ∈ ["digits"], digitsAndGap.symbols.knows t = true := by decide
  obtain ⟨-, hsame, -⟩ := compile_after_compiles hknown hdigits
  obtain ⟨hagain, -, -, -, hkept⟩ := compile_after_compiles hfirst hgap
  exact ⟨hknown, hrefused, hok, hsame hok, (hkept _ (hagain.trans hrefused)).1⟩

end Typeahead.Grammar
