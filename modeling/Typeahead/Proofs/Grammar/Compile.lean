import Typeahead.Grammar
import Typeahead.Proofs.FlatGrammar.Lowering

/-!
# Proofs/Grammar/Compile — what compiling does

`Grammar.withStart` is the grammar that a compile works on: the rules of the start symbol are
replaced by one, which puts the end of input after the top symbol.  `compile_eq` says that compiling
is lowering these rules, and `lower_induction` carries a property of flat grammars from rule to
rule.
-/

namespace Typeahead

/-! ## Runs -/

theorem bind_eq_ok {ε α β : Type} {x : Except ε α} {f : α → Except ε β} {b : β} :
    x >>= f = .ok b ↔ ∃ a, x = .ok a ∧ f a = .ok b := by
  rcases x with e | a <;> simp [bind, Except.bind]

namespace GrammarM

variable {α β : Type} (G : Grammar)

theorem run_bind (m : GrammarM α) (f : α → GrammarM β) :
    (m >>= f).run.run G = match m.run.run G with
      | (.ok a, G') => (f a).run.run G'
      | (.error e, G') => (.error e, G') := by
  simp only [ExceptT.run, StateT.run, bind, ExceptT.bind, ExceptT.mk, StateT.bind]
  rcases m G with ⟨_ | _, G'⟩ <;> rfl

theorem run_lift (m : StateM Grammar α) :
    (liftM m : GrammarM α).run.run G = (.ok (m.run G).1, (m.run G).2) := rfl

theorem run_get : (get : GrammarM Grammar).run.run G = (.ok G, G) := rfl

theorem run_ofExcept (x : Except GrammarError α) : (liftM x : GrammarM α).run.run G = (x, G) := by
  cases x <;> rfl

theorem run_discard (m : GrammarM α) :
    (discard m).run.run G = ((m.run.run G).1.map fun _ => ⟨⟩, (m.run.run G).2) := by
  simp only [ExceptT.run, StateT.run, bind, ExceptT.mk, StateT.bind, discard, Functor.discard,
    Functor.mapConst, ExceptT.map, Function.comp, Function.const]
  rcases m G with ⟨_ | _, G'⟩ <;> rfl

end GrammarM

namespace Grammar

/-! ## The rule of the start symbol -/

/-- The start symbol stands for the top symbol followed by the end of input. -/
def startRule (top : Symbol) : Rule :=
  { Rule.ofChildren .sequence SymbolTable.start
      [top.unnamed, (Symbol.terminal .endOfInput).unnamed] with
    evaluator := some .first }

/-- The grammar with `top` below the start symbol. -/
def withStart (G : Grammar) (top : Symbol) : Grammar :=
  { G with
    symbols := ((G.symbols.declare SymbolTable.start).register top).register (.terminal .endOfInput)
    rules := (G.rules.filter (·.target ≠ SymbolTable.start)).push (startRule top)
    compiled := false }

variable {G : Grammar} {top : Symbol}

theorem mem_rules_withStart {r : Rule} : r ∈ (G.withStart top).rules ↔
    r ∈ G.rules ∧ r.target ≠ SymbolTable.start ∨ r = startRule top := by
  simp [withStart]

theorem knows_start_withStart : (G.withStart top).symbols.knows SymbolTable.start = true :=
  SymbolTable.knows_register_of_knows
    (SymbolTable.knows_register_of_knows (SymbolTable.knows_declare.2 (.inl rfl)))

theorem modify_push {α : Type} (xs : Array α) (x : α) (f : α → α) :
    (xs.push x).modify xs.size f = xs.push (f x) := by
  apply Array.toList_inj.1
  rw [Array.toList_modify, Array.toList_push, Array.toList_push, ← Array.length_toList]
  simp [List.modify_eq_take_drop]

theorem run_registerAll (ss : List Named) (G : Grammar) :
    (ss.forM fun s => register s.symbol).run G =
      ((), { G with symbols := G.symbols.registerAll (ss.map (·.symbol)) }) := by
  induction ss generalizing G with
  | nil => rfl
  | cons s ss ih => exact ih { G with symbols := G.symbols.register s.symbol }

/-- **Registering a rule** declares its target, makes its symbols known and adds it as the last. -/
theorem run_insert (kind : RuleKind) (name : Option String) (children : List Named) (G : Grammar) :
    (insert kind name children).run G =
      (⟨G.rules.size, ((target name kind.word).run G).1⟩,
        { G with
          symbols := ((target name kind.word).run G).2.symbols.registerAll (children.map (·.symbol))
          rules := G.rules.push (.ofChildren kind ((target name kind.word).run G).1 children)
          compiled := false }) := by
  rw [insert, StateT.run_bind]
  rcases htarget : (target name kind.word).run G with ⟨x, G'⟩
  change StateT.run _ G' = _
  rw [StateT.run_bind, run_registerAll]
  cases name <;> cases htarget <;> rfl

/-- **Compiling lowers the rules** below the new start rule. -/
theorem compile_eq (G : Grammar) (top : Symbol) :
    (compile top).run.run G = match (G.withStart top).lowerAll with
      | .ok flat => (.ok (), { G.withStart top with flat := flat, compiled := true })
      | .error e => (.error e, G.withStart top) := by
  rw [compile]
  simp only [GrammarM.run_bind, GrammarM.run_lift, GrammarM.run_discard, GrammarM.run_get,
    GrammarM.run_ofExcept, Except.map]
  rcases h : (insert .sequence (some SymbolTable.start)
    [top.unnamed, (Symbol.terminal .endOfInput).unnamed]).run
    ((removeRules SymbolTable.start).run G).2 with ⟨r, G'⟩
  have hstart : ((evaluating .first r).run G').2 = G.withStart top := by
    rw [run_insert] at h
    cases h
    exact congrArg (fun rules => ({ G.withStart top with rules := rules } : Grammar))
      (modify_push ..)
  dsimp only
  rw [hstart]
  cases (G.withStart top).lowerAll <;> rfl

theorem compile_ok {G' : Grammar} (h : (compile top).run.run G = (.ok (), G')) :
    (G.withStart top).lowerAll = .ok G'.flat ∧ G'.rules = (G.withStart top).rules ∧
      G'.symbols = (G.withStart top).symbols := by
  rw [compile_eq] at h
  split at h
  next flat hflat =>
    cases h
    exact ⟨hflat, rfl, rfl⟩
  next => cases h

/-! ## From rule to rule -/

/-- A property of flat grammars that lowering keeps holds after lowering rule by rule. -/
theorem lower_induction {P : FlatGrammar → Prop} {rules : List Rule} {g g' : FlatGrammar}
    (h : rules.foldlM FlatGrammar.lower g = .ok g') (hg : P g)
    (hstep : ∀ r ∈ rules, ∀ g g', P g → g.lower r = .ok g' → P g') : P g' := by
  induction rules generalizing g with
  | nil =>
    cases h
    exact hg
  | cons r rules ih =>
    rw [List.foldlM_cons, bind_eq_ok] at h
    obtain ⟨g₁, hlower, h⟩ := h
    exact ih h (hstep r (List.mem_cons_self ..) g g₁ hg hlower)
      fun r hr => hstep r (List.mem_cons_of_mem _ hr)

theorem lowerAll_ok {flat : FlatGrammar} (h : G.lowerAll = .ok flat) :
    G.rules.toList.foldlM FlatGrammar.lower (FlatGrammar.ofSymbols G.symbols) = .ok flat ∧
      flat.undefined? = none := by
  rw [lowerAll, bind_eq_ok] at h
  obtain ⟨g, hfold, h⟩ := h
  split at h
  next => cases h
  next hundefined =>
    cases h
    exact ⟨hfold, hundefined⟩

/-- **The start symbol has one production**, which ends with the end of input. -/
theorem start_of_mem_sides {G' : Grammar} (h : (compile top).run.run G = (.ok (), G')) {s : Sides}
    (hs : s ∈ G'.flat.sides) (hleft : s.left = SymbolTable.start) :
    s = Sides.bare ⟨SymbolTable.start, [top, .terminal .endOfInput]⟩ := by
  obtain ⟨hfold, -⟩ := lowerAll_ok (compile_ok h).1
  -- other rules have other targets, and the names they make up are new
  refine (lower_induction (P := fun g => g.symbols.knows SymbolTable.start = true ∧
    ∀ s ∈ g.sides, s.left = SymbolTable.start →
      s = Sides.bare ⟨SymbolTable.start, [top, .terminal .endOfInput]⟩) hfold
    ⟨knows_start_withStart, by simp [FlatGrammar.sides, FlatGrammar.ofSymbols]⟩ ?_).2 s hs hleft
  rintro r hr g g' ⟨hknows, hsides⟩ hlower
  obtain ⟨a, ha, hadds⟩ := FlatGrammar.lower_adds hlower
  refine ⟨(hadds.knows _).2 (.inl hknows), fun s hs hleft => ?_⟩
  rcases (hadds.sides s).1 hs with hs | ⟨n, hn, rfl⟩
  · exact hsides s hs hleft
  · rcases mem_rules_withStart.1 (Array.mem_toList_iff.1 hr) with ⟨-, htarget⟩ | rfl
    · rcases List.mem_cons.1 (Rule.within_of_mem_sides hn).1 with hn | hn
      · exact absurd (hn.symm.trans hleft) htarget
      · rw [← hleft, Sides.bare_left, hadds.unknown _ hn] at hknows
        cases hknows
    · obtain rfl := List.mem_singleton.1 hn
      rfl

/-- The end of input is matched whenever the start symbol is. -/
theorem endOfInput_mem_of_compile {G' : Grammar} (h : (compile top).run.run G = (.ok (), G')) :
    ∀ p ∈ G'.flat.alternatives SymbolTable.start, .terminal .endOfInput ∈ p.right := by
  intro p hp
  obtain ⟨hmem, hleft⟩ := List.mem_filter.1 hp
  have hside : ⟨p.left, p.right⟩ ∈ G'.flat.sides := List.mem_map_of_mem hmem
  rw [(Sides.mk.inj (start_of_mem_sides h hside (of_decide_eq_true hleft))).2]
  simp

end Grammar

end Typeahead
