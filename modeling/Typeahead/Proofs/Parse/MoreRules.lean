import Typeahead.Proofs.Grammar.Renamed
import Typeahead.Proofs.Language.Programs

/-!
# Proofs/Parse/MoreRules — what is accepted stays accepted when rules are added

A further rule changes which alternatives there are, their order, and the names that other rules make
up.  Every derivation of before is still one, renamed (`Grammar.exists_leftmost_of_within`), and a
search finds a derivation of the input if there is one.  So an input that was parsed successfully is
so again, by another derivation perhaps.
-/

namespace Typeahead

/-- A parse went through the whole input. -/
structure Parsed.Succeeds (p : Parsed) : Prop where
  failure : p.failure = none
  outcome : p.tree.outcome = .successful

namespace Grammar

/-- **Rules are added**: a rule of any kind and for any target, or what a pattern needs.  A rule that
is added may be changed afterwards, for its behaviour or its bounds. -/
inductive Addition : Grammar → Grammar → Prop
  | insert (G : Grammar) (kind : RuleKind) (name : Option String) (children : List Named) :
    Addition G ((insert kind name children).run G).2
  | join (G : Grammar) (name : Option String) (entry : Named) (j : Join) :
    Addition G ((join name entry j).run G).2
  | define {G H : Grammar} {name pattern : String} {r : RuleRef}
    (h : (defineType name pattern).run.run G = (.ok r, H)) : Addition G H
  | modifyRule {G H : Grammar} (h : Addition G H) {r : RuleRef} (hr : G.rules.size ≤ r.index)
    (change : Rule → Rule) : Addition G ((modifyRule r change).run H).2

variable {G G' H H' : Grammar} {top : Symbol}

theorem Addition.grown (h : G.Addition H) : G.Grown H := by
  induction h with
  | insert kind name children => exact (appends_insert kind name children).grown G
  | join name entry j => exact (appends_join name entry j).grown G
  | define h => exact grown_of_defineType h
  | modifyRule _ hr change ih => exact ih.modifyRule hr change

theorem grown_of_additions (h : Relation.TransGen Addition G H) : G.Grown H := by
  induction h with
  | single h => exact h.grown
  | tail _ h ih => exact ih.trans h.grown

theorem Grown.within (h : G.Grown H) : G.Within H := by
  intro r hr
  obtain ⟨hmem, htarget⟩ := Array.mem_filter.1 hr
  refine Array.mem_filter.2 ⟨?_, htarget⟩
  exact Array.mem_toList_iff.1 (h.rules.subset (Array.mem_toList_iff.2 hmem))

/-- Rules may be added before the compile or after it. -/
theorem within_of_additions (hbefore : (compile top).run.run G = (.ok (), G'))
    (hadded : Relation.TransGen Addition G H ∨ Relation.TransGen Addition G' H) : G.Within H := by
  rcases hadded with hadded | hadded
  · exact (grown_of_additions hadded).within
  · have hwithin := (grown_of_additions hadded).within
    have hown : G'.ownRules = G.ownRules := by
      rw [← ownRules_compile G top, hbefore]
    exact fun r hr => hwithin r (hown ▸ hr)

end Grammar

/-- A compile of a language compiles its grammar for programs. -/
theorem Language.of_compile_eq_ok {l l' : Language} (h : Language.compile.run.run l = (.ok (), l')) :
    ∃ G, (Grammar.compile (.nonterminal Language.program)).run.run l.grammar = (.ok (), G) ∧
      l' = { l with grammar := G } := by
  rw [Language.run_compile, Prod.mk.injEq] at h
  exact ⟨_, Prod.ext h.1 rfl, h.2.symm⟩

/-! ## Parses -/

section

variable {g : FlatGrammar} {listeners : Nat} {input : String} {found : Option (List Completion)}
  {ctx : Context}

/-- A parse succeeds if there is a derivation, provided every production of the start symbol has a
terminal to match. -/
theorem succeeds_iff_leftmost
    (hg : ∀ p ∈ g.alternatives SymbolTable.start, ∃ t, .terminal t ∈ p.right) :
    ((parse g listeners input found).run ctx).1.Succeeds ↔
      ∃ steps, Leftmost g [.nonterminal SymbolTable.start] steps ∧
        Reads input.toList 0 steps ∧ Paced ctx.config.maxDepth steps := by
  rw [← exists_isComplete_iff_leftmost, ← outcome_eq_successful_iff hg, ← parse_tree]
  refine ⟨Parsed.Succeeds.outcome, fun hout => ⟨parse_failure_eq_none.2 ?_, hout⟩⟩
  rw [hout]
  nofun

end

section

variable {G G' H H' : Grammar} {top : Symbol} {listeners listeners' : Nat} {input : String}
  {found found' : Option (List Completion)} {ctx ctx' : Context}

/-- **With more rules** a parse succeeds where it did before. -/
theorem Parsed.Succeeds.of_within (hG : G.Reachable) (hwithin : G.Within H)
    (hbefore : (Grammar.compile top).run.run G = (.ok (), G'))
    (hafter : (Grammar.compile top).run.run H = (.ok (), H')) (hconfig : ctx'.config = ctx.config)
    (h : ((parse G'.flat listeners input found).run ctx).1.Succeeds) :
    ((parse H'.flat listeners' input found').run ctx').1.Succeeds := by
  rw [succeeds_iff_leftmost (exists_terminal_of_compile hbefore)] at h
  rw [succeeds_iff_leftmost (exists_terminal_of_compile hafter), hconfig]
  exact Grammar.exists_leftmost_of_within hG.closed hwithin hbefore hafter h

end

/-- **Adding rules never takes an accepted input away.**  If a grammar compiles before and after
rules are added to it, an input that was parsed successfully before is so after, under the same
settings.  A language goes on accepting its programs after a further definition, if it compiles. -/
theorem succeeds_of_additions :
    (∀ {G G' H H' : Grammar} {top : Symbol}, G.Reachable →
      (Grammar.compile top).run.run G = (.ok (), G') →
      Relation.TransGen Grammar.Addition G H ∨ Relation.TransGen Grammar.Addition G' H →
      (Grammar.compile top).run.run H = (.ok (), H') →
      ∀ (listeners listeners' : Nat) (input : String) (found found' : Option (List Completion))
        (ctx ctx' : Context), ctx'.config = ctx.config →
        ((parse G'.flat listeners input found).run ctx).1.Succeeds →
        ((parse H'.flat listeners' input found').run ctx').1.Succeeds) ∧
    ∀ {l l₁ l₂ l₃ : Language} {name pattern : String} {r : RuleRef}, l.grammar.Reachable →
      Language.compile.run.run l = (.ok (), l₁) →
      (Language.edit (Grammar.defineType name pattern)).run.run l₁ = (.ok r, l₂) →
      Language.compile.run.run l₂ = (.ok (), l₃) →
      ∀ (input : String) (found found' : Option (List Completion)) (parsed : Parsed),
        ((Language.parse input found).run.run l₁).1 = .ok parsed → parsed.Succeeds →
        ∃ parsed', ((Language.parse input found').run.run l₂).1 = .ok parsed' ∧
          parsed'.Succeeds := by
  constructor
  · intro G G' H H' top hG hbefore hadded hafter listeners listeners' input found found' ctx ctx'
      hconfig h
    exact h.of_within hG (Grammar.within_of_additions hbefore hadded) hbefore hafter hconfig
  · intro l l₁ l₂ l₃ name pattern r hl hbefore hdefine hafter input found found' parsed hparsed h
    -- the grammars along the way
    obtain ⟨G', hG', rfl⟩ := Language.of_compile_eq_ok hbefore
    obtain ⟨H', hH', -⟩ := Language.of_compile_eq_ok hafter
    rw [Language.run_edit, Prod.mk.injEq] at hdefine
    obtain ⟨hdefine, hl₂⟩ := hdefine
    have hadded : Grammar.Addition G' l₂.grammar := .define (Prod.ext hdefine (hl₂ ▸ rfl))
    have hwithin := Grammar.within_of_additions hG' (.inr (.single hadded))
    have hconfig : l₂.config = l.config := hl₂ ▸ rfl
    -- the parses before and after
    rw [Language.run_parse_of_compiled (Grammar.compiled_of_compile hG')] at hparsed
    obtain rfl := Except.ok.inj hparsed
    refine ⟨l₂.parsedWith H'.flat input found', ?_, h.of_within hl hwithin hG' hH' hconfig⟩
    rw [Language.parse_of_not_compiled hadded.grown.compiled, Language.parsedFor, hH']
    rfl

/-! ### An instance -/

namespace Grammar

/-- Programs are the letter `a`. -/
def letterPrograms : Grammar :=
  ((insert .sequence (some "program") [(Symbol.literal "a").unnamed]).run {}).2

/-- The grammar after its compile. -/
def letterProgramsCompiled : Grammar := ((compile (.nonterminal "program")).run.run letterPrograms).2

/-- Programs are the letter `a` or `b`. -/
def twoLetters : Grammar :=
  ((insert .sequence (some "program") [(Symbol.literal "b").unnamed]).run letterProgramsCompiled).2

/-- The grammar after its compile. -/
def twoLettersCompiled : Grammar := ((compile (.nonterminal "program")).run.run twoLetters).2

theorem compile_letterPrograms :
    (compile (.nonterminal "program")).run.run letterPrograms = (.ok (), letterProgramsCompiled) :=
  rfl

theorem compile_twoLetters :
    (compile (.nonterminal "program")).run.run twoLetters = (.ok (), twoLettersCompiled) := rfl

theorem reachable_letterPrograms : letterPrograms.Reachable :=
  .single (.insert {} (by simp) _ _)

theorem leftmost_letterPrograms :
    ∃ steps, Leftmost letterProgramsCompiled.flat [.nonterminal SymbolTable.start] steps ∧
      Reads "a".toList 0 steps ∧ Paced 4096 steps := by
  refine ⟨[.expand ⟨"S'", [.nonterminal "program", .terminal .endOfInput], some 1,
      .positional [none, none], .keep⟩ 0,
    .expand ⟨"program", [.literal "a"], some 0, .positional [none], .keep⟩ 0,
    .accept (.literal "a") ⟨.successful, 0, "a"⟩, .accept .endOfInput ⟨.successful, 1, ""⟩],
    ?_, ?_, ?_⟩
  · refine .expand ?_ (.expand ?_ (.accept (.accept .nil)))
    all_goals decide +kernel
  · exact .expand (.expand (.accept rfl rfl (.accept rfl rfl .nil)))
  · rw [paced_iff]
    simp [PacedFrom]

theorem define_letterPrograms : ∃ r,
    (defineType "program" "b").run.run letterProgramsCompiled = (.ok r, twoLetters) := by
  have hread : Pattern.read "b" = .ok [.literal "b"] := by cbv
  rw [run_defineType, hread]
  exact ⟨_, rfl⟩

end Grammar

theorem succeeds_of_additions_letterPrograms :
    ((parse Grammar.twoLettersCompiled.flat 0 "a" none).run {}).1.Succeeds ∧
    ∃ r l₂ l₃ parsed parsed',
      (Language.edit (Grammar.defineType "program" "b")).run.run
        { grammar := Grammar.letterProgramsCompiled } = (.ok r, l₂) ∧
      Language.compile.run.run l₂ = (.ok (), l₃) ∧
      ((Language.parse "a" none).run.run { grammar := Grammar.letterProgramsCompiled }).1
        = .ok parsed ∧ parsed.Succeeds ∧
      ((Language.parse "a" none).run.run l₂).1 = .ok parsed' ∧ parsed'.Succeeds := by
  have hbefore : ∀ ctx : Context, ctx.config = {} →
      ((parse Grammar.letterProgramsCompiled.flat 0 "a" none).run ctx).1.Succeeds := by
    intro ctx hctx
    rw [succeeds_iff_leftmost (exists_terminal_of_compile Grammar.compile_letterPrograms), hctx]
    exact Grammar.leftmost_letterPrograms
  obtain ⟨hgrammar, hlanguage⟩ := succeeds_of_additions
  obtain ⟨r, hdefine⟩ := Grammar.define_letterPrograms
  have hedit : (Language.edit (Grammar.defineType "program" "b")).run.run
      { grammar := Grammar.letterProgramsCompiled }
        = (.ok r, { grammar := Grammar.twoLetters }) := by rw [Language.run_edit, hdefine]
  have hcompile : Language.compile.run.run { grammar := Grammar.letterPrograms }
      = (.ok (), { grammar := Grammar.letterProgramsCompiled }) := by
    rw [Language.run_compile]
    rfl
  have hcompile' : Language.compile.run.run { grammar := Grammar.twoLetters }
      = (.ok (), { grammar := Grammar.twoLettersCompiled }) := by
    rw [Language.run_compile]
    rfl
  have hparse := Language.run_parse_of_compiled
    (l := { grammar := Grammar.letterProgramsCompiled }) rfl "a" none
  have hparsed := congrArg Prod.fst hparse
  have hsuccess := hbefore { journal := {} } rfl
  obtain ⟨parsed', hparsed', hsuccess'⟩ := hlanguage Grammar.reachable_letterPrograms hcompile hedit
    hcompile' "a" none none _ hparsed hsuccess
  refine ⟨?_, r, _, _, _, parsed', hedit, hcompile', hparsed, hsuccess, hparsed', hsuccess'⟩
  exact hgrammar Grammar.reachable_letterPrograms Grammar.compile_letterPrograms
    (.inr (.single (.insert ..))) Grammar.compile_twoLetters 0 0 "a" none none {} {} rfl
    (hbefore {} rfl)

end Typeahead
