import Typeahead.Proofs.Grammar.Complete
import Typeahead.Proofs.Grammar.Meaning
import Typeahead.Proofs.Grammar.UpToDate
import Typeahead.Proofs.Parse.Root

/-!
# Proofs/Language/Programs — what the next parse of a language parses

A language compiles for programs before a parse, unless its grammar is marked as compiled.  Then the
productions are those of a compile of the present rules (`Grammar.UpToDate`), for programs if nothing
else was compiled after the last change of a rule, and else for the top symbol of that compile.  So a
parse works with the present rules, but not always for programs (`parse_worksWith`); the tree has the
top symbol below its root.
-/

namespace Typeahead.Language

open ParseTree (symbols)

/-- **One operation on a language.**  Its grammar may be changed in any way, compiles for other top
symbols included. -/
inductive Change : Language → Language → Prop
  | define (l : Language) (name pattern : String) :
    Change l ((edit (Grammar.defineType name pattern)).run.run l).2
  | grammar (l : Language) {G : Grammar} (h : l.grammar.Change G) : Change l { l with grammar := G }
  | compile (l : Language) : Change l (compile.run.run l).2
  | parse (l : Language) (input : String) (found : Option (List Completion)) :
    Change l ((parse input found).run.run l).2
  | configure (l : Language) (config : Config) : Change l { l with config := config }
  | listen (l : Language) : Change l { l with startListeners := l.startListeners + 1 }

variable {l l' : Language} {config : Config}

/-! ## Runs -/

theorem run_bind {α β : Type} (l : Language) (m : LanguageM α) (f : α → LanguageM β) :
    (m >>= f).run.run l = match m.run.run l with
      | (.ok a, l') => (f a).run.run l'
      | (.error e, l') => (.error e, l') := by
  simp only [ExceptT.run, StateT.run, bind, ExceptT.bind, ExceptT.mk, StateT.bind]
  rcases m l with ⟨_ | _, l'⟩ <;> rfl

/-- What a parse of an input with some productions returns. -/
def parsedWith (l : Language) (flat : FlatGrammar) (input : String)
    (found : Option (List Completion)) : Parsed :=
  ((parseFlat flat l.startListeners input found).run l).1

theorem run_compile (l : Language) : compile.run.run l =
    (((Grammar.compile (.nonterminal program)).run.run l.grammar).1,
      { l with grammar := ((Grammar.compile (.nonterminal program)).run.run l.grammar).2 }) :=
  run_edit ..

theorem run_get (l : Language) : (get : LanguageM Language).run.run l = (.ok l, l) := rfl

theorem run_lift {α : Type} (l : Language) (m : StateM Language α) :
    (liftM m : LanguageM α).run.run l = (.ok (m.run l).1, (m.run l).2) := rfl

theorem run_parse_of_compiled (h : l.grammar.compiled = true) (input : String)
    (found : Option (List Completion)) : (parse input found).run.run l =
    (.ok (l.parsedWith l.grammar.flat input found),
      ((parseFlat l.grammar.flat l.startListeners input found).run l).2) := by
  rw [parse, run_bind, run_get]
  dsimp only
  rw [if_pos h, run_bind, run_get]
  exact run_lift ..

/-- **A parse compiles first** if the grammar is not marked. -/
theorem run_parse_of_not_compiled (h : l.grammar.compiled = false) (input : String)
    (found : Option (List Completion)) :
    (parse input found).run.run l = match compile.run.run l with
      | (.ok (), l') => (.ok (l'.parsedWith l'.grammar.flat input found),
          ((parseFlat l'.grammar.flat l'.startListeners input found).run l').2)
      | (.error e, l') => (.error e, l') := by
  rw [parse, run_bind, run_get]
  dsimp only
  rw [if_neg (by rw [h]; decide), run_bind]
  rcases compile.run.run l with ⟨e | _, l'⟩
  · rfl
  · dsimp only
    rw [run_bind, run_get]
    exact run_lift ..

/-! ## The next parse -/

/-- What comes of compiling a grammar for a top symbol and parsing an input with it. -/
def parsedFor (l : Language) (top : Symbol) (G : Grammar) (input : String)
    (found : Option (List Completion)) : Except GrammarError Parsed :=
  ((Grammar.compile top).run.run G).1.map fun _ =>
    l.parsedWith ((Grammar.compile top).run.run G).2.flat input found

theorem parsedFor_eq_map (l : Language) (top : Symbol) (G : Grammar) (input : String)
    (found : Option (List Completion)) : l.parsedFor top G input found
      = (G.withStart top).lowerAll.map fun flat => l.parsedWith flat input found := by
  rw [parsedFor, Grammar.compile_eq]
  cases (G.withStart top).lowerAll <;> rfl

/-- **What the next parse of a language works with**: a compile for `top` of the present rules,
under the names that `B` knows. -/
structure WorksWith (l : Language) (top : Symbol) (B : Grammar) : Prop where
  rules : B.ownRules = l.grammar.ownRules
  unmarked : l.grammar.compiled = false → top = .nonterminal program ∧ B = l.grammar
  marked : l.grammar.compiled = true → l.grammar.rules = (B.withStart top).rules ∧
    ∀ x, (B.withStart top).symbols.knows x = true → l.grammar.symbols.knows x = true

theorem upToDate_of_change (h : l.grammar.UpToDate) (hchange : Change l l') :
    l'.grammar.UpToDate := by
  cases hchange with
  | define name pattern => exact h.defineType name pattern
  | grammar hchange => exact h.change hchange
  | compile => exact Grammar.upToDate_compile l.grammar (.nonterminal program)
  | configure | listen => exact h
  | parse input found =>
    by_cases hcompiled : l.grammar.compiled = true
    · rw [run_parse_of_compiled hcompiled]
      exact h
    · rw [run_parse_of_not_compiled (by simpa using hcompiled), run_compile]
      have hlater := Grammar.upToDate_compile l.grammar (.nonterminal program)
      rcases hrun : (Grammar.compile (.nonterminal program)).run.run l.grammar with ⟨e | _, G⟩ <;>
        rw [hrun] at hlater <;> exact hlater

theorem compiled_initial (config : Config) : (initial config).grammar.compiled = false := by
  -- the last thing that is registered is the rule for programs
  have hjoin : ∀ (entry : Named) (j : Join) (G : Grammar), ((discard
      (Grammar.join (some program) entry j) : StateM Grammar Unit).run G).2.compiled = false :=
    fun entry j G => ((Grammar.appends_join (some program) entry j).grown G).compiled
  rw [initial, prepare]
  simp only [StateT.run_bind]
  exact hjoin _ _ _

/-- **After any operations** a language that is marked as compiled has the productions of a compile
of its rules. -/
theorem upToDate_of_changes (h : Relation.ReflTransGen Change (initial config) l) :
    l.grammar.UpToDate := by
  induction h with
  | refl => exact .of_not_compiled (compiled_initial config)
  | tail _ hchange ih => exact upToDate_of_change ih hchange

theorem parse_of_not_compiled (h : l.grammar.compiled = false) (input : String)
    (found : Option (List Completion)) :
    ((parse input found).run.run l).1
      = l.parsedFor (.nonterminal program) l.grammar input found := by
  rw [run_parse_of_not_compiled h, run_compile, parsedFor]
  rcases (Grammar.compile (.nonterminal program)).run.run l.grammar with ⟨e | _, G⟩ <;> rfl

theorem parse_of_compiledFrom {top : Symbol} {B B' : Grammar} (h : l.grammar.compiled = true)
    (hfrom : l.grammar.CompiledFrom top B B') (input : String)
    (found : Option (List Completion)) :
    ((parse input found).run.run l).1 = l.parsedFor top B input found := by
  rw [run_parse_of_compiled h, parsedFor, hfrom.run, hfrom.flat]
  rfl

theorem worksWith_of_compiledFrom {top : Symbol} {B B' : Grammar} (h : l.grammar.compiled = true)
    (hfrom : l.grammar.CompiledFrom top B B') : l.WorksWith top B := by
  obtain ⟨-, hrules, hsymbols⟩ := Grammar.compile_ok hfrom.run
  refine ⟨?_, fun hnot => ?_, fun _ => ⟨?_, fun x hx => ?_⟩⟩
  · rw [← Grammar.ownRules_compile B top, hfrom.run, Grammar.ownRules, Grammar.ownRules, hfrom.rules]
  · rw [h] at hnot
    cases hnot
  · rw [hfrom.rules, hrules]
  · exact hfrom.knows x (hsymbols ▸ hx)

/-- Compiling the present rules again has the same result if no names became known. -/
theorem parsedFor_eq {x : String} {B : Grammar} (hrules : B.ownRules = l.grammar.ownRules)
    (hsymbols : l.grammar.symbols = (B.withStart (.nonterminal x)).symbols) (input : String)
    (found : Option (List Completion)) :
    l.parsedFor (.nonterminal x) l.grammar input found
      = l.parsedFor (.nonterminal x) B input found := by
  rw [parsedFor_eq_map, parsedFor_eq_map, Grammar.lowerAll_withStart_congr hrules.symm
    ((Grammar.symbols_withStart_of_symbols_eq hsymbols).trans hsymbols)]

section

variable {input : String} {found : Option (List Completion)}

theorem tree_parsedWith (l : Language) (flat : FlatGrammar) (input : String)
    (found : Option (List Completion)) : (l.parsedWith flat input found).tree
      = (search flat l.config input.toList).derivation.tree.shape.1 := parse_tree

theorem failure_parsedWith {flat : FlatGrammar} :
    (l.parsedWith flat input found).failure = none ↔
      (search flat l.config input.toList).derivation.tree.shape.1.outcome ≠ .failed := by
  rw [← tree_parsedWith l flat input found]
  exact parse_failure_eq_none

/-- A parse that did not fail returns a tree with the top symbol below its root. -/
theorem children_parsedWith {top : Symbol} {G G' : Grammar}
    (h : (Grammar.compile top).run.run G = (.ok (), G'))
    (hfailure : (l.parsedWith G'.flat input found).failure = none) :
    symbols (l.parsedWith G'.flat input found).tree.children
      = (Sides.bare ⟨SymbolTable.start, [top, .terminal .endOfInput]⟩).right := by
  rw [tree_parsedWith]
  exact symbols_children_of_compile h (search_mem_ends ..).1 (failure_parsedWith.1 hfailure)

theorem child_of_parsedFor {top : Symbol} {G : Grammar} {parsed : Parsed}
    (htop : top ≠ .terminal .epsilon) (h : l.parsedFor top G input found = .ok parsed)
    (hfailure : parsed.failure = none) :
    parsed.tree.children.head?.map (·.label.symbol) = some top := by
  rw [parsedFor] at h
  rcases hrun : (Grammar.compile top).run.run G with ⟨e | _, G'⟩ <;> rw [hrun] at h
  · cases h
  · obtain rfl : l.parsedWith G'.flat input found = parsed := Except.ok.inj h
    rw [← List.head?_map]
    exact (congrArg List.head? (children_parsedWith hrun hfailure)).trans
      (by simp [Sides.bare, htop])

end

/-- **What the next parse of a language returns**, whatever was done to it: what comes of compiling
its present rules for some top symbol, under names known by then, and parsing.  The top symbol is
that for programs if no compile is good any more, and else the one of the last compile.  A tree that
is returned has it below its root.  If it is that for programs, and no names became known since,
compiling again would change nothing. -/
theorem parse_worksWith (h : Relation.ReflTransGen Change (initial config) l) (input : String)
    (found : Option (List Completion)) : ∃ top B, l.WorksWith top B ∧
      ((parse input found).run.run l).1 = l.parsedFor top B input found ∧
      (∀ parsed, ((parse input found).run.run l).1 = .ok parsed → parsed.failure = none →
        top ≠ .terminal .epsilon →
        parsed.tree.children.head?.map (·.label.symbol) = some top) ∧
      (top = .nonterminal program →
        (l.grammar.compiled = true → l.grammar.symbols = (B.withStart top).symbols) →
        ((parse input found).run.run l).1
          = l.parsedFor (.nonterminal program) l.grammar input found) := by
  by_cases hcompiled : l.grammar.compiled = true
  · obtain ⟨top, B, B', hfrom⟩ := upToDate_of_changes h hcompiled
    have hworks := worksWith_of_compiledFrom hcompiled hfrom
    have hparse := parse_of_compiledFrom hcompiled hfrom input found
    refine ⟨top, B, hworks, hparse, fun parsed hparsed hfailure htop => ?_, ?_⟩
    · exact child_of_parsedFor htop (hparse.symm.trans hparsed) hfailure
    · rintro rfl hsymbols
      exact hparse.trans (parsedFor_eq hworks.rules (hsymbols hcompiled) input found).symm
  · rw [Bool.not_eq_true] at hcompiled
    have hparse := parse_of_not_compiled hcompiled input found
    refine ⟨.nonterminal program, l.grammar, ⟨rfl, fun _ => ⟨rfl, rfl⟩, fun hnot => ?_⟩, hparse,
      fun parsed hparsed hfailure htop => ?_, fun _ _ => hparse⟩
    · rw [hcompiled] at hnot
      cases hnot
    · exact child_of_parsedFor htop (hparse.symm.trans hparsed) hfailure

/-! ## A language compiled for something else -/

/-- A language whose sentences are full stops. -/
def fullStops : Language := ((edit (Grammar.defineType sentence ".")).run.run (initial {})).2

/-- The language after its grammar was compiled for digits. -/
def fullStopsDigits : Language :=
  { fullStops with
    grammar := ((Grammar.compile (.nonterminal "digit")).run.run fullStops.grammar).2 }

theorem changes_fullStopsDigits : Relation.ReflTransGen Change (initial {}) fullStopsDigits :=
  (Relation.ReflTransGen.single (.define _ sentence ".")).tail (.grammar _ (.compile ..))

theorem parse_worksWith_fullStopsDigits :
    Relation.ReflTransGen Change (initial {}) fullStopsDigits ∧
    ∃ top B, fullStopsDigits.WorksWith top B ∧
      ((parse "1" none).run.run fullStopsDigits).1 = fullStopsDigits.parsedFor top B "1" none := by
  obtain ⟨top, B, hworks, hparse, -⟩ := parse_worksWith changes_fullStopsDigits "1" none
  exact ⟨changes_fullStopsDigits, top, B, hworks, hparse⟩

theorem grammar_fullStops : fullStops.grammar =
    ((Grammar.sequence (some sentence) [(Symbol.literal ".").unnamed]).run
      (initial {}).grammar).2 := by
  have hread : Pattern.read "." = .ok [.literal "."] := by cbv
  rw [fullStops, run_edit, Grammar.run_defineType, hread]
  rfl

theorem mem_rules_fullStops : ∃ r ∈ fullStops.grammar.rules.toList,
    r.kind = .sequence ∧ r.target = "digit" ∧ r.children = [.terminal .digit] := by
  have hany : ((((Grammar.sequence (some sentence) [(Symbol.literal ".").unnamed]).run
      (initial {}).grammar).2).rules.toList.any fun r =>
        r.kind = .sequence ∧ r.target = "digit" ∧ r.children = [.terminal .digit]) = true := by
    decide +kernel
  rw [← grammar_fullStops] at hany
  obtain ⟨r, hr, hdigit⟩ := List.any_eq_true.1 hany
  exact ⟨r, hr, of_decide_eq_true hdigit⟩

theorem complete_fullStops : fullStops.grammar.Complete := by
  rw [grammar_fullStops]
  exact .of_rules (by decide +kernel) (by decide +kernel)

theorem compile_fullStops : ∃ G,
    (Grammar.compile (.nonterminal "digit")).run.run fullStops.grammar = (.ok (), G) := by
  obtain ⟨r, hr, -, htarget, -⟩ := mem_rules_fullStops
  exact complete_fullStops.exists_compile ⟨r, Array.mem_toList_iff.1 hr, htarget⟩

theorem leftmost_fullStops {G : Grammar}
    (h : (Grammar.compile (.nonterminal "digit")).run.run fullStops.grammar = (.ok (), G)) :
    ∃ steps, Leftmost G.flat [.nonterminal SymbolTable.start] steps ∧
      Reads "1".toList 0 steps ∧ Paced 4096 steps := by
  obtain ⟨hfold, -⟩ := Grammar.lowerAll_ok (Grammar.compile_ok h).1
  have hrules := (FlatGrammar.sides_of_lower hfold).2
  obtain ⟨r, hr, hkind, htarget, hchildren⟩ := mem_rules_fullStops
  have hdigit : ⟨"digit", [.terminal .digit]⟩ ∈ G.flat.sides := by
    obtain ⟨a, ha⟩ := hrules r (Array.mem_toList_iff.2 (Grammar.mem_rules_withStart.2
      (.inl ⟨Array.mem_toList_iff.1 hr, by rw [htarget]; decide⟩)))
    exact ha ⟨"digit", [.terminal .digit]⟩ (by simp [Rule.sides, hkind, htarget, hchildren])
  have hstart : ⟨SymbolTable.start, [.nonterminal "digit", .terminal .endOfInput]⟩
      ∈ G.flat.sides := by
    obtain ⟨a, ha⟩ := hrules (Grammar.startRule (.nonterminal "digit")) (Array.mem_toList_iff.2
      (Grammar.mem_rules_withStart.2 (.inr rfl)))
    exact ha ⟨SymbolTable.start, [.nonterminal "digit", .terminal .endOfInput]⟩
      (List.mem_singleton_self _)
  obtain ⟨p, hp, hpleft, hpright⟩ := FlatGrammar.mem_sides.1 hstart
  obtain ⟨q, hq, hqleft, hqright⟩ := FlatGrammar.mem_sides.1 hdigit
  refine ⟨[.expand p 0, .expand q 0, .accept .digit ⟨.successful, 0, "1"⟩,
    .accept .endOfInput ⟨.successful, 1, ""⟩], ?_, ?_, ?_⟩
  · refine .expand (List.mem_filter.2 ⟨hp, decide_eq_true hpleft⟩) ?_
    rw [hpright]
    refine .expand (List.mem_filter.2 ⟨hq, decide_eq_true hqleft⟩) ?_
    rw [hqright]
    exact .accept (.accept .nil)
  · exact .expand (.expand (.accept rfl rfl (.accept rfl rfl .nil)))
  · rw [paced_iff]
    simp [PacedFrom]

/-- **Not every parse parses a program.**  After a compile for digits a digit is parsed, and stands
below the root. -/
theorem parse_not_program : ∃ l parsed, Relation.ReflTransGen Change (initial {}) l ∧
    ((parse "1" none).run.run l).1 = .ok parsed ∧ parsed.failure = none ∧
    parsed.tree.children.head?.map (·.label.symbol) = some (.nonterminal "digit") ∧
    parsed.tree.children.head?.map (·.label.symbol) ≠ some (.nonterminal program) := by
  obtain ⟨G, hcompile⟩ := compile_fullStops
  have hmarked : fullStopsDigits.grammar.CompiledFrom (.nonterminal "digit") fullStops.grammar G := by
    rw [fullStopsDigits, hcompile]
    exact ⟨hcompile, rfl, rfl, fun _ => id⟩
  have hcompiled : fullStopsDigits.grammar.compiled = true := by
    rw [fullStopsDigits, hcompile]
    exact Grammar.compiled_of_compile hcompile
  have hparse := parse_of_compiledFrom hcompiled hmarked "1" none
  have hok : fullStopsDigits.parsedFor (.nonterminal "digit") fullStops.grammar "1" none
      = .ok (fullStopsDigits.parsedWith G.flat "1" none) := by
    rw [parsedFor, hcompile]
    rfl
  have hsuccess : (fullStopsDigits.parsedWith G.flat "1" none).failure = none := by
    rw [failure_parsedWith,
      (outcome_eq_successful_iff (exists_terminal_of_compile hcompile)).2]
    · nofun
    · exact exists_isComplete_iff_leftmost.2 (leftmost_fullStops hcompile)
  have hchild := child_of_parsedFor (by nofun) hok hsuccess
  refine ⟨_, _, changes_fullStopsDigits, hparse.trans hok, hsuccess, hchild, ?_⟩
  rw [hchild]
  decide

end Typeahead.Language
