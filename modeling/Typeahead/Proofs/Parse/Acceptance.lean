import Typeahead.Parse
import Typeahead.Proofs.Derivation.Leftmost
import Typeahead.Proofs.Grammar.Compile
import Typeahead.Proofs.ParseTree.Outcome
import Typeahead.Proofs.Search.Frames

/-!
# Proofs/Parse/Acceptance — which inputs a parse accepts

The tree of a parse is that of the derivation its search returns, whatever completions are collected
on the way (`parse_tree`), and a parse fails just when the root of that tree does
(`parse_failure_eq_none`).  With what the search returns (`search_settles`) and the outcome at the
root of a tree this gives the outcome of a parse in terms of the ends of derivations.
-/

namespace Typeahead

/-! ## The tree of a parse -/

theorem run_build (g : FlatGrammar) (listeners : Option Nat) (d : Derivation) (ctx : Context) :
    ((d.build g listeners).run ctx).1 = d.tree := by
  cases listeners <;> rfl

theorem attempt_tree (iso : Isolate) (g : FlatGrammar) (listeners : Option Nat) (input : List Char)
    (found : Option (List Completion)) (ctx : Context) :
    ((attempt iso g listeners input found).run ctx).1.tree
      = (search g ctx.config input).derivation.tree.shape.1 := by
  cases found with
  | none =>
    change (((search g ctx.config input).derivation.build g listeners).run ctx).1.shape.1 = _
    rw [run_build]
  | some found =>
    change (((search g ctx.config input).derivation.build g listeners).run
      ((collect iso g listeners input (search g ctx.config input).cut found).run
        ctx).2).1.shape.1 = _
    rw [run_build]

variable {g : FlatGrammar} {listeners : Nat} {input : String} {found : Option (List Completion)}
  {ctx : Context}

/-- A parse is an attempt, with an explanation if it failed. -/
theorem run_parse : ((parse g listeners input found).run ctx).1 =
    let attempted := (attempt isolate g (some listeners) input.toList found).run ctx
    ⟨attempted.1.tree, attempted.1.completions,
      if attempted.1.hasFailed then
        some ((explain isolate g input.toList attempted.1).run attempted.2).1
      else none⟩ := by
  rw [parse, StateT.run_bind]
  rcases (attempt isolate g (some listeners) input.toList found).run ctx with ⟨a, ctx'⟩
  dsimp only [bind]
  split <;> rfl

theorem parse_tree : ((parse g listeners input found).run ctx).1.tree
    = (search g ctx.config input.toList).derivation.tree.shape.1 := by
  rw [run_parse]
  exact attempt_tree ..

/-- **A parse fails just when the root of its tree does.** -/
theorem parse_failure_eq_none : ((parse g listeners input found).run ctx).1.failure = none ↔
    ((parse g listeners input found).run ctx).1.tree.outcome ≠ .failed := by
  rw [run_parse]
  simp [Attempt.hasFailed]

/-! ## The outcome of a parse -/

/-- A complete end makes the search return one. -/
theorem outcome_of_exists_isComplete {cfg : Config} {cs : List Char}
    (hg : ∀ p ∈ g.alternatives SymbolTable.start, ∃ t, .terminal t ∈ p.right)
    (h : ∃ d ∈ (Branch.initial cs).ends g cfg, d.isComplete) :
    (search g cfg cs).derivation.tree.shape.1.outcome = .successful := by
  obtain ⟨d, hfind⟩ := Option.isSome_iff_exists.1 (List.find?_isSome.2 h)
  rw [(search_settles g cfg cs).1 d hfind]
  exact outcome_of_isComplete hg (List.mem_of_find?_eq_some hfind) (List.find?_some hfind)

/-- Without a complete end the outcome is that of the best end. -/
theorem outcome_of_not_exists_isComplete {cfg : Config} {cs : List Char}
    (h : ¬ ∃ d ∈ (Branch.initial cs).ends g cfg, d.isComplete) :
    ∃ d m, Derivation.IsBest cfg.tieBreak ((Branch.initial cs).ends g cfg) d ∧ d.stuck = some m ∧
      m.outcome.isStuck = true ∧
      (search g cfg cs).derivation.tree.shape.1.outcome = m.outcome := by
  have hfind : ((Branch.initial cs).ends g cfg).find? (·.isComplete) = none := by simpa using h
  obtain ⟨d, hbest, hsearch⟩ := (search_settles g cfg cs).2 hfind
  have hmem := hbest.mem
  have hc : ¬ d.isComplete := fun hc => h ⟨d, hmem, hc⟩
  obtain ⟨m, hm, hstuck⟩ := (Branch.ended_of_mem_ends hmem).stuck_of_not_isComplete hc
  exact ⟨d, m, hbest, hm, hstuck, by rw [hsearch, outcome_of_stuck hmem hm]⟩

theorem outcome_eq_successful_iff {cfg : Config} {cs : List Char}
    (hg : ∀ p ∈ g.alternatives SymbolTable.start, ∃ t, .terminal t ∈ p.right) :
    (search g cfg cs).derivation.tree.shape.1.outcome = .successful ↔
      ∃ d ∈ (Branch.initial cs).ends g cfg, d.isComplete := by
  refine ⟨fun hout => ?_, outcome_of_exists_isComplete hg⟩
  by_contra h
  obtain ⟨d, m, -, -, hstuck, hm⟩ := outcome_of_not_exists_isComplete h
  rw [← hm, hout] at hstuck
  cases hstuck

/-- Every production of a compiled start symbol has a terminal to match. -/
theorem exists_terminal_of_compile {G G' : Grammar} {top : Symbol}
    (h : (Grammar.compile top).run.run G = (.ok (), G')) :
    ∀ p ∈ G'.flat.alternatives SymbolTable.start, ∃ t, .terminal t ∈ p.right :=
  fun p hp => ⟨_, Grammar.endOfInput_mem_of_compile h p hp⟩

/-! ### An instance by left recursion -/

namespace Grammar

/-- One or more `a`s: `e` is `e` and an `a`, or an `a`. -/
def leftRecursive : Grammar :=
  ((do
    let e ← declare "e"
    discard <| insert .sequence (some "e") [e.unnamed, (Symbol.literal "a").unnamed]
    discard <| insert .sequence (some "e") [(Symbol.literal "a").unnamed] :
      StateM Grammar Unit).run {}).2

/-- The grammar after its compile. -/
def leftRecursiveCompiled : Grammar := ((compile (.nonterminal "e")).run.run leftRecursive).2

theorem compile_leftRecursive :
    (compile (.nonterminal "e")).run.run leftRecursive = (.ok (), leftRecursiveCompiled) := rfl

/-- A derivation of two `a`s. -/
def leftRecursiveSteps : List Step :=
  [.expand ⟨"S'", [.nonterminal "e", .terminal .endOfInput], some 2, .positional [none, none],
      .keep⟩ 0,
    .expand ⟨"e", [.nonterminal "e", .literal "a"], some 0, .positional [none, none], .keep⟩ 0,
    .expand ⟨"e", [.literal "a"], some 1, .positional [none], .keep⟩ 0,
    .accept (.literal "a") ⟨.successful, 0, "a"⟩, .accept (.literal "a") ⟨.successful, 1, "a"⟩,
    .accept .endOfInput ⟨.successful, 2, ""⟩]

theorem leftmost_leftRecursive :
    ∃ steps, Leftmost leftRecursiveCompiled.flat [.nonterminal SymbolTable.start] steps ∧
      Reads "aa".toList 0 steps ∧ Paced 4096 steps := by
  refine ⟨leftRecursiveSteps, ?_, ?_, ?_⟩
  · refine .expand ?_ (.expand ?_ (.expand ?_ (.accept (.accept (.accept .nil)))))
    all_goals decide +kernel
  · exact .expand (.expand (.expand (.accept rfl rfl (.accept rfl rfl (.accept rfl rfl .nil)))))
  · rw [paced_iff]
    simp [PacedFrom, leftRecursiveSteps]

end Grammar

/-- **A parse succeeds on just the inputs that have a leftmost derivation.** -/
theorem parse_successful_iff {G G' : Grammar} {top : Symbol}
    (h : (Grammar.compile top).run.run G = (.ok (), G')) (listeners : Nat) (input : String)
    (found : Option (List Completion)) (ctx : Context) :
    (((parse G'.flat listeners input found).run ctx).1.failure = none ∧
      ((parse G'.flat listeners input found).run ctx).1.tree.outcome = .successful) ↔
    ∃ steps, Leftmost G'.flat [.nonterminal SymbolTable.start] steps ∧
      Reads input.toList 0 steps ∧ Paced ctx.config.maxDepth steps := by
  rw [parse_failure_eq_none, parse_tree, ← exists_isComplete_iff_leftmost,
    ← outcome_eq_successful_iff (exists_terminal_of_compile h)]
  exact ⟨And.right, fun hout => ⟨by rw [hout]; nofun, hout⟩⟩

theorem parse_successful_iff_leftRecursive :
    (Grammar.compile (.nonterminal "e")).run.run Grammar.leftRecursive
      = (.ok (), Grammar.leftRecursiveCompiled) ∧
    ((parse Grammar.leftRecursiveCompiled.flat 0 "aa" none).run {}).1.failure = none ∧
    ((parse Grammar.leftRecursiveCompiled.flat 0 "aa" none).run {}).1.tree.outcome = .successful :=
  ⟨rfl, (parse_successful_iff Grammar.compile_leftRecursive 0 "aa" none {}).2
    Grammar.leftmost_leftRecursive⟩

end Typeahead
