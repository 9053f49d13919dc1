import Typeahead.Proofs.Parse.Collection
import Typeahead.Proofs.Parse.Settings
import Typeahead.Proofs.Search.Cutoff
import Typeahead.Proofs.Search.GivenUp

/-!
# Proofs/Parse/Located — which failures have a location

A failure is located if the input in front of the failed node can be attempted again without
failing (`isSome_location_iff`).  A terminal that failed was reached by a derivation that matched
all of this part, and at its end the same derivation does not fail (`Branch.exists_end_of_cutoff`);
one such derivation is enough.  So only a nonterminal is reported by its offset alone, and in a
compiled grammar a nonterminal fails for the depth limit only (`location_of_parse`).

As with everything that is read off a cut input, no rule may go on after the end of input.  One that
uses the start symbol does, and what is pending after it can fail in front of a terminal
(`location_eq_none`).
-/

namespace Typeahead

namespace Failure

/-- The offset alone is reported just if there is no location. -/
theorem message_eq_iff (f : Failure) :
    f.message = "Error at position " ++ toString f.offset ↔ f.location = none := by
  unfold message
  generalize "Error at position " ++ toString f.offset = start
  cases f.location with
  | none => exact iff_of_true String.append_empty rfl
  | some l =>
    refine iff_of_false (fun h => ?_) nofun
    have hmore := congrArg String.toList h
    rw [String.toList_append, List.append_right_eq_self] at hmore
    simp only [String.toList_append, List.append_eq_nil_iff, and_assoc] at hmore
    exact absurd hmore.1 (by decide)

end Failure

theorem Symbol.isTerminal_iff {s : Symbol} : s.isTerminal = true ↔ ∃ t, s = .terminal t := by
  cases s <;> simp [isTerminal]

theorem Text.slice_append (a b : List Char) : slice (a ++ b) 0 (byteLength a) = a := by
  rw [slice, byteLength_append, Nat.min_eq_left (Nat.le_add_right ..),
    Nat.min_eq_left (Nat.zero_le _), dropBytes?, Option.bind_some, Nat.sub_zero, takeBytes?_append]
  rfl

section

variable {iso : Isolate} {g : FlatGrammar} {ctx : Context}

/-- There are expectations after a text just if it can be attempted without failing. -/
theorem isSome_expectations_iff (before : List Char) :
    ((expectations iso g before).run ctx).1.isSome = true ↔
      (search g ctx.config before).derivation.tree.shape.1.outcome ≠ .failed := by
  rw [← attempt_tree iso g none before (some []) ctx, expectations, ParseM.run_bind]
  by_cases hfailed : ((attempt iso g none before (some [])).run ctx).1.hasFailed = true
  · rw [if_pos hfailed]
    exact iff_of_false Bool.false_ne_true (not_not.2 (of_decide_eq_true hfailed))
  · rw [if_neg hfailed]
    exact iff_of_true rfl fun hout => hfailed (decide_eq_true hout)

/-- **An explanation has a location** just if the input in front of the failed node can be attempted
without failing. -/
theorem isSome_location_iff (hiso : ∀ g part, KeepsConfig (iso g part)) {input : List Char}
    {a : Attempt} {n : Node} (hlast : a.failedPath.getLast? = some n) :
    ((explain iso g input a).run ctx).1.location.isSome = true ↔
      (search g ctx.config (Text.slice input 0 n.label.result.pos)).derivation.tree.shape.1.outcome
        ≠ .failed := by
  have hconfig : ((a.ancestor iso g).run ctx).2.config = ctx.config :=
    (keepsConfig_ancestor hiso a).run_config ctx
  have hlocation : ((explain iso g input a).run ctx).1.location =
      ((expectations iso g (Text.slice input 0 n.label.result.pos)).run
        ((a.ancestor iso g).run ctx).2).1.map
          (Location.ofOffset input (Failure.lastOffset n.label.result)) := by
    simp only [explain, hlast]
    rfl
  rw [hlocation, Option.isSome_map, isSome_expectations_iff, hconfig]

end

/-! ## Failures of a parse -/

/-- A failure of a parse has a location just if the input in front of the failed node can be
attempted without failing. -/
theorem located_of_parse {g : FlatGrammar} {listeners : Nat} {input : String}
    {found : Option (List Completion)} {ctx : Context} {f : Failure}
    (h : ((parse g listeners input found).run ctx).1.failure = some f) :
    ∃ l, f.failed = some l ∧
      (search g ctx.config input.toList).derivation.StuckOn l.symbol l.result ∧
      (f.location.isSome = true ↔
        (search g ctx.config (Text.slice input.toList 0 l.result.pos)).derivation.tree.shape.1.outcome
          ≠ .failed) := by
  obtain ⟨rfl, n, hlast, hstuck⟩ := explain_of_parse h
  have hiso : ∀ g part, KeepsConfig (isolate g part) :=
    fun g part => keepsConfig_isolateWithin (isolationDepth g) g part
  have hconfig : ((attempt isolate g (some listeners) input.toList found).run ctx).2.config
      = ctx.config := (keepsConfig_attempt hiso ..).run_config ctx
  refine ⟨n.label, (run_explain hlast _).1, hstuck, ?_⟩
  rw [isSome_location_iff hiso hlast, hconfig]

section

variable {G G' : Grammar} {top : Symbol} {listeners : Nat} {input : String}
  {found : Option (List Completion)} {ctx : Context} {f : Failure}

/-- **In front of a terminal that failed** the input does not fail. -/
theorem exists_before_of_failed (hcompile : (Grammar.compile top).run.run G = (.ok (), G'))
    (hrules : ∀ r ∈ G.rules, r.target ≠ SymbolTable.start → ∀ s ∈ r.symbols, ¬ s.Closes)
    (h : ((parse G'.flat listeners input found).run ctx).1.failure = some f) {t : Terminal}
    {m : Match}
    (hstuck : (search G'.flat ctx.config input.toList).derivation.StuckOn (.terminal t) m) :
    ∃ before after, input = before ++ after ∧ before.utf8ByteSize = m.pos ∧
      before.toList = Text.slice input.toList 0 m.pos ∧
      ((parse G'.flat 0 before (some [])).run ctx).1.failure = none := by
  have hmem := (search_mem_ends G'.flat ctx.config input.toList).1
  have hout : m.outcome = .failed :=
    (outcome_of_stuck hmem hstuck.2).symm.trans (outcome_of_failure h)
  obtain ⟨before, ⟨after, hinput⟩, hpos, e, he, hend⟩ :=
    Branch.exists_end_of_cutoff (Grammar.closing_of_compile hcompile hrules) (closing_initial _)
      hmem hstuck hout
  have hpos : m.pos = Text.byteLength before := hpos.trans (Nat.zero_add _)
  refine ⟨String.ofList before, String.ofList after, eq_ofList_append hinput, ?_, ?_, ?_⟩
  · rw [Text.utf8ByteSize_ofList, hpos]
  · rw [String.toList_ofList, hpos, ← show before ++ after = input.toList from hinput,
      Text.slice_append]
  · rw [parse_failure_eq_none_iff (exists_terminal_of_compile hcompile), String.toList_ofList]
    exact ⟨e, he, hend⟩

/-- **Where a failure is reported.**  If the failed node is a terminal, the part of the input in
front of it does not fail, and the failure has a location.  So the offset alone is reported for a
nonterminal only, one that has productions but was given up at the depth limit. -/
theorem location_of_parse (hcompile : (Grammar.compile top).run.run G = (.ok (), G'))
    (hrules : ∀ r ∈ G.rules, r.target ≠ SymbolTable.start → ∀ s ∈ r.symbols, ¬ s.Closes)
    (h : ((parse G'.flat listeners input found).run ctx).1.failure = some f) :
    ∃ l, f.failed = some l ∧
      (l.symbol.isTerminal = true → f.location.isSome = true ∧
        ∃ before after, input = before ++ after ∧ before.utf8ByteSize = l.result.pos ∧
          ((parse G'.flat 0 before (some [])).run ctx).1.failure = none) ∧
      (f.message = "Error at position " ++ toString f.offset →
        ∃ x, l.symbol = .nonterminal x ∧ G'.flat.alternatives x ≠ [] ∧
          (search G'.flat ctx.config input.toList).derivation.Exhausted ctx.config.maxDepth) := by
  have hmem := (search_mem_ends G'.flat ctx.config input.toList).1
  obtain ⟨l, hlabel, hstuck, hlocated⟩ := located_of_parse h
  have hterminal : l.symbol.isTerminal = true → f.location.isSome = true ∧
      ∃ before after, input = before ++ after ∧ before.utf8ByteSize = l.result.pos ∧
        ((parse G'.flat 0 before (some [])).run ctx).1.failure = none := by
    intro hsymbol
    obtain ⟨t, ht⟩ := Symbol.isTerminal_iff.1 hsymbol
    obtain ⟨before, after, hinput, hpos, hslice, hbefore⟩ :=
      exists_before_of_failed hcompile hrules h (ht ▸ hstuck)
    refine ⟨hlocated.2 ?_, before, after, hinput, hpos, hbefore⟩
    rwa [parse_failure_eq_none, parse_tree, hslice] at hbefore
  refine ⟨l, hlabel, hterminal, fun hmessage => ?_⟩
  rw [Failure.message_eq_iff] at hmessage
  cases hsymbol : l.symbol with
  | terminal t =>
    have hlocation := (hterminal (hsymbol ▸ rfl)).1
    rw [hmessage] at hlocation
    cases hlocation
  | nonterminal x =>
    exact ⟨x, rfl, Branch.exhausted_of_mem_ends (Grammar.defines_of_compile hcompile)
      (Grammar.defines_start_of_compile hcompile) (Branch.idles_initial _) hmem (hsymbol ▸ hstuck)⟩

end

/-- On `ax` the failed node is the letter `b`, and nothing is in front of it. -/
theorem location_of_parse_eitherLetter :
    ∃ f, ((parse Grammar.eitherLetterCompiled.flat 0 "ax" none).run {}).1.failure = some f ∧
      ∃ l, f.failed = some l ∧ l.symbol.isTerminal = true ∧ f.location.isSome = true ∧
        ∃ before after, "ax" = before ++ after ∧ before.utf8ByteSize = l.result.pos ∧
          ((parse Grammar.eitherLetterCompiled.flat 0 before (some [])).run {}).1.failure = none := by
  have hletter : ((parse Grammar.eitherLetterCompiled.flat 0 "ax" none).run {}).1.failure.map
      (·.failed.map (·.symbol)) = some (some (.literal "b")) := by cbv
  obtain ⟨f, hf, hsymbol⟩ := Option.map_eq_some_iff.1 hletter
  obtain ⟨l, hl, hterminal, -⟩ :=
    location_of_parse Grammar.compile_eitherLetter Grammar.open_eitherLetter hf
  obtain hb : l.symbol = .literal "b" := by
    rw [hl] at hsymbol
    exact Option.some.inj hsymbol
  have hisTerminal : l.symbol.isTerminal = true := hb ▸ rfl
  exact ⟨f, hf, l, hl, hisTerminal, hterminal hisTerminal⟩

/-! ### A failure without a location -/

namespace Grammar

/-- The letter `y`, or such a letter after `z` with an endless `x` to follow. -/
def endlessTail : Grammar :=
  ((do
    discard <| insert .sequence (some "a") [(Symbol.literal "z").unnamed,
      (Symbol.nonterminal SymbolTable.start).unnamed, (Symbol.nonterminal "x").unnamed]
    discard <| insert .sequence (some "a") [(Symbol.literal "y").unnamed]
    discard <| insert .sequence (some "x")
      [(Symbol.nonterminal "x").unnamed, (Symbol.literal "b").unnamed] :
      StateM Grammar Unit).run {}).2

/-- The grammar after its compile. -/
def endlessTailCompiled : Grammar := ((compile (.nonterminal "a")).run.run endlessTail).2

theorem compile_endlessTail :
    (compile (.nonterminal "a")).run.run endlessTail = (.ok (), endlessTailCompiled) := rfl

/-- The settings under which eight expansions may be made in a row. -/
def eightInARow : Context := { config := { maxDepth := 8 } }

/-- `zyq` fails at `q`, where the end of input was to come. -/
theorem failed_endlessTail :
    ((parse endlessTailCompiled.flat 0 "zyq" none).run eightInARow).1.failure.map
      (·.failed.map fun l => (l.symbol, l.result.pos)) = some (some (.terminal .endOfInput, 2)) := by
  cbv

/-- What is in front of `q` fails as well, at the endless `x`. -/
theorem outcome_endlessTail :
    (search endlessTailCompiled.flat eightInARow.config
      (Text.slice "zyq".toList 0 2)).derivation.tree.shape.1.outcome = .failed := by
  cbv

end Grammar

/-- **A terminal that failed may be reported without a location**, if a rule goes on after the start
symbol: on `zyq` the end of input fails, and `zy` fails by itself. -/
theorem location_eq_none :
    (Grammar.compile (.nonterminal "a")).run.run Grammar.endlessTail
      = (.ok (), Grammar.endlessTailCompiled) ∧
    (∀ r ∈ Grammar.endlessTail.rules, .terminal .endOfInput ∉ r.symbols) ∧
    ∃ f, ((parse Grammar.endlessTailCompiled.flat 0 "zyq" none).run
        Grammar.eightInARow).1.failure = some f ∧
      f.failed.map (·.symbol) = some (.terminal .endOfInput) ∧ f.location = none ∧
      f.message = "Error at position " ++ toString f.offset := by
  obtain ⟨f, hf, hfailed⟩ := Option.map_eq_some_iff.1 Grammar.failed_endlessTail
  obtain ⟨l, hl, -, hlocated⟩ := located_of_parse hf
  rw [hl] at hfailed
  obtain ⟨hsymbol, hpos⟩ := Prod.mk.inj (Option.some.inj hfailed)
  rw [hpos, Grammar.outcome_endlessTail] at hlocated
  have hnone : f.location = none := by simpa using hlocated
  refine ⟨Grammar.compile_endlessTail, by decide +kernel, f, hf, ?_, hnone,
    f.message_eq_iff.2 hnone⟩
  rw [hl, Option.map_some, hsymbol]

end Typeahead
