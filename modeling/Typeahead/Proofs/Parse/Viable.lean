import Typeahead.Proofs.Parse.Acceptance
import Typeahead.Proofs.ParseTree.Parts
import Typeahead.Proofs.Symbol.Scan

/-!
# Proofs/Parse/Viable — the beginning of an accepted input is no error

Cut off, the text of a complete derivation either still lasts to its end or runs out on the way
(`exists_end_of_append`): up to the cut the terminals match as before.  A derivation that ran out of
input ranks above all that failed, so what the search returns for the shorter text has not failed.
-/

namespace Typeahead

/-- **A derivation that awaits `v`**: it ran out of `w` on a terminal that goes on with `v`. -/
def Derivation.Awaits (d : Derivation) (pos : Nat) (w v : List Char) : Prop :=
  ∃ t before rest seen, w = before ++ rest ∧ t.scan rest rest.isEmpty = (.endOfInput, seen) ∧
    t.Spans rest v ∧
    d.StuckOn (.terminal t) ⟨.endOfInput, pos + Text.byteLength before, String.ofList seen⟩

theorem Derivation.Awaits.ranOut {d : Derivation} {pos : Nat} {w v : List Char}
    (h : d.Awaits pos w v) : d.ranOut := by
  obtain ⟨t, before, rest, seen, -, -, -, -, hstuck⟩ := h
  rw [Derivation.ranOut, hstuck]
  rfl

namespace Branch

/-- **A complete derivation of a text that is cut** is complete or awaits what was cut off. -/
theorem exists_awaits_of_append {g : FlatGrammar} {cfg : Config} {b : Branch} {d : Derivation}
    {w v : List Char} (hd : d ∈ b.ends g cfg) (hc : d.isComplete) (hb : b.rest = w ++ v) :
    ∃ e ∈ ({ b with rest := w } : Branch).ends g cfg, e.isComplete ∨ e.Awaits b.pos w v := by
  fun_induction ends g cfg b generalizing w with
  | case1 b hp =>
    rw [ends_nil (b := { b with rest := w }) hp]
    exact ⟨_, List.mem_singleton_self _, .inl (by simp [Derivation.isComplete, leave, hp])⟩
  | case2 b t pending hp seen hm ih =>
    rw [hb] at hm
    rcases Terminal.scan_append hm with hw | hw
    · obtain ⟨more, rfl⟩ := Terminal.scan_successful hw
      have hrest : (b.accept t seen).rest = more ++ v := by
        rw [accept, hb, List.append_assoc, List.drop_left]
      obtain ⟨e, he, hend⟩ := ih hd hrest
      rw [ends_accept (b := { b with rest := seen ++ more }) hp hw]
      refine ⟨e, ?_, hend.imp_right ?_⟩
      · simpa only [accept, List.drop_left] using he
      · rintro ⟨t', before, rest, seen', rfl, hscan, hspans, hstuck⟩
        refine ⟨t', seen ++ before, rest, seen', by rw [List.append_assoc], hscan, hspans, ?_⟩
        simpa only [accept, Text.byteLength_append, Nat.add_assoc] using hstuck
    · rcases hscan : t.scan w w.isEmpty with ⟨outcome, seen'⟩
      obtain rfl : outcome = .endOfInput := by rwa [hscan] at hw
      rw [ends_stuck (b := { b with rest := w }) hp hscan (by simp)]
      refine ⟨_, List.mem_singleton_self _, .inr ⟨t, [], w, seen', rfl, hscan, ?_, ?_, rfl⟩⟩
      · exact Terminal.spans_of_scan hm hw
      · rw [stick, hp]
        rfl
  | case3 b t pending hp outcome seen hne hm =>
    obtain rfl := List.mem_singleton.1 hd
    simp [Derivation.isComplete, stick, hp] at hc
  | case4 b x pending hp | case6 b x pending hp =>
    obtain rfl := List.mem_singleton.1 hd
    simp [Derivation.isComplete, stick, hp] at hc
  | case5 b x pending hp hidle halt ih =>
    obtain ⟨p, hmem, hdp⟩ := List.mem_flatMap.1 hd
    obtain ⟨e, he, hend⟩ := ih p hdp hb
    rw [ends_expand (b := { b with rest := w }) hp hidle halt]
    exact ⟨e, List.mem_flatMap.2 ⟨p, hmem, he⟩, hend⟩

theorem exists_end_of_append {g : FlatGrammar} {cfg : Config} {b : Branch} {d : Derivation}
    {w v : List Char} (hd : d ∈ b.ends g cfg) (hc : d.isComplete) (hb : b.rest = w ++ v) :
    ∃ e ∈ ({ b with rest := w } : Branch).ends g cfg, e.isComplete ∨ e.ranOut := by
  obtain ⟨e, he, hend⟩ := exists_awaits_of_append hd hc hb
  exact ⟨e, he, hend.imp_right Derivation.Awaits.ranOut⟩

end Branch

/-- **An end that ran out of input** is enough for an outcome that is no failure. -/
theorem outcome_of_exists_ranOut {g : FlatGrammar} {cfg : Config} {cs : List Char}
    (hg : ∀ p ∈ g.alternatives SymbolTable.start, ∃ t, .terminal t ∈ p.right)
    (h : ∃ e ∈ (Branch.initial cs).ends g cfg, e.isComplete ∨ e.ranOut) :
    (search g cfg cs).derivation.tree.shape.1.outcome = .successful ∨
      (search g cfg cs).derivation.tree.shape.1.outcome = .endOfInput := by
  by_cases hcomplete : ∃ d ∈ (Branch.initial cs).ends g cfg, d.isComplete
  · exact .inl (outcome_of_exists_isComplete hg hcomplete)
  · obtain ⟨e, he, hend⟩ := h
    have hran := hend.resolve_left fun hc => hcomplete ⟨e, he, hc⟩
    obtain ⟨best, m, hbest, hm, hstuck, hout⟩ := outcome_of_not_exists_isComplete hcomplete
    obtain ⟨n, hn, hn'⟩ := Derivation.stuck_of_ranOut hran
    have hrank := hbest.rank_le hm he hn
    rw [hn'] at hrank
    rw [hout]
    cases ho : m.outcome <;> simp_all [Outcome.rank, Outcome.isStuck]

/-- **The beginning of an input that parses does not fail**: it parses, or ends too early. -/
theorem parse_append_viable {G G' : Grammar} {top : Symbol}
    (hcompile : (Grammar.compile top).run.run G = (.ok (), G')) {w v : String}
    {listeners listeners' : Nat} {found found' : Option (List Completion)} {ctx ctx' : Context}
    (hconfig : ctx'.config = ctx.config)
    (h : ((parse G'.flat listeners (w ++ v) found).run ctx).1.tree.outcome = .successful) :
    ((parse G'.flat listeners' w found').run ctx').1.failure = none ∧
      (((parse G'.flat listeners' w found').run ctx').1.tree.outcome = .successful ∨
        ((parse G'.flat listeners' w found').run ctx').1.tree.outcome = .endOfInput) := by
  have hg := exists_terminal_of_compile hcompile
  rw [parse_tree, outcome_eq_successful_iff hg, String.toList_append] at h
  obtain ⟨d, hd, hc⟩ := h
  have hend : ∃ e ∈ (Branch.initial w.toList).ends G'.flat ctx'.config,
      e.isComplete ∨ e.ranOut := hconfig ▸ Branch.exists_end_of_append hd hc rfl
  have hout := outcome_of_exists_ranOut hg hend
  rw [parse_failure_eq_none, parse_tree]
  refine ⟨fun hfailed => ?_, hout⟩
  rw [hfailed] at hout
  cases hout <;> contradiction

/-- The first of two `a`s by left recursion; with the second the parse succeeds. -/
theorem parse_append_viable_leftRecursive :
    ((parse Grammar.leftRecursiveCompiled.flat 0 ("a" ++ "a") none).run {}).1.tree.outcome
      = .successful ∧
    ((parse Grammar.leftRecursiveCompiled.flat 0 "a" none).run {}).1.failure = none ∧
    (((parse Grammar.leftRecursiveCompiled.flat 0 "a" none).run {}).1.tree.outcome = .successful ∨
      ((parse Grammar.leftRecursiveCompiled.flat 0 "a" none).run {}).1.tree.outcome
        = .endOfInput) := by
  have h : ((parse Grammar.leftRecursiveCompiled.flat 0 ("a" ++ "a") none).run {}).1.tree.outcome
      = .successful := by
    rw [parse_tree, outcome_eq_successful_iff
      (exists_terminal_of_compile Grammar.compile_leftRecursive), exists_isComplete_iff_leftmost]
    exact Grammar.leftmost_leftRecursive
  exact ⟨h, parse_append_viable Grammar.compile_leftRecursive rfl h⟩

end Typeahead
