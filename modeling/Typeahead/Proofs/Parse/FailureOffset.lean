import Typeahead.Proofs.Parse.Viable
import Typeahead.Proofs.ParseTree.Nodes
import Typeahead.Proofs.Search.Reach
import Mathlib

/-!
# Proofs/Parse/FailureOffset — the offset a failure reports

A failure reports where the best derivation stumbled (`failure_of_parse`), and the best is the one
whose match ends last.  That match includes the character that does not fit, if there is one; the
end of input has none.  So a derivation that stumbles over a character at some point ranks with one
that got beyond this character and only missed the end of the input there.

`offset_isGreatest_iff` says what comes of it.  The offset is the length of the longest part of the
input that does not fail by itself, unless the text up to and including the character reported is
a complete input; then the text up to and including that character is the longest such part.
-/

namespace Typeahead

/-! ## Grammars that leave the end of input to the start symbol -/

theorem Grammar.closing_of_compile {G G' : Grammar} {top : Symbol}
    (h : (compile top).run.run G = (.ok (), G'))
    (hrules : ∀ r ∈ G.rules, r.target ≠ SymbolTable.start → ∀ s ∈ r.symbols, ¬ s.Closes) :
    G'.flat.Closing := by
  obtain ⟨hfold, -⟩ := lowerAll_ok (compile_ok h).1
  have hsides : ∀ s ∈ G'.flat.sides, s.left = SymbolTable.start ∨ ∀ x ∈ s.right, ¬ x.Closes := by
    refine (lower_induction (P := fun g => g.symbols.knows SymbolTable.start = true ∧
      ∀ s ∈ g.sides, s.left = SymbolTable.start ∨ ∀ x ∈ s.right, ¬ x.Closes) hfold
      ⟨knows_start_withStart, by simp [FlatGrammar.sides, FlatGrammar.ofSymbols]⟩ ?_).2
    rintro r hr g g' ⟨hknows, hsides⟩ hlower
    obtain ⟨a, -, hadds⟩ := FlatGrammar.lower_adds hlower
    refine ⟨(hadds.knows _).2 (.inl hknows), fun s hs => ?_⟩
    rcases (hadds.sides s).1 hs with hs | ⟨n, hn, rfl⟩
    · exact hsides s hs
    · rcases mem_rules_withStart.1 (Array.mem_toList_iff.1 hr) with ⟨hr, htarget⟩ | rfl
      · refine .inr fun x hx hcloses => ?_
        obtain ⟨-, hright⟩ := Rule.within_of_mem_sides hn
        rcases List.mem_append.1 (Sides.bare_subset hright hx) with hx | hx
        · exact hrules r hr htarget x hx hcloses
        · obtain ⟨y, hy, rfl⟩ := List.mem_map.1 hx
          obtain rfl : y = SymbolTable.start := by simpa [Symbol.Closes] using hcloses
          rcases List.mem_cons.1 hy with hy | hy
          · exact htarget hy.symm
          · rw [hadds.unknown _ hy] at hknows
            cases hknows
      · exact .inl (by rw [Sides.bare_left, List.mem_singleton.1 hn]; rfl)
  intro p hp
  have hmem : ⟨p.left, p.right⟩ ∈ G'.flat.sides := FlatGrammar.mem_sides.2 ⟨p, hp, rfl, rfl⟩
  refine ⟨?_, hsides _ hmem⟩
  rcases hsides _ hmem with hstart | hopen
  · obtain ⟨-, hright⟩ := Sides.mk.inj (start_of_mem_sides h hmem hstart)
    rw [hright]
    refine List.Pairwise.filter _ ?_
    simp
  · exact List.pairwise_of_forall_mem_list fun s hs t ht hcloses => absurd hcloses (hopen s hs)

/-! ## The failure of a parse -/

theorem attempt_dropped (iso : Isolate) (g : FlatGrammar) (listeners : Option Nat)
    (input : List Char) (found : Option (List Completion)) (ctx : Context) :
    ((attempt iso g listeners input found).run ctx).1.dropped
      = (search g ctx.config input).derivation.tree.shape.2 := by
  cases found with
  | none =>
    change (((search g ctx.config input).derivation.build g listeners).run ctx).1.shape.2 = _
    rw [run_build]
  | some found =>
    change (((search g ctx.config input).derivation.build g listeners).run
      ((collect iso g listeners input (search g ctx.config input).cut found).run
        ctx).2).1.shape.2 = _
    rw [run_build]

theorem run_explain {iso : Isolate} {g : FlatGrammar} {input : List Char} {a : Attempt} {n : Node}
    (h : a.failedPath.getLast? = some n) (ctx : Context) :
    ((explain iso g input a).run ctx).1.failed = some n.label ∧
      ((explain iso g input a).run ctx).1.offset = Failure.lastOffset n.label.result := by
  simp only [explain, h]
  exact ⟨rfl, rfl⟩

variable {g : FlatGrammar}

/-- If a parse reports a failure, the derivation found failed. -/
theorem outcome_of_failure {listeners : Nat} {input : String} {found : Option (List Completion)}
    {ctx : Context} {f : Failure}
    (h : ((parse g listeners input found).run ctx).1.failure = some f) :
    (search g ctx.config input.toList).derivation.tree.shape.1.outcome = .failed := by
  by_contra hne
  have htree : ((parse g listeners input found).run ctx).1.tree = _ := parse_tree ..
  rw [← htree] at hne
  rw [parse_failure_eq_none.2 hne] at h
  cases h

/-- **A failure explains an attempt** by the node that the derivation found is stuck on. -/
theorem explain_of_parse {listeners : Nat} {input : String} {found : Option (List Completion)}
    {ctx : Context} {f : Failure}
    (h : ((parse g listeners input found).run ctx).1.failure = some f) :
    let attempted := (attempt isolate g (some listeners) input.toList found).run ctx
    f = ((explain isolate g input.toList attempted.1).run attempted.2).1 ∧
      ∃ n, attempted.1.failedPath.getLast? = some n ∧
        (search g ctx.config input.toList).derivation.StuckOn n.label.symbol n.label.result := by
  intro attempted
  have hmem := (search_mem_ends g ctx.config input.toList).1
  have hcomplete : ¬ (search g ctx.config input.toList).derivation.isComplete := by
    intro hc
    have := outcome_isStuck_of_isComplete hmem hc
    rw [outcome_of_failure h] at this
    cases this
  obtain ⟨m, hm, hstuck⟩ := (Branch.ended_of_mem_ends hmem).stuck_of_not_isComplete hcomplete
  obtain ⟨path, v, hpath, hlast, hstuckOn⟩ := Derivation.exists_stuckPath_shape hmem hm hstuck
  obtain ⟨n, hnode, rfl⟩ := ParseTree.exists_getLast?_stuckNodes hpath hlast
  refine ⟨?_, n, ?_, hstuckOn⟩
  · rw [run_parse] at h
    dsimp only at h
    split at h
    · exact (Option.some.inj h).symm
    · cases h
  · rw [Attempt.failedPath, attempt_tree, attempt_dropped]
    exact hnode

/-- A failure reports the node that the derivation found is stuck on. -/
theorem failed_of_parse {listeners : Nat} {input : String} {found : Option (List Completion)}
    {ctx : Context} {f : Failure}
    (h : ((parse g listeners input found).run ctx).1.failure = some f) :
    ∃ l, f.failed = some l ∧ f.offset = Failure.lastOffset l.result ∧
      (search g ctx.config input.toList).derivation.StuckOn l.symbol l.result := by
  obtain ⟨rfl, n, hlast, hstuck⟩ := explain_of_parse h
  obtain ⟨hlabel, hoffset⟩ := run_explain hlast _
  exact ⟨n.label, hlabel, hoffset, hstuck⟩

/-- A parse does not fail just if a derivation is complete or ran out of input. -/
theorem parse_failure_eq_none_iff
    (hg : ∀ p ∈ g.alternatives SymbolTable.start, ∃ t, .terminal t ∈ p.right) {listeners : Nat}
    {input : String} {found : Option (List Completion)} {ctx : Context} :
    ((parse g listeners input found).run ctx).1.failure = none ↔
      ∃ e ∈ (Branch.initial input.toList).ends g ctx.config, e.isComplete ∨ e.ranOut := by
  rw [parse_failure_eq_none, parse_tree]
  constructor
  · intro hne
    by_cases hcomplete : ∃ d ∈ (Branch.initial input.toList).ends g ctx.config, d.isComplete
    · obtain ⟨d, hd, hc⟩ := hcomplete
      exact ⟨d, hd, .inl hc⟩
    · obtain ⟨d, m, hbest, hm, hstuck, hout⟩ := outcome_of_not_exists_isComplete hcomplete
      rw [hout] at hne
      refine ⟨d, hbest.mem, .inr ?_⟩
      cases ho : m.outcome <;> simp_all [Outcome.isStuck, Derivation.ranOut]
  · intro h hfailed
    rcases outcome_of_exists_ranOut hg h with hout | hout <;> rw [hfailed] at hout <;> cases hout

/-- **A failure reports where the best derivation stumbled.** -/
theorem failure_of_parse
    (hg : ∀ p ∈ g.alternatives SymbolTable.start, ∃ t, .terminal t ∈ p.right) {listeners : Nat}
    {input : String} {found : Option (List Completion)} {ctx : Context} {f : Failure}
    (h : ((parse g listeners input found).run ctx).1.failure = some f) :
    (∀ d ∈ (Branch.initial input.toList).ends g ctx.config, ¬ d.isComplete ∧ ¬ d.ranOut) ∧
    ∃ d l, Derivation.IsBest ctx.config.tieBreak
        ((Branch.initial input.toList).ends g ctx.config) d ∧
      f.failed = some l ∧ d.stuck = some l.result ∧ f.offset = Failure.lastOffset l.result := by
  have hviable : ¬ ∃ e ∈ (Branch.initial input.toList).ends g ctx.config,
      e.isComplete ∨ e.ranOut := by
    rw [← parse_failure_eq_none_iff hg, h]
    nofun
  have hfailed : ∀ d ∈ (Branch.initial input.toList).ends g ctx.config,
      ¬ d.isComplete ∧ ¬ d.ranOut := by
    intro d hd
    exact ⟨fun hc => hviable ⟨d, hd, .inl hc⟩, fun hran => hviable ⟨d, hd, .inr hran⟩⟩
  refine ⟨hfailed, ?_⟩
  have hnone : ((Branch.initial input.toList).ends g ctx.config).find? (·.isComplete) = none := by
    simpa using fun d hd => (hfailed d hd).1
  obtain ⟨d, hbest, hsearch⟩ := (search_settles g ctx.config input.toList).2 hnone
  obtain ⟨l, hlabel, hoffset, -, hstuck⟩ := failed_of_parse h
  rw [hsearch] at hstuck
  exact ⟨d, l, hbest, hlabel, hstuck, hoffset⟩

/-! ## The longest part that does not fail -/

theorem closing_initial (input : List Char) : Closing (Branch.initial input).pending :=
  List.pairwise_singleton ..

/-- **No derivation gets beyond the end of the best match**, and one that got exactly there only
missed the end of input. -/
theorem exists_reach_within (hclosing : g.Closing) {cfg : Config} {w v : List Char}
    {d e : Derivation} {m : Match}
    (hfailed : ∀ d ∈ (Branch.initial (w ++ v)).ends g cfg, ¬ d.isComplete ∧ ¬ d.ranOut)
    (hcut : ∀ d ∈ (Branch.initial (w ++ v)).ends g cfg, ¬ d.IsCut)
    (hbest : Derivation.IsBest cfg.tieBreak ((Branch.initial (w ++ v)).ends g cfg) d)
    (hm : d.stuck = some m) (hout : m.outcome = .failed)
    (he : e ∈ (Branch.initial w).ends g cfg) (hviable : e.isComplete ∨ e.ranOut) :
    ∃ reach last, reach ++ last <+: w ++ v ∧ w <+: reach ∧
      Text.byteLength (reach ++ last) ≤ m.stop ∧
      (last = [] → ∃ e ∈ (Branch.initial reach).ends g cfg, e.isComplete) := by
  obtain ⟨d', hd', m', hm', hle⟩ := Branch.exists_reach_of_viable hfailed he hviable
  obtain ⟨reach, last, hstarts, ⟨⟨n, hn, hout', hoffset, hstop, -⟩, -⟩, e', he', -, hcomplete⟩ :=
    Branch.exists_reach hclosing hd' ⟨(hfailed d' hd').1, (hfailed d' hd').2, hcut d' hd'⟩
      (closing_initial _)
  obtain rfl : n = m' := Option.some.inj (hn.symm.trans hm')
  have hoffset : Failure.lastOffset n = Text.byteLength reach := by
    simpa [Branch.initial] using hoffset
  have hstop : n.stop = Text.byteLength (reach ++ last) := by
    simpa [Branch.initial] using hstop
  refine ⟨reach, last, hstarts, ?_, ?_, fun hlast => ⟨e', he', hcomplete hlast⟩⟩
  · refine Text.prefix_of_byteLength_le (List.prefix_append w v)
      ((List.prefix_append reach last).trans hstarts) ?_
    simpa [Branch.initial, hoffset] using hle
  · rw [← hstop]
    exact hbest.stop_le hm hd' hn (hout'.trans hout.symm)

theorem prefix_append_of_length_le_one {α : Type} {as bs last : List α} (h : as <+: bs ++ last)
    (hlast : last.length ≤ 1) : as <+: bs ∨ as = bs ++ last := by
  match last, hlast with
  | [], _ => exact .inl (by rwa [List.append_nil] at h)
  | [b], _ => exact (List.prefix_concat_iff.1 h).symm

/-- **What does not fail by itself** ends where the best derivation stumbled, or before, or is a
complete input that goes up to the end of the best match. -/
theorem prefix_reach_or_isComplete (hclosing : g.Closing) {cfg : Config}
    {w v reach last : List Char} {d e : Derivation} {m : Match}
    (hfailed : ∀ d ∈ (Branch.initial (w ++ v)).ends g cfg, ¬ d.isComplete ∧ ¬ d.ranOut)
    (hcut : ∀ d ∈ (Branch.initial (w ++ v)).ends g cfg, ¬ d.IsCut)
    (hbest : Derivation.IsBest cfg.tieBreak ((Branch.initial (w ++ v)).ends g cfg) d)
    (hm : d.stuck = some m) (hout : m.outcome = .failed)
    (hstop : m.stop = Text.byteLength (reach ++ last)) (hstarts : reach ++ last <+: w ++ v)
    (hlast : last.length ≤ 1) (he : e ∈ (Branch.initial w).ends g cfg)
    (hviable : e.isComplete ∨ e.ranOut) :
    w <+: reach ∨ w = reach ++ last ∧ ∃ e ∈ (Branch.initial w).ends g cfg, e.isComplete := by
  obtain ⟨reach', last', hstarts', hw, hle, hcomplete⟩ :=
    exists_reach_within hclosing hfailed hcut hbest hm hout he hviable
  rw [hstop] at hle
  have hw' : w <+: reach ++ last := (hw.trans (List.prefix_append ..)).trans
    (Text.prefix_of_byteLength_le hstarts' hstarts hle)
  refine (prefix_append_of_length_le_one hw' hlast).imp_right fun heq => ⟨heq, ?_⟩
  -- then `w` is all of what the derivation read, and nothing was left to stumble over
  rw [← heq, Text.byteLength_append] at hle
  have hlen := Text.byteLength_le_of_prefix hw
  have hnil : last' = [] := Text.byteLength_eq_zero.1 (by omega)
  obtain rfl := Text.eq_of_prefix_of_byteLength_le hw (by omega)
  exact hcomplete hnil

/-- The lengths in bytes of the parts that an input starts with and that do not fail by
themselves. -/
def viableLengths (g : FlatGrammar) (ctx : Context) (input : String) : Set Nat :=
  { n | ∃ w v, input = w ++ v ∧ w.utf8ByteSize = n ∧
    ((parse g 0 w none).run ctx).1.failure = none }

theorem eq_ofList_append {s : String} {a b : List Char} (h : a ++ b = s.toList) :
    s = String.ofList a ++ String.ofList b := by
  rw [← String.ofList_append, h, String.ofList_toList]

/-! ### An instance that misses the end of input -/

namespace Grammar

/-- One letter, `a` or `b`. -/
def eitherLetter : Grammar :=
  ((insert .choice (some "letter")
    [(Symbol.literal "a").unnamed, (Symbol.literal "b").unnamed]).run {}).2

/-- The grammar after its compile. -/
def eitherLetterCompiled : Grammar := ((compile (.nonterminal "letter")).run.run eitherLetter).2

theorem compile_eitherLetter :
    (compile (.nonterminal "letter")).run.run eitherLetter = (.ok (), eitherLetterCompiled) := rfl

theorem open_eitherLetter : ∀ r ∈ eitherLetter.rules, r.target ≠ SymbolTable.start →
    ∀ s ∈ r.symbols, ¬ s.Closes := by
  intro r hr _ s hs
  have hrules : eitherLetter.rules = #[Rule.ofChildren .choice "letter"
      [(Symbol.literal "a").unnamed, (Symbol.literal "b").unnamed]] := rfl
  rw [hrules, List.mem_toArray, List.mem_singleton] at hr
  subst hr
  have hs : s ∈ [Symbol.literal "a", Symbol.literal "b"] := hs
  rintro (rfl | rfl) <;> simp [Symbol.literal] at hs

theorem uncut_eitherLetter :
    ∀ d ∈ (Branch.initial "ax".toList).ends eitherLetterCompiled.flat {}, ¬ d.IsCut := by
  have hall : ((Branch.initial "ax".toList).ends eitherLetterCompiled.flat {}).all
      (fun d => d.pending.head?.all Symbol.isTerminal) = true := by cbv
  rintro d hd ⟨x, hx⟩
  have hd := List.all_eq_true.1 hall d hd
  rw [hx] at hd
  cases hd

theorem offset_eitherLetter :
    ((parse eitherLetterCompiled.flat 0 "ax" none).run {}).1.failure.map (·.offset) = some 0 := by
  cbv

end Grammar

section

variable {G G' : Grammar} {top : Symbol} (hcompile : (Grammar.compile top).run.run G = (.ok (), G'))
  (hrules : ∀ r ∈ G.rules, r.target ≠ SymbolTable.start → ∀ s ∈ r.symbols, ¬ s.Closes)
  {listeners : Nat} {input : String} {found : Option (List Completion)} {ctx : Context}
  {f : Failure}
  (hcut : ∀ d ∈ (Branch.initial input.toList).ends G'.flat ctx.config, ¬ d.IsCut)
  (h : ((parse G'.flat listeners input found).run ctx).1.failure = some f)

include hcompile hrules hcut h

/-- **What a failure tells about the parts that the input starts with.**  The part `reach` up to the
offset does not fail.  What is longer and does not fail is a complete input that ends with the
failed node. -/
theorem exists_reach_of_failure : ∃ l reach last, f.failed = some l ∧
    f.offset = Text.byteLength reach ∧ l.result.stop = Text.byteLength (reach ++ last) ∧
    (l.text = "" ↔ last = []) ∧ reach ++ last <+: input.toList ∧
    Text.byteLength reach ∈ viableLengths G'.flat ctx input ∧
    ∀ n ∈ viableLengths G'.flat ctx input, n ≤ Text.byteLength reach ∨
      n = Text.byteLength (reach ++ last) ∧
        ((parse G'.flat 0 (String.ofList (reach ++ last)) none).run ctx).1.tree.outcome
          = .successful := by
  have hg := exists_terminal_of_compile hcompile
  have hclosing := Grammar.closing_of_compile hcompile hrules
  obtain ⟨hfailed, d, l, hbest, hlabel, hstuck, hoffset⟩ := failure_of_parse hg h
  obtain ⟨reach, last, hstarts, ⟨⟨m, hm, hout, hreach, hend₀, htext⟩, hlast⟩, e, he, hend, -⟩ :=
    Branch.exists_reach hclosing hbest.mem
      ⟨(hfailed d hbest.mem).1, (hfailed d hbest.mem).2, hcut d hbest.mem⟩ (closing_initial _)
  obtain rfl : m = l.result := Option.some.inj (hm.symm.trans hstuck)
  have hstop : l.result.stop = Text.byteLength (reach ++ last) :=
    hend₀.trans (Nat.zero_add _)
  refine ⟨l, reach, last, hlabel, ?_, hstop, htext, hstarts, ?_, ?_⟩
  · exact (hoffset.trans hreach).trans (Nat.zero_add _)
  · obtain ⟨more, hmore⟩ := (List.prefix_append reach last).trans hstarts
    refine ⟨String.ofList reach, String.ofList more, eq_ofList_append hmore, by simp, ?_⟩
    rw [parse_failure_eq_none_iff hg, String.toList_ofList]
    exact ⟨e, he, hend⟩
  · rintro _ ⟨w, v, rfl, rfl, hw⟩
    obtain ⟨e, he, hend⟩ := (parse_failure_eq_none_iff hg).1 hw
    rw [String.toList_append] at hfailed hcut hbest hstarts
    rw [← Text.byteLength_toList, parse_tree, outcome_eq_successful_iff hg, String.toList_ofList]
    rcases prefix_reach_or_isComplete hclosing hfailed hcut hbest hm hout hstop hstarts hlast he
      hend with hreach | ⟨heq, hcomplete⟩
    · exact .inl (Text.byteLength_le_of_prefix hreach)
    · rw [heq] at hcomplete ⊢
      exact .inr ⟨rfl, hcomplete⟩

/-- **When the offset of a failure is the length of the longest part that does not fail**: just if
the node that failed covers no character, or the text `w` up to its end is not complete.  Otherwise
that text is the longest such part. -/
theorem offset_isGreatest_iff :
    ∃ l w v, f.failed = some l ∧ input = w ++ v ∧ w.utf8ByteSize = l.result.stop ∧
      (IsGreatest (viableLengths G'.flat ctx input) f.offset ↔
        l.text = "" ∨ ((parse G'.flat 0 w none).run ctx).1.tree.outcome ≠ .successful) ∧
      (l.text ≠ "" → ((parse G'.flat 0 w none).run ctx).1.tree.outcome = .successful →
        IsGreatest (viableLengths G'.flat ctx input) w.utf8ByteSize) := by
  obtain ⟨l, reach, last, hlabel, hoffset, hstop, htext, ⟨more, hmore⟩, hviable, hcases⟩ :=
    exists_reach_of_failure hcompile hrules hcut h
  have hlength : Text.byteLength (reach ++ last) = Text.byteLength reach + Text.byteLength last :=
    Text.byteLength_append ..
  have hinput := eq_ofList_append hmore
  -- a complete text does not fail
  have hwhole : ((parse G'.flat 0 (String.ofList (reach ++ last)) none).run ctx).1.tree.outcome
      = .successful → Text.byteLength (reach ++ last) ∈ viableLengths G'.flat ctx input := by
    intro hsuccess
    refine ⟨_, _, hinput, Text.utf8ByteSize_ofList _, parse_failure_eq_none.2 ?_⟩
    rw [hsuccess]
    nofun
  refine ⟨l, _, _, hlabel, hinput, by rw [hstop, Text.utf8ByteSize_ofList], ⟨?_, ?_⟩, ?_⟩
  · intro hgreatest
    by_contra hnot
    rw [not_or, not_not, htext] at hnot
    have hle := hgreatest.2 (hwhole hnot.2)
    have hlast := mt Text.byteLength_eq_zero.1 hnot.1
    omega
  · rw [hoffset]
    refine fun hexact => ⟨hviable, fun n hn => ?_⟩
    rcases hcases n hn with hle | ⟨rfl, hsuccess⟩
    · exact hle
    · rw [hlength, htext.1 (hexact.resolve_right (not_not.2 hsuccess))]
      exact Nat.le_refl _
  · intro _ hsuccess
    rw [Text.utf8ByteSize_ofList]
    refine ⟨hwhole hsuccess, fun n hn => ?_⟩
    rcases hcases n hn with hle | ⟨rfl, -⟩
    · exact Nat.le_trans hle (by omega)
    · exact Nat.le_refl _

end

/-- On `ax` the failed node is the letter `b` at the beginning. -/
theorem offset_isGreatest_iff_eitherLetter :
    ∃ f, ((parse Grammar.eitherLetterCompiled.flat 0 "ax" none).run {}).1.failure = some f ∧
      ∃ l w v, f.failed = some l ∧ "ax" = w ++ v ∧ w.utf8ByteSize = l.result.stop ∧
        (IsGreatest (viableLengths Grammar.eitherLetterCompiled.flat {} "ax") f.offset ↔
          l.text = "" ∨ ((parse Grammar.eitherLetterCompiled.flat 0 w none).run
            {}).1.tree.outcome ≠ .successful) ∧
        (l.text ≠ "" → ((parse Grammar.eitherLetterCompiled.flat 0 w none).run
            {}).1.tree.outcome = .successful →
          IsGreatest (viableLengths Grammar.eitherLetterCompiled.flat {} "ax") w.utf8ByteSize) := by
  obtain ⟨f, hf, -⟩ := Option.map_eq_some_iff.1 Grammar.offset_eitherLetter
  exact ⟨f, hf, offset_isGreatest_iff Grammar.compile_eitherLetter Grammar.open_eitherLetter
    Grammar.uncut_eitherLetter hf⟩

/-- **The offset of a failure need not be the length of the longest part that does not fail**: `ax`
fails at its beginning, although `a` is a complete input. -/
theorem offset_not_isGreatest :
    (Grammar.compile (.nonterminal "letter")).run.run Grammar.eitherLetter
      = (.ok (), Grammar.eitherLetterCompiled) ∧
    (∀ r ∈ Grammar.eitherLetter.rules, r.target ≠ SymbolTable.start →
      ∀ s ∈ r.symbols, ¬ s.Closes) ∧
    (∀ d ∈ (Branch.initial "ax".toList).ends Grammar.eitherLetterCompiled.flat {}, ¬ d.IsCut) ∧
    ∃ f, ((parse Grammar.eitherLetterCompiled.flat 0 "ax" none).run {}).1.failure = some f ∧
      ¬ IsGreatest (viableLengths Grammar.eitherLetterCompiled.flat {} "ax") f.offset := by
  obtain ⟨f, hf, hoffset⟩ := Option.map_eq_some_iff.1 Grammar.offset_eitherLetter
  refine ⟨Grammar.compile_eitherLetter, Grammar.open_eitherLetter, Grammar.uncut_eitherLetter,
    f, hf, fun hgreatest => ?_⟩
  have hone : 1 ∈ viableLengths Grammar.eitherLetterCompiled.flat {} "ax" := by
    have hsuccess : ((parse Grammar.eitherLetterCompiled.flat 0 "a" none).run {}).1.tree.outcome
        = .successful := by
      rw [parse_tree]
      cbv
    refine ⟨"a", "x", by decide, by decide, parse_failure_eq_none.2 ?_⟩
    simp [hsuccess]
  have hle := hgreatest.2 hone
  rw [hoffset] at hle
  cases hle

end Typeahead
