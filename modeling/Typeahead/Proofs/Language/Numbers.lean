import Typeahead.Proofs.Language.Standard
import Typeahead.Proofs.Parse.Successful
import Typeahead.Proofs.Text.Numeral

/-!
# Proofs/Language/Numbers — the texts and the values of whole numbers

The node of a whole number covers a numeral and has its value (`Standard.exists_numeral`), and every
numeral is afforded (`Standard.affords_int`).  So a parse for a whole number is successful on just
the numerals.
-/

namespace Typeahead

/-- Some rules are realized. -/
def FlatGrammar.RealizesAll (g : FlatGrammar) (rs : List Rule) : Prop :=
  ∀ r ∈ rs, ∃ i a, g.Realizes r i a

/-- **What a numeral evaluates to.** -/
def Numeral.evaluated (w : Numeral) : Evaluated :=
  if FitsInt64 w.value then .ok (.int w.value)
  else .error (.invalidNumber (String.ofList w.chars))

theorem Numeral.evaluated_ofInt {n : Int} (h : FitsInt64 n) :
    (Numeral.ofInt n).evaluated = .ok (.int n) := by
  rw [evaluated, value_ofInt, if_pos h]

theorem fitsInt64_toInt (n : Int64) : FitsInt64 n.toInt := by
  have hupper := n.toInt_lt
  exact ⟨n.le_toInt, by omega⟩

theorem Label.integer_eq {l : Label} {w : Numeral} (h : l.text.toList = w.chars) :
    l.integer = w.evaluated := by
  rw [integer, Numeral.int?_eq h, Numeral.evaluated, ← h, String.ofList_toList]
  split_ifs <;> rfl

/-! ## Runs of characters -/

/-- Pieces of one character each, with some property. -/
theorem forall_mem_flatten {p : Char → Bool} {pieces : List (List Char)}
    (h : ∀ piece ∈ pieces, ∃ c, piece = [c] ∧ p c = true) :
    (∀ c ∈ pieces.flatten, p c = true) ∧ (pieces ≠ [] → pieces.flatten ≠ []) := by
  refine ⟨fun c hc => ?_, fun hne hnil => ?_⟩
  · obtain ⟨piece, hpiece, hc⟩ := List.mem_flatten.1 hc
    obtain ⟨d, rfl, hd⟩ := h piece hpiece
    rwa [List.mem_singleton.1 hc]
  · obtain ⟨piece, more, rfl⟩ := List.exists_cons_of_ne_nil hne
    obtain ⟨d, rfl, -⟩ := h piece (List.mem_cons_self ..)
    cases hnil

namespace Standard

open ParseTree (Spelled)

section

variable {g : FlatGrammar} {o d : String} (h : g.RealizesAll (numberRules o d))

include h

/-! ## Numerals -/

theorem affords_sign (w : Numeral) {limit n : Nat} (hn : n + 1 < limit) :
    g.Affords limit n [.nonterminal o] w.sign.toList (n + 1) := by
  obtain ⟨_, _, hoptional⟩ := h (optionalSignRule o) (by simp [numberRules])
  obtain ⟨_, _, hsign⟩ := h signRule (by simp [numberRules])
  rcases hw : w.sign with _ | c
  · exact hoptional.affords_nothing (Nat.lt_of_succ_lt hn) rfl rfl
  · have hliteral : ∃ text, Symbol.literal text ∈ signRule.children ∧ text.toList = [c] := by
      rcases w.sign_eq c hw with rfl | rfl
      · exact ⟨"+", by simp [signRule, Symbol.literal], rfl⟩
      · exact ⟨"-", by simp [signRule, Symbol.literal], rfl⟩
    obtain ⟨text, hmem, htext⟩ := hliteral
    have hread : g.Affords limit (n + 2) [.literal text] [c] 0 :=
      .terminal htext.symm (by simp) (List.cons_ne_nil _ _)
    have hchosen := hsign.affords_choice (by simp [signRule]) hn rfl hmem hread
    exact (hoptional.affords_optional (by simp [optionalSignRule]) (Nat.lt_of_succ_lt hn) rfl rfl
      hchosen).mono (Nat.le_refl n) (Nat.zero_le _)

/-- **Every numeral is afforded.** -/
theorem affords_int (w : Numeral) {limit n : Nat} (hn : n + 2 < limit) :
    g.Affords limit n [.nonterminal int] w.chars 0 := by
  obtain ⟨_, _, hint⟩ := h (intRule o d) (List.mem_cons_self ..)
  obtain ⟨_, _, hdigits⟩ := h (digitsRule d) (by simp [numberRules])
  have hpieces : ∀ p ∈ w.digits.map fun c => [c],
      g.Affords limit (n + 3) [.terminal .digit] p 0 := by
    intro p hp
    obtain ⟨c, hc, rfl⟩ := List.mem_map.1 hp
    exact .terminal ⟨c, rfl, w.isDigit c hc⟩ (by simp) (List.cons_ne_nil _ _)
  have hrun := hdigits.affords_plus (by simp [digitsRule]) rfl rfl hn (by simpa using w.ne_nil)
    hpieces
  rw [← List.flatMap_def, List.flatMap_singleton'] at hrun
  exact hint.affords_sequence (by simp [intRule]) (by omega) rfl
    ((affords_sign h w (by omega)).cons hrun)

/-- The node of an optional sign. -/
theorem exists_sign {s : ParseTree} (hs : s.Spelled g)
    (hsymbol : s.label.symbol = .nonterminal o) :
    ∃ sign : Option Char, s.chars = sign.toList ∧ ∀ c ∈ sign, c = '+' ∨ c = '-' := by
  simp only [FlatGrammar.RealizesAll, numberRules, List.forall_mem_cons] at h
  obtain ⟨-, -, ⟨_, _, hoptional⟩, ⟨_, _, hsign⟩, -⟩ := h
  rcases hs.of_optional hoptional hsymbol (by simp [optionalSignRule]) rfl rfl with
    hexpands | hexpands
  · obtain ⟨u, -, hu, hu', hchars⟩ := hexpands.singleton
    obtain ⟨c, hc, hexpands'⟩ := hu.of_choice hsign hu' (by simp [signRule]) rfl
    obtain ⟨l, -, hl, hl', hchars'⟩ := hexpands'.singleton
    rcases List.mem_pair.1 hc with rfl | rfl
    · exact ⟨some '-', hchars.trans (hchars'.trans (hl.writes hl')), by simp⟩
    · exact ⟨some '+', hchars.trans (hchars'.trans (hl.writes hl')), by simp⟩
  · exact ⟨none, hexpands.chars_nil, by simp⟩

/-- **The node of a whole number** covers a numeral and has its value. -/
theorem exists_numeral {t : ParseTree} (ht : t.Spelled g)
    (hsymbol : t.label.symbol = .nonterminal int) :
    ∃ w : Numeral, t.chars = w.chars ∧ t.shape.1.evaluate g = w.evaluated := by
  obtain ⟨_, _, hint⟩ := h (intRule o d) (List.mem_cons_self ..)
  obtain ⟨_, _, hdigits⟩ := h (digitsRule d) (by simp [numberRules])
  have hexpands := ht.of_sequence hint hsymbol (by simp [intRule]) rfl
  obtain ⟨s, run, -, ⟨hs, hs'⟩, ⟨hrun, hrun'⟩, hchars⟩ := hexpands.pair
  obtain ⟨sign, hsign, hsigns⟩ := exists_sign h hs hs'
  obtain ⟨pieces, hne, hdigit, hpieces⟩ :=
    hrun.exists_pieces_of_plus hdigits rfl rfl (by simp) hrun'
  obtain ⟨hall, hnil⟩ := forall_mem_flatten hpieces
  refine ⟨⟨sign, pieces.flatten, hsigns, hnil hne, hall⟩, ?_, ?_⟩
  · rw [hchars, hsign, hdigit, Numeral.chars]
  · rw [ParseTree.evaluate_of_integer hexpands.evaluator]
    refine Label.integer_eq ?_
    rw [ParseTree.label_shape, ← ParseTree.chars, hchars, hsign, hdigit, Numeral.chars]

end

/-! ## Parses -/

/-- The rules of a standard type that was compiled are realized. -/
theorem exists_realized {x : String} (hx : x ∈ names) :
    ∃ rs G', Rules rs ∧ (Grammar.compile (.nonterminal x)).run.run grammar = (.ok (), G') ∧
      (∀ r ∈ rs, G'.rulesFor r.target = [r]) ∧ G'.flat.RealizesAll rs := by
  obtain ⟨rs, G', hrules, hcompile, honly⟩ := exists_compile hx
  have honly : ∀ r ∈ rs, G'.rulesFor r.target = [r] := fun r hr =>
    honly r (List.mem_cons_of_mem _ hr)
  exact ⟨rs, G', hrules, hcompile, honly, fun r hr =>
    Grammar.exists_realized_of_compile reachable_grammar hcompile (honly r hr)⟩

/-- The limit that a configuration has unless another is given. -/
theorem lt_maxDepth {ctx : Context} {n : Nat} (hn : n < 4096) :
    n < ({ ctx with config := {} } : Context).config.maxDepth := hn

section

variable {G' : Grammar} {o d : String}
  (hcompile : (Grammar.compile (.nonterminal int)).run.run grammar = (.ok (), G'))
  (h : G'.flat.RealizesAll (numberRules o d)) {listeners : Nat} {input : String}
  {found : Option (List Completion)} {ctx : Context}

include hcompile h

theorem successful_of_numeral {w : Numeral} (hw : input.toList = w.chars) :
    let parsed := ((parse G'.flat listeners input found).run { ctx with config := {} }).1
    parsed.failure = none ∧ parsed.tree.outcome = .successful := by
  refine successful_of_affords reachable_grammar hcompile (lt_maxDepth (by decide)) (m := 0) ?_
  rw [hw]
  exact affords_int h w (lt_maxDepth (by decide))

theorem exists_numeral_of_successful
    (hout : ((parse G'.flat listeners input found).run ctx).1.tree.outcome = .successful) :
    ∃ w : Numeral, input.toList = w.chars ∧
      ((parse G'.flat listeners input found).run ctx).1.tree.evaluate G'.flat = w.evaluated := by
  obtain ⟨t, ht, hsymbol, hchars, hvalue⟩ :=
    exists_spelled_of_successful reachable_grammar hcompile hout
  obtain ⟨w, hw, hw'⟩ := exists_numeral h ht hsymbol
  exact ⟨w, hchars.symm.trans hw, hvalue.trans hw'⟩

/-- **The value of a numeral** that is parsed. -/
theorem evaluate_numeral {w : Numeral} (hw : input.toList = w.chars) :
    ((parse G'.flat listeners input found).run { ctx with config := {} }).1.tree.evaluate G'.flat =
      if FitsInt64 w.value then .ok (.int w.value) else .error (.invalidNumber input) := by
  obtain ⟨w', hw', hevaluate⟩ :=
    exists_numeral_of_successful hcompile h (successful_of_numeral hcompile h hw).2
  obtain rfl := Numeral.chars_injective (hw.symm.trans hw')
  rw [hevaluate, Numeral.evaluated, ← hw, String.ofList_toList]

end

/-- **Whole numbers**: the texts that parse are an optional sign followed by digits, and such a text
has the number that it writes as its value, unless that is too large.  So every number of 64 bits is
the value of its text. -/
theorem parse_int :
    ∃ G', (Grammar.compile (.nonterminal int)).run.run grammar = (.ok (), G') ∧
      ∀ (listeners : Nat) (input : String) (found : Option (List Completion)) (ctx : Context),
        let parsed := ((parse G'.flat listeners input found).run { ctx with config := {} }).1
        (parsed.failure = none ∧ parsed.tree.outcome = .successful ↔
          ∃ w : Numeral, input.toList = w.chars) ∧
        (∀ w : Numeral, input.toList = w.chars → parsed.tree.evaluate G'.flat =
          if FitsInt64 w.value then .ok (.int w.value) else .error (.invalidNumber input)) ∧
        ∀ n : Int, FitsInt64 n → input = toString n →
          parsed.failure = none ∧ parsed.tree.outcome = .successful ∧
            parsed.tree.evaluate G'.flat = .ok (.int n) := by
  obtain ⟨rs, G', hrules, hcompile, -, hrealized⟩ := exists_realized (x := int) (by simp [names])
  obtain ⟨o, d, hnumbers⟩ := hrules.numbers
  have h : G'.flat.RealizesAll (numberRules o d) := fun r hr => hrealized r (hnumbers hr)
  refine ⟨G', hcompile, fun listeners input found ctx => ⟨⟨fun hparsed => ?_, ?_⟩, ?_, ?_⟩⟩
  · obtain ⟨w, hw, -⟩ := exists_numeral_of_successful hcompile h hparsed.2
    exact ⟨w, hw⟩
  · rintro ⟨w, hw⟩
    exact successful_of_numeral hcompile h hw
  · exact fun w hw => evaluate_numeral hcompile h hw
  · intro n hn hinput
    have hw : input.toList = (Numeral.ofInt n).chars := by rw [hinput, Numeral.chars_ofInt]
    refine ⟨(successful_of_numeral hcompile h hw).1, (successful_of_numeral hcompile h hw).2,
      (evaluate_numeral hcompile h hw).trans ?_⟩
    rw [Numeral.value_ofInt, if_pos hn]

end Standard

end Typeahead
