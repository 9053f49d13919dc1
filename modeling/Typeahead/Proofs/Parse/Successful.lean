import Typeahead.Proofs.Grammar.Afforded
import Typeahead.Proofs.Parse.Entries
import Typeahead.Proofs.ParseTree.Spelled

/-!
# Proofs/Parse/Successful — successful parses by the top symbol

Below the root of a successful parse stands a node of the top symbol, which covers the whole input
and has the value of the parse (`exists_spelled_of_successful`).  Conversely a parse is successful
if the top symbol affords the input (`successful_of_affords`).

A node of a join covers its entries with the delimiters and brackets around them, and these are
spelled out as well (`Spelled.exists_entries`).
-/

namespace Typeahead

open Grammar (startRule)
open ParseTree (Spelled chars flatMap_chars)

/-- The evaluator of a finished node is that of its rule. -/
theorem ParseTree.Expands.evaluator {g : FlatGrammar} {r : Rule} {right : List Symbol}
    {shaping : Shaping} {t : ParseTree} (h : t.Expands g r right shaping) :
    (t.shape.1.label.rule g).bind (·.evaluator) = r.evaluator := by
  rw [ParseTree.label_shape, h.rule]
  rfl

/-- **The node of a join** covers what the row of its entries does, and is finished to these. -/
theorem ParseTree.Spelled.exists_entries {g : FlatGrammar} {table : SymbolTable} {r : Rule}
    {a : Auxiliaries} {own : List String} {t : ParseTree} {j : Join} {entry : Symbol}
    (hr : g.Lowered table r a own) (hkind : r.kind = .join j) (hj : j.entriesOnly = true)
    (hchildren : r.children = [entry]) (h : t.Spelled g)
    (hsymbol : t.label.symbol = .nonterminal r.target) :
    ∃ row entries, j.Spells entry row entries ∧ (∀ u ∈ row, u.Spelled g) ∧
      t.chars = row.flatMap chars ∧ j.count.Admits entries.length ∧
      t.shape.1.children = entries.map (·.shape.1) ∧
      (t.shape.1.label.rule g).bind (·.evaluator) = r.evaluator := by
  have hflattens : r.kind.Flattens := by rwa [hkind]
  obtain ⟨row, entries, hlists⟩ := hr.exists_lists hflattens h.full hsymbol
  obtain ⟨hunfolds, hcovers, ⟨entry', hentry, hspells⟩, hadmits, hfinished⟩ := hlists
  have hspelled : ∀ u ∈ row, u.Spelled g := by
    intro u hu
    obtain ⟨c, hc, hocc⟩ := hunfolds.occurs u hu
    exact h.of_occurs (hocc.trans (occurs_child hc))
  obtain rfl : entry = entry' := Option.some.inj (by rw [← hentry, hchildren]; rfl)
  rw [hkind] at hspells hadmits
  refine ⟨row, entries, hspells, hspelled, ?_, hadmits, hfinished, ?_⟩
  · rw [h.text t .root, ← hcovers, flatMap_chars hspelled]
  · rw [label_shape, hr.rule_label h.full hsymbol]
    rfl

section

variable {g : FlatGrammar} {t : ParseTree} {e : Evaluator}

/-- A tree with an evaluator has its value by that evaluator. -/
theorem ParseTree.exists_eq_node (h : (t.label.rule g).bind (·.evaluator) = some e) :
    ∃ l children, t = .node l children ∧ (l.rule g).bind (·.evaluator) = some e := by
  obtain ⟨l, children⟩ := t
  exact ⟨l, children, rfl, h⟩

theorem ParseTree.evaluate_of_first (h : (t.label.rule g).bind (·.evaluator) = some .first) :
    t.evaluate g = evaluateNth g 0 0 t.children := by
  obtain ⟨l, children, rfl, hl⟩ := exists_eq_node h
  rw [evaluate, hl]
  rfl

theorem ParseTree.evaluate_of_integer (h : (t.label.rule g).bind (·.evaluator) = some .integer) :
    t.evaluate g = t.label.integer := by
  obtain ⟨l, children, rfl, hl⟩ := exists_eq_node h
  rw [evaluate, hl]
  rfl

end

variable {G G' : Grammar} {x : String}

/-- In a compiled grammar there is one rule for the start symbol. -/
theorem Grammar.rulesFor_start_of_compile {top : Symbol}
    (h : (Grammar.compile top).run.run G = (.ok (), G')) :
    G'.rulesFor (startRule top).target = [startRule top] := by
  have hnone : (G.rules.filter (·.target ≠ SymbolTable.start)).toList.filter
      (·.target = (startRule top).target) = [] := by
    rw [List.filter_eq_nil_iff]
    intro r hr
    have hr := (Array.mem_filter.1 (Array.mem_toList_iff.1 hr)).2
    exact fun heq => of_decide_eq_true hr (of_decide_eq_true heq)
  rw [rulesFor, (compile_ok h).2.1, withStart, Array.toList_push, List.filter_append, hnone]
  simp

/-- It is realized. -/
theorem Grammar.exists_realized_start {top : Symbol} (hG : G.Reachable)
    (h : (Grammar.compile top).run.run G = (.ok (), G')) :
    ∃ i a, G'.flat.Realizes (startRule top) i a :=
  Grammar.exists_realized_of_compile hG h (Grammar.rulesFor_start_of_compile h)

variable (hG : G.Reachable) (h : (Grammar.compile (.nonterminal x)).run.run G = (.ok (), G'))
  {listeners : Nat} {input : String} {found : Option (List Completion)} {ctx : Context}

include hG h

/-- **A successful parse** has a node of the top symbol below its root. -/
theorem exists_spelled_of_successful
    (hout : ((parse G'.flat listeners input found).run ctx).1.tree.outcome = .successful) :
    ∃ t : ParseTree, t.Spelled G'.flat ∧ t.label.symbol = .nonterminal x ∧ t.chars = input.toList ∧
      ((parse G'.flat listeners input found).run ctx).1.tree.evaluate G'.flat
        = t.shape.1.evaluate G'.flat := by
  obtain ⟨i, a, hr⟩ := Grammar.exists_realized_start hG h
  rw [parse_tree] at hout ⊢
  have hd := (search_mem_ends G'.flat ctx.config input.toList).1
  generalize (search G'.flat ctx.config input.toList).derivation = d at hd hout
  have hc := Derivation.isComplete_of_outcome hd hout
  have hspelled := Derivation.spelled_tree hd hc
  have hvisible : .terminal .epsilon ∉ (startRule (.nonterminal x)).children := by
    simp [startRule, Rule.ofChildren, Symbol.unnamed]
  have hexpands := hspelled.of_sequence hr (Derivation.symbol_tree hd) hvisible rfl
  obtain ⟨t, e, hchildren, ⟨ht, htop⟩, ⟨he, hend⟩, hchars⟩ := hexpands.pair
  refine ⟨t, ht, htop, ?_, ?_⟩
  · have hend : e.chars = [] := he.writes hend
    have hfailed : d.tree.outcome ≠ .failed := by
      rw [← ParseTree.outcome_shape, hout]
      decide
    rw [hend, List.append_nil] at hchars
    rw [← hchars, ParseTree.chars,
      (root_of_mem_ends (Grammar.terminated_of_compile h) hd).2 hfailed, String.toList_ofList]
  · rw [ParseTree.evaluate_of_first hexpands.evaluator, hexpands.finished, hchildren]
    rfl

/-- **A parse is successful** if the top symbol affords the input. -/
theorem successful_of_affords {m : Nat} (hlimit : 0 < ctx.config.maxDepth)
    (hinput : G'.flat.Affords ctx.config.maxDepth 1 [.nonterminal x] input.toList m) :
    ((parse G'.flat listeners input found).run ctx).1.failure = none ∧
      ((parse G'.flat listeners input found).run ctx).1.tree.outcome = .successful := by
  obtain ⟨i, a, hr⟩ := Grammar.exists_realized_start hG h
  have hstart : ⟨SymbolTable.start, [.nonterminal x] ++ [.terminal .endOfInput]⟩ ∈ G'.flat.sides :=
    hr.drawn ⟨SymbolTable.start, [.nonterminal x, .terminal .endOfInput]⟩
      (List.mem_singleton_self _)
  have hout := outcome_of_exists_isComplete (exists_terminal_of_compile h)
    (hinput.exists_isComplete_initial hstart hlimit)
  rw [parse_failure_eq_none, parse_tree]
  exact ⟨by rw [hout]; decide, hout⟩

/-- **A parse reads a value** if the top symbol affords the input, and every node of it that covers
the input has this value. -/
theorem read_of_affords {m : Nat} {value : Evaluated} (hlimit : 0 < ctx.config.maxDepth)
    (hinput : G'.flat.Affords ctx.config.maxDepth 1 [.nonterminal x] input.toList m)
    (hvalue : ∀ t : ParseTree, t.Spelled G'.flat → t.label.symbol = .nonterminal x →
      t.chars = input.toList → t.shape.1.evaluate G'.flat = value) :
    ((parse G'.flat listeners input found).run ctx).1.failure = none ∧
      ((parse G'.flat listeners input found).run ctx).1.tree.outcome = .successful ∧
      ((parse G'.flat listeners input found).run ctx).1.tree.evaluate G'.flat = value := by
  obtain ⟨hfailure, hout⟩ := successful_of_affords hG h hlimit hinput
  obtain ⟨t, ht, hsymbol, hchars, heq⟩ := exists_spelled_of_successful hG h hout
  exact ⟨hfailure, hout, heq.trans (hvalue t ht hsymbol hchars)⟩

end Typeahead
