import Typeahead.Evaluation
import Typeahead.Proofs.Parse.Joins
import Typeahead.Proofs.Parse.Trees
import Typeahead.Proofs.ParseTree.Unfolded

/-!
# Proofs/Parse/Entries — repetitions are parsed to flat lists

In the tree of a successful parse every node of a repetition has its entries as children, and nothing
else.  What the entries are is read off the derivation: the tails and auxiliary nodes below the node
are opened, and the row that comes of it spells the entries, with delimiters and brackets if there
are any (`ParseTree.Lists`).  Their number is one that the rule admits, and unless the rule is given
an evaluator the value of the node is the list of their values (`entries_of_parse`).
-/

namespace Typeahead

open ParseTree (Occurs Unfolds leavesAll)

/-- What may lie between a node of a rule and its entries: more nodes of its target, and nodes of
names that were made up. -/
def Rule.Inner (r : Rule) (table : SymbolTable) (x : String) : Prop :=
  x = r.target ∨ table.knows x = false

/-- **A node lists entries of a rule.** -/
structure ParseTree.Lists (table : SymbolTable) (r : Rule) (s : ParseTree)
    (row entries : List ParseTree) : Prop where
  /-- The row is what the node unfolds to. -/
  unfolds : Unfolds (r.Inner table) s.children row
  covers : leavesAll row = s.leaves
  /-- The entries are the children of the rule in this row. -/
  spells : ∃ entry, r.children.head? = some entry ∧ r.kind.joins.Spells entry row entries
  admits : r.kind.Admits entries.length
  /-- The finished node has just the finished entries as children. -/
  finished : s.shape.1.children = entries.map (·.shape.1)

variable {g : FlatGrammar} {table : SymbolTable} {r : Rule} {a : Auxiliaries} {own : List String}
  {s t : ParseTree}

/-! ## Entries -/

/-- The nonterminals that a join was lowered with have its productions. -/
theorem FlatGrammar.Lowered.joins (h : g.Lowered table r a own) {j : Join} {entry : Symbol}
    (hj : r.kind = .join j) (hentry : r.children.head? = some entry) :
    g.Joins j a r.target entry own where
  nodup := by
    refine List.nodup_cons.2 ⟨fun hmem => ?_, h.fresh.nodup⟩
    have hknows := h.table_target
    rw [h.fresh.unknown _ hmem] at hknows
    cases hknows
  form p hp hown := by
    obtain ⟨entry', hentry', hform⟩ := (Rule.form_of_join hj).1 (h.form p hp hown).1
    obtain rfl := Option.some.inj (hentry.symm.trans hentry')
    exact hform
  closed p hp hown := (h.form p hp hown).2

/-- The target of any other repetition has the productions of one. -/
theorem FlatGrammar.Lowered.iterates (h : g.Lowered table r a own) (hj : ∀ j, r.kind ≠ .join j)
    (hkind : r.kind.Flattens) {child : Symbol} (hchild : r.children.head? = some child) :
    ∀ p ∈ g.productions, p.left = r.target →
      Sides.Iterates r.target child r.kind.Admits ⟨p.left, p.right⟩ p.shaping := by
  intro p hp hleft
  obtain ⟨child', hchild', hiterates⟩ :=
    (Rule.form_of_ne_join hj hkind).1 (h.form p hp (hleft ▸ h.target)).1
  obtain rfl := Option.some.inj (hchild.symm.trans hchild')
  exact hiterates

theorem RuleKind.joins_of_ne_join {kind : RuleKind} (h : ∀ j, kind ≠ .join j) :
    kind.joins = {} := by
  cases kind with
  | join j => exact absurd rfl (h j)
  | _ => rfl

/-- **The nodes of a repetition list its entries.** -/
theorem FlatGrammar.Lowered.exists_lists (h : g.Lowered table r a own) (hkind : r.kind.Flattens)
    (hs : s.Full g) (hsymbol : s.label.symbol = .nonterminal r.target) :
    ∃ row entries, s.Lists table r row entries := by
  have hinner : ∀ x ∈ own, r.Inner table x := h.unknown
  obtain ⟨p, hp, hproduction, hleft, -, hfull⟩ := hs.of_nonterminal hsymbol
  have hcovers : ∀ {row}, Unfolds (r.Inner table) s.children row → leavesAll row = s.leaves := by
    intro row hunfolds
    obtain ⟨l, children⟩ := s
    rw [ParseTree.leaves_node (by rw [show l.production = _ from hproduction]; nofun)]
    exact (hunfolds.leavesAll_eq hfull).2
  have hform := (h.form p hp (hleft ▸ h.target)).1
  by_cases hj : ∃ j, r.kind = .join j
  · obtain ⟨j, hj⟩ := hj
    obtain ⟨entry, hentry, -⟩ := (Rule.form_of_join hj).1 hform
    have hentries : j.entriesOnly = true := by rwa [hj] at hkind
    obtain ⟨row, entries, hunfolds, hspells, hadmits, hfinished⟩ :=
      hs.exists_spells (h.joins hj hentry) hentries hinner hsymbol h.target
    refine ⟨row, entries, hunfolds, hcovers hunfolds, ⟨entry, hentry, ?_⟩, ?_, hfinished⟩
    · rwa [hj]
    · rwa [hj]
  · have hj : ∀ j, r.kind ≠ .join j := not_exists.1 hj
    obtain ⟨child, hchild, -⟩ := (Rule.form_of_ne_join hj hkind).1 hform
    obtain ⟨items, hunfolds, hitems, hadmits, hfinished⟩ :=
      hs.exists_items (h.iterates hj hkind hchild) (hinner _ h.target) hsymbol
    refine ⟨items, items, hunfolds, hcovers hunfolds, ⟨child, hchild, ?_⟩, hadmits, hfinished⟩
    rw [RuleKind.joins_of_ne_join hj]
    exact Join.spells_plain fun i hi => (hitems i hi).2.1

/-! ## Values -/

namespace ParseTree

theorem evaluateAll_eq_mapM (ts : List ParseTree) :
    evaluateAll g ts = ts.mapM (evaluate g) := by
  induction ts with
  | nil => rfl
  | cons t ts ih =>
    rw [evaluateAll, List.mapM_cons, ← ih]
    rcases evaluate g t with e | v
    · rfl
    · rcases evaluateAll g ts with e | vs <;> rfl

/-- The list of the values of the children, or the first error among them. -/
theorem evaluate_of_all (hrule : t.label.rule g = some r) (hr : r.evaluator = some .all) :
    t.evaluate g = (t.children.mapM (evaluate g)).map .list := by
  obtain ⟨l, children⟩ := t
  have hl : (l.rule g).bind (·.evaluator) = some .all := by
    rw [show l.rule g = some r from hrule]
    exact hr
  rw [evaluate, hl, ← evaluateAll_eq_mapM]
  rfl

end ParseTree

theorem RuleKind.Flattens.defaultEvaluator {kind : RuleKind} (h : kind.Flattens) :
    Rule.defaultEvaluator kind = some .all := by
  cases kind with
  | sequence | choice => exact h.elim
  | _ => rfl

/-- The nodes of a rule that is the only one of its target are governed by it. -/
theorem FlatGrammar.Lowered.rule_label (h : g.Lowered table r a own) (hs : s.Full g)
    (hsymbol : s.label.symbol = .nonterminal r.target) : s.label.rule g = some r := by
  obtain ⟨p, hp, hproduction, hleft, -, -⟩ := hs.of_nonterminal hsymbol
  obtain ⟨i, hi, hri⟩ := h.rule p hp hleft
  refine Label.rule_eq hri ?_
  rw [Label.ruleIndex, hproduction]
  exact hi

/-! ## Successful parses -/

/-- **Every node of a repetition has its entries as children**, as many as its rule admits, and
unless the rule has another evaluator their values make its value. -/
theorem entries_of_parse {G G' : Grammar} {top : Symbol} (hG : G.Reachable)
    (hcompile : (Grammar.compile top).run.run G = (.ok (), G')) {r : Rule}
    (honly : G'.rulesFor r.target = [r]) (hkind : r.kind.Flattens)
    (hvisible : .terminal .epsilon ∉ r.symbols) {listeners : Nat} {input : String}
    {found : Option (List Completion)} {ctx : Context}
    (hsuccessful : ((parse G'.flat listeners input found).run ctx).1.tree.outcome = .successful)
    {u : ParseTree} (hu : Occurs u ((parse G'.flat listeners input found).run ctx).1.tree)
    (hsymbol : u.label.symbol = .nonterminal r.target) :
    ∃ s row entries, Occurs s (search G'.flat ctx.config input.toList).derivation.tree ∧
      u = s.shape.1 ∧ s.Lists G'.symbols r row entries ∧
      (r.evaluator = Rule.defaultEvaluator r.kind →
        u.evaluate G'.flat = (u.children.mapM (ParseTree.evaluate G'.flat)).map .list) := by
  obtain ⟨a, own, hlowered⟩ := Grammar.exists_lowered_of_compile hG hcompile honly hkind hvisible
  rw [parse_tree] at hsuccessful hu
  have hd := (search_mem_ends G'.flat ctx.config input.toList).1
  have hfull := Derivation.full_tree hd (Derivation.isComplete_of_outcome hd hsuccessful)
  obtain ⟨s, hs, rfl⟩ := hu.of_shape
  rw [ParseTree.label_shape] at hsymbol
  have hs' := hfull.of_occurs hs
  obtain ⟨row, entries, hlists⟩ := hlowered.exists_lists hkind hs' hsymbol
  refine ⟨s, row, entries, hs, rfl, hlists, fun hevaluator => ?_⟩
  refine ParseTree.evaluate_of_all ?_ (hevaluator.trans hkind.defaultEvaluator)
  rw [ParseTree.label_shape]
  exact hlowered.rule_label hs' hsymbol

namespace Grammar

/-- The start symbol derives the digits and the end of input. -/
theorem start_digitList : ∀ p ∈ digitListCompiled.flat.productions, p.left = SymbolTable.start →
    p.right = [.nonterminal "l", .terminal .endOfInput] ∧ p.shaping = .keep := by
  decide +kernel

theorem successful_digitList :
    ((parse digitListCompiled.flat 0 "1,2" none).run {}).1.tree.outcome = .successful := by
  rw [parse_tree]
  refine outcome_of_exists_isComplete (exists_terminal_of_compile compile_digitList) ?_
  obtain ⟨d, hd, hc, -⟩ := (@mem_ends_iff_leftmost _ {} _ _).2 leftmost_digitList
  exact ⟨d, hd, hc⟩

/-- The digits are found below the root. -/
theorem occurs_digitList :
    ∃ u, Occurs u ((parse digitListCompiled.flat 0 "1,2" none).run {}).1.tree ∧
      u.label.symbol = .nonterminal "l" := by
  have hsuccessful := successful_digitList
  rw [parse_tree] at hsuccessful ⊢
  have hd := (search_mem_ends digitListCompiled.flat {} "1,2".toList).1
  have hfull := Derivation.full_tree hd (Derivation.isComplete_of_outcome hd hsuccessful)
  obtain ⟨p, hp, hproduction, hleft, hchildren, -⟩ :=
    hfull.of_nonterminal (Derivation.symbol_tree hd)
  obtain ⟨hright, hshaping⟩ := start_digitList p hp hleft
  obtain ⟨t, rest, heq, ht, -⟩ := ParseTree.symbols_eq_cons.1 (hchildren.trans hright)
  refine ⟨t.shape.1, ParseTree.occurs_child ?_, ?_⟩
  · rw [ParseTree.children_shape hproduction, hshaping, heq]
    exact List.mem_cons_self ..
  · rw [ParseTree.label_shape, ht]

end Grammar

/-- The digits of `1,2`. -/
theorem entries_of_parse_digitList :
    Grammar.digitList.Reachable ∧
    (Grammar.compile (.nonterminal "l")).run.run Grammar.digitList
      = (.ok (), Grammar.digitListCompiled) ∧
    Grammar.digitListCompiled.rulesFor "l" = [Grammar.digitListRule] ∧
    ((parse Grammar.digitListCompiled.flat 0 "1,2" none).run {}).1.tree.outcome = .successful ∧
    ∃ u s : ParseTree, ∃ row entries,
      Occurs u ((parse Grammar.digitListCompiled.flat 0 "1,2" none).run {}).1.tree ∧
      u.label.symbol = .nonterminal "l" ∧ u = s.shape.1 ∧
      s.Lists Grammar.digitListCompiled.symbols Grammar.digitListRule row entries ∧
      u.evaluate Grammar.digitListCompiled.flat
        = (u.children.mapM (ParseTree.evaluate Grammar.digitListCompiled.flat)).map .list := by
  have honly : Grammar.digitListCompiled.rulesFor "l" = [Grammar.digitListRule] := by rfl
  have hsuccessful := Grammar.successful_digitList
  obtain ⟨u, hu, hsymbol⟩ := Grammar.occurs_digitList
  obtain ⟨s, row, entries, -, hshape, hlists, hvalue⟩ :=
    entries_of_parse (r := Grammar.digitListRule) Grammar.reachable_digitList
      Grammar.compile_digitList honly rfl (by decide) hsuccessful hu hsymbol
  exact ⟨Grammar.reachable_digitList, rfl, honly, hsuccessful, u, s, row, entries, hu, hsymbol,
    hshape, hlists, hvalue rfl⟩

end Typeahead
