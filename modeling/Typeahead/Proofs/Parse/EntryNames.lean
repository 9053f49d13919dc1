import Typeahead.Proofs.Parse.Joins
import Typeahead.Proofs.Parse.Trees
import Typeahead.Proofs.ParseTree.EntryNames

/-!
# Proofs/Parse/EntryNames — the names of the entries of a join in a successful parse

In the tree of a successful parse the children of a join's node are its entries, with the brackets
and delimiters around them unless only entries are kept.  `entryNames_of_parse` says what the
entries are called: the names of the rule are given to them by their places.

The place of an entry is its index, so the names are given in order, as long as the entries are not
more than the lower bound or the count is not open above.  Beyond that they start over: of at least
two digits the third one is called like the second (`entryNames_restart`).
-/

namespace Typeahead

open ParseTree (Occurs symbols)

/-! ## What a row spells -/

section

variable {j : Join} {entry : Symbol} {row entries entries' : List ParseTree}

theorem Join.Follows.unique (h : j.Follows entry row entries) (h' : j.Follows entry row entries') :
    entries = entries' := by
  induction h generalizing entries' with
  | nil =>
    generalize hrow : [] = row at h'
    cases h' with
    | nil => rfl
    | cons => simp at hrow
  | @cons before row entries t hbefore ht h ih =>
    generalize hrow : before ++ t :: row = row' at h'
    cases h' with
    | nil => simp at hrow
    | @cons before' row' entries' t' hbefore' ht' h' =>
      have hlength : before.length = before'.length := by
        simpa [symbols] using congrArg List.length (hbefore.trans hbefore'.symm)
      obtain ⟨rfl, rfl⟩ := List.cons.inj (List.append_inj_right hrow hlength)
      rw [ih h']

theorem Join.Lines.unique (h : j.Lines entry row entries) (h' : j.Lines entry row entries') :
    entries = entries' := by
  cases h with
  | nil => cases h'; rfl
  | cons ht h =>
    cases h' with
    | cons ht' h' => rw [h.unique h']

/-- **A row spells its entries in one way only.** -/
theorem Join.Spells.unique (h : j.Spells entry row entries) (h' : j.Spells entry row entries') :
    entries = entries' := by
  obtain ⟨opening, middle, closing, rfl, hopening, hlines, hclosing⟩ := h
  obtain ⟨opening', middle', closing', hrow, hopening', hlines', hclosing'⟩ := h'
  have hfirst : opening.length = opening'.length := by
    simpa [symbols] using congrArg List.length (hopening.trans hopening'.symm)
  have hlast : closing.length = closing'.length := by
    simpa [symbols] using congrArg List.length (hclosing.trans hclosing'.symm)
  have hfront := List.append_inj_left' hrow hlast
  obtain rfl := List.append_inj_right hfront hfirst
  exact hlines.unique hlines'

end

/-! ## An instance with three entries -/

namespace Grammar

/-- At least two digits separated by commas, with three names. -/
def severalDigits : Grammar :=
  ((modifyRule ⟨0, "l"⟩ fun rule => { rule.setCount ⟨2, Count.limit⟩ with
    names := [some "a", some "b", some "c"] }).run digits).2

/-- The grammar after its compile. -/
def severalDigitsCompiled : Grammar := ((compile (.nonterminal "l")).run.run severalDigits).2

theorem compile_severalDigits :
    (compile (.nonterminal "l")).run.run severalDigits = (.ok (), severalDigitsCompiled) := rfl

theorem reachable_severalDigits : severalDigits.Reachable := by
  have hdigits : digits.Reachable := Relation.ReflTransGen.single (.join ..)
  refine hdigits.tail (.modifyRule _ _ (fun r => ?_) fun r => ?_)
  · rcases hkind : r.kind <;> simp [Rule.setCount, hkind]
  · rcases hkind : r.kind <;> simp [Rule.setCount, Rule.symbols, Join.joints, hkind]

/-- What is joined. -/
def severalDigitsJoin : Join := { delimiter := some (.literal ","), count := ⟨2, Count.limit⟩ }

/-- The rule of the join. -/
def severalDigitsRule : Rule :=
  { Rule.ofChildren (.join severalDigitsJoin) "l" [(Symbol.terminal .digit).unnamed] with
    names := [some "a", some "b", some "c"] }

theorem rulesFor_severalDigits :
    severalDigitsCompiled.rulesFor "l" = [severalDigitsRule] := rfl

/-- The productions of the digits. -/
def severalDigitsProductions : List Production :=
  [⟨"l_next_0", [.literal ",", .terminal .digit], some 0, .delimited severalDigitsRule.names,
      .second⟩,
    ⟨"l_star_0", [.nonterminal "l_next_0", .nonterminal "l_star_0"], some 1,
      .entryAndTail [some "next"], .entryAndTail⟩,
    ⟨"l_star_0", [], some 1, .anonymous, .keep⟩,
    ⟨"l_rest_0", [.nonterminal "l_next_0", .nonterminal "l_star_0"], some 0, .numbered,
      .spreadLast⟩,
    ⟨"l_repetition_0", [.terminal .digit, .nonterminal "l_rest_0"], some 0,
      .headed severalDigitsRule.names "rest", .headed⟩,
    ⟨"l", [.nonterminal "l_repetition_0"], some 0, .wrapped, .wrapped⟩,
    ⟨"S'", [.nonterminal "l", .terminal .endOfInput], some 2, .positional [none, none], .keep⟩]

theorem productions_severalDigits :
    severalDigitsCompiled.flat.productions = severalDigitsProductions := by
  decide +kernel

/-- The tree of three digits, by its outcome and what is below its children. -/
theorem search_severalDigits {g : FlatGrammar} (hg : g.productions = severalDigitsProductions) :
    let t := (search g {} "1,2,3".toList).derivation.tree.shape.1
    (t.outcome, t.children.map fun u =>
        (u.label.symbol, ParseTree.symbols u.children, ParseTree.names u.children)) =
      (.successful, [(.nonterminal "l", List.replicate 3 (.terminal .digit),
        [some "a", some "b", some "b"]), (.terminal .endOfInput, [], [])]) := by
  obtain ⟨symbols, productions, rules⟩ := g
  subst hg
  cbv

theorem successful_severalDigits :
    ((parse severalDigitsCompiled.flat 0 "1,2,3" none).run {}).1.tree.outcome = .successful := by
  rw [parse_tree]
  exact congrArg Prod.fst (search_severalDigits productions_severalDigits)

/-- The node of the digits, and what is below it. -/
theorem occurs_severalDigits :
    ∃ u, Occurs u ((parse severalDigitsCompiled.flat 0 "1,2,3" none).run {}).1.tree ∧
      u.label.symbol = .nonterminal "l" ∧
      ParseTree.symbols u.children = List.replicate 3 (.terminal .digit) ∧
      ParseTree.names u.children = [some "a", some "b", some "b"] := by
  rw [parse_tree]
  have hchildren := congrArg Prod.snd (search_severalDigits productions_severalDigits)
  obtain ⟨u, us, heq, hu, -⟩ := List.map_eq_cons_iff.1 hchildren
  obtain ⟨hsymbol, hbelow⟩ := Prod.mk.inj hu
  exact ⟨u, ParseTree.occurs_child (heq ▸ List.mem_cons_self ..), hsymbol, Prod.mk.inj hbelow⟩

end Grammar

/-! ## Successful parses -/

/-- **The entries of a join are named by their places.**  A node of a join that is the only rule of
its target shows certain entries, as many as the rule admits, and these have the names that the rule
gives to their places.  Unless the count is open above and there are more entries than needed, the
place of an entry is its index. -/
theorem entryNames_of_parse {G G' : Grammar} {top : Symbol} (hG : G.Reachable)
    (hcompile : (Grammar.compile top).run.run G = (.ok (), G')) {r : Rule} {j : Join}
    (hkind : r.kind = .join j) (honly : G'.rulesFor r.target = [r])
    (hvisible : .terminal .epsilon ∉ r.symbols) {listeners : Nat} {input : String}
    {found : Option (List Completion)} {ctx : Context}
    (hsuccessful : ((parse G'.flat listeners input found).run ctx).1.tree.outcome = .successful)
    {u : ParseTree} (hu : Occurs u ((parse G'.flat listeners input found).run ctx).1.tree)
    (hsymbol : u.label.symbol = .nonterminal r.target) :
    ∃ entry entries, r.children.head? = some entry ∧
      (∀ row, j.shown.Spells entry u.children row ↔ row = entries) ∧
      j.count.Admits entries.length ∧
      ParseTree.names entries =
        (List.range entries.length).map (fun i => r.names.nameAt (j.count.place i)) ∧
      ((j.count.upper = Count.limit → 1 < j.count.lower → entries.length ≤ j.count.lower) →
        ParseTree.names entries = (List.range entries.length).map r.names.nameAt) := by
  obtain ⟨lots, hallots, hknown, l, hl, rfl, hlot⟩ := Grammar.exists_lot_of_compile hG hcompile honly
  obtain ⟨hbalanced, hcount⟩ := hallots.joins l hl j hkind
  rw [parse_tree] at hsuccessful hu
  have hd := (search_mem_ends G'.flat ctx.config input.toList).1
  have hfull := Derivation.full_tree hd (Derivation.isComplete_of_outcome hd hsuccessful)
  obtain ⟨s, hs, rfl⟩ := hu.of_shape
  rw [ParseTree.label_shape] at hsymbol
  obtain ⟨parentRule, htagged⟩ := (Derivation.tagged_tree _).of_occurs hs
  -- a node of the target is made from a draft of the rule, which therefore has an entry
  obtain ⟨entry, hentry⟩ : ∃ entry, l.rule.children.head? = some entry := by
    obtain ⟨p, hp, -, hleft, -⟩ := (hfull.of_occurs hs).of_nonterminal hsymbol
    obtain ⟨d, hd⟩ := hallots.exists_mem_drafts hknown hl hlot hp (hleft ▸ List.mem_cons_self ..)
    rw [Lot.drafts, Rule.drafts, hkind] at hd
    rcases hchildren : l.rule.children with _ | ⟨entry, more⟩
    · rw [hchildren] at hd
      cases hd
    · exact ⟨entry, rfl⟩
  have hdraws := hallots.draws hknown hl hlot hkind hentry hvisible
  obtain ⟨entries, hspells, hadmits, hnames⟩ := ParseTree.exists_named hdraws hbalanced hcount
    (hfull.of_occurs hs) htagged hsymbol (List.mem_cons_self ..)
  refine ⟨entry, entries, hentry, fun row => ⟨fun h => h.unique hspells, fun h => h ▸ hspells⟩,
    hadmits, hnames, fun hfew => hnames.trans (List.map_congr_left fun i hi => ?_)⟩
  rw [Count.place_eq fun hlimit hlower => ?_]
  exact (List.mem_range.1 hi).trans_le (hfew hlimit hlower)

/-- The three digits of `1,2,3`. -/
theorem entryNames_of_parse_severalDigits :
    Grammar.severalDigits.Reachable ∧
    (Grammar.compile (.nonterminal "l")).run.run Grammar.severalDigits
      = (.ok (), Grammar.severalDigitsCompiled) ∧
    Grammar.severalDigitsRule.kind = .join Grammar.severalDigitsJoin ∧
    Grammar.severalDigitsCompiled.rulesFor "l" = [Grammar.severalDigitsRule] ∧
    ((parse Grammar.severalDigitsCompiled.flat 0 "1,2,3" none).run {}).1.tree.outcome
      = .successful ∧
    ∃ u entries,
      Occurs u ((parse Grammar.severalDigitsCompiled.flat 0 "1,2,3" none).run {}).1.tree ∧
      u.label.symbol = .nonterminal "l" ∧
      Join.Spells {} (.terminal .digit) u.children entries ∧
      ParseTree.names entries = (List.range entries.length).map fun i =>
        Grammar.severalDigitsRule.names.nameAt (Grammar.severalDigitsJoin.count.place i) := by
  have hsuccessful := Grammar.successful_severalDigits
  obtain ⟨u, hu, hsymbol, -, -⟩ := Grammar.occurs_severalDigits
  obtain ⟨entry, entries, hentry, hspells, -, hnames, -⟩ :=
    entryNames_of_parse (r := Grammar.severalDigitsRule) Grammar.reachable_severalDigits
      Grammar.compile_severalDigits rfl Grammar.rulesFor_severalDigits (by decide) hsuccessful hu
      hsymbol
  obtain rfl : .terminal .digit = entry := Option.some.inj hentry
  exact ⟨Grammar.reachable_severalDigits, rfl, rfl, Grammar.rulesFor_severalDigits, hsuccessful, u,
    entries, hu, hsymbol, (hspells entries).2 rfl, hnames⟩

/-- **The names of the entries start over**: of three digits, where there have to be two, the third
is called like the second. -/
theorem entryNames_restart :
    (Grammar.compile (.nonterminal "l")).run.run Grammar.severalDigits
      = (.ok (), Grammar.severalDigitsCompiled) ∧
    Grammar.severalDigitsCompiled.rulesFor "l" = [Grammar.severalDigitsRule] ∧
    ((parse Grammar.severalDigitsCompiled.flat 0 "1,2,3" none).run {}).1.tree.outcome
      = .successful ∧
    ∃ u, Occurs u ((parse Grammar.severalDigitsCompiled.flat 0 "1,2,3" none).run {}).1.tree ∧
      u.label.symbol = .nonterminal "l" ∧
      symbols u.children = List.replicate 3 (.terminal .digit) ∧
      ParseTree.names u.children = [some "a", some "b", some "b"] ∧
      ParseTree.names u.children ≠
        (List.range u.children.length).map Grammar.severalDigitsRule.names.nameAt := by
  obtain ⟨u, hu, hsymbol, hdigits, hnames⟩ := Grammar.occurs_severalDigits
  refine ⟨rfl, Grammar.rulesFor_severalDigits, Grammar.successful_severalDigits, u, hu, hsymbol,
    hdigits, hnames, ?_⟩
  have hlength : u.children.length = 3 := by
    simpa [ParseTree.names] using congrArg List.length hnames
  rw [hnames, hlength]
  decide

end Typeahead
