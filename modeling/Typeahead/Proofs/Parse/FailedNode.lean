import Typeahead.Proofs.Parse.FailureOffset
import Typeahead.Proofs.ParseTree.Climbing
import Typeahead.Proofs.ParseTree.Leaves
import Typeahead.Proofs.ParseTree.Lost

/-!
# Proofs/Parse/FailedNode — whether a failed node is in the tree that is exposed

The node that a failure reports is the only one that the derivation found is stuck on
(`exists_failsAt`).  It is settled before the tree is finished, and to finish the tree may cut it
off: the brackets and delimiters of a join that wants its entries only are left out together with
what failed in them, and a nonterminal that was given up may be spliced.  In all other cases the
root leads to the failed node through children, and the failed node leads to the root through
parents (`connected_of_parse`).

So the failed terminal of a parse may not be connected to the tree that is exposed
(`not_connected`).
-/

namespace Typeahead

open ParseTree (leavesAll stuckPath? stuckPathAll?)
open StoredTree (idsAll)

/-! ## The node that a derivation is stuck on -/

section

variable {g : FlatGrammar} {cfg : Config} {input : List Char} {d : Derivation}

/-- The terminals that a derivation matched were matched successfully. -/
theorem Branch.successful_of_mem_matched {b : Branch}
    (hb : ∀ s ∈ Step.matched b.trace, s.2.outcome = .successful) (hd : d ∈ b.ends g cfg) :
    ∀ s ∈ Step.matched d.trace, s.2.outcome = .successful := by
  fun_induction Branch.ends g cfg b with
  | case1 b | case3 b | case4 b | case6 b =>
    obtain rfl := List.mem_singleton.1 hd
    exact hb
  | case2 b t pending hp seen hm ih =>
    refine ih ?_ hd
    rw [Branch.accept, Step.matched_accept]
    exact List.forall_mem_append.2 ⟨hb, List.forall_mem_singleton.2 rfl⟩
  | case5 b x pending hp hidle halt ih =>
    obtain ⟨p, -, hdp⟩ := List.mem_flatMap.1 hd
    exact ih p hb hdp

/-- **One leaf is stuck** if the derivation is. -/
theorem Derivation.countP_isStuckLeaf (hd : d ∈ (Branch.initial input).ends g cfg) {s : Symbol}
    {m : Match} (hon : d.StuckOn s m) (hstuck : m.outcome.isStuck = true) :
    d.tree.leaves.countP Label.isStuckLeaf = 1 := by
  have hleaf : ∀ l ∈ d.tree.leaves,
      l.isStuckLeaf = true ↔ l.scanned.2.outcome.isStuck = true := by
    intro l hl
    rw [Label.isStuckLeaf, (ParseTree.holds_of_mem_leaves hl).2]
    exact Iff.rfl
  have hmatched : ∀ s ∈ Step.matched d.trace, ¬ s.2.outcome.isStuck = true := by
    intro s hs
    rw [Branch.successful_of_mem_matched (List.forall_mem_nil _) hd s hs]
    exact Bool.false_ne_true
  obtain ⟨pending, hp⟩ := List.head?_eq_some_iff.1 hon.1
  have hopen : ∀ s ∈ (pending.map fun s => ParseTree.leaf s (.notParsed d.stop)).map
      (·.label.scanned), ¬ s.2.outcome.isStuck = true := by
    simp [ParseTree.leaf, ParseTree.label, Label.scanned, Match.notParsed, Outcome.isStuck]
  have hcount : d.tree.leaves.countP Label.isStuckLeaf
      = (d.tree.leaves.map Label.scanned).countP (·.2.outcome.isStuck) := by
    rw [List.countP_map]
    exact List.countP_congr hleaf
  rw [hcount, leaves_tree hd, List.countP_append, List.countP_eq_zero.2 hmatched,
    openLeaves_of_stuck hon.2 hp, List.map_cons, List.countP_cons_of_pos,
    List.countP_eq_zero.2 hopen]
  exact hstuck

end

namespace Arena

variable {a a' : Arena} {p : Option Nat} {s : StoredTree}

/-- **The derivation is stuck on a node**: it is a leaf, and it did not match. -/
def IsStuck (a : Arena) (i : Nat) : Prop := (a.label? i).any (·.isStuckLeaf) = true

instance (a : Arena) (i : Nat) : Decidable (a.IsStuck i) := inferInstanceAs (Decidable (_ = _))

theorem isStuck_iff {i : Nat} :
    a.IsStuck i ↔ ∃ l, a.label? i = some l ∧ l.isStuckLeaf = true := by
  rw [IsStuck, Option.any_eq_true]

/-- A stored tree has as many stuck nodes as the tree has stuck leaves. -/
theorem Holds.countP_isStuck (h : a.Holds p s) :
    s.ids.countP (fun i => a.IsStuck i) = s.tree.leaves.countP Label.isStuckLeaf := by
  induction h with
  | @node parent x l children hcell hchildren ih =>
    have hall : ∀ ts ⊆ children, (idsAll ts).countP (fun i => a.IsStuck i)
        = (leavesAll (ts.map StoredTree.tree)).countP Label.isStuckLeaf := by
      intro ts hts
      induction ts with
      | nil => simp
      | cons t ts ihs =>
        obtain ⟨ht, hts⟩ := List.cons_subset.1 hts
        simp [ih t ht, ihs hts]
    have hx : a.IsStuck x ↔ l.isStuckLeaf = true := by
      rw [IsStuck, label?, hcell]
      exact Iff.rfl
    rw [StoredTree.ids_node, StoredTree.tree_node, ParseTree.leaves, List.countP_cons,
      hall children (List.Subset.refl _)]
    by_cases hleaf : l.production.isNone = true
    · simp [hleaf, hx, List.countP_cons]
    · have hnot : ¬ l.isStuckLeaf = true := by simp [Label.isStuckLeaf, hleaf]
      simp [hleaf, hx, hnot]

/-- If one leaf is stuck, one node is. -/
theorem Holds.exists_isStuck (h : a.Holds p s)
    (hone : s.tree.leaves.countP Label.isStuckLeaf = 1) :
    ∃ i, ∀ j, j ∈ s.ids ∧ a.IsStuck j ↔ j = i := by
  rw [← h.countP_isStuck, List.countP_eq_length_filter, List.length_eq_one_iff] at hone
  obtain ⟨i, hi⟩ := hone
  refine ⟨i, fun j => ?_⟩
  rw [← List.mem_singleton, ← hi, List.mem_filter, decide_eq_true_iff]

/-- A label that a stored tree holds is that of one of its nodes. -/
theorem Holds.holds_iff (h : a.Holds p s) {l : Label} :
    s.tree.Holds l ↔ ∃ i ∈ s.ids, a.label? i = some l := by
  induction h with
  | @node parent x l' children hcell hchildren ih =>
    have hx : a.label? x = some l' := by rw [label?, hcell]; rfl
    rw [StoredTree.tree_node, ParseTree.holds_node, StoredTree.ids_node, List.exists_mem_cons_iff,
      hx, Option.some.injEq, eq_comm (a := l)]
    refine or_congr_right ⟨?_, ?_⟩
    · rintro ⟨_, hu, hl⟩
      obtain ⟨t, ht, rfl⟩ := List.mem_map.1 hu
      obtain ⟨i, hi, hlabel⟩ := (ih t ht).1 hl
      exact ⟨i, StoredTree.mem_idsAll.2 ⟨t, ht, hi⟩, hlabel⟩
    · rintro ⟨i, hi, hlabel⟩
      obtain ⟨t, ht, hi⟩ := StoredTree.mem_idsAll.1 hi
      exact ⟨t.tree, List.mem_map_of_mem ht, (ih t ht).2 ⟨i, hi, hlabel⟩⟩

/-- **A failure is about a node** of a stored tree: no other node of it is stuck, and the label of
this one is reported. -/
structure FailsAt (a : Arena) (s : StoredTree) (f : Failure) (i : Nat) : Prop where
  stuck_iff : ∀ j ∈ s.ids, a.IsStuck j ↔ j = i
  mem : i ∈ s.ids
  label : a.label? i = f.failed

/-- **The tree of a failed parse was finished in place**: what is stored then is the tree that the
parse exposes, and the labels are the same. -/
structure FinishesFailed (a : Arena) (s : StoredTree) (exposed : ParseTree) (f : Failure)
    (a' : Arena) (i : Nat) : Prop where
  finish : a.finish s.id = some a'
  represents : a'.Represents exposed s.finished
  labels : ∀ j, a'.label? j = a.label? j
  failed : a.FailsAt s f i

variable {exposed : ParseTree} {f : Failure} {i : Nat}

theorem FinishesFailed.reaches_iff (h : a.FinishesFailed s exposed f a' i) :
    a'.Reaches s.id i ↔ i ∈ s.finished.ids := by
  rw [← s.id_finished]
  exact h.represents.holds.reaches_iff

/-- **The failed node can be reached** if there is a stuck node in the tree that is exposed. -/
theorem FinishesFailed.reaches_iff_stuckPath (h : a.FinishesFailed s exposed f a' i) :
    a'.Reaches s.id i ↔ (exposed.stuckPath? none).isSome = true := by
  have hstuck : ∀ j, a'.IsStuck j ↔ a.IsStuck j := fun j => by rw [IsStuck, IsStuck, h.labels]
  rw [h.reaches_iff, Option.isSome_iff_exists, ← h.represents.tree]
  constructor
  · intro hi
    have hon : a'.IsStuck i := (hstuck i).2 ((h.failed.stuck_iff i h.failed.mem).2 rfl)
    obtain ⟨l, hlabel, hleaf⟩ := isStuck_iff.1 hon
    have hholds := h.represents.holds.holds_iff.2 ⟨i, hi, hlabel⟩
    exact ParseTree.exists_stuckPath?_of_holds hholds hleaf none
  · rintro ⟨path, hpath⟩
    obtain ⟨v, -, hleaf, hholds⟩ := ParseTree.holds_of_stuckPath? hpath
    obtain ⟨j, hj, hlabel⟩ := h.represents.holds.holds_iff.1 hholds
    have hon : a.IsStuck j := (hstuck j).1 (by rwa [IsStuck, hlabel])
    rwa [(h.failed.stuck_iff j (s.ids_finished_sublist.subset hj)).1 hon] at hj

end Arena

/-! ## The failed node of a parse -/

section

variable {g : FlatGrammar} {listeners : Nat} {input : String} {found : Option (List Completion)}
  {ctx : Context} {f : Failure} {a : Arena} {s : StoredTree}

/-- The node that a failure reports is a leaf of the tree found, before that is finished. -/
theorem holds_of_failure (h : ((parse g listeners input found).run ctx).1.failure = some f) :
    ∃ l, f.failed = some l ∧ l.isStuckLeaf = true ∧
      (search g ctx.config input.toList).derivation.tree.Holds l := by
  obtain ⟨rfl, n, hlast, -⟩ := explain_of_parse h
  refine ⟨n.label, (run_explain hlast _).1, ?_⟩
  rw [Attempt.failedPath, attempt_tree, attempt_dropped] at hlast
  obtain ⟨t, ht, path, hpath, hlast⟩ := ParseTree.exists_path_of_getLast?_stuckNodes hlast
  obtain ⟨v, hlast', hleaf, hholds⟩ := ParseTree.holds_of_stuckPath? hpath
  obtain rfl : v = n.toVisit := Option.some.inj (hlast'.symm.trans hlast)
  exact ⟨hleaf, (ParseTree.holds_shape _ _).1 ⟨t, ht, hholds⟩⟩

/-- **A failure of a parse** is about one node of the tree found. -/
theorem exists_failsAt (h : ((parse g listeners input found).run ctx).1.failure = some f)
    (hs : a.Represents (search g ctx.config input.toList).derivation.tree s) :
    ∃ i, a.FailsAt s f i := by
  have hmem := (search_mem_ends g ctx.config input.toList).1
  obtain ⟨l, hlabel, hleaf, hholds⟩ := holds_of_failure h
  have hon := (Derivation.part_tree hmem).stuckOn_of_holds hholds hleaf
  have hstuck : l.result.outcome.isStuck = true := by
    rw [Label.isStuckLeaf, Bool.and_eq_true] at hleaf
    exact hleaf.2
  have hone : s.tree.leaves.countP Label.isStuckLeaf = 1 := by
    rw [hs.tree, Derivation.countP_isStuckLeaf hmem hon hstuck]
  obtain ⟨i, hiff⟩ := hs.holds.exists_isStuck hone
  rw [← hs.tree, hs.holds.holds_iff] at hholds
  obtain ⟨k, hk, hkl⟩ := hholds
  obtain rfl : k = i := (hiff k).1 ⟨hk, by rwa [Arena.IsStuck, hkl]⟩
  exact ⟨k, fun j hj => ⟨fun h => (hiff j).1 ⟨hj, h⟩, fun h => ((hiff j).2 h).2⟩, hk,
    hkl.trans hlabel.symm⟩

/-- **The tree of a failed parse is finished in place**, however it was stored. -/
theorem exists_finishesFailed (h : ((parse g listeners input found).run ctx).1.failure = some f)
    (hs : a.Represents (search g ctx.config input.toList).derivation.tree s) :
    ∃ a' i, a.FinishesFailed s ((parse g listeners input found).run ctx).1.tree f a' i := by
  obtain ⟨i, hi⟩ := exists_failsAt h hs
  obtain ⟨a', hfinish, hafter, hlabels⟩ := hs.finish
  have htree : ((parse g listeners input found).run ctx).1.tree = _ := parse_tree
  rw [← htree] at hafter
  exact ⟨a', i, hfinish, hafter, hlabels, hi⟩

end

section

variable {G G' : Grammar} {top : Symbol} {listeners : Nat} {input : String}
  {found : Option (List Completion)} {ctx : Context} {f : Failure}

/-- **Whether a failed node is connected** to the tree that a parse exposes.  However the tree found
is stored and finished in place, the failed node leads to the root through parents just if the root
leads to it through children.  They do unless the failed node stands at or below a joint, that is a
bracket or a delimiter of a join that wants its entries only, or was spliced; and terminals are not
spliced. -/
theorem connected_of_parse (hG : G.Reachable)
    (hvisible : ∀ r ∈ G.rules, r.kind.Rebuilds → .terminal .epsilon ∉ r.symbols)
    (hcompile : (Grammar.compile top).run.run G = (.ok (), G'))
    (h : ((parse G'.flat listeners input found).run ctx).1.failure = some f) :
    (∃ a s, Arena.Represents a (search G'.flat ctx.config input.toList).derivation.tree s) ∧
    ∀ a s, Arena.Represents a (search G'.flat ctx.config input.toList).derivation.tree s →
      ∃ a' i, a.FinishesFailed s ((parse G'.flat listeners input found).run ctx).1.tree f a' i ∧
        (a'.ClimbsTo s.id i ↔ a'.Reaches s.id i) ∧
        (a'.Reaches s.id i ↔ ¬ (s.BelowJoint G'.flat i ∨ s.Spliced i)) ∧
        ∀ l, f.failed = some l → l.symbol.isTerminal = true → ¬ s.Spliced i := by
  have hclean := Grammar.clean_of_searched hG hvisible hcompile .whole
  have hmem := (search_mem_ends G'.flat ctx.config input.toList).1
  refine ⟨Arena.exists_represents _, fun a s hs => ?_⟩
  have hpart := hs.tree ▸ Derivation.part_tree hmem
  obtain ⟨a', i, hi⟩ := exists_finishesFailed h hs
  refine ⟨a', i, hi, hs.climbsTo_iff hi.finish hi.failed.mem, ?_, ?_⟩
  · rw [hi.reaches_iff, hpart.mem_ids_finished hclean hs.nodup, and_iff_right hi.failed.mem]
  · intro l hl hterminal hspliced
    obtain ⟨l', x, hl', hsymbol⟩ :=
      hpart.nonterminal_of_spliced hclean hs.holds hs.nodup hspliced
    obtain rfl : l' = l := Option.some.inj (hl'.symm.trans (hi.failed.label.trans hl))
    rw [hsymbol] at hterminal
    cases hterminal

end

/-! ### Brackets that fail -/

/-- **A parse fails at a symbol whose node is cut off**: the root does not lead to it, and its
parents do not lead to the root. -/
def CutsOff (g : FlatGrammar) (input : String) (x : Symbol) : Prop :=
  ∃ (f : Failure) (a : Arena) (s : StoredTree) (a' : Arena) (i : Nat),
    ((parse g 0 input none).run {}).1.failure = some f ∧ f.failed.map (·.symbol) = some x ∧
    a.Represents (search g {} input.toList).derivation.tree s ∧
    a.FinishesFailed s ((parse g 0 input none).run {}).1.tree f a' i ∧
    ¬ a'.Reaches s.id i ∧ ¬ a'.ClimbsTo s.id i

/-- A derivation fails at a symbol, and when its tree is finished no node in it is stuck. -/
structure Derivation.Loses (d : Derivation) (x : Symbol) : Prop where
  symbol : d.pending.head? = some x
  outcome : d.tree.shape.1.outcome = .failed
  stuckPath : d.tree.shape.1.stuckPath? none = none

theorem Arena.FinishesFailed.not_reaches {g : FlatGrammar} {input : String} {x : Symbol}
    {a a' : Arena} {s : StoredTree} {f : Failure} {i : Nat}
    (hi : a.FinishesFailed s ((parse g 0 input none).run {}).1.tree f a' i)
    (h : (search g {} input.toList).derivation.Loses x) : ¬ a'.Reaches s.id i := by
  rw [hi.reaches_iff_stuckPath, parse_tree]
  change ¬ ((search g {} input.toList).derivation.tree.shape.1.stuckPath? none).isSome = true
  rw [h.stuckPath]
  exact Bool.false_ne_true

theorem exists_failure_of_loses {g : FlatGrammar} {input : String} {x : Symbol}
    (h : (search g {} input.toList).derivation.Loses x) :
    ∃ f, ((parse g 0 input none).run {}).1.failure = some f ∧ f.failed.map (·.symbol) = some x := by
  have hfailed : ((parse g 0 input none).run {}).1.failure ≠ none := by
    rw [Ne, parse_failure_eq_none, parse_tree, not_not]
    exact h.outcome
  obtain ⟨f, hf⟩ := Option.ne_none_iff_exists'.1 hfailed
  obtain ⟨l, hl, -, hhead, -⟩ := failed_of_parse hf
  refine ⟨f, hf, ?_⟩
  rw [hl, Option.map_some, ← h.symbol]
  exact hhead.symm

theorem cutsOff_of_loses {g : FlatGrammar} {input : String} {x : Symbol}
    (h : (search g {} input.toList).derivation.Loses x) : CutsOff g input x := by
  obtain ⟨f, hf, hsymbol⟩ := exists_failure_of_loses h
  obtain ⟨a, s, hs⟩ := Arena.exists_represents (search g {} input.toList).derivation.tree
  obtain ⟨a', i, hi⟩ := exists_finishesFailed hf hs
  have hreaches := hi.not_reaches h
  have hclimbs := mt (hs.climbsTo_iff hi.finish hi.failed.mem).1 hreaches
  exact ⟨f, a, s, a', i, hf, hsymbol, hs, hi, hreaches, hclimbs⟩

namespace Grammar

/-- Digits behind an opening bracket, by a join. -/
def brackets (closing : Terminal) (entriesOnly : Bool) : Grammar :=
  ((join (some "l") (Symbol.terminal .digit).unnamed
    { opening := some (.literal "("), closing := some (.terminal closing), entriesOnly }).run {}).2

/-- The grammar after its compile. -/
def bracketsCompiled (closing : Terminal) (entriesOnly : Bool) : Grammar :=
  ((compile (.nonterminal "l")).run.run (brackets closing entriesOnly)).2

theorem compile_brackets : (compile (.nonterminal "l")).run.run (brackets (.literal ")") true)
    = (.ok (), bracketsCompiled (.literal ")") true) := rfl

theorem compile_openBracket : (compile (.nonterminal "l")).run.run (brackets .epsilon false)
    = (.ok (), bracketsCompiled .epsilon false) := rfl

theorem reachable_brackets (closing : Terminal) (entriesOnly : Bool) :
    (brackets closing entriesOnly).Reachable :=
  Relation.ReflTransGen.single (.join ..)

/-- The rule of the join. -/
def bracketsRule (closing : Terminal) (entriesOnly : Bool) : Rule :=
  Rule.ofChildren
    (.join { opening := some (.literal "("), closing := some (.terminal closing), entriesOnly }) "l"
    [(Symbol.terminal .digit).unnamed]

theorem rules_brackets (closing : Terminal) (entriesOnly : Bool) :
    (brackets closing entriesOnly).rules = #[bracketsRule closing entriesOnly] := rfl

theorem visible_brackets : ∀ r ∈ (brackets (.literal ")") true).rules,
    r.kind.Rebuilds → .terminal .epsilon ∉ r.symbols := by
  intro r hr _
  obtain rfl : r = bracketsRule (.literal ")") true := by simpa [rules_brackets] using hr
  decide

/-- The production of the join. -/
def bracketsProduction (closing : List Symbol) (keepBrackets : Bool) : Production :=
  ⟨"l", .literal "(" :: .nonterminal "l_repetition_0" :: closing, some 0, .bracketed keepBrackets,
    .bracketed keepBrackets⟩

/-- The production of the start symbol. -/
def bracketsStart : Production :=
  ⟨"S'", [.nonterminal "l", .terminal .endOfInput], some 2, .positional [none, none], .keep⟩

/-- The productions of the grammar. -/
def bracketsProductions (closing : List Symbol) (keepBrackets : Bool) : List Production :=
  [⟨"l_next_0", [.terminal .digit], some 0, .following [none], .keep⟩,
    ⟨"l_star_0", [.nonterminal "l_next_0", .nonterminal "l_star_0"], some 1,
      .entryAndTail [some "next"], .entryAndTail⟩,
    ⟨"l_star_0", [], some 1, .anonymous, .keep⟩,
    ⟨"l_repetition_0", [.terminal .digit, .nonterminal "l_star_0"], some 0,
      .headed [none] "star", .headed⟩,
    ⟨"l_repetition_0", [], some 0, .anonymous, .keep⟩,
    bracketsProduction closing keepBrackets, bracketsStart]

/-- **On `x` the opening bracket fails.** -/
theorem search_brackets (symbols : SymbolTable) (rules : Array Rule) (closing : List Symbol)
    (keepBrackets : Bool) :
    (search ⟨symbols, bracketsProductions closing keepBrackets, rules⟩ {} "x".toList).derivation
      = ⟨[.expand (bracketsProduction closing keepBrackets) 0, .expand bracketsStart 0],
        .literal "(" :: .nonterminal "l_repetition_0" :: (closing ++ [.terminal .endOfInput]),
        some ⟨.failed, 0, "x"⟩, 0⟩ := by
  cbv

/-- The bracket is dropped, as the entries only are kept. -/
theorem loses_brackets : (search (bracketsCompiled (.literal ")") true).flat {}
    "x".toList).derivation.Loses (.literal "(") := by
  obtain ⟨symbols, rules, hflat⟩ : ∃ symbols rules, (bracketsCompiled (.literal ")") true).flat
    = ⟨symbols, bracketsProductions [.literal ")"] false, rules⟩ := ⟨_, _, rfl⟩
  rw [hflat, search_brackets]
  exact ⟨rfl, rfl, rfl⟩

/-- The bracket is dropped, as the node has two children and not three. -/
theorem loses_openBracket : (search (bracketsCompiled .epsilon false).flat {}
    "x".toList).derivation.Loses (.literal "(") := by
  obtain ⟨symbols, rules, hflat⟩ : ∃ symbols rules, (bracketsCompiled .epsilon false).flat
    = ⟨symbols, bracketsProductions [] true, rules⟩ := ⟨_, _, rfl⟩
  rw [hflat, search_brackets]
  exact ⟨rfl, rfl, rfl⟩

end Grammar

/-- On `x` the opening bracket failed.  It cannot be reached, so it stands at a joint. -/
theorem connected_of_parse_brackets :
    (∀ r ∈ (Grammar.brackets (.literal ")") true).rules,
      r.kind.Rebuilds → .terminal .epsilon ∉ r.symbols) ∧
    (Grammar.compile (.nonterminal "l")).run.run (Grammar.brackets (.literal ")") true)
      = (.ok (), Grammar.bracketsCompiled (.literal ")") true) ∧
    ∃ (f : Failure) (a : Arena) (s : StoredTree) (a' : Arena) (i : Nat),
      ((parse (Grammar.bracketsCompiled (.literal ")") true).flat 0 "x" none).run {}).1.failure
        = some f ∧ f.failed.map (·.symbol) = some (.literal "(") ∧
      a.FinishesFailed s ((parse (Grammar.bracketsCompiled (.literal ")") true).flat 0 "x"
        none).run {}).1.tree f a' i ∧
      ¬ a'.Reaches s.id i ∧
      s.BelowJoint (Grammar.bracketsCompiled (.literal ")") true).flat i := by
  obtain ⟨f, hf, hsymbol⟩ := exists_failure_of_loses Grammar.loses_brackets
  obtain ⟨⟨a, s, hs⟩, hfinish⟩ := connected_of_parse (Grammar.reachable_brackets _ _)
    Grammar.visible_brackets Grammar.compile_brackets hf
  obtain ⟨a', i, hi, -, hreaches, hterminal⟩ := hfinish a s hs
  obtain ⟨l, hl, hliteral⟩ := Option.map_eq_some_iff.1 hsymbol
  have hlost := hi.not_reaches Grammar.loses_brackets
  have hjoint := (not_not.1 (mt hreaches.2 hlost)).resolve_right
    (hterminal l hl (by rw [hliteral]; rfl))
  exact ⟨Grammar.visible_brackets, Grammar.compile_brackets, f, a, s, a', i, hf, hsymbol, hi, hlost,
    hjoint⟩

/-- **A failed terminal may be cut off.**  A join that wants its entries only drops the bracket that
failed on `x`.  If the closing bracket is empty, a join that keeps its brackets does so as well: its
node has not the three children that the shaping expects. -/
theorem not_connected :
    (Grammar.compile (.nonterminal "l")).run.run (Grammar.brackets (.literal ")") true)
      = (.ok (), Grammar.bracketsCompiled (.literal ")") true) ∧
    CutsOff (Grammar.bracketsCompiled (.literal ")") true).flat "x" (.literal "(") ∧
    (Grammar.compile (.nonterminal "l")).run.run (Grammar.brackets .epsilon false)
      = (.ok (), Grammar.bracketsCompiled .epsilon false) ∧
    CutsOff (Grammar.bracketsCompiled .epsilon false).flat "x" (.literal "(") :=
  ⟨Grammar.compile_brackets, cutsOff_of_loses Grammar.loses_brackets, Grammar.compile_openBracket,
    cutsOff_of_loses Grammar.loses_openBracket⟩

end Typeahead
