import Typeahead.Proofs.Grammar.Tidy
import Typeahead.Proofs.ParseTree.InPlace

/-!
# Proofs/ParseTree/Terminals — the terminals of a finished tree

The nodes of terminals stay in the finished tree, in their order, unless they stand below a bracket
or a delimiter of a join that wants its entries only (`StoredTree.keptTerminals`).  For one node this
is how its production is shaped (`FlatGrammar.Drops.terminals_kept`), and the trees below it are
finished by then (`Derivation.Part.terminals_finished`).
-/

namespace Typeahead

namespace StoredTree

mutual

/-- **The nodes of terminals**, from the left to the right. -/
def terminals : StoredTree → List Nat
  | node x l children => (if l.symbol.isTerminal then [x] else []) ++ terminalsAll children

/-- The nodes of terminals of several trees. -/
def terminalsAll : List StoredTree → List Nat
  | [] => []
  | t :: ts => terminals t ++ terminalsAll ts

end

mutual

/-- **The nodes of terminals** without those below brackets and delimiters that are left out. -/
def keptTerminals (g : FlatGrammar) : StoredTree → List Nat
  | node x l children =>
    let places := match l.production with
      | some p => g.jointPlaces p
      | none => []
    (if l.symbol.isTerminal then [x] else []) ++ keptTerminalsAll g places 0 children

/-- The same for several trees, the first of which has the place `i` below its parent. -/
def keptTerminalsAll (g : FlatGrammar) (places : List Nat) (i : Nat) : List StoredTree → List Nat
  | [] => []
  | t :: ts => (if i ∈ places then [] else keptTerminals g t) ++ keptTerminalsAll g places (i + 1) ts

end

variable {g : FlatGrammar} {t : StoredTree} {x : String}

@[simp] theorem terminalsAll_nil : terminalsAll [] = [] := by rw [terminalsAll]

@[simp] theorem terminalsAll_cons (t : StoredTree) (ts : List StoredTree) :
    terminalsAll (t :: ts) = t.terminals ++ terminalsAll ts := by rw [terminalsAll]

@[simp] theorem terminalsAll_append (ts us : List StoredTree) :
    terminalsAll (ts ++ us) = terminalsAll ts ++ terminalsAll us := by
  induction ts with
  | nil => simp
  | cons t ts ih => simp [ih]

/-- Below a nonterminal the terminals are those of the children. -/
theorem terminals_of_nonterminal (h : t.label.symbol = .nonterminal x) :
    t.terminals = terminalsAll t.children := by
  obtain ⟨i, l, children⟩ := t
  rw [terminals, show l.symbol = _ from h]
  rfl

theorem terminalsAll_flatMap_children {ts : List StoredTree}
    (h : ∀ t ∈ ts, ∃ x, t.label.symbol = .nonterminal x) :
    terminalsAll (ts.flatMap (·.children)) = terminalsAll ts := by
  induction ts with
  | nil => rfl
  | cons t ts ih =>
    obtain ⟨⟨x, hx⟩, hts⟩ := List.forall_mem_cons.1 h
    rw [List.flatMap_cons, terminalsAll_append, terminalsAll_cons, ih hts,
      terminals_of_nonterminal hx]

/-- Where nothing is left out, all trees keep their terminals. -/
theorem keptTerminalsAll_nil {ts : List StoredTree}
    (h : ∀ t ∈ ts, t.finished.terminals = t.keptTerminals g) (i : Nat) :
    keptTerminalsAll g [] i ts = terminalsAll (ts.map finished) := by
  induction ts generalizing i with
  | nil => rw [keptTerminalsAll, List.map_nil, terminalsAll_nil]
  | cons t ts ih =>
    obtain ⟨ht, hts⟩ := List.forall_mem_cons.1 h
    rw [keptTerminalsAll, if_neg List.not_mem_nil, ih hts, ← ht, List.map_cons, terminalsAll_cons]

theorem eq_pair_of_map {ts : List StoredTree} {s s' : Symbol}
    (h : ts.map (·.label.symbol) = [s, s']) :
    ∃ t t', ts = [t, t'] ∧ t.label.symbol = s ∧ t'.label.symbol = s' := by
  obtain ⟨t, us, rfl, ht, hus⟩ := List.map_eq_cons_iff.1 h
  obtain ⟨t', rfl, ht'⟩ := List.map_eq_singleton_iff.1 hus
  exact ⟨t, t', rfl, ht, ht'⟩

theorem eq_triple_of_map {ts : List StoredTree} {s s' s'' : Symbol}
    (h : ts.map (·.label.symbol) = [s, s', s'']) : ∃ t t' t'', ts = [t, t', t''] ∧
      t.label.symbol = s ∧ t'.label.symbol = s' ∧ t''.label.symbol = s'' := by
  obtain ⟨t, us, rfl, ht, hus⟩ := List.map_eq_cons_iff.1 h
  obtain ⟨t', t'', rfl, ht', ht''⟩ := eq_pair_of_map hus
  exact ⟨t, t', t'', rfl, ht, ht', ht''⟩

theorem eq_concat_of_map {ts : List StoredTree} {ss : List Symbol} {s : Symbol}
    (h : ts.map (·.label.symbol) = ss ++ [s]) :
    ∃ us t, ts = us ++ [t] ∧ us.map (·.label.symbol) = ss ∧ t.label.symbol = s := by
  obtain ⟨us, vs, rfl, hus, hvs⟩ := List.map_eq_append_iff.1 h
  obtain ⟨t, rfl, ht⟩ := List.map_eq_singleton_iff.1 hvs
  exact ⟨us, t, rfl, hus, ht⟩

end StoredTree

open StoredTree (terminalsAll keptTerminalsAll eq_pair_of_map eq_triple_of_map eq_concat_of_map)

variable {g : FlatGrammar} {table : SymbolTable} {shaping : Shaping} {right : List Symbol}
  {places : List Nat} {children : List StoredTree} {T : String → Prop}

/-! ## Nodes with nonterminals only -/

/-- What is kept below a node that folds are nodes of nonterminals. -/
theorem Folded.nonterminals_kept (h : Folded T right shaping)
    (hsymbols : children.map (·.label.symbol) = right)
    (hfolds : ∀ t ∈ children, ∀ x, T x → t.label.symbol = .nonterminal x →
      ∀ u ∈ t.children, ∃ y, u.label.symbol = .nonterminal y) :
    ∀ u ∈ shaping.kept children, ∃ y, u.label.symbol = .nonterminal y := by
  cases h with
  | keep h => exact fun u hu => h _ (hsymbols ▸ List.mem_map_of_mem hu)
  | @entryAndTail x y hy =>
    obtain ⟨entry, tail, rfl, hentry, htail⟩ := eq_pair_of_map hsymbols
    exact List.forall_mem_cons.2 ⟨⟨x, hentry⟩, hfolds tail (by simp) y hy htail⟩
  | @spreadLast right y h hy =>
    obtain ⟨before, last, rfl, hbefore, hlast⟩ := eq_concat_of_map hsymbols
    simp only [Shaping.kept, List.getLast?_concat, List.dropLast_concat]
    refine List.forall_mem_append.2 ⟨fun u hu => ?_, hfolds last (by simp) y hy hlast⟩
    exact h _ (hbefore ▸ List.mem_map_of_mem hu)

namespace Derivation

variable {d : Derivation}

/-- **The tree of a node with a production**: its children have the right side of that production. -/
theorem Part.node_cases {x : Nat} {l : Label} (h : d.Part g (StoredTree.node x l children).tree) :
    l.production = none ∧ children = [] ∨ ∃ p ∈ g.productions, l.production = some p ∧
      l.symbol = .nonterminal p.left ∧ children.map (·.label.symbol) = p.right ∧
      ∀ t ∈ children, d.Part g t.tree := by
  rw [StoredTree.tree_node] at h
  generalize hts : children.map StoredTree.tree = ts at h
  cases h with
  | leaf hproduction => exact .inl ⟨hproduction, List.map_eq_nil_iff.1 hts⟩
  | node hp hproduction hsymbol hchildren _ hparts =>
    subst hts
    refine .inr ⟨_, hp, hproduction, hsymbol, ?_, List.forall_mem_map.1 hparts⟩
    rw [← hchildren, ParseTree.symbols, List.map_map]
    exact List.map_congr_left fun t _ => by rw [Function.comp, StoredTree.label_tree]

/-- **A finished node of a name that folds** has children of nonterminals only. -/
theorem Part.nonterminals_finished (hT : g.Folds table T) {t : StoredTree} (h : d.Part g t.tree)
    {x : String} (hx : T x) (hsymbol : t.label.symbol = .nonterminal x) :
    ∀ u ∈ t.finished.children, ∃ y, u.label.symbol = .nonterminal y := by
  induction t using StoredTree.induction_on_children generalizing x with
  | h i l children ih =>
    rw [StoredTree.finished_node]
    rcases h.node_cases with ⟨hproduction, rfl⟩ | ⟨p, hp, hproduction, hleft, hright, hparts⟩
    · rw [Label.shaping, hproduction]
      exact List.forall_mem_nil _
    · obtain rfl : p.left = x := Symbol.nonterminal.inj (hleft.symm.trans hsymbol)
      rw [Label.shaping, hproduction]
      refine (hT.folded p hp hx).nonterminals_kept ?_ (List.forall_mem_map.2 fun t ht y hy => ?_)
      · exact (StoredTree.symbols_finished children).trans hright
      · rw [StoredTree.label_finished]
        exact ih t ht (hparts t ht) hy

end Derivation

/-! ## The terminals below a node -/

/-- **A node keeps the terminals below it**, except at the places of what its production drops. -/
theorem FlatGrammar.Drops.terminals_kept (h : g.Drops table right shaping places)
    (hsymbols : children.map (·.label.symbol) = right)
    (hkept : ∀ t ∈ children, t.finished.terminals = t.keptTerminals g)
    (hfolds : ∀ T, g.Folds table T → ∀ t ∈ children, ∀ x, T x → t.label.symbol = .nonterminal x →
      ∀ u ∈ t.finished.children, ∃ y, u.label.symbol = .nonterminal y) :
    terminalsAll (shaping.kept (children.map StoredTree.finished))
      = keptTerminalsAll g places 0 children := by
  have hspread : ∀ t ∈ children, ∀ x, t.label.symbol = .nonterminal x →
      terminalsAll t.finished.children = t.finished.terminals := by
    intro t ht x hx
    exact (StoredTree.terminals_of_nonterminal (by rwa [StoredTree.label_finished])).symm
  cases h with
  | keep => exact (StoredTree.keptTerminalsAll_nil hkept 0).symm
  | entryAndTail =>
    obtain ⟨entry, tail, rfl, -, htail⟩ := eq_pair_of_map hsymbols
    simp [Shaping.kept, keptTerminalsAll, hkept, hspread tail (by simp) _ htail]
  | second =>
    obtain ⟨delimiter, entry, rfl, -, -⟩ := eq_pair_of_map hsymbols
    simp [Shaping.kept, keptTerminalsAll, hkept]
  | headed _ hT hx =>
    obtain ⟨entry, rest, rfl, -, hrest⟩ := eq_pair_of_map hsymbols
    have hfollowers := StoredTree.terminalsAll_flatMap_children
      (hfolds _ hT rest (by simp) _ hx hrest)
    simp [Shaping.kept, keptTerminalsAll, hkept, hfollowers, hspread rest (by simp) _ hrest]
  | spreadLast =>
    obtain ⟨before, last, rfl, -, hlast⟩ := eq_concat_of_map hsymbols
    rw [StoredTree.keptTerminalsAll_nil hkept]
    simp [Shaping.kept, hspread last (by simp) _ hlast]
  | brackets =>
    obtain ⟨opening, middle, closing, rfl, -, hmiddle, -⟩ := eq_triple_of_map hsymbols
    simp [Shaping.kept, keptTerminalsAll, hkept, hspread middle (by simp) _ hmiddle]
  | noBrackets =>
    obtain ⟨opening, middle, closing, rfl, -, hmiddle, -⟩ := eq_triple_of_map hsymbols
    simp [Shaping.kept, keptTerminalsAll, hkept, hspread middle (by simp) _ hmiddle]
  | wrapped =>
    obtain ⟨first, rfl, hfirst⟩ := List.map_eq_singleton_iff.1 hsymbols
    simp [Shaping.kept, keptTerminalsAll, hkept, hspread first (by simp) _ hfirst]

/-- **The terminals of a finished tree** are those it had, without what stood below joints that are
left out. -/
theorem Derivation.Part.terminals_finished {d : Derivation} (hg : g.Clean table) {t : StoredTree}
    (h : d.Part g t.tree) : t.finished.terminals = t.keptTerminals g := by
  induction t using StoredTree.induction_on_children with
  | h i l children ih =>
    rw [StoredTree.finished_node, StoredTree.terminals, StoredTree.keptTerminals, Label.shaping]
    rcases h.node_cases with ⟨hproduction, rfl⟩ | ⟨p, hp, hproduction, -, hright, hparts⟩
    · rw [hproduction, keptTerminalsAll]
      rfl
    · rw [hproduction]
      refine congrArg _
        ((hg.drops p hp).terminals_kept hright (fun t ht => ih t ht (hparts t ht)) ?_)
      exact fun T hT t ht x => (hparts t ht).nonterminals_finished hT

end Typeahead
