import Typeahead.Proofs.Grammar.Renamed
import Typeahead.Proofs.ParseTree.Kept

/-!
# Proofs/ParseTree/Relabelled — searches of grammars that differ in names and indices

A search looks at its grammar through the alternatives of the nonterminals it meets.  If these are
the same up to the names of nonterminals and the indices of rules, then so are all derivations
(`Branch.ends_relabel`), their trees (`Derivation.tree_relabel`) and the nodes on the ways to their
ends (`ParseTree.stuckNodes_relabel`).  For the names of nodes it matters whether a node
continues the rule of its parent, so different indices must stay different.
-/

namespace Typeahead

variable (ρ : String → String) (ι : Nat → Nat)

/-- The production with other names and another index of its rule. -/
def Production.relabel (p : Production) : Production :=
  { p with left := ρ p.left, right := p.right.map (Symbol.rename ρ), rule := p.rule.map ι }

/-- The step with a relabelled production. -/
def Step.relabel : Step → Step
  | .expand p pos => .expand (p.relabel ρ ι) pos
  | .accept t m => .accept t m

/-- The branch with all its symbols and productions relabelled. -/
def Branch.relabel (b : Branch) : Branch :=
  { b with pending := b.pending.map (Symbol.rename ρ), trace := b.trace.map (Step.relabel ρ ι) }

/-- The derivation with all its symbols and productions relabelled. -/
def Derivation.relabel (d : Derivation) : Derivation :=
  { d with trace := d.trace.map (Step.relabel ρ ι), pending := d.pending.map (Symbol.rename ρ) }

/-- The label with its symbol and production relabelled. -/
def Label.relabel (l : Label) : Label :=
  { l with symbol := l.symbol.rename ρ, production := l.production.map (Production.relabel ρ ι) }

/-- The tree with all its labels relabelled. -/
def ParseTree.relabel : ParseTree → ParseTree
  | node l children => node (l.relabel ρ ι) (children.map relabel)

/-- The visit with its label and the rule of its parent relabelled. -/
def Visit.relabel (v : Visit) : Visit := ⟨v.label.relabel ρ ι, v.parentRule.map ι⟩

/-- The place with its trees relabelled. -/
def Place.relabel (place : Place) : Place :=
  { place with trees := place.trees.map (ParseTree.relabel ρ ι) }

/-- The node with its trees relabelled. -/
def Node.relabel (n : Node) : Node := ⟨n.toVisit.relabel ρ ι, n.toPlace.relabel ρ ι⟩

variable {ρ ι}

/-! ## Searching -/

theorem Branch.accept_relabel (b : Branch) (t : Terminal) (seen : List Char) :
    (b.relabel ρ ι).accept t seen = (b.accept t seen).relabel ρ ι := by
  simp [accept, relabel, Step.relabel]

theorem Branch.expand_relabel (b : Branch) (p : Production) :
    (b.relabel ρ ι).expand (p.relabel ρ ι) = (b.expand p).relabel ρ ι := by
  simp [expand, relabel, Step.relabel, Production.relabel]

theorem Branch.pending_relabel {b : Branch} {s : Symbol} {pending : List Symbol}
    (hp : b.pending = s :: pending) :
    (b.relabel ρ ι).pending = s.rename ρ :: pending.map (Symbol.rename ρ) := by
  rw [relabel, hp, List.map_cons]

/-- **The ends of a relabelled branch** are those of the branch, relabelled, if the two grammars
have the same alternatives up to this for all names that can be met. -/
theorem Branch.ends_relabel {g g' : FlatGrammar} {cfg : Config} {met : String → Prop}
    (halternatives : ∀ x, met x →
      g'.alternatives (ρ x) = (g.alternatives x).map (Production.relabel ρ ι))
    (hmet : ∀ p ∈ g.productions, ∀ x, .nonterminal x ∈ p.right → met x) {b : Branch}
    (hb : ∀ x, .nonterminal x ∈ b.pending → met x) :
    (b.relabel ρ ι).ends g' cfg = (b.ends g cfg).map (Derivation.relabel ρ ι) := by
  fun_induction Branch.ends g cfg b with
  | case1 b hp =>
    rw [ends_nil (by simp [relabel, hp])]
    rfl
  | case2 b t pending hp seen hm ih =>
    rw [ends_accept (pending_relabel hp) hm, accept_relabel, ih fun x hx => hb x ?_]
    rw [accept_pending hp] at hx
    rw [hp]
    exact List.mem_cons_of_mem _ hx
  | case3 b t pending hp outcome seen hne hm =>
    rw [ends_stuck (pending_relabel hp) hm (by rintro rfl; exact hne rfl)]
    rfl
  | case4 b x pending hp hidle halt =>
    have hx : met x := hb x (by rw [hp]; exact List.mem_cons_self ..)
    rw [ends_givenUp (pending_relabel hp)
      (.inl (by rw [halternatives x hx, halt]; rfl))]
    rfl
  | case5 b x pending hp hidle halt ih =>
    have hx : met x := hb x (by rw [hp]; exact List.mem_cons_self ..)
    rw [ends_expand (pending_relabel hp) hidle
      (by rw [halternatives x hx]; exact fun h => halt (List.map_eq_nil_iff.1 h)),
      halternatives x hx, List.flatMap_map, List.map_flatMap]
    refine List.flatMap_congr fun p hp' => ?_
    rw [expand_relabel, ih p fun y hy => ?_]
    rw [expand_pending hp, List.mem_append] at hy
    rcases hy with hy | hy
    · exact hmet p (List.mem_of_mem_filter hp') y hy
    · exact hb y (by rw [hp]; exact List.mem_cons_of_mem _ hy)
  | case6 b x pending hp hidle =>
    rw [ends_givenUp (pending_relabel hp) (.inr (by simpa [relabel] using hidle))]
    rfl

/-! ## Trees -/

theorem ParseTree.relabel_node (l : Label) (children : List ParseTree) :
    (node l children).relabel ρ ι = node (l.relabel ρ ι) (children.map (relabel ρ ι)) := by
  rw [relabel]

theorem ParseTree.label_relabel (t : ParseTree) : (t.relabel ρ ι).label = t.label.relabel ρ ι := by
  obtain ⟨l, children⟩ := t
  rw [relabel]
  rfl

theorem ParseTree.relabel_leaf (s : Symbol) (m : Match) :
    (leaf s m).relabel ρ ι = leaf (s.rename ρ) m := by
  rw [leaf, relabel]
  rfl

namespace Derivation

theorem openLeaves_relabel (d : Derivation) :
    (d.relabel ρ ι).openLeaves = d.openLeaves.map (ParseTree.relabel ρ ι) := by
  obtain ⟨trace, pending, stuck, stop⟩ := d
  rcases stuck with _ | m <;> rcases pending with _ | ⟨s, pending⟩ <;>
    simp [openLeaves, relabel, ParseTree.relabel_leaf]

theorem undo_relabel (forest : List ParseTree) (s : Step) :
    undo (forest.map (ParseTree.relabel ρ ι)) (s.relabel ρ ι)
      = (undo forest s).map (ParseTree.relabel ρ ι) := by
  cases s with
  | accept t m => simp [undo, Step.relabel, ParseTree.relabel_leaf]
  | expand p pos =>
    have hresults : ((forest.take p.right.length).map (ParseTree.relabel ρ ι)).map (·.label.result)
        = (forest.take p.right.length).map (·.label.result) := by
      rw [List.map_map]
      exact List.map_congr_left fun t _ => by rw [Function.comp, ParseTree.label_relabel]; rfl
    simp only [undo, Step.relabel, Production.relabel, List.length_map, List.map_cons,
      ParseTree.relabel_node, ← List.map_take, ← List.map_drop, hresults]
    rfl

theorem forest_relabel (d : Derivation) :
    (d.relabel ρ ι).forest = d.forest.map (ParseTree.relabel ρ ι) := by
  rw [forest, forest, openLeaves_relabel]
  change (d.trace.map (Step.relabel ρ ι)).foldl undo _ = _
  generalize d.openLeaves = leaves
  induction d.trace generalizing leaves with
  | nil => rfl
  | cons s steps ih => rw [List.map_cons, List.foldl_cons, List.foldl_cons, undo_relabel, ih]

theorem rawTree_relabel (hstart : ρ SymbolTable.start = SymbolTable.start) (d : Derivation) :
    (d.relabel ρ ι).rawTree = d.rawTree.relabel ρ ι := by
  rw [rawTree, rawTree, forest_relabel]
  cases d.forest with
  | nil =>
    rw [List.map_nil, List.headD_nil, List.headD_nil, ParseTree.relabel_leaf,
      Symbol.rename_nonterminal, hstart]
    rfl
  | cons t ts => rfl

end Derivation

/-! ## Ways and names -/

theorem Label.ruleIndex_relabel (l : Label) : (l.relabel ρ ι).ruleIndex = l.ruleIndex.map ι := by
  rcases l with ⟨symbol, _ | p, result, tag⟩ <;> rfl

namespace ParseTree

theorem isStuckLeaf_relabel (l : Label) : (l.relabel ρ ι).isStuckLeaf = l.isStuckLeaf := by
  rcases l with ⟨symbol, _ | p, result, tag⟩ <;> rfl

theorem stuckPathAll?_relabel {ts : List ParseTree} {parentRule : Option Nat}
    (h : ∀ t ∈ ts, (t.relabel ρ ι).stuckPath? (parentRule.map ι)
      = (t.stuckPath? parentRule).map (List.map (Visit.relabel ρ ι))) :
    stuckPathAll? (parentRule.map ι) (ts.map (relabel ρ ι))
      = (stuckPathAll? parentRule ts).map (List.map (Visit.relabel ρ ι)) := by
  induction ts with
  | nil => rw [List.map_nil, stuckPathAll?, stuckPathAll?]; rfl
  | cons t ts ih =>
    obtain ⟨ht, hts⟩ := List.forall_mem_cons.1 h
    rw [List.map_cons, stuckPathAll?, stuckPathAll?, ht, ih hts]
    cases t.stuckPath? parentRule <;> rfl

/-- **The way to the stuck node** of a relabelled tree. -/
theorem stuckPath?_relabel (t : ParseTree) (parentRule : Option Nat) :
    (t.relabel ρ ι).stuckPath? (parentRule.map ι)
      = (t.stuckPath? parentRule).map (List.map (Visit.relabel ρ ι)) := by
  induction t using induction_on_children generalizing parentRule with
  | h l children ih =>
    rw [relabel_node, stuckPath?, stuckPath?, isStuckLeaf_relabel, Label.ruleIndex_relabel,
      stuckPathAll?_relabel fun t ht => ih t ht _]
    split
    · rfl
    · cases stuckPathAll? l.ruleIndex children <;> rfl

theorem stuckWayAll?_relabel {ts : List ParseTree} (i : Nat)
    (h : ∀ t ∈ ts, (t.relabel ρ ι).stuckWay? = t.stuckWay?) :
    stuckWayAll? i (ts.map (relabel ρ ι)) = stuckWayAll? i ts := by
  induction ts generalizing i with
  | nil => rfl
  | cons t ts ih =>
    obtain ⟨ht, hts⟩ := List.forall_mem_cons.1 h
    rw [List.map_cons, stuckWayAll?, stuckWayAll?, ht, ih (i + 1) hts]

/-- The stuck node of a relabelled tree is where it was. -/
theorem stuckWay?_relabel (t : ParseTree) : (t.relabel ρ ι).stuckWay? = t.stuckWay? := by
  induction t using induction_on_children with
  | h l children ih =>
    rw [relabel_node, stuckWay?, stuckWay?, isStuckLeaf_relabel, stuckWayAll?_relabel 0 ih]

theorem nodesOn_relabel (ts : List ParseTree) (path : List Visit) :
    nodesOn (ts.map (relabel ρ ι)) (path.map (Visit.relabel ρ ι))
      = (nodesOn ts path).map (Node.relabel ρ ι) := by
  simp only [nodesOn, stuckWayAll?_relabel 0 fun t _ => stuckWay?_relabel t, List.zipIdx_map,
    List.map_map]
  rfl

/-- **The nodes on the way to the stuck one** of relabelled trees. -/
theorem stuckNodes_relabel (ts : List ParseTree) :
    stuckNodes (ts.map (relabel ρ ι)) = (stuckNodes ts).map (Node.relabel ρ ι) := by
  have hpath : stuckPathAll? none (ts.map (relabel ρ ι))
      = (stuckPathAll? none ts).map (List.map (Visit.relabel ρ ι)) :=
    stuckPathAll?_relabel fun t _ => stuckPath?_relabel t none
  rw [stuckNodes, stuckNodes, stuckNodes?, stuckNodes?, hpath]
  cases stuckPathAll? none ts with
  | none => rfl
  | some path => exact nodesOn_relabel ts path

theorem withTags_relabel {ts : List ParseTree} {parentRule : Option Nat}
    (h : ∀ t ∈ ts, ∀ tag, (t.relabel ρ ι).withTag tag (parentRule.map ι)
      = (t.withTag tag parentRule).relabel ρ ι) (tags : List Tag) :
    withTags tags (parentRule.map ι) (ts.map (relabel ρ ι))
      = (withTags tags parentRule ts).map (relabel ρ ι) := by
  induction ts generalizing tags with
  | nil => rw [List.map_nil, withTags, withTags, List.map_nil]
  | cons t ts ih =>
    obtain ⟨ht, hts⟩ := List.forall_mem_cons.1 h
    rw [List.map_cons, withTags, withTags, List.map_cons, ht, ih hts]

end ParseTree

section

variable (hι : Function.Injective ι)

include hι

theorem Label.continues_relabel (parentRule : Option Nat) (l : Label) :
    (l.relabel ρ ι).continues (parentRule.map ι) = l.continues parentRule := by
  rw [continues, continues, ruleIndex_relabel, Option.isSome_map]
  congr 1
  exact decide_eq_decide.2 (Option.map_injective hι).eq_iff

theorem Visit.continues_relabel (v : Visit) : (v.relabel ρ ι).continues = v.continues :=
  v.label.continues_relabel hι v.parentRule

theorem Label.childTags_relabel (parentRule : Option Nat) (l : Label) (arity : Nat) :
    (l.relabel ρ ι).childTags (parentRule.map ι) arity = l.childTags parentRule arity := by
  have hentry : (l.relabel ρ ι).entryIndex (parentRule.map ι) = l.entryIndex parentRule := by
    rw [entryIndex, entryIndex, l.continues_relabel hι]
    rfl
  rw [childTags, childTags, hentry]
  rcases l with ⟨symbol, _ | p, result, tag⟩ <;> rfl

namespace ParseTree

theorem withTag_relabel (t : ParseTree) (tag : Tag) (parentRule : Option Nat) :
    (t.relabel ρ ι).withTag tag (parentRule.map ι) = (t.withTag tag parentRule).relabel ρ ι := by
  induction t using induction_on_children generalizing tag parentRule with
  | h l children ih =>
    have hlabel : { l.relabel ρ ι with tag := tag }
        = ({ l with tag := tag } : Label).relabel ρ ι := rfl
    rw [relabel_node, withTag, withTag, relabel_node, hlabel, List.length_map,
      Label.childTags_relabel hι, Label.ruleIndex_relabel,
      withTags_relabel fun t ht tag => ih t ht tag _]

end ParseTree

/-- **The tree of a relabelled derivation.** -/
theorem Derivation.tree_relabel (hstart : ρ SymbolTable.start = SymbolTable.start)
    (d : Derivation) : (d.relabel ρ ι).tree = d.tree.relabel ρ ι := by
  rw [tree, tree, ParseTree.named, ParseTree.named, rawTree_relabel hstart]
  exact ParseTree.withTag_relabel hι d.rawTree {} none

end

end Typeahead
