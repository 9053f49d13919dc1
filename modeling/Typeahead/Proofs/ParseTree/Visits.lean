import Typeahead.Proofs.ParseTree.Kept

/-!
# Proofs/ParseTree/Visits — what a walk through the tree of a derivation meets

Every node but the root is met below a node of a production that has its symbol on the right side
(`Part.mem_postorder`), and the rule of that production is what a visit knows of the node above.
The way to the stuck node is part of the walk through all nodes (`mem_postorder_of_mem_stuckPath`).
-/

namespace Typeahead

namespace ParseTree

variable {parentRule : Option Nat} {v : Visit}

theorem mem_postorderAll {ts : List ParseTree} :
    v ∈ postorderAll parentRule ts ↔ ∃ t ∈ ts, v ∈ postorder parentRule t := by
  induction ts with
  | nil => simp [postorderAll]
  | cons t ts ih => simp [postorderAll, ih]

theorem mem_postorder_node {l : Label} {children : List ParseTree} :
    v ∈ postorder parentRule (.node l children) ↔
      (∃ t ∈ children, v ∈ postorder l.ruleIndex t) ∨ v = ⟨l, parentRule⟩ := by
  rw [postorder, List.mem_append, mem_postorderAll, List.mem_singleton]

/-- The nodes on the way to the stuck node are nodes of the tree. -/
theorem mem_postorder_of_mem_stuckPath {t : ParseTree} {path : List Visit}
    (h : t.stuckPath? parentRule = some path) (hv : v ∈ path) : v ∈ t.postorder parentRule := by
  induction t using induction_on_children generalizing parentRule path with
  | h l children ih =>
    rw [mem_postorder_node]
    rw [stuckPath?] at h
    split at h
    next =>
      obtain rfl := Option.some.inj h
      exact .inr (List.mem_singleton.1 hv)
    next =>
      obtain ⟨path', hpath', rfl⟩ := Option.map_eq_some_iff.1 h
      obtain ⟨t, ht, hpath⟩ := stuckPathAll?_eq_some hpath'
      rcases List.mem_cons.1 hv with rfl | hv
      · exact .inr rfl
      · exact .inl ⟨t, ht, ih t ht hpath hv⟩

end ParseTree

namespace Derivation

variable {g : FlatGrammar} {d : Derivation} {t : ParseTree} {parentRule : Option Nat} {v : Visit}

/-- **Where a node is met**: at the root, or below a node of a production that uses its symbol. -/
theorem Part.mem_postorder (h : d.Part g t) (hv : v ∈ t.postorder parentRule) :
    v = ⟨t.label, parentRule⟩ ∨
      ∃ q ∈ g.productions, v.parentRule = q.rule ∧ v.label.symbol ∈ q.right := by
  induction h generalizing parentRule with
  | leaf =>
    rw [ParseTree.mem_postorder_node] at hv
    exact .inl (hv.resolve_left (by simp))
  | @node l p children hp hproduction _ hchildren _ _ ih =>
    rcases ParseTree.mem_postorder_node.1 hv with ⟨t, ht, hv⟩ | hv
    · rcases ih t ht hv with rfl | hq
      · refine .inr ⟨p, hp, by rw [Label.ruleIndex, hproduction]; rfl, ?_⟩
        rw [← hchildren]
        exact List.mem_map_of_mem ht
      · exact .inr hq
    · exact .inl hv

/-- The node of a production has its left side as symbol. -/
theorem Part.symbol_of_mem_postorder (h : d.Part g t) (hv : v ∈ t.postorder parentRule)
    {p : Production} (hp : v.label.production = some p) :
    p ∈ g.productions ∧ v.label.symbol = .nonterminal p.left := by
  induction h generalizing parentRule with
  | leaf hproduction =>
    obtain rfl := (ParseTree.mem_postorder_node.1 hv).resolve_left (by simp)
    rw [hproduction] at hp
    cases hp
  | node hp' hproduction hsymbol _ _ _ ih =>
    rcases ParseTree.mem_postorder_node.1 hv with ⟨t, ht, hv⟩ | rfl
    · exact ih t ht hv
    · obtain rfl := Option.some.inj (hproduction.symm.trans hp)
      exact ⟨hp', hsymbol⟩

end Derivation

end Typeahead
