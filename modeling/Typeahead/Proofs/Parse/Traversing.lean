import Typeahead.Proofs.Parse.Trees
import Typeahead.Proofs.ParseTree.Planted

/-!
# Proofs/Parse/Traversing — who is told about a tree, and when

The tree of every derivation that a search reaches is built in an arena, and its listeners are told
(`Arena.traversed_of_search`).  Productions hear of their nodes from the top, rules of theirs from the
bottom; both walks go through the nodes that can be reached from the root, each of them once and from
the left to the right.
-/

namespace Typeahead

/-- **A tree was traversed** in an arena, first from the top, which named its nodes, and then from the
bottom. -/
structure Arena.Traversed (g : FlatGrammar) (t : ParseTree) (root : Nat) (a : Arena)
    (calls : List Call) (a' : Arena) (order : List Nat) (told : List (Nat × String × Label)) :
    Prop where
  tell : a.tell? root = some (calls, a')
  /-- Every node whose production listens is told of once, after what is left of it. -/
  lists_calls : a.Lists root (a.listens · = true) (calls.map (·.id))
  parentsFirst : a.ParentsFirst (calls.map (·.id))
  /-- The production is told of all children, in order. -/
  children : ∀ c ∈ calls, c.children = a.children c.id
  /-- Naming changes no children. -/
  shape : ∀ i, a'.children i = a.children i
  named : ∃ s, s.id = root ∧ a'.Represents t s
  postOrder : a'.postOrder? root = some order
  lists_order : a'.Lists root (fun _ => True) order
  childrenFirst : a'.ChildrenFirst order
  announce : a'.announce? g root = some told
  /-- Every node that a rule is told of is announced once, after what is left of it. -/
  lists_told : a'.Lists root (fun i => (a'.announcement? g i).isSome = true) (told.map (·.1))
  childrenFirst_told : a'.ChildrenFirst (told.map (·.1))
  announcements : told.map (·.2) = t.announcements g

variable {g : FlatGrammar} {cfg : Config} {input : List Char} {d : Derivation}

open StoredTree (isTraversal_ids isTraversal_postorder) in
/-- **The tree of every derivation that a search reaches is traversed** from the top and from the
bottom, every node once and from the left to the right. -/
theorem Arena.traversed_of_search (h : (search g cfg input).Reaches d) :
    ∃ calls a' order told,
      Arena.Traversed g d.tree d.planted.1 d.planted.2 calls a' order told := by
  obtain ⟨s, hroot, hplanted, huntagged⟩ :=
    Derivation.represents_planted (Derivation.materialized_of_mem_ends h.mem_ends)
  rw [← hroot]
  obtain ⟨a', htell, hnamed⟩ := hplanted.tell huntagged
  obtain ⟨told, hannounce, hids, hannouncements⟩ := hnamed.announce g
  have hid : (s.withTag {} none).id = s.id := s.id_withTag ..
  have hids_calls : ((s.ids.filter d.planted.2.listens).map
      fun i => (⟨i, d.planted.2.children i⟩ : Call)).map (·.id)
        = s.ids.filter d.planted.2.listens := by
    rw [List.map_map]
    exact List.map_id _
  have horder := hnamed.holds.lists hnamed.nodup isTraversal_postorder
  have hlast := hnamed.holds.childrenFirst_postorder
  rw [hid] at hannounce horder
  refine ⟨_, a', (s.withTag {} none).postorder, told, ⟨htell, ?_, ?_, ?_, children_tell htell,
    ⟨_, hid, hnamed⟩, ?_, horder, hlast, hannounce, ?_, ?_, hannouncements⟩⟩
  · rw [hids_calls]
    exact (hplanted.holds.lists hplanted.nodup isTraversal_ids).filter _
  · rw [hids_calls]
    exact hplanted.holds.parentsFirst_ids.filter _
  · exact List.forall_mem_map.2 fun _ _ => rfl
  · rw [← hid]
    exact hnamed.holds.postOrder?_eq hnamed.nodup
  · rw [hids]
    exact horder.filter _
  · rw [hids]
    exact hlast.filter _

/-- On `g` the start symbol and the order below it are told of, in this order. -/
theorem Arena.traversed_of_search_numberedOrder :
    ((search Grammar.numberedOrderCompiled.flat {} "g".toList).derivation.planted.2.tell?
      (search Grammar.numberedOrderCompiled.flat {} "g".toList).derivation.planted.1).map
        (·.1.map (·.id)) = some [4, 3] ∧
    ∃ calls a' order told, Arena.Traversed Grammar.numberedOrderCompiled.flat
      (search Grammar.numberedOrderCompiled.flat {} "g".toList).derivation.tree
      (search Grammar.numberedOrderCompiled.flat {} "g".toList).derivation.planted.1
      (search Grammar.numberedOrderCompiled.flat {} "g".toList).derivation.planted.2
      calls a' order told :=
  ⟨by cbv, Arena.traversed_of_search (.inl rfl)⟩

end Typeahead
