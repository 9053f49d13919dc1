import Typeahead.Proofs.ParseTree.InPlace
import Mathlib.Data.List.Flatten

/-!
# Proofs/ParseTree/Order — the nodes of a stored tree in two orders

The numbers of a stored tree list every node before its children, its post-order lists it after them;
both go from the left to the right.  That is so because either order of a tree keeps the orders of
the trees below its root (`StoredTree.IsTraversal`), so it is enough to look at the tree below the node
in question.
-/

namespace Typeahead

open StoredTree (idsAll postorderAll)

namespace Arena

variable (a : Arena) (root : Nat)

/-- **A node is left of another**: somewhere below the root, the one is below an earlier child and
the other below a later one. -/
def LeftOf (i j : Nat) : Prop :=
  ∃ q l r, a.Reaches root q ∧ [l, r].Sublist (a.children q) ∧ a.Reaches l i ∧ a.Reaches r j

/-- **A list of the nodes below a root** that have a property, each of them once, from the left to
the right. -/
structure Lists (P : Nat → Prop) (order : List Nat) : Prop where
  nodup : order.Nodup
  mem_iff : ∀ i, i ∈ order ↔ a.Reaches root i ∧ P i
  left_to_right : ∀ i ∈ order, ∀ j ∈ order, a.LeftOf root i j → [i, j].Sublist order

/-- A list of nodes in which every node comes before those below it. -/
def ParentsFirst (order : List Nat) : Prop :=
  ∀ i ∈ order, ∀ j ∈ order, a.Reaches i j → i ≠ j → [i, j].Sublist order

/-- A list of nodes in which every node comes after those below it. -/
def ChildrenFirst (order : List Nat) : Prop :=
  ∀ i ∈ order, ∀ j ∈ order, a.Reaches i j → i ≠ j → [j, i].Sublist order

variable {a root} {order : List Nat} {P : Nat → Prop} {p : Nat → Bool}

theorem sublist_filter_of_pair {i j : Nat} (h : [i, j].Sublist order) (hi : i ∈ order.filter p)
    (hj : j ∈ order.filter p) : [i, j].Sublist (order.filter p) := by
  have hpair := h.filter p
  rwa [List.filter_eq_self.2 (by simp [(List.mem_filter.1 hi).2, (List.mem_filter.1 hj).2])]
    at hpair

/-- Some of the nodes in a list are listed likewise. -/
theorem Lists.filter (h : a.Lists root (fun _ => True) order) (p : Nat → Bool) :
    a.Lists root (p · = true) (order.filter p) where
  nodup := h.nodup.filter p
  mem_iff i := by rw [List.mem_filter, h.mem_iff, and_true]
  left_to_right i hi j hj hleft := sublist_filter_of_pair
    (h.left_to_right i (List.mem_of_mem_filter hi) j (List.mem_of_mem_filter hj) hleft) hi hj

theorem ParentsFirst.filter (h : a.ParentsFirst order) (p : Nat → Bool) :
    a.ParentsFirst (order.filter p) := fun i hi j hj hreach hne =>
  sublist_filter_of_pair
    (h i (List.mem_of_mem_filter hi) j (List.mem_of_mem_filter hj) hreach hne) hi hj

theorem ChildrenFirst.filter (h : a.ChildrenFirst order) (p : Nat → Bool) :
    a.ChildrenFirst (order.filter p) := fun i hi j hj hreach hne =>
  sublist_filter_of_pair
    (h i (List.mem_of_mem_filter hi) j (List.mem_of_mem_filter hj) hreach hne) hj hi

end Arena

/-! ## Two orders of a tree -/

namespace StoredTree

/-- **An order in which trees are traversed**: it lists the nodes of a tree, and keeps the orders of
the trees below the root, one after the other. -/
structure IsTraversal (f : StoredTree → List Nat) : Prop where
  perm : ∀ t, (f t).Perm t.ids
  children : ∀ x l (ts : List StoredTree), (ts.flatMap f).Sublist (f (.node x l ts))

theorem idsAll_eq_flatMap (ts : List StoredTree) : idsAll ts = ts.flatMap ids := by
  induction ts with
  | nil => rfl
  | cons t ts ih => rw [idsAll_cons, List.flatMap_cons, ih]

theorem postorderAll_eq_flatMap (ts : List StoredTree) :
    postorderAll ts = ts.flatMap postorder := by
  induction ts with
  | nil => rw [postorderAll]; rfl
  | cons t ts ih => rw [postorderAll, List.flatMap_cons, ih]

theorem isTraversal_ids : IsTraversal ids where
  perm _ := .refl _
  children x l ts := by
    rw [ids_node, idsAll_eq_flatMap]
    exact List.sublist_cons_self ..

theorem postorder_node (x : Nat) (l : Label) (children : List StoredTree) :
    (node x l children).postorder = children.flatMap postorder ++ [x] := by
  rw [postorder, postorderAll_eq_flatMap]

theorem isTraversal_postorder : IsTraversal postorder where
  perm t := by
    induction t using induction_on_children with
    | h x l children ih =>
      rw [postorder_node, ids_node, idsAll_eq_flatMap]
      exact (List.perm_append_singleton x _).trans ((List.Perm.flatMap_left _ ih).cons x)
  children x l ts := by
    rw [postorder_node]
    exact List.sublist_append_left ..

variable {f : StoredTree → List Nat} {t u v : StoredTree} {i j : Nat}

/-- The order of a tree that occurs in another is kept. -/
theorem IsTraversal.sublist (hf : IsTraversal f) (h : u.Occurs t) : (f u).Sublist (f t) := by
  induction h with
  | root => exact .refl _
  | child ht _ ih =>
    have hchild := (List.singleton_sublist.2 ht).flatMap f
    rw [List.flatMap_singleton] at hchild
    exact (ih.trans hchild).trans (hf.children ..)

/-- Of the nodes of two trees in a row, those of the first come first. -/
theorem sublist_flatMap_of_pair {ts : List StoredTree} (h : [u, v].Sublist ts) (hi : i ∈ f u)
    (hj : j ∈ f v) : [i, j].Sublist (ts.flatMap f) := by
  have hpair : [i, j].Sublist ([u, v].flatMap f) := by
    rw [List.flatMap_cons, List.flatMap_singleton]
    exact (List.singleton_sublist.2 hi).append (List.singleton_sublist.2 hj)
  exact hpair.trans (h.flatMap f)

end StoredTree

namespace Arena

open StoredTree (IsTraversal)

variable {a : Arena} {p : Option Nat} {t : StoredTree} {i j : Nat} {f : StoredTree → List Nat}

/-- **An order of a stored tree** lists the nodes below its root from the left to the right. -/
theorem Holds.lists (h : a.Holds p t) (hnodup : t.ids.Nodup) (hf : IsTraversal f) :
    a.Lists t.id (fun _ => True) (f t) where
  nodup := (hf.perm t).nodup_iff.2 hnodup
  mem_iff i := by rw [(hf.perm t).mem_iff, and_true, h.reaches_iff]
  left_to_right := by
    rintro i - j - ⟨q, l, r, hq, hlr, hi, hj⟩
    obtain ⟨q', u, rfl, hu, hocc⟩ := h.exists_of_mem_ids (h.reaches_iff.1 hq)
    rw [hu.children, List.sublist_map_iff] at hlr
    obtain ⟨ts, hts, heq⟩ := hlr
    match ts, heq with
    | [v, w], heq =>
      obtain ⟨rfl, rfl⟩ : l = v.id ∧ r = w.id := by simpa using heq
      have hv := hu.child v (hts.subset (by simp))
      have hw := hu.child w (hts.subset (by simp))
      have hpair := StoredTree.sublist_flatMap_of_pair hts
        ((hf.perm v).mem_iff.2 (hv.reaches_iff.1 hi)) ((hf.perm w).mem_iff.2 (hw.reaches_iff.1 hj))
      obtain ⟨x, l, children⟩ := u
      exact hpair.trans ((hf.children x l children).trans (hf.sublist hocc))

/-- What is below a node is in the order of the tree below that node. -/
theorem Holds.exists_occurs (h : a.Holds p t) (hi : i ∈ t.ids) (hij : a.Reaches i j) (hne : i ≠ j) :
    ∃ l children, (StoredTree.node i l children).Occurs t ∧ j ∈ children.flatMap StoredTree.ids := by
  obtain ⟨q, ⟨x, l, children⟩, rfl, hu, hocc⟩ := h.exists_of_mem_ids hi
  have hj := hu.reaches_iff.1 hij
  rw [StoredTree.ids_node, StoredTree.idsAll_eq_flatMap] at hj
  exact ⟨l, children, hocc, (List.mem_cons.1 hj).resolve_left hne.symm⟩

/-- The numbers of a stored tree list parents first. -/
theorem Holds.parentsFirst_ids (h : a.Holds p t) : a.ParentsFirst t.ids := by
  intro i hi j _ hij hne
  obtain ⟨l, children, hocc, hj⟩ := h.exists_occurs hi hij hne
  refine List.Sublist.trans ?_ (StoredTree.isTraversal_ids.sublist hocc)
  rw [StoredTree.ids_node, StoredTree.idsAll_eq_flatMap]
  exact (List.singleton_sublist.2 hj).cons_cons i

/-- The post-order of a stored tree lists children first. -/
theorem Holds.childrenFirst_postorder (h : a.Holds p t) : a.ChildrenFirst t.postorder := by
  intro i hi j _ hij hne
  have hf := StoredTree.isTraversal_postorder
  obtain ⟨l, children, hocc, hj⟩ := h.exists_occurs ((hf.perm t).mem_iff.1 hi) hij hne
  refine List.Sublist.trans ?_ (hf.sublist hocc)
  rw [StoredTree.postorder_node]
  refine (List.singleton_sublist.2 ?_).append (.refl [i])
  obtain ⟨u, hu, hj⟩ := List.mem_flatMap.1 hj
  exact List.mem_flatMap.2 ⟨u, hu, (hf.perm u).mem_iff.2 hj⟩

end Arena

end Typeahead
