import Typeahead.ParseTree.Arena
import Typeahead.Proofs.ParseTree.Kept
import Mathlib.Data.List.Perm.Subperm

/-!
# Proofs/ParseTree/Arena — trees stored in an arena

A `StoredTree` is a tree whose nodes are numbered.  `Arena.Holds` says that an arena stores it: the
cell of every node lists the numbers of its children and names its parent.  If no number occurs twice
this says of the nodes that can be reached from the root that each of them, except the root, is
listed as a child once, by its parent (`Arena.Holds.isTree`).
-/

namespace Typeahead

/-- A tree with numbered nodes. -/
inductive StoredTree
  | node (id : Nat) (label : Label) (children : List StoredTree)

namespace StoredTree

/-- The number of the root. -/
def id : StoredTree → Nat
  | node id _ _ => id

/-- What the root carries. -/
def label : StoredTree → Label
  | node _ l _ => l

/-- The trees below the root. -/
def children : StoredTree → List StoredTree
  | node _ _ children => children

mutual

/-- The numbers of all nodes. -/
def ids : StoredTree → List Nat
  | node id _ children => id :: idsAll children

/-- The numbers of all nodes of several trees. -/
def idsAll : List StoredTree → List Nat
  | [] => []
  | t :: ts => ids t ++ idsAll ts

end

mutual

/-- The tree without numbers. -/
def tree : StoredTree → ParseTree
  | node _ l children => .node l (trees children)

/-- Several trees without numbers. -/
def trees : List StoredTree → List ParseTree
  | [] => []
  | t :: ts => tree t :: trees ts

end

@[simp] theorem idsAll_nil : idsAll [] = [] := by rw [idsAll]

@[simp] theorem idsAll_cons (t : StoredTree) (ts : List StoredTree) :
    idsAll (t :: ts) = t.ids ++ idsAll ts := by rw [idsAll]

@[simp] theorem idsAll_append (ts us : List StoredTree) :
    idsAll (ts ++ us) = idsAll ts ++ idsAll us := by
  induction ts with
  | nil => simp
  | cons t ts ih => simp [ih]

theorem ids_node (x : Nat) (l : Label) (children : List StoredTree) :
    (node x l children).ids = x :: idsAll children := by rw [ids]

theorem mem_idsAll {i : Nat} {ts : List StoredTree} : i ∈ idsAll ts ↔ ∃ t ∈ ts, i ∈ t.ids := by
  induction ts with
  | nil => simp
  | cons t ts ih => simp [ih]

theorem id_mem_ids (t : StoredTree) : t.id ∈ t.ids := by
  obtain ⟨x, l, children⟩ := t
  rw [ids_node]
  exact List.mem_cons_self ..

theorem ids_sublist_idsAll {t : StoredTree} {ts : List StoredTree} (h : t ∈ ts) :
    t.ids.Sublist (idsAll ts) := by
  induction ts with
  | nil => cases h
  | cons u ts ih =>
    rw [idsAll_cons]
    rcases List.mem_cons.1 h with rfl | h
    · exact List.sublist_append_left ..
    · exact (ih h).trans (List.sublist_append_right ..)

theorem map_id_sublist_idsAll (ts : List StoredTree) : (ts.map id).Sublist (idsAll ts) := by
  induction ts with
  | nil => exact List.Sublist.refl _
  | cons t ts ih =>
    rw [List.map_cons, idsAll_cons]
    exact (List.singleton_sublist.2 t.id_mem_ids).append ih

theorem children_ids_sublist (t : StoredTree) : (t.children.map id).Sublist t.ids := by
  obtain ⟨x, l, children⟩ := t
  rw [ids_node]
  exact (map_id_sublist_idsAll children).cons x

/-- Of the roots of several trees, a tree has its own only. -/
theorem eq_id_of_mem_map_id {ts : List StoredTree} (hnodup : (idsAll ts).Nodup) {t : StoredTree}
    (ht : t ∈ ts) {i : Nat} (hi : i ∈ t.ids) (hroot : i ∈ ts.map id) : i = t.id := by
  induction ts with
  | nil => cases ht
  | cons u ts ih =>
    rw [idsAll_cons, List.nodup_append'] at hnodup
    obtain ⟨-, hnodup, hdisjoint⟩ := hnodup
    rcases List.mem_cons.1 ht with rfl | ht
    · rcases List.mem_cons.1 hroot with hroot | hroot
      · exact hroot
      · exact absurd ((map_id_sublist_idsAll ts).subset hroot) (hdisjoint hi)
    · rcases List.mem_cons.1 hroot with rfl | hroot
      · exact absurd (mem_idsAll.2 ⟨t, ht, hi⟩) (hdisjoint u.id_mem_ids)
      · exact ih hnodup ht hroot

theorem trees_eq_map (ts : List StoredTree) : trees ts = ts.map tree := by
  induction ts with
  | nil => rw [trees, List.map_nil]
  | cons t ts ih => rw [trees, List.map_cons, ih]

theorem tree_node (x : Nat) (l : Label) (children : List StoredTree) :
    (node x l children).tree = .node l (children.map tree) := by rw [tree, trees_eq_map]

@[simp] theorem label_tree (t : StoredTree) : t.tree.label = t.label := by
  obtain ⟨x, l, children⟩ := t
  rw [tree_node]
  rfl

@[simp] theorem children_tree (t : StoredTree) : t.tree.children = t.children.map tree := by
  obtain ⟨x, l, children⟩ := t
  rw [tree_node]
  rfl

/-- **A tree occurs in another** if it is one of the trees below its nodes. -/
inductive Occurs (u : StoredTree) : StoredTree → Prop
  | root : Occurs u u
  | child {x : Nat} {l : Label} {children : List StoredTree} {t : StoredTree} (ht : t ∈ children)
    (h : Occurs u t) : Occurs u (.node x l children)

theorem Occurs.ids_sublist {u t : StoredTree} (h : u.Occurs t) : u.ids.Sublist t.ids := by
  induction h with
  | root => exact .refl _
  | @child x l children t ht _ ih =>
    rw [ids_node]
    exact (ih.trans (ids_sublist_idsAll ht)).cons x

/-- What holds of a tree if it holds of those below its root holds of all trees. -/
theorem induction_on_children {P : StoredTree → Prop}
    (h : ∀ x l children, (∀ t ∈ children, P t) → P (.node x l children)) : ∀ t, P t
  | .node x l children => h x l children fun t _ => induction_on_children h t

end StoredTree

namespace Arena

open StoredTree (idsAll)

/-- **An arena stores a tree** whose root has the given parent. -/
inductive Holds (a : Arena) : Option Nat → StoredTree → Prop
  | node {parent : Option Nat} {x : Nat} {l : Label} {children : List StoredTree}
    (hcell : a.cells[x]? = some ⟨l, children.map (·.id), parent⟩)
    (hchildren : ∀ t ∈ children, Holds a (some x) t) : Holds a parent (.node x l children)

variable {a a' : Arena} {p : Option Nat} {t : StoredTree} {i : Nat}

theorem holds_node {x : Nat} {l : Label} {children : List StoredTree} :
    a.Holds p (.node x l children) ↔ a.cells[x]? = some ⟨l, children.map (·.id), p⟩ ∧
      ∀ t ∈ children, a.Holds (some x) t :=
  ⟨fun | .node hcell hchildren => ⟨hcell, hchildren⟩,
    fun ⟨hcell, hchildren⟩ => .node hcell hchildren⟩

theorem Holds.cell (h : a.Holds p t) :
    a.cells[t.id]? = some ⟨t.label, t.children.map (·.id), p⟩ := by
  cases h with
  | node hcell _ => exact hcell

theorem Holds.children (h : a.Holds p t) : a.children t.id = t.children.map (·.id) := by
  rw [Arena.children, h.cell]
  rfl

theorem Holds.parent? (h : a.Holds p t) : a.parent? t.id = p := by
  rw [Arena.parent?, h.cell]
  rfl

theorem Holds.child (h : a.Holds p t) : ∀ u ∈ t.children, a.Holds (some t.id) u := by
  cases h with
  | node _ hchildren => exact hchildren

/-- **Only the cells of a tree matter** for it. -/
theorem Holds.congr (h : a.Holds p t) (hsame : ∀ i ∈ t.ids, a'.cells[i]? = a.cells[i]?) :
    a'.Holds p t := by
  induction h with
  | @node parent x l children hcell _ ih =>
    simp only [StoredTree.ids_node, List.mem_cons, forall_eq_or_imp, StoredTree.mem_idsAll] at hsame
    exact .node (hsame.1.trans hcell) fun t ht => ih t ht fun i hi => hsame.2 i ⟨t, ht, hi⟩

/-- A tree can get another parent. -/
theorem Holds.reparent {q : Option Nat} (h : a.Holds p t) (hnodup : t.ids.Nodup)
    (hroot : a'.cells[t.id]? = a.cells[t.id]?.map fun c => { c with parent := q })
    (hsame : ∀ i ∈ t.ids, i ≠ t.id → a'.cells[i]? = a.cells[i]?) : a'.Holds q t := by
  cases h with
  | @node _ x l children hcell hchildren =>
    rw [StoredTree.ids_node, List.nodup_cons] at hnodup
    refine .node (hroot.trans (by rw [StoredTree.id, hcell]; rfl)) fun t ht => ?_
    refine (hchildren t ht).congr fun i hi => ?_
    have hmem : i ∈ idsAll children := StoredTree.mem_idsAll.2 ⟨t, ht, hi⟩
    refine hsame i ?_ ?_
    · rw [StoredTree.ids_node]
      exact List.mem_cons_of_mem _ hmem
    · rintro rfl
      exact hnodup.1 hmem

/-! ## Reachable nodes -/

/-- **A node can be reached** from the root, from parents to children. -/
inductive Reaches (a : Arena) (root : Nat) : Nat → Prop
  | root : Reaches a root root
  | child {id child : Nat} (h : Reaches a root id) (hchild : child ∈ a.children id) :
    Reaches a root child

theorem Reaches.trans {x y z : Nat} (h : a.Reaches x y) (h' : a.Reaches y z) : a.Reaches x z := by
  induction h' with
  | root => exact h
  | child _ hchild ih => exact .child ih hchild

/-- **The nodes below a root form a tree**: each of them, except the root, is listed once, as a child
of its parent. -/
structure IsTree (a : Arena) (root : Nat) : Prop where
  orphan : ∀ q, a.Reaches root q → root ∉ a.children q
  parent : ∀ i, a.Reaches root i → i ≠ root → ∃ q, a.Reaches root q ∧ a.parent? i = some q ∧
    (a.children q).count i = 1 ∧ ∀ r, a.Reaches root r → i ∈ a.children r → r = q

/-- Every number in a stored tree is that of a tree that occurs in it. -/
theorem Holds.exists_of_mem_ids (h : a.Holds p t) (hi : i ∈ t.ids) :
    ∃ q u, u.id = i ∧ a.Holds q u ∧ u.Occurs t := by
  induction h with
  | @node parent x l children hcell hchildren ih =>
    rw [StoredTree.ids_node] at hi
    rcases List.mem_cons.1 hi with rfl | hi
    · exact ⟨parent, .node i l children, rfl, .node hcell hchildren, .root⟩
    · obtain ⟨t, ht, hi⟩ := StoredTree.mem_idsAll.1 hi
      obtain ⟨q, u, hu, hholds, hocc⟩ := ih t ht hi
      exact ⟨q, u, hu, hholds, .child ht hocc⟩

/-- **What can be reached in a stored tree** are its nodes. -/
theorem Holds.reaches_iff (h : a.Holds p t) : a.Reaches t.id i ↔ i ∈ t.ids := by
  constructor
  · intro hreach
    induction hreach with
    | root => exact t.id_mem_ids
    | child _ hchild ih =>
      obtain ⟨q, u, rfl, hu, hocc⟩ := h.exists_of_mem_ids ih
      rw [hu.children] at hchild
      exact hocc.ids_sublist.subset (u.children_ids_sublist.subset hchild)
  · intro hi
    induction h with
    | @node parent x l children hcell hchildren ih =>
      rw [StoredTree.ids_node] at hi
      rcases List.mem_cons.1 hi with rfl | hi
      · exact .root
      · obtain ⟨t, ht, hi⟩ := StoredTree.mem_idsAll.1 hi
        refine Reaches.trans (.child .root ?_) (ih t ht hi)
        rw [(Holds.node hcell hchildren).children]
        exact List.mem_map_of_mem ht

/-- A child of a node in a stored tree is listed there once, and has that node as its parent. -/
theorem Holds.parent_of_mem_children (h : a.Holds p t) (hnodup : t.ids.Nodup) {q : Nat}
    (hq : q ∈ t.ids) (hi : i ∈ a.children q) :
    a.parent? i = some q ∧ (a.children q).count i = 1 := by
  obtain ⟨_, u, rfl, hu, hocc⟩ := h.exists_of_mem_ids hq
  have hchildren : (u.children.map (·.id)).Nodup :=
    (hnodup.sublist hocc.ids_sublist).sublist u.children_ids_sublist
  rw [hu.children] at hi ⊢
  refine ⟨?_, List.count_eq_one_of_mem hchildren hi⟩
  obtain ⟨v, hv, rfl⟩ := List.mem_map.1 hi
  exact (hu.child v hv).parent?

/-- **A stored tree is a tree**, if no number occurs in it twice and its root has no parent. -/
theorem Holds.isTree (h : a.Holds none t) (hnodup : t.ids.Nodup) : a.IsTree t.id where
  orphan q hq hmem := by
    obtain ⟨hparent, -⟩ := h.parent_of_mem_children hnodup (h.reaches_iff.1 hq) hmem
    rw [h.parent?] at hparent
    cases hparent
  parent i hi hne := by
    cases hi with
    | root => exact absurd rfl hne
    | @child q _ hq hchild =>
      obtain ⟨hparent, hcount⟩ := h.parent_of_mem_children hnodup (h.reaches_iff.1 hq) hchild
      refine ⟨q, hq, hparent, hcount, fun r hr hmem => ?_⟩
      obtain ⟨hparent', -⟩ := h.parent_of_mem_children hnodup (h.reaches_iff.1 hr) hmem
      exact Option.some.inj (hparent'.symm.trans hparent)

end Arena

end Typeahead
