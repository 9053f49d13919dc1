import Typeahead.Proofs.ParseTree.InPlace

/-!
# Proofs/ParseTree/Climbing — from a node to its parents

From every node of a stored tree the parents lead to the root (`Arena.Holds.climbsTo`).  A node that
is dropped when the tree is finished may keep its parent, but this parent lists it: no step takes a
node out of a list of children without taking its parent away (`Arena.Linked`).  So in a tree that
was finished in place the parents of a node lead to the root just if the root leads to the node
(`Arena.Represents.climbsTo_iff`).
-/

namespace Typeahead

open StoredTree (idsAll postorderAll)

namespace StoredTree

mutual

theorem mem_ids_of_mem_postorder {i : Nat} : ∀ t : StoredTree, i ∈ t.postorder → i ∈ t.ids
  | node x l children => by
    rw [postorder, ids_node, List.mem_append, List.mem_singleton, List.mem_cons]
    exact fun hi => hi.elim (fun hi => .inr (mem_idsAll_of_mem_postorderAll children hi)) .inl

theorem mem_idsAll_of_mem_postorderAll {i : Nat} :
    ∀ ts : List StoredTree, i ∈ postorderAll ts → i ∈ idsAll ts
  | [] => by
    rw [postorderAll, idsAll_nil]
    exact fun hi => hi
  | t :: ts => by
    rw [postorderAll, idsAll_cons, List.mem_append, List.mem_append]
    exact .imp (mem_ids_of_mem_postorder t) (mem_idsAll_of_mem_postorderAll ts)

end

end StoredTree

namespace Arena

variable {a a' : Arena} {ids children : List Nat} {p : Option Nat} {t : StoredTree}
  {i x root : Nat}

/-- **Climbing from a node** to its parent, then to the parent of that one and so on, ends at the
node `top`. -/
inductive ClimbsTo (a : Arena) (top : Nat) : Nat → Prop
  | top (h : a.parent? top = none) : ClimbsTo a top top
  | up {id parent : Nat} (h : a.parent? id = some parent) (hclimb : ClimbsTo a top parent) :
    ClimbsTo a top id

/-- **What can be reached from the root** of a stored tree climbs to it. -/
theorem Holds.climbsTo (h : a.Holds none t) (hnodup : t.ids.Nodup) (hi : a.Reaches t.id i) :
    a.ClimbsTo t.id i := by
  induction hi with
  | root => exact .top h.parent?
  | child hreach hchild ih =>
    have hmem := h.reaches_iff.1 hreach
    exact .up (h.parent_of_mem_children hnodup hmem hchild).1 ih

/-! ## Links -/

/-- **Nodes are linked**: the parent of one of them is one of them too, and lists it. -/
structure Linked (ids : List Nat) (a : Arena) : Prop where
  size : ∀ i ∈ ids, i < a.cells.size
  parent : ∀ i ∈ ids, ∀ q, a.parent? i = some q → q ∈ ids ∧ i ∈ a.children q

/-- A linked node that climbs to the root can be reached from there. -/
theorem Linked.reaches (h : Linked ids a) (hi : i ∈ ids) (hclimb : a.ClimbsTo root i) :
    a.Reaches root i := by
  induction hclimb with
  | top => exact .root
  | up hparent _ ih =>
    obtain ⟨hq, hchild⟩ := h.parent _ hi _ hparent
    exact .child (ih hq) hchild

/-- In a stored tree every node but the root is listed by its parent. -/
theorem Holds.parent_cases (h : a.Holds p t) {q : Nat} (hi : i ∈ t.ids)
    (hq : a.parent? i = some q) : i = t.id ∧ p = some q ∨ q ∈ t.ids ∧ i ∈ a.children q := by
  induction h with
  | @node parent x l children hcell hchildren ih =>
    have hnode : a.Holds parent (.node x l children) := .node hcell hchildren
    rw [StoredTree.ids_node] at hi ⊢
    rcases List.mem_cons.1 hi with rfl | hi
    · exact .inl ⟨rfl, hnode.parent?.symm.trans hq⟩
    · obtain ⟨t, ht, hi⟩ := StoredTree.mem_idsAll.1 hi
      rcases ih t ht hi with ⟨rfl, hx⟩ | ⟨hmem, hchild⟩
      · obtain rfl := Option.some.inj hx
        refine .inr ⟨List.mem_cons_self .., ?_⟩
        rw [show a.children x = children.map (·.id) from hnode.children]
        exact List.mem_map_of_mem ht
      · exact .inr ⟨List.mem_cons_of_mem _ (StoredTree.mem_idsAll.2 ⟨t, ht, hmem⟩), hchild⟩

theorem Holds.linked (h : a.Holds none t) : Linked t.ids a where
  size i hi := by
    obtain ⟨q, u, rfl, hu, -⟩ := h.exists_of_mem_ids hi
    exact (Array.getElem?_eq_some_iff.1 hu.cell).1
  parent i hi q hq := by
    rcases h.parent_cases hi hq with ⟨-, hnone⟩ | hlinked
    · cases hnone
    · exact hlinked

/-! ## Step by step -/

theorem parent?_addChild (a : Arena) (x y i : Nat) (hi : i < a.cells.size) :
    (a.addChild x y).parent? i = if i = y then some x else a.parent? i := by
  rw [addChild, parent?, cells_modify, cells_modify, Array.getElem?_eq_getElem hi, parent?,
    Array.getElem?_eq_getElem hi]
  grind

theorem children_addChild (a : Arena) {x : Nat} (hx : x < a.cells.size) (y i : Nat) :
    (a.addChild x y).children i = if i = x then a.children i ++ [y] else a.children i := by
  rw [addChild, children, cells_modify, cells_modify, children]
  by_cases hix : i = x
  · subst hix
    rw [Array.getElem?_eq_getElem hx]
    grind
  · rcases a.cells[i]? with _ | c <;> grind

theorem size_addChild (a : Arena) (x y : Nat) : (a.addChild x y).cells.size = a.cells.size := by
  simp [addChild, modify]

/-- **A new child is linked** to its parent. -/
theorem Linked.addChild (h : Linked ids a) (hx : x ∈ ids) (y : Nat) :
    Linked ids (a.addChild x y) where
  size i hi := by
    rw [size_addChild]
    exact h.size i hi
  parent i hi q hq := by
    rw [parent?_addChild a x y i (h.size i hi)] at hq
    rw [children_addChild a (h.size x hx)]
    split at hq
    next hiy =>
      obtain rfl := Option.some.inj hq
      exact ⟨hx, by simp [hiy]⟩
    next =>
      obtain ⟨hqmem, hchild⟩ := h.parent i hi q hq
      refine ⟨hqmem, ?_⟩
      split
      · exact List.mem_append_left _ hchild
      · exact hchild

theorem Linked.addChildren (h : Linked ids a) (hx : x ∈ ids) (children : List Nat) :
    Linked ids (a.addChildren x children) := by
  induction children generalizing a with
  | nil => exact h
  | cons y children ih => exact ih (h.addChild hx y)

theorem parent?_takeChildren (a : Arena) (x i : Nat) :
    (a.takeChildren x).2.parent? i = if i ∈ a.children x then none else a.parent? i := by
  rw [takeChildren_eq, parent?, cells_release, cells_modify, parent?]
  cases a.cells[i]? <;> split <;> split <;> rfl

theorem children_takeChildren (a : Arena) (x i : Nat) :
    (a.takeChildren x).2.children i = if i = x then [] else a.children i := by
  have hi : a.children i = (a.cells[i]?.map (·.children)).getD [] := rfl
  rw [takeChildren_eq, children, cells_release, cells_modify, hi]
  cases a.cells[i]? <;> grind

theorem size_takeChildren (a : Arena) (x : Nat) :
    (a.takeChildren x).2.cells.size = a.cells.size := by
  have hrelease : ∀ (children : List Nat) (a : Arena),
      (a.release children).cells.size = a.cells.size := by
    intro children
    induction children with
    | nil => exact fun a => rfl
    | cons y children ih => exact fun a => (ih _).trans (Array.size_modify ..)
  exact (hrelease _ _).trans (Array.size_modify ..)

/-- **Children that are taken away** lose their parent, and all other links stay. -/
theorem Linked.takeChildren (h : Linked ids a) (x : Nat) : Linked ids (a.takeChildren x).2 where
  size i hi := by
    rw [size_takeChildren]
    exact h.size i hi
  parent i hi q hq := by
    rw [parent?_takeChildren] at hq
    rw [children_takeChildren]
    split at hq
    · cases hq
    next hmem =>
      obtain ⟨hqmem, hchild⟩ := h.parent i hi q hq
      refine ⟨hqmem, ?_⟩
      rwa [if_neg]
      rintro rfl
      exact hmem hchild

theorem Linked.moveChildren (h : Linked ids a) (hx : x ∈ ids) (source : Nat) :
    Linked ids (a.moveChildren source x) :=
  (h.takeChildren source).addChildren hx _

theorem Linked.moveAll (h : Linked ids a) (hx : x ∈ ids) (sources : List Nat) :
    Linked ids (sources.foldl (·.moveChildren · x) a) := by
  induction sources generalizing a with
  | nil => exact h
  | cons source sources ih => exact ih (h.moveChildren hx source)

/-- **All shapings keep nodes linked.** -/
theorem Linked.keep (h : Linked ids a) (hx : x ∈ ids) (shaping : Shaping) (children : List Nat) :
    Linked ids (a.keep x shaping children) := by
  unfold Arena.keep
  split
  case h_1 => exact h.addChildren hx _
  case h_2 entry tail => exact (h.addChild hx entry).moveChildren hx tail
  case h_3 entry => exact h.addChild hx entry
  case h_4 entry rest => exact ((h.addChild hx entry).takeChildren rest).moveAll hx _
  case h_5 =>
    split
    next last _ => exact (h.addChildren hx _).moveChildren hx last
    next => exact h
  case h_6 opening middle closing =>
    exact ((h.addChild hx opening).moveChildren hx middle).addChild hx closing
  case h_7 middle _ => exact h.moveChildren hx middle
  case h_8 first _ => exact h.moveChildren hx first
  case h_9 => exact h

/-- **Finishing nodes** one after the other keeps nodes linked. -/
theorem Linked.finishNodes (h : Linked ids a) {order : List Nat} (horder : ∀ i ∈ order, i ∈ ids) :
    Linked ids (order.foldl Arena.finishNode a) := by
  induction order generalizing a with
  | nil => exact h
  | cons x order ih =>
    obtain ⟨hx, horder⟩ := List.forall_mem_cons.1 horder
    refine ih ?_ horder
    rw [finishNode_eq]
    exact (h.takeChildren x).keep hx ..

/-- **In a tree that was finished in place** the nodes that climb to the root are those that can be
reached from there. -/
theorem Represents.climbsTo_iff {s : StoredTree} {u : ParseTree} (h : a.Represents u s)
    (hfinish : a.finish s.id = some a') (hi : i ∈ s.ids) :
    a'.ClimbsTo s.id i ↔ a'.Reaches s.id i := by
  obtain ⟨a'', hfinish', hafter, -⟩ := h.finish
  obtain rfl : a' = a'' := Option.some.inj (hfinish.symm.trans hfinish')
  constructor
  · have hlinked : Linked s.ids a' := by
      rw [Arena.finish, h.holds.postOrder?_eq h.nodup] at hfinish
      obtain rfl := Option.some.inj hfinish
      exact h.holds.linked.finishNodes fun i => s.mem_ids_of_mem_postorder
    exact hlinked.reaches hi
  · rw [← s.id_finished]
    exact hafter.holds.climbsTo hafter.nodup

end Arena

end Typeahead
