import Typeahead.Proofs.ParseTree.Finished
import Typeahead.Proofs.ParseTree.Rebuilt
import Mathlib.Data.List.Induction

/-!
# Proofs/ParseTree/InPlace — finishing a stored tree is shaping it

The visits of a stored tree follow the tree (`Arena.Holds.postOrder?_eq`), so `Arena.finish` works
its way up from the leaves.  When it gets to a node, the trees below are finished, and rebuilding the
node changes no cell of another tree (`Arena.Holds.finished`).  In the end the arena represents the
finished tree, with the labels it had (`Arena.Represents.finish`).

Every tree can be stored (`Arena.exists_represents`): a node goes into a cell behind the others,
before the trees below it.
-/

namespace Typeahead

open StoredTree (idsAll)

namespace StoredTree

mutual

/-- The tree in its finished shape. -/
def finished : StoredTree → StoredTree
  | node x l children => node x l (l.shaping.kept (finishedAll children))

/-- Several trees in their finished shape. -/
def finishedAll : List StoredTree → List StoredTree
  | [] => []
  | t :: ts => finished t :: finishedAll ts

end

mutual

/-- The numbers of all nodes, children before parents. -/
def postorder : StoredTree → List Nat
  | node x _ children => postorderAll children ++ [x]

/-- The numbers of all nodes of several trees, children before parents. -/
def postorderAll : List StoredTree → List Nat
  | [] => []
  | t :: ts => postorder t ++ postorderAll ts

end

theorem finishedAll_eq_map (ts : List StoredTree) : finishedAll ts = ts.map finished := by
  induction ts with
  | nil => rw [finishedAll, List.map_nil]
  | cons t ts ih => rw [finishedAll, List.map_cons, ih]

theorem finished_node (x : Nat) (l : Label) (children : List StoredTree) :
    (node x l children).finished = node x l (l.shaping.kept (children.map finished)) := by
  rw [finished, finishedAll_eq_map]

@[simp] theorem id_finished (t : StoredTree) : t.finished.id = t.id := by
  obtain ⟨x, l, children⟩ := t
  rw [finished_node]
  rfl

@[simp] theorem label_finished (t : StoredTree) : t.finished.label = t.label := by
  obtain ⟨x, l, children⟩ := t
  rw [finished_node]
  rfl

/-- Finishing keeps the symbols of the roots. -/
theorem symbols_finished (ts : List StoredTree) :
    (ts.map finished).map (·.label.symbol) = ts.map (·.label.symbol) := by
  rw [List.map_map]
  exact List.map_congr_left fun t _ => by rw [Function.comp, label_finished]

theorem postorderAll_append (ts us : List StoredTree) :
    postorderAll (ts ++ us) = postorderAll ts ++ postorderAll us := by
  induction ts with
  | nil => rw [postorderAll, List.nil_append, List.nil_append]
  | cons t ts ih => rw [List.cons_append, postorderAll, postorderAll, ih, List.append_assoc]

/-- **Without numbers** it is the finished tree. -/
theorem tree_finished (t : StoredTree) : t.finished.tree = t.tree.shape.1 := by
  induction t using induction_on_children with
  | h x l children ih =>
    have hchildren : (children.map finished).map tree
        = (children.map tree).map (·.shape.1) := by
      rw [List.map_map, List.map_map]
      exact List.map_congr_left ih
    rw [finished_node, tree_node, tree_node, ParseTree.shape_node, ← hchildren,
      Shaping.split_map_tree]

end StoredTree

/-- **A shaping keeps nodes in their order**, each at most once. -/
theorem Shaping.idsAll_kept_sublist (shaping : Shaping) (children : List StoredTree) :
    (idsAll (shaping.kept children)).Sublist (idsAll children) := by
  have hchildren : ∀ t : StoredTree, (idsAll t.children).Sublist t.ids := by
    rintro ⟨x, l, children⟩
    rw [StoredTree.ids_node]
    exact List.sublist_cons_self ..
  have hgrandchildren : ∀ ts : List StoredTree,
      (idsAll (ts.flatMap (·.children))).Sublist (idsAll ts) := by
    intro ts
    induction ts with
    | nil => exact .refl _
    | cons t ts ih =>
      rw [List.flatMap_cons, StoredTree.idsAll_append, StoredTree.idsAll_cons]
      exact (hchildren t).append ih
  unfold kept
  split
  case h_1 => exact .refl _
  case h_2 entry tail => simp [hchildren]
  case h_3 => simp
  case h_4 entry rest =>
    simpa using (hgrandchildren rest.children).trans (hchildren rest)
  case h_5 ts =>
    split
    next last hlast =>
      obtain ⟨before, rfl⟩ := List.getLast?_eq_some_iff.1 hlast
      simp [hchildren]
    next => exact List.nil_sublist _
  case h_6 opening middle closing => simp [hchildren]
  case h_7 opening middle closing =>
    simpa using (((hchildren middle).trans (List.sublist_append_left ..)).trans
      (List.sublist_append_right ..))
  case h_8 first more => simpa using (hchildren first).trans (List.sublist_append_left ..)
  case h_9 => exact List.nil_sublist _

namespace StoredTree

mutual

/-- **Finishing keeps nodes in their order**, each at most once. -/
theorem ids_finished_sublist : ∀ t : StoredTree, t.finished.ids.Sublist t.ids
  | node x l children => by
    rw [finished_node, ids_node, ids_node]
    exact ((l.shaping.idsAll_kept_sublist _).trans
      (idsAll_map_finished_sublist children)).cons_cons x

theorem idsAll_map_finished_sublist :
    ∀ ts : List StoredTree, (idsAll (ts.map finished)).Sublist (idsAll ts)
  | [] => .refl _
  | t :: ts => by
    rw [List.map_cons, idsAll_cons, idsAll_cons]
    exact (ids_finished_sublist t).append (idsAll_map_finished_sublist ts)

end

end StoredTree

namespace Arena

open StoredTree (idsAll postorderAll)

variable {a a' : Arena} {p : Option Nat} {x : Nat} {l : Label} {t : StoredTree}
  {children : List StoredTree}

/-! ## The order of the visits -/

/-- **Visiting a stored tree** adds its nodes, children before parents. -/
theorem Holds.visits_eq (h : a.Holds p t) (n : Nat) (stack seen : List Nat) :
    a.visits (t.ids.length + n) (t.id :: stack) seen = a.visits n stack (t.postorder ++ seen) := by
  induction h generalizing n stack seen with
  | @node parent x l children hcell hchildren ih =>
    have hall : ∀ ts ⊆ children, ∀ n stack seen,
        a.visits ((idsAll ts).length + n) ((ts.map (·.id)).reverse ++ stack) seen
          = a.visits n stack (postorderAll ts ++ seen) := by
      intro ts hts
      -- the last child is on top of the stack
      induction ts using List.reverseRecOn with
      | nil =>
        intro n stack seen
        rw [postorderAll, StoredTree.idsAll_nil, List.length_nil, Nat.zero_add]
        rfl
      | append_singleton ts t ihs =>
        intro n stack seen
        have hlength : (idsAll (ts ++ [t])).length + n
            = t.ids.length + ((idsAll ts).length + n) := by simp; omega
        rw [hlength, List.map_append, List.reverse_append, StoredTree.postorderAll_append]
        refine (ih t (hts (by simp)) _ _ _).trans ?_
        refine (ihs (fun u hu => hts (List.mem_append_left _ hu)) _ _ _).trans ?_
        rw [postorderAll, postorderAll, List.append_nil, List.append_assoc]
    have hx : a.children x = children.map (·.id) := (Holds.node hcell hchildren).children
    rw [StoredTree.ids_node, List.length_cons, Nat.add_right_comm, StoredTree.id, visits, hx,
      hall children (List.Subset.refl _), StoredTree.postorder, List.append_assoc,
      List.singleton_append]

/-- A tree has no more nodes than the arena has cells. -/
theorem Holds.length_ids_le (h : a.Holds p t) (hnodup : t.ids.Nodup) :
    t.ids.length ≤ a.cells.size := by
  have hsub : t.ids ⊆ List.range a.cells.size := by
    intro i hi
    obtain ⟨q, u, rfl, hu, -⟩ := h.exists_of_mem_ids hi
    exact List.mem_range.2 (Array.getElem?_eq_some_iff.1 hu.cell).1
  exact Nat.le_trans (hnodup.subperm hsub).length_le (Nat.le_of_eq List.length_range)

theorem Holds.postOrder?_eq (h : a.Holds p t) (hnodup : t.ids.Nodup) :
    a.postOrder? t.id = some t.postorder := by
  obtain ⟨n, hn⟩ := Nat.exists_eq_add_of_le (h.length_ids_le hnodup)
  rw [postOrder?, hn, h.visits_eq, visits, List.append_nil]

/-! ## Node by node -/

/-- What was rebuilt is stored. -/
theorem Rebuilding.holds {start : Arena} {ids : List Nat} {kept loose : List StoredTree}
    (h : Rebuilding start ids p x l kept loose a) : a.Holds p (.node x l kept) :=
  .node h.cell h.holds_kept

theorem finishNode_eq (a : Arena) (x : Nat) : a.finishNode x =
    (a.takeChildren x).2.keep x (((a.label? x).map Label.shaping).getD .keep)
      (a.takeChildren x).1 := by
  rw [finishNode]
  rcases a.label? x with _ | l
  · rfl
  · rw [Option.map_some, Option.getD_some, Option.bind_some, Label.shaping]
    rcases l.production with _ | p <;> rfl

/-- **Finishing a node** gives it the children that its shaping keeps. -/
theorem Holds.finishNode (h : a.Holds p (.node x l children))
    (hnodup : (x :: idsAll children).Nodup) :
    ∃ loose, Rebuilding a (x :: idsAll children) p x l (l.shaping.kept children) loose
      (a.finishNode x) := by
  obtain ⟨hchildren, hrebuilding⟩ := h.rebuilding hnodup
  rw [finishNode_eq, label?, (holds_node.1 h).1, hchildren]
  exact hrebuilding.keep _

/-- A tree is still stored if only other cells have changed. -/
theorem SameBut.holds {ids : List Nat} (h : SameBut ids a a') (ht : a.Holds p t)
    (hdisjoint : t.ids.Disjoint ids) : a'.Holds p t :=
  ht.congr fun i hi => h.cells i fun hmem => hdisjoint hi hmem

/-- **A stored tree has been finished**, and no other. -/
structure Finished (a : Arena) (p : Option Nat) (t : StoredTree) (a' : Arena) : Prop where
  holds : a'.Holds p t.finished
  same : SameBut t.ids a a'

/-- If each of several trees can be finished, they can be finished one after the other. -/
theorem finished_all {ts : List StoredTree} (h : ∀ t ∈ ts, a.Holds p t) (hnodup : (idsAll ts).Nodup)
    (hfinish : ∀ t ∈ ts, ∀ a : Arena, a.Holds p t → t.ids.Nodup →
      Finished a p t (t.postorder.foldl Arena.finishNode a)) :
    (∀ t ∈ ts, ((postorderAll ts).foldl Arena.finishNode a).Holds p t.finished) ∧
      SameBut (idsAll ts) a ((postorderAll ts).foldl Arena.finishNode a) := by
  induction ts generalizing a with
  | nil => exact ⟨List.forall_mem_nil _, .refl _ a⟩
  | cons t ts ih =>
    obtain ⟨ht, hts⟩ := List.forall_mem_cons.1 h
    obtain ⟨hfinish, hfinishes⟩ := List.forall_mem_cons.1 hfinish
    rw [StoredTree.idsAll_cons] at hnodup ⊢
    obtain ⟨htnodup, hsnodup, hdisjoint⟩ := List.nodup_append'.1 hnodup
    rw [postorderAll, List.foldl_append]
    obtain ⟨hfirst, hsame⟩ := hfinish a ht htnodup
    -- to finish the first tree changes no cell of the others
    have hother : ∀ u ∈ ts, u.ids.Disjoint t.ids := fun u hu i hi hmem =>
      hdisjoint hmem (StoredTree.mem_idsAll.2 ⟨u, hu, hi⟩)
    obtain ⟨hrest, hsame'⟩ :=
      ih (fun u hu => hsame.holds (hts u hu) (hother u hu)) hsnodup hfinishes
    have hfirst' : t.finished.ids.Disjoint (idsAll ts) := fun i hi =>
      hdisjoint (t.ids_finished_sublist.subset hi)
    exact ⟨List.forall_mem_cons.2 ⟨hsame'.holds hfirst hfirst', hrest⟩,
      (hsame.mono (List.subset_append_left ..)).trans (hsame'.mono (List.subset_append_right ..))⟩

/-- **Finishing all nodes of a stored tree**, children before parents, leaves the finished tree. -/
theorem Holds.finished (h : a.Holds p t) (hnodup : t.ids.Nodup) :
    Finished a p t (t.postorder.foldl Arena.finishNode a) := by
  induction t using StoredTree.induction_on_children generalizing a p with
  | h x l children ih =>
    have hsub : (idsAll (children.map StoredTree.finished)).Sublist (idsAll children) :=
      StoredTree.idsAll_map_finished_sublist children
    rw [StoredTree.ids_node] at hnodup
    obtain ⟨hx, hsnodup⟩ := List.nodup_cons.1 hnodup
    obtain ⟨hcell, hchildren⟩ := holds_node.1 h
    obtain ⟨hall, hsame⟩ := finished_all hchildren hsnodup fun t ht a => ih t ht
    have hbefore : ((postorderAll children).foldl Arena.finishNode a).Holds p
        (.node x l (children.map StoredTree.finished)) := by
      refine .node ?_ (List.forall_mem_map.2 hall)
      rw [hsame.cells x hx, hcell, List.map_map]
      exact congrArg (fun ids => some (Cell.mk l ids p))
        (List.map_congr_left fun t _ => t.id_finished.symm)
    obtain ⟨loose, hrebuilt⟩ := hbefore.finishNode (hnodup.sublist (hsub.cons_cons x))
    rw [StoredTree.postorder, List.foldl_append]
    refine ⟨StoredTree.finished_node x l children ▸ hrebuilt.holds, ?_⟩
    rw [StoredTree.ids_node]
    exact (hsame.mono (List.subset_cons_self ..)).trans
      (hrebuilt.same.mono (hsub.cons_cons x).subset)

/-- **Finishing a stored tree in place** succeeds, and leaves its finished form. -/
theorem Holds.finish (h : a.Holds p t) (hnodup : t.ids.Nodup) :
    ∃ a', a.finish t.id = some a' ∧ Finished a p t a' :=
  ⟨_, by rw [Arena.finish, h.postOrder?_eq hnodup]; rfl, h.finished hnodup⟩

/-! ## Storing a tree -/

/-- **Trees were added to an arena** under numbers that were not in use. -/
structure Stores (a : Arena) (p : Option Nat) (ts : List ParseTree) (stored : List StoredTree)
    (a' : Arena) : Prop where
  trees : stored.map StoredTree.tree = ts
  holds : ∀ t ∈ stored, a'.Holds p t
  nodup : (idsAll stored).Nodup
  range : ∀ i ∈ idsAll stored, a.cells.size ≤ i ∧ i < a'.cells.size
  old : ∀ i < a.cells.size, a'.cells[i]? = a.cells[i]?
  size : a.cells.size ≤ a'.cells.size

theorem stores_nil (a : Arena) (p : Option Nat) : Stores a p [] [] a :=
  ⟨rfl, by simp, by simp, by simp, fun _ _ => rfl, Nat.le_refl _⟩

/-- One tree after the other. -/
theorem Stores.cons {a'' : Arena} {t : ParseTree} {ts : List ParseTree} {s : StoredTree}
    {stored : List StoredTree} (h : Stores a p [t] [s] a') (h' : Stores a' p ts stored a'') :
    Stores a p (t :: ts) (s :: stored) a'' := by
  have hs : ∀ i ∈ s.ids, a.cells.size ≤ i ∧ i < a'.cells.size :=
    fun i hi => h.range i (by simpa using hi)
  refine ⟨?_, List.forall_mem_cons.2 ⟨?_, h'.holds⟩, ?_, ?_, fun i hi => ?_,
    Nat.le_trans h.size h'.size⟩
  · rw [List.map_cons, h'.trees, List.singleton_inj.1 h.trees]
  · exact (h.holds s (List.mem_singleton_self s)).congr fun i hi => h'.old i (hs i hi).2
  · rw [StoredTree.idsAll_cons]
    refine List.nodup_append'.2 ⟨by simpa using h.nodup, h'.nodup, fun i hi hmem => ?_⟩
    exact Nat.not_lt.2 (h'.range i hmem).1 (hs i hi).2
  · rw [StoredTree.idsAll_cons]
    refine List.forall_mem_append.2 ⟨fun i hi => ?_, fun i hi => ?_⟩
    · exact (hs i hi).imp_right fun hlt => Nat.lt_of_lt_of_le hlt h'.size
    · exact (h'.range i hi).imp_left (Nat.le_trans h.size)
  · rw [h'.old i (Nat.lt_of_lt_of_le hi h.size), h.old i hi]

/-- **A node is stored** before the trees below it, and lists them afterwards. -/
theorem Stores.node {ts : List ParseTree} {stored : List StoredTree}
    (h : Stores ⟨a.cells.push ⟨l, [], p⟩⟩ (some a.cells.size) ts stored a') :
    Stores a p [.node l ts] [.node a.cells.size l stored]
      (a'.modify a.cells.size fun c => { c with children := stored.map (·.id) }) := by
  have hpush : (a.cells.push ⟨l, [], p⟩).size = a.cells.size + 1 := Array.size_push _
  have hrange : ∀ i ∈ idsAll stored, a.cells.size < i ∧ i < a'.cells.size := fun i hi =>
    (h.range i hi).imp_left (Nat.le_trans (Nat.le_of_eq hpush.symm))
  have hsize : a.cells.size < a'.cells.size := Nat.le_trans (Nat.le_of_eq hpush.symm) h.size
  have hold : ∀ i, i < a.cells.size + 1 → a'.cells[i]? = (a.cells.push ⟨l, [], p⟩)[i]? :=
    fun i hi => h.old i (hpush ▸ hi)
  have hids : idsAll [.node a.cells.size l stored] = a.cells.size :: idsAll stored := by
    rw [StoredTree.idsAll_cons, StoredTree.ids_node, StoredTree.idsAll_nil, List.append_nil]
  refine ⟨?_, List.forall_mem_singleton.2 (.node ?_ fun t ht => ?_), ?_, ?_, fun i hi => ?_, ?_⟩
  · rw [List.map_singleton, StoredTree.tree_node, h.trees]
  · rw [cells_modify, if_pos rfl, hold _ (Nat.lt_succ_self _), Array.getElem?_push_size]
    rfl
  · refine (h.holds t ht).congr fun i hi => ?_
    rw [cells_modify, if_neg (Nat.ne_of_lt (hrange i (StoredTree.mem_idsAll.2 ⟨t, ht, hi⟩)).1)]
  · rw [hids]
    exact List.nodup_cons.2 ⟨fun hmem => Nat.lt_irrefl _ (hrange _ hmem).1, h.nodup⟩
  · rw [hids, modify, Array.size_modify]
    exact List.forall_mem_cons.2 ⟨⟨Nat.le_refl _, hsize⟩, fun i hi =>
      (hrange i hi).imp_left Nat.le_of_lt⟩
  · rw [cells_modify, if_neg (Nat.ne_of_gt hi), hold i (Nat.lt_succ_of_lt hi),
      Array.getElem?_push_lt hi, Array.getElem?_eq_getElem hi]
  · rw [modify, Array.size_modify]
    exact Nat.le_of_lt hsize

theorem exists_stores (t : ParseTree) (a : Arena) (p : Option Nat) :
    ∃ s a', Stores a p [t] [s] a' := by
  induction t using ParseTree.induction_on_children generalizing a p with
  | h l children ih =>
    have hall : ∀ ts ⊆ children, ∀ a p, ∃ stored a', Stores a p ts stored a' := by
      intro ts hts
      induction ts with
      | nil => exact fun a p => ⟨[], a, stores_nil a p⟩
      | cons t ts ihs =>
        intro a p
        obtain ⟨ht, hts⟩ := List.cons_subset.1 hts
        obtain ⟨s, a₁, hs⟩ := ih t ht a p
        obtain ⟨stored, a₂, hstored⟩ := ihs hts a₁ p
        exact ⟨_, _, hs.cons hstored⟩
    obtain ⟨stored, a', hstored⟩ := hall children (List.Subset.refl _) ⟨a.cells.push ⟨l, [], p⟩⟩ _
    exact ⟨_, _, hstored.node⟩

/-- **An arena represents a tree**, whose nodes have the numbers that they have in `s`. -/
structure Represents (a : Arena) (t : ParseTree) (s : StoredTree) : Prop where
  holds : a.Holds none s
  nodup : s.ids.Nodup
  tree : s.tree = t

/-- **Every tree can be stored**, with a number for each node. -/
theorem exists_represents (t : ParseTree) : ∃ a s, Represents a t s := by
  obtain ⟨s, a, h⟩ := exists_stores t ⟨#[]⟩ none
  exact ⟨a, s, h.holds s (List.mem_singleton_self s), by simpa using h.nodup,
    List.singleton_inj.1 h.trees⟩

/-- **Finishing in place** leaves the finished tree, and changes no label. -/
theorem Represents.finish {t : ParseTree} {s : StoredTree} (h : a.Represents t s) :
    ∃ a', a.finish s.id = some a' ∧ a'.Represents t.shape.1 s.finished ∧
      ∀ i, a'.label? i = a.label? i := by
  obtain ⟨a', hfinish, hholds, hsame⟩ := h.holds.finish h.nodup
  refine ⟨a', hfinish, ⟨hholds, h.nodup.sublist s.ids_finished_sublist, ?_⟩, hsame.labels⟩
  rw [s.tree_finished, h.tree]

end Arena

end Typeahead
