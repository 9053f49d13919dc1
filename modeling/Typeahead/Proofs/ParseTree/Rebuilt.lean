import Typeahead.Proofs.ParseTree.Arena

/-!
# Proofs/ParseTree/Rebuilt — the steps that rebuild a node

While a node is rebuilt, the trees that were below it are loose, and one after the other becomes its
child again.  `Arena.Rebuilding` is what holds all the while; each step of the rebuilding has a lemma
that says how it changes the children and the loose trees.
-/

namespace Typeahead

open StoredTree (idsAll)

namespace Arena

variable {a a' a'' : Arena} {i : Nat}

/-! ## Cells after a step -/

theorem cells_modify (a : Arena) (x : Nat) (f : Cell → Cell) (i : Nat) :
    (a.modify x f).cells[i]? = if x = i then a.cells[i]?.map f else a.cells[i]? := by
  rw [modify, Array.getElem?_modify]

/-- **Two arenas differ in some cells at most**, and not in what the nodes carry. -/
structure SameBut (ids : List Nat) (a a' : Arena) : Prop where
  cells : ∀ i ∉ ids, a'.cells[i]? = a.cells[i]?
  labels : ∀ i, a'.label? i = a.label? i

variable {ids ids' : List Nat}

theorem SameBut.refl (ids : List Nat) (a : Arena) : SameBut ids a a := ⟨fun _ _ => rfl, fun _ => rfl⟩

theorem SameBut.trans (h : SameBut ids a a') (h' : SameBut ids a' a'') : SameBut ids a a'' :=
  ⟨fun i hi => (h'.cells i hi).trans (h.cells i hi), fun i => (h'.labels i).trans (h.labels i)⟩

theorem SameBut.mono (h : SameBut ids a a') (hsub : ids ⊆ ids') : SameBut ids' a a' :=
  ⟨fun i hi => h.cells i fun hmem => hi (hsub hmem), h.labels⟩

theorem sameBut_modify (a : Arena) {x : Nat} (hx : x ∈ ids) {f : Cell → Cell}
    (hf : ∀ c, (f c).label = c.label) : SameBut ids a (a.modify x f) where
  cells i hi := by
    rw [cells_modify, if_neg]
    rintro rfl
    exact hi hx
  labels i := by
    rw [label?, label?, cells_modify]
    split
    · cases a.cells[i]? <;> simp [hf]
    · rfl

theorem sameBut_addChild (a : Arena) {x y : Nat} (hx : x ∈ ids) (hy : y ∈ ids) :
    SameBut ids a (a.addChild x y) := by
  refine (sameBut_modify a hy ?_).trans (sameBut_modify _ hx ?_)
  all_goals exact fun _ => rfl

theorem cells_addChild (a : Arena) {x y : Nat} (hxy : x ≠ y) (i : Nat) :
    (a.addChild x y).cells[i]? =
      if i = x then a.cells[i]?.map fun c => { c with children := c.children ++ [y] }
      else if i = y then a.cells[i]?.map fun c => { c with parent := some x }
      else a.cells[i]? := by
  rw [addChild, cells_modify, cells_modify]
  grind

/-- Nodes lose their parent. -/
def release (a : Arena) (children : List Nat) : Arena :=
  children.foldl (·.modify · fun c => { c with parent := none }) a

theorem takeChildren_eq (a : Arena) (x : Nat) : a.takeChildren x =
    (a.children x, (a.modify x fun c => { c with children := [] }).release (a.children x)) := rfl

theorem cells_release (a : Arena) (children : List Nat) (i : Nat) :
    (a.release children).cells[i]? =
      if i ∈ children then a.cells[i]?.map fun c => { c with parent := none }
      else a.cells[i]? := by
  induction children generalizing a with
  | nil => simp [release]
  | cons x children ih =>
    rw [release, List.foldl_cons, ← release, ih, cells_modify]
    rcases a.cells[i]? with _ | c <;> grind

theorem sameBut_release (a : Arena) {children : List Nat} (h : children ⊆ ids) :
    SameBut ids a (a.release children) := by
  induction children generalizing a with
  | nil => exact .refl ids a
  | cons x children ih =>
    rw [List.cons_subset] at h
    refine (sameBut_modify a h.1 ?_).trans (ih _ h.2)
    exact fun _ => rfl

/-- **Taking the children of a node** leaves it without any, and them without a parent. -/
structure Taken (a : Arena) (q : Option Nat) (y : Nat) (l : Label) (children : List StoredTree)
    (a' : Arena) : Prop where
  cell : a'.cells[y]? = some ⟨l, [], q⟩
  holds : ∀ t ∈ children, a'.Holds none t
  other : ∀ i, i ≠ y → i ∉ children.map (·.id) → a'.cells[i]? = a.cells[i]?
  same : SameBut (y :: idsAll children) a a'

theorem Holds.takeChildren {q : Option Nat} {y : Nat} {l : Label} {children : List StoredTree}
    (h : a.Holds q (.node y l children)) (hnodup : (y :: idsAll children).Nodup) :
    (a.takeChildren y).1 = children.map (·.id) ∧
      Taken a q y l children (a.takeChildren y).2 := by
  obtain ⟨hy, hnodup⟩ := List.nodup_cons.1 hnodup
  have hids : children.map (·.id) ⊆ idsAll children :=
    (StoredTree.map_id_sublist_idsAll children).subset
  have hchildren : a.children y = children.map (·.id) := h.children
  have hcells : ∀ i, (a.takeChildren y).2.cells[i]? =
      if i ∈ children.map (·.id) then a.cells[i]?.map fun c => { c with parent := none }
      else if i = y then a.cells[i]?.map fun c => { c with children := [] }
      else a.cells[i]? := by
    intro i
    rw [takeChildren_eq, hchildren, cells_release, cells_modify]
    grind
  refine ⟨hchildren, ?_, fun t ht => ?_, fun i hi hmem => ?_, ?_⟩
  · rw [hcells, if_neg fun hmem => hy (hids hmem), if_pos rfl, (holds_node.1 h).1]
    rfl
  · have hsub := StoredTree.ids_sublist_idsAll ht
    refine (h.child t ht).reparent (hnodup.sublist hsub) ?_ fun i hi hne => ?_
    · rw [hcells, if_pos (List.mem_map_of_mem ht)]
    · rw [hcells, if_neg fun hmem => hne (StoredTree.eq_id_of_mem_map_id hnodup ht hi hmem),
        if_neg (ne_of_mem_of_not_mem (hsub.subset hi) hy)]
  · rw [hcells, if_neg hmem, if_neg hi]
  · rw [takeChildren_eq, hchildren]
    refine (sameBut_modify a (List.mem_cons_self ..) ?_).trans (sameBut_release _ ?_)
    · exact fun _ => rfl
    · exact fun i hi => List.mem_cons_of_mem _ (hids hi)

theorem Taken.frame {q q' : Option Nat} {y : Nat} {l : Label} {children : List StoredTree}
    {t : StoredTree} (h : Taken a q y l children a') (ht : a.Holds q' t)
    (hdisjoint : ∀ i ∈ t.ids, i ∉ y :: idsAll children) : a'.Holds q' t := by
  refine ht.congr fun i hi => ?_
  obtain ⟨hy, hchildren⟩ := not_or.1 (mt List.mem_cons.2 (hdisjoint i hi))
  exact h.other i hy fun hmem =>
    hchildren ((StoredTree.map_id_sublist_idsAll children).subset hmem)

/-! ## Rebuilding a node -/

/-- **A node is being rebuilt**, in an arena that was `start` before and is changed in the cells
`ids` only.  The node has the trees `kept` as its children again, and the trees `loose` have no
parent. -/
structure Rebuilding (start : Arena) (ids : List Nat) (p : Option Nat) (x : Nat) (l : Label)
    (kept loose : List StoredTree) (a : Arena) : Prop where
  cell : a.cells[x]? = some ⟨l, kept.map (·.id), p⟩
  holds_kept : ∀ t ∈ kept, a.Holds (some x) t
  holds_loose : ∀ t ∈ loose, a.Holds none t
  nodup : (x :: idsAll (kept ++ loose)).Nodup
  subset : x :: idsAll (kept ++ loose) ⊆ ids
  same : SameBut ids start a

variable {start : Arena} {p : Option Nat} {x y : Nat} {l l' : Label}
  {kept loose more : List StoredTree} {t : StoredTree}

/-- A loose tree can be forgotten. -/
theorem Rebuilding.forget (h : Rebuilding start ids p x l kept (t :: loose) a) :
    Rebuilding start ids p x l kept loose a := by
  have hsub : (x :: idsAll (kept ++ loose)).Sublist (x :: idsAll (kept ++ t :: loose)) := by
    simp
  exact ⟨h.cell, h.holds_kept, fun u hu => h.holds_loose u (List.mem_cons_of_mem _ hu),
    h.nodup.sublist hsub, fun i hi => h.subset (hsub.subset hi), h.same⟩

/-- **A loose tree becomes the last child.** -/
theorem Rebuilding.addChild (h : Rebuilding start ids p x l kept (t :: loose) a) :
    Rebuilding start ids p x l (kept ++ [t]) loose (a.addChild x t.id) := by
  have hnodup := h.nodup
  simp only [StoredTree.idsAll_append, StoredTree.idsAll_cons, List.nodup_cons, List.mem_append,
    not_or, List.nodup_append', List.disjoint_append_right] at hnodup
  obtain ⟨⟨hxkept, hxt, hxloose⟩, -, ⟨htnodup, -, htloose⟩, htkept, -⟩ := hnodup
  have hcells := cells_addChild a (x := x) (y := t.id) fun heq => hxt (heq ▸ t.id_mem_ids)
  have hframe : ∀ us, x ∉ idsAll us → t.id ∉ idsAll us → ∀ u ∈ us, ∀ i ∈ u.ids,
      (a.addChild x t.id).cells[i]? = a.cells[i]? := by
    intro us hx ht u hu i hi
    have hi := StoredTree.mem_idsAll.2 ⟨u, hu, hi⟩
    rw [hcells, if_neg (ne_of_mem_of_not_mem hi hx), if_neg (ne_of_mem_of_not_mem hi ht)]
  refine ⟨?_, List.forall_mem_append.2 ⟨fun u hu => ?_, List.forall_mem_singleton.2 ?_⟩,
    fun u hu => ?_, by simpa using h.nodup, by simpa using h.subset,
    h.same.trans (sameBut_addChild a (h.subset (by simp)) (h.subset (by simp [t.id_mem_ids])))⟩
  · rw [hcells, if_pos rfl, h.cell]
    simp
  · exact (h.holds_kept u hu).congr
      (hframe kept hxkept (fun hmem => htkept hmem t.id_mem_ids) u hu)
  · refine (h.holds_loose t (List.mem_cons_self ..)).reparent htnodup ?_ fun i hi hne => ?_
    · rw [hcells, if_neg (ne_of_mem_of_not_mem t.id_mem_ids hxt), if_pos rfl]
    · rw [hcells, if_neg (ne_of_mem_of_not_mem hi hxt), if_neg hne]
  · exact (h.holds_loose u (List.mem_cons_of_mem _ hu)).congr
      (hframe loose hxloose (htloose t.id_mem_ids) u hu)

/-- **Loose trees become the last children**, one after the other. -/
theorem Rebuilding.addChildren (h : Rebuilding start ids p x l kept (more ++ loose) a) :
    Rebuilding start ids p x l (kept ++ more) loose (a.addChildren x (more.map (·.id))) := by
  induction more generalizing kept a with
  | nil => simpa [Arena.addChildren] using h
  | cons t more ih =>
    have hmore := ih (Rebuilding.addChild h)
    rwa [List.append_assoc] at hmore

/-- **The children of a loose tree** become loose, and its root is forgotten. -/
theorem Rebuilding.takeChildren
    (h : Rebuilding start ids p x l kept (.node y l' more :: loose) a) :
    (a.takeChildren y).1 = more.map (·.id) ∧
      Rebuilding start ids p x l kept (more ++ loose) (a.takeChildren y).2 := by
  obtain ⟨hx, hnodup⟩ := List.nodup_cons.1 h.nodup
  rw [StoredTree.idsAll_append, StoredTree.idsAll_cons, StoredTree.ids_node] at hx hnodup
  obtain ⟨-, hrest, hkept⟩ := List.nodup_append'.1 hnodup
  obtain ⟨htree, -, hloose⟩ := List.nodup_append'.1 hrest
  obtain ⟨hchildren, htaken⟩ := (h.holds_loose _ (List.mem_cons_self ..)).takeChildren htree
  have hsub : (x :: idsAll (kept ++ (more ++ loose))).Sublist
      (x :: idsAll (kept ++ .node y l' more :: loose)) := by
    simp [StoredTree.ids_node]
  have htaken_ids : y :: idsAll more ⊆ ids := fun i hi => h.subset <| by
    rw [StoredTree.idsAll_append, StoredTree.idsAll_cons, StoredTree.ids_node]
    exact List.mem_cons_of_mem _ (List.mem_append_right _ (List.mem_append_left _ hi))
  refine ⟨hchildren, ?_, fun u hu => ?_, List.forall_mem_append.2 ⟨htaken.holds, fun u hu => ?_⟩,
    h.nodup.sublist hsub, fun i hi => h.subset (hsub.subset hi),
    h.same.trans (htaken.same.mono htaken_ids)⟩
  · have hx : x ∉ y :: idsAll more := fun hmem =>
      hx (List.mem_append_right _ (List.mem_append_left _ hmem))
    obtain ⟨hxy, hxmore⟩ := not_or.1 (mt List.mem_cons.2 hx)
    rw [htaken.other x hxy fun hmem =>
      hxmore ((StoredTree.map_id_sublist_idsAll more).subset hmem), h.cell]
  · refine htaken.frame (h.holds_kept u hu) fun i hi hmem => ?_
    exact hkept (StoredTree.mem_idsAll.2 ⟨u, hu, hi⟩) (List.mem_append_left _ hmem)
  · refine htaken.frame (h.holds_loose u (List.mem_cons_of_mem _ hu)) fun i hi hmem => ?_
    exact hloose hmem (StoredTree.mem_idsAll.2 ⟨u, hu, hi⟩)

/-- **The children of a loose tree become the last children.** -/
theorem Rebuilding.moveChildren (h : Rebuilding start ids p x l kept (t :: loose) a) :
    Rebuilding start ids p x l (kept ++ t.children) loose (a.moveChildren t.id x) := by
  obtain ⟨y, l', more⟩ := t
  obtain ⟨hchildren, h⟩ := h.takeChildren
  rw [Arena.moveChildren]
  dsimp only [StoredTree.id]
  rw [hchildren]
  exact h.addChildren

/-- The children of loose trees become the last children, tree by tree. -/
theorem Rebuilding.moveAll (h : Rebuilding start ids p x l kept (more ++ loose) a) :
    Rebuilding start ids p x l (kept ++ more.flatMap (·.children)) loose
      ((more.map (·.id)).foldl (·.moveChildren · x) a) := by
  induction more generalizing kept a with
  | nil => simpa using h
  | cons t more ih =>
    have hmore := ih (Rebuilding.moveChildren h)
    rwa [List.append_assoc] at hmore

/-- **A node without children** begins to be rebuilt, with the trees below it loose. -/
theorem Holds.rebuilding {children : List StoredTree} (h : a.Holds p (.node x l children))
    (hnodup : (x :: idsAll children).Nodup) :
    (a.takeChildren x).1 = children.map (·.id) ∧
      Rebuilding a (x :: idsAll children) p x l [] children (a.takeChildren x).2 := by
  obtain ⟨hchildren, htaken⟩ := h.takeChildren hnodup
  exact ⟨hchildren, htaken.cell, List.forall_mem_nil _, htaken.holds, hnodup, List.Subset.refl _,
    htaken.same⟩

/-! ## By shaping -/

end Arena

/-- The trees that a shaping keeps as children, out of those below a node. -/
def Shaping.kept (shaping : Shaping) (children : List StoredTree) : List StoredTree :=
  match shaping, children with
  | .keep, ts => ts
  | .entryAndTail, [entry, tail] => entry :: tail.children
  | .second, [_, entry] => [entry]
  | .headed, [entry, rest] => entry :: rest.children.flatMap (·.children)
  | .spreadLast, ts =>
    match ts.getLast? with
    | some last => ts.dropLast ++ last.children
    | none => []
  | .bracketed true, [opening, middle, closing] => opening :: middle.children ++ [closing]
  | .bracketed false, [_, middle, _] => middle.children
  | .wrapped, first :: _ => first.children
  | _, _ => []

/-- It keeps what a split keeps. -/
theorem Shaping.split_map_tree (shaping : Shaping) (children : List StoredTree) :
    (shaping.split (children.map StoredTree.tree)).1
      = (shaping.kept children).map StoredTree.tree := by
  cases shaping with
  | keep => rfl
  | spreadLast =>
    rcases List.eq_nil_or_concat children with rfl | ⟨ts, last, rfl⟩
    · rfl
    · simp [split, kept]
  | headed =>
    match children with
    | [entry, rest] => simp [split, kept, List.map_flatMap, List.flatMap_map]
    | [] | [_] | _ :: _ :: _ :: _ => rfl
  | entryAndTail | second =>
    match children with
    | [_, _] => simp [split, kept]
    | [] | [_] | _ :: _ :: _ :: _ => rfl
  | bracketed keepBrackets =>
    match keepBrackets, children with
    | true, [_, _, _] | false, [_, _, _] => simp [split, kept]
    | true, [] | true, [_] | true, [_, _] | true, _ :: _ :: _ :: _ :: _
    | false, [] | false, [_] | false, [_, _] | false, _ :: _ :: _ :: _ :: _ => rfl
  | wrapped =>
    match children with
    | [] => rfl
    | _ :: _ => simp [split, kept]

namespace Arena

variable {start a : Arena} {ids : List Nat} {p : Option Nat} {x : Nat} {l : Label}
  {children : List StoredTree}

/-- **A shaping gives a node the children that it keeps.** -/
theorem Rebuilding.keep (h : Rebuilding start ids p x l [] children a) (shaping : Shaping) :
    ∃ loose, Rebuilding start ids p x l (shaping.kept children) loose
      (a.keep x shaping (children.map (·.id))) := by
  cases shaping with
  | keep =>
    rw [← List.append_nil children] at h
    exact ⟨[], h.addChildren⟩
  | entryAndTail =>
    match children, h with
    | [_, _], h => exact ⟨[], h.addChild.moveChildren⟩
    | [], h | [_], h | _ :: _ :: _ :: _, h => exact ⟨_, h⟩
  | second =>
    match children, h with
    | [_, _], h => exact ⟨[], h.forget.addChild⟩
    | [], h | [_], h | _ :: _ :: _ :: _, h => exact ⟨_, h⟩
  | headed =>
    match children, h with
    | [entry, .node y l' followers], h =>
      obtain ⟨hfollowers, h⟩ := h.addChild.takeChildren
      refine ⟨[], ?_⟩
      change Rebuilding _ _ _ _ _ _ _ (((a.addChild x entry.id).takeChildren y).1.foldl _ _)
      rw [hfollowers]
      exact h.moveAll
    | [], h | [_], h | _ :: _ :: _ :: _, h => exact ⟨_, h⟩
  | spreadLast =>
    rcases List.eq_nil_or_concat children with rfl | ⟨ts, last, rfl⟩
    · exact ⟨[], h⟩
    · rw [List.concat_eq_append] at h ⊢
      refine ⟨[], ?_⟩
      simpa [Arena.keep, Shaping.kept] using (Rebuilding.addChildren h).moveChildren
  | bracketed keepBrackets =>
    match keepBrackets, children, h with
    | true, [_, _, _], h => exact ⟨[], h.addChild.moveChildren.addChild⟩
    | false, [_, _, closing], h => exact ⟨[closing], h.forget.moveChildren⟩
    | true, [], h | true, [_], h | true, [_, _], h | true, _ :: _ :: _ :: _ :: _, h
    | false, [], h | false, [_], h | false, [_, _], h | false, _ :: _ :: _ :: _ :: _, h =>
      exact ⟨_, h⟩
  | wrapped =>
    match children, h with
    | [], h => exact ⟨[], h⟩
    | _ :: more, h => exact ⟨more, h.moveChildren⟩

end Arena

end Typeahead
