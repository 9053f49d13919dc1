import Typeahead.Proofs.ParseTree.Kept

/-!
# Proofs/ParseTree/Nodes — the nodes on the way to the stuck one, at their places

The nodes on the way are those of the path, in the same order (`map_toVisit_nodesOn`).  The way of
each of them, followed from the trees it is among, leads to its label below a node of the rule that
governs its parent (`mem_stuckNodes_isAt`): a completer that looks around finds its node where it is
said to be.
-/

namespace Typeahead.ParseTree

variable {parentRule : Option Nat} {t : ParseTree} {ts : List ParseTree} {path : List Visit}
  {v : Visit} {n : Node}

/-! ## The nodes of a path -/

@[simp] theorem map_toVisit_nodesOn (ts : List ParseTree) (path : List Visit) :
    (nodesOn ts path).map (·.toVisit) = path := by
  rw [nodesOn, List.map_map]
  exact List.zipIdx_map_fst 0 path

theorem stuckPathAll?_singleton (parentRule : Option Nat) (t : ParseTree) :
    stuckPathAll? parentRule [t] = stuckPath? parentRule t := by
  rw [stuckPathAll?, stuckPathAll?]
  split
  next hpath => exact hpath.symm
  next hpath => exact hpath.symm

theorem stuckNodes?_eq_some (hpath : t.stuckPath? none = some path) :
    stuckNodes? [t] = some (nodesOn [t] path) := by
  rw [stuckNodes?, stuckPathAll?_singleton, hpath]
  rfl

theorem stuckNodes_of_stuckPath? (hpath : t.stuckPath? none = some path) :
    stuckNodes [t] = nodesOn [t] path := by
  rw [stuckNodes, stuckNodes?_eq_some hpath]
  rfl

theorem map_toVisit_stuckNodes (ts : List ParseTree) :
    (stuckNodes ts).map (·.toVisit) = (stuckPathAll? none ts).getD [] := by
  rw [stuckNodes, stuckNodes?]
  rcases stuckPathAll? none ts with _ | path
  · rfl
  · exact map_toVisit_nodesOn ts path

/-- A node on the way is a node of the path. -/
theorem exists_path_of_mem_stuckNodes (h : n ∈ stuckNodes ts) :
    ∃ t ∈ ts, ∃ path, t.stuckPath? none = some path ∧ n.toVisit ∈ path := by
  have hmem : n.toVisit ∈ (stuckPathAll? none ts).getD [] := by
    rw [← map_toVisit_stuckNodes]
    exact List.mem_map_of_mem h
  rcases hpath : stuckPathAll? none ts with _ | path
  · rw [hpath] at hmem
    cases hmem
  · rw [hpath] at hmem
    obtain ⟨t, ht, hpath⟩ := stuckPathAll?_eq_some hpath
    exact ⟨t, ht, path, hpath, hmem⟩

/-- The last node on the way is the last of the path. -/
theorem map_toVisit_getLast?_stuckNodes (ts : List ParseTree) :
    (stuckNodes ts).getLast?.map (·.toVisit) = ((stuckPathAll? none ts).getD []).getLast? := by
  rw [← map_toVisit_stuckNodes, List.getLast?_map]

theorem exists_getLast?_stuckNodes (hpath : stuckPathAll? none ts = some path)
    (hlast : path.getLast? = some v) :
    ∃ n, (stuckNodes ts).getLast? = some n ∧ n.toVisit = v := by
  refine Option.map_eq_some_iff.1 ?_
  rw [map_toVisit_getLast?_stuckNodes, hpath]
  exact hlast

theorem exists_path_of_getLast?_stuckNodes (h : (stuckNodes ts).getLast? = some n) :
    ∃ t ∈ ts, ∃ path, t.stuckPath? none = some path ∧ path.getLast? = some n.toVisit := by
  have hlast := map_toVisit_getLast?_stuckNodes ts
  rw [h, Option.map_some] at hlast
  rcases hpath : stuckPathAll? none ts with _ | path
  · rw [hpath] at hlast
    cases hlast
  · rw [hpath] at hlast
    obtain ⟨t, ht, hpath⟩ := stuckPathAll?_eq_some hpath
    exact ⟨t, ht, path, hpath, hlast.symm⟩

theorem exists_stuckPath_of_mem_stuckNodes (h : n ∈ stuckNodes [t]) :
    ∃ path, t.stuckPath? none = some path ∧ n.toVisit ∈ path := by
  obtain ⟨u, hu, hpath⟩ := exists_path_of_mem_stuckNodes h
  exact List.mem_singleton.1 hu ▸ hpath

/-! ## Places -/

/-- There is a way to the stuck node just if there are nodes on it. -/
theorem isSome_stuckWay? (t : ParseTree) (parentRule : Option Nat) :
    t.stuckWay?.isSome = (t.stuckPath? parentRule).isSome := by
  induction t using induction_on_children generalizing parentRule with
  | h l children ih =>
    have hchildren : ∀ (ts : List ParseTree) (i : Nat), (∀ t ∈ ts, t ∈ children) →
        (stuckWayAll? i ts).isSome = (stuckPathAll? l.ruleIndex ts).isSome := by
      intro ts
      induction ts with
      | nil => exact fun i _ => rfl
      | cons t ts ihts =>
        intro i hts
        obtain ⟨ht, hts⟩ := List.forall_mem_cons.1 hts
        have hfirst := ih t ht l.ruleIndex
        rw [stuckWayAll?, stuckPathAll?]
        rcases hway : t.stuckWay? with _ | way <;>
          rcases hpath : t.stuckPath? l.ruleIndex with _ | path <;> rw [hway, hpath] at hfirst
        · exact ihts (i + 1) hts
        · cases hfirst
        · cases hfirst
        · rfl
    rw [stuckWay?, stuckPath?]
    split
    · rfl
    · rw [Option.isSome_map, hchildren children 0 fun _ => id]

/-- The way to the stuck node begins with the position of the tree it is below. -/
theorem exists_stuckWayAll? (i : Nat) (h : stuckPathAll? parentRule ts = some path) :
    ∃ j t way, ts[j]? = some t ∧ t.stuckPath? parentRule = some path ∧ t.stuckWay? = some way ∧
      stuckWayAll? i ts = some ((i + j) :: way) := by
  induction ts generalizing i with
  | nil =>
    rw [stuckPathAll?] at h
    cases h
  | cons t ts ih =>
    have hfirst := isSome_stuckWay? t parentRule
    rw [stuckPathAll?] at h
    rw [stuckWayAll?]
    rcases hpath : t.stuckPath? parentRule with _ | path' <;> rw [hpath] at h hfirst
    · obtain ⟨j, u, way, hu, hpath, hway, hall⟩ := ih (i + 1) h
      rw [Option.isSome_eq_false_iff.1 hfirst |> Option.isNone_iff_eq_none.1]
      refine ⟨j + 1, u, way, hu, hpath, hway, hall.trans ?_⟩
      rw [Nat.add_right_comm, Nat.add_assoc]
    · obtain ⟨way, hway⟩ := Option.isSome_iff_exists.1 hfirst
      rw [hway]
      exact ⟨0, t, way, rfl, hpath.trans h, hway, rfl⟩

end Typeahead.ParseTree

namespace Typeahead

open ParseTree

variable {t : ParseTree} {ts : List ParseTree} {path : List Visit} {v : Visit} {n : Node}

/-- **A visit is at the end of a way** from a node below `parent`. -/
def Visit.IsAt (v : Visit) (parent : Option Label) (t : ParseTree) (way : List Nat) : Prop :=
  ∃ parent' u, t.descend? parent way = some (parent', u) ∧
    v = ⟨u.label, parent'.bind (·.ruleIndex)⟩

theorem Visit.IsAt.below {parent : Option Label} {l : Label} {children : List ParseTree} {j : Nat}
    {way : List Nat} (h : v.IsAt (some l) t way) (ht : children[j]? = some t) :
    v.IsAt parent (.node l children) (j :: way) := by
  obtain ⟨parent', u, hdescend, hv⟩ := h
  refine ⟨parent', u, ?_, hv⟩
  rw [ParseTree.descend?, ht]
  exact hdescend

/-- **The nodes of the path are where the way leads.** -/
theorem ParseTree.exists_stuckWay? (parent : Option Label)
    (h : t.stuckPath? (parent.bind (·.ruleIndex)) = some path) :
    ∃ way, t.stuckWay? = some way ∧
      ∀ k (v : Visit), path[k]? = some v → v.IsAt parent t (way.take k) := by
  induction t using induction_on_children generalizing parent path with
  | h l children ih =>
    have hroot : Visit.IsAt ⟨l, parent.bind (·.ruleIndex)⟩ parent (.node l children) [] :=
      ⟨parent, .node l children, rfl, rfl⟩
    rw [stuckPath?] at h
    rw [stuckWay?]
    split at h
    next hleaf =>
      obtain rfl := Option.some.inj h
      refine ⟨[], if_pos hleaf, fun k v hv => ?_⟩
      obtain ⟨rfl, rfl⟩ : k = 0 ∧ v = ⟨l, parent.bind (·.ruleIndex)⟩ := by
        cases k <;> simp_all
      exact hroot
    next hleaf =>
      obtain ⟨below, hbelow, rfl⟩ := Option.map_eq_some_iff.1 h
      obtain ⟨j, t, way, ht, hpath, hway, hall⟩ := exists_stuckWayAll? 0 hbelow
      rw [Nat.zero_add] at hall
      refine ⟨j :: way, by rw [if_neg hleaf, hall], fun k v hv => ?_⟩
      obtain ⟨way', hway', hat⟩ := ih t (List.mem_of_getElem? ht) (some l) hpath
      obtain rfl := Option.some.inj (hway.symm.trans hway')
      cases k with
      | zero => exact Option.some.inj hv ▸ hroot
      | succ k => exact (hat k v hv).below ht

/-- **A node on the way to the stuck one is at its place.** -/
theorem ParseTree.mem_stuckNodes_isAt (h : n ∈ stuckNodes ts) :
    n.trees = ts ∧ ∃ j way t, n.way = j :: way ∧ ts[j]? = some t ∧ n.toVisit.IsAt none t way := by
  rw [stuckNodes, stuckNodes?] at h
  rcases hpath : stuckPathAll? none ts with _ | path <;> rw [hpath] at h
  · cases h
  · obtain ⟨j, t, way, ht, hpath, hway, hall⟩ := exists_stuckWayAll? 0 hpath
    obtain ⟨way', hway', hat⟩ := exists_stuckWay? none hpath
    obtain rfl := Option.some.inj (hway.symm.trans hway')
    obtain ⟨⟨v, k⟩, hk, rfl⟩ := List.mem_map.1 h
    have hk := List.mem_zipIdx_iff_getElem?.1 hk
    refine ⟨rfl, j, way.take k, t, ?_, ht, hat k v hk⟩
    rw [hall, Nat.zero_add]
    rfl

end Typeahead
