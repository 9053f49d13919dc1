import Typeahead.Proofs.ParseTree.Gathered
import Typeahead.Proofs.ParseTree.Listening

/-!
# Proofs/ParseTree/Planted — the tree of a derivation, built in an arena

The tree of a derivation is built in an arena from a row of nodes: the leaves are pushed first, and
every expansion, the latest first, pushes a node and makes the nodes of its right side the children of
it (`Derivation.planted`).  The row in the arena stores the row of trees that is gathered the same way
(`Arena.Row`), so in the end the arena represents the tree of the derivation.
-/

namespace Typeahead

open ParseTree (leaf)
open StoredTree (idsAll)

namespace Arena

/-- Puts a node without children behind the others. -/
def push (a : Arena) (l : Label) : Arena := ⟨a.cells.push ⟨l, [], none⟩⟩

/-- Puts leaves into an arena, and into a row. -/
def pushAll (ls : List Label) (row : List Nat) (a : Arena) : List Nat × Arena :=
  match ls with
  | [] => (row, a)
  | l :: ls => pushAll ls (row ++ [a.cells.size]) (a.push l)

/-- What the nodes of a row matched. -/
def results (a : Arena) (row : List Nat) : List Match :=
  row.filterMap fun id => (a.label? id).map (·.result)

/-- The offset where the first node of a row starts, or else `stop`. -/
def startOf (a : Arena) (stop : Nat) (row : List Nat) : Nat :=
  ((a.results row).head?.map (·.pos)).getD stop

/-- **Gathers the children of a production** from the row, at an index, below a new node. -/
def gather (stop : Nat) (p : Production) (index : Nat) (row : List Nat) (a : Arena) :
    List Nat × Arena :=
  let first := min index row.length
  let last := min (first + p.right.length) row.length
  let children := (row.take last).drop first
  let rest := row.drop last
  let (outcome, text) := Match.combine (a.results children)
  let l : Label := ⟨.nonterminal p.left, some p,
    ⟨outcome, a.startOf (a.startOf stop rest) children, text⟩, {}⟩
  (row.take first ++ a.cells.size :: rest, (a.push l).addChildren a.cells.size children)

/-- Gathers the children of all expansions, the latest step first. -/
def gatherAll (stop : Nat) : List Step → List Nat × Arena → List Nat × Arena
  | [], (row, a) => (row, a)
  | .accept _ _ :: trace, (row, a) => gatherAll stop trace (row, a)
  | .expand p _ :: trace, (row, a) =>
    gatherAll stop trace (gather stop p (Step.matched trace).length row a)

end Arena

/-- **The tree of a derivation in an arena**, with the number of its root. -/
def Derivation.planted (d : Derivation) : Nat × Arena :=
  let (row, a) := Arena.gatherAll d.stop d.trace
    (Arena.pushAll (d.row.map (·.label)) [] ⟨#[]⟩)
  (row.headD 0, a)

namespace Arena

/-- **A row of nodes stores trees** that have no tags yet. -/
structure Row (a : Arena) (row : List Nat) (trees : List ParseTree) (stored : List StoredTree) :
    Prop where
  ids : stored.map (·.id) = row
  trees : stored.map StoredTree.tree = trees
  holds : ∀ t ∈ stored, a.Holds none t
  nodup : (idsAll stored).Nodup
  bound : ∀ i ∈ idsAll stored, i < a.cells.size
  untagged : ∀ t ∈ stored, t.Untagged

variable {a : Arena} {row : List Nat} {trees : List ParseTree} {stored : List StoredTree}

theorem cells_push (a : Arena) (l : Label) (i : Nat) :
    (a.push l).cells[i]? = if i = a.cells.size then some ⟨l, [], none⟩ else a.cells[i]? := by
  rw [push, Array.getElem?_push]

/-- A pushed node is not one of those in a row. -/
theorem Row.holds_push (h : a.Row row trees stored) (l : Label) :
    ∀ t ∈ stored, (a.push l).Holds none t := by
  intro t ht
  refine (h.holds t ht).congr fun i hi => ?_
  rw [cells_push, if_neg (Nat.ne_of_lt (h.bound i (StoredTree.mem_idsAll.2 ⟨t, ht, hi⟩)))]

theorem size_addChildren (a : Arena) (x : Nat) (children : List Nat) :
    (a.addChildren x children).cells.size = a.cells.size := by
  induction children generalizing a with
  | nil => rfl
  | cons child children ih =>
    rw [addChildren, List.foldl_cons, ← addChildren, ih, addChild, modify, modify,
      Array.size_modify, Array.size_modify]

/-- A pushed node begins without children; trees that do not have its number are loose. -/
theorem rebuilding_push {l : Label} {children : List StoredTree}
    (h : ∀ t ∈ children, (a.push l).Holds none t) (hnodup : (a.cells.size :: idsAll children).Nodup) :
    Rebuilding (a.push l) (a.cells.size :: idsAll children) none a.cells.size l [] children
      (a.push l) where
  cell := by rw [cells_push, if_pos rfl, List.map_nil]
  holds_kept := List.forall_mem_nil _
  holds_loose := h
  nodup := hnodup
  subset := List.Subset.refl _
  same := .refl _ _

/-- Trees that have no number among `ids` are held as before. -/
theorem SameBut.holds_all {ids : List Nat} {a' : Arena} {ts : List StoredTree}
    (h : SameBut ids a a') (hts : ∀ t ∈ ts, a.Holds none t) (hdisjoint : (idsAll ts).Disjoint ids) :
    ∀ t ∈ ts, a'.Holds none t :=
  fun t ht => h.holds (hts t ht) fun _ hi => hdisjoint (StoredTree.mem_idsAll.2 ⟨t, ht, hi⟩)

/-- A node above some neighbours in a row adds its number to theirs. -/
theorem idsAll_plant (before children after : List StoredTree) (x : Nat) (l : Label) :
    (idsAll (before ++ .node x l children :: after)).Perm
      (x :: idsAll (before ++ children ++ after)) := by
  simp only [StoredTree.idsAll_append, StoredTree.idsAll_cons, StoredTree.ids_node,
    List.cons_append, List.append_assoc]
  exact List.perm_middle

/-- **A node is planted** above some neighbours in a row, and takes their place. -/
theorem Row.plant {before children after : List StoredTree}
    (h : a.Row row trees (before ++ children ++ after)) {l : Label} (hl : l.tag = {}) :
    ((a.push l).addChildren a.cells.size (children.map (·.id))).Row
      (before.map (·.id) ++ a.cells.size :: after.map (·.id))
      (before.map (·.tree) ++ .node l (children.map (·.tree)) :: after.map (·.tree))
      (before ++ .node a.cells.size l children :: after) := by
  have hperm := idsAll_plant before children after a.cells.size l
  have hnodup : (a.cells.size :: idsAll (before ++ children ++ after)).Nodup :=
    List.nodup_cons.2 ⟨fun hmem => Nat.lt_irrefl _ (h.bound _ hmem), h.nodup⟩
  have hnew := hnodup
  simp only [StoredTree.idsAll_append, List.nodup_cons, List.mem_append, not_or,
    List.nodup_append'] at hnew
  obtain ⟨⟨⟨hbefore, hchildren⟩, hafter⟩, ⟨-, hcnodup, hbc⟩, -, hbca⟩ := hnew
  have hca := (List.disjoint_append_left.1 hbca).2
  -- the node gets its children, and the neighbours that stay in the row are untouched
  have hpush := h.holds_push l
  have hbegun : Rebuilding (a.push l) (a.cells.size :: idsAll children) none a.cells.size l []
      (children ++ []) (a.push l) := by
    rw [List.append_nil]
    exact rebuilding_push (fun t ht => hpush t (by simp_all))
      (List.nodup_cons.2 ⟨hchildren, hcnodup⟩)
  have hplanted := hbegun.addChildren
  have hsame := hplanted.same
  exact {
    ids := by rw [List.map_append, List.map_cons]; rfl
    trees := by rw [List.map_append, List.map_cons, StoredTree.tree_node]
    holds := by
      refine List.forall_mem_append.2 ⟨?_, List.forall_mem_cons.2 ⟨hplanted.holds, ?_⟩⟩
      · exact hsame.holds_all (fun t ht => hpush t (by simp_all))
          (List.disjoint_cons_right.2 ⟨hbefore, hbc⟩)
      · exact hsame.holds_all (fun t ht => hpush t (by simp_all))
          (List.disjoint_cons_right.2 ⟨hafter, fun _ hi hmem => hca hmem hi⟩)
    nodup := hperm.nodup_iff.2 hnodup
    bound := fun i hi => by
      rw [size_addChildren, Arena.push, Array.size_push]
      obtain rfl | hi := List.mem_cons.1 (hperm.mem_iff.1 hi)
      · exact Nat.lt_succ_self _
      · exact Nat.lt_succ_of_lt (h.bound i hi)
    untagged := by
      refine List.forall_mem_append.2 ⟨fun t ht => h.untagged t (by simp_all),
        List.forall_mem_cons.2 ⟨fun u hu => ?_, fun t ht => h.untagged t (by simp_all)⟩⟩
      cases hu with
      | root => exact hl
      | child ht hocc => exact h.untagged _ (by simp_all) u hocc }

/-- Leaves are pushed behind the others in the row. -/
theorem Row.pushAll {ls : List Label} (h : a.Row row trees stored) (hls : ∀ l ∈ ls, l.tag = {}) :
    ∃ stored', (pushAll ls row a).2.Row (pushAll ls row a).1
      (trees ++ ls.map fun l => .node l []) stored' := by
  induction ls generalizing a row trees stored with
  | nil => exact ⟨stored, by simpa [Arena.pushAll] using h⟩
  | cons l ls ih =>
    obtain ⟨hl, hls⟩ := List.forall_mem_cons.1 hls
    have hpush : Row (a.push l) (row ++ [a.cells.size]) (trees ++ [.node l []])
        (stored ++ [.node a.cells.size l []]) := by
      have hbehind : a.Row row trees (stored ++ [] ++ []) := by simpa using h
      have hplant := hbehind.plant hl
      rwa [h.ids, h.trees] at hplant
    have hrest := ih hpush hls
    rwa [List.append_assoc] at hrest

/-- The nodes of stored trees matched what is at the roots. -/
theorem results_map_id {ts : List StoredTree} (h : ∀ t ∈ ts, a.Holds none t) :
    a.results (ts.map (·.id)) = (ts.map (·.tree)).map (·.label.result) := by
  induction ts with
  | nil => rfl
  | cons t ts ih =>
    obtain ⟨ht, hts⟩ := List.forall_mem_cons.1 h
    have hlabel : a.label? t.id = some t.label := by rw [label?, ht.cell, Option.map_some]
    have hresults : a.results ((t :: ts).map (·.id))
        = t.label.result :: a.results (ts.map (·.id)) := by
      rw [results, List.map_cons, List.filterMap_cons, hlabel]
      rfl
    rw [hresults, ih hts, List.map_cons, List.map_cons, StoredTree.label_tree]

theorem startOf_map_id {ts : List StoredTree} (h : ∀ t ∈ ts, a.Holds none t) (stop : Nat) :
    a.startOf stop (ts.map (·.id)) = ParseTree.startOf stop (ts.map (·.tree)) := by
  rw [startOf, results_map_id h, ParseTree.startOf, List.head?_map, Option.map_map]
  rfl

/-- **Gathering in the arena** is gathering in the row of trees. -/
theorem Row.gather (h : a.Row row trees stored) (stop : Nat) (p : Production) (index : Nat) :
    ∃ stored', (gather stop p index row a).2.Row (gather stop p index row a).1
      (ParseTree.gather stop p index trees) stored' := by
  obtain rfl := h.ids
  obtain rfl := h.trees
  rw [Arena.gather, ParseTree.gather]
  simp only [List.length_map, ← List.map_take, ← List.map_drop]
  generalize hfirst : min index stored.length = first
  generalize hlast : min (first + p.right.length) stored.length = last
  have hsplit : stored.take first ++ (stored.take last).drop first ++ stored.drop last
      = stored := by
    have htake : stored.take first = (stored.take last).take first := by
      rw [List.take_take, Nat.min_eq_left (by omega)]
    rw [htake, List.take_append_drop, List.take_append_drop]
  have hchildren : ∀ t ∈ (stored.take last).drop first, a.Holds none t := fun t ht =>
    h.holds t (List.mem_of_mem_take (List.mem_of_mem_drop ht))
  have hafter : ∀ t ∈ stored.drop last, a.Holds none t := fun t ht =>
    h.holds t (List.mem_of_mem_drop ht)
  rw [results_map_id hchildren, startOf_map_id hafter, startOf_map_id hchildren]
  rw [← hsplit] at h
  exact ⟨_, h.plant rfl⟩

/-- Gathering all expansions, the latest first. -/
theorem Row.gatherAll (h : a.Row row trees stored) (stop : Nat) (trace : List Step) :
    ∃ stored', (gatherAll stop trace (row, a)).2.Row (gatherAll stop trace (row, a)).1
      (ParseTree.gatherAll stop trace trees) stored' := by
  induction trace generalizing a row trees stored with
  | nil => exact ⟨stored, h⟩
  | cons step trace ih =>
    cases step with
    | accept t m => exact ih h
    | expand p pos =>
      obtain ⟨stored', hgather⟩ := h.gather stop p (Step.matched trace).length
      exact ih hgather

end Arena

namespace Derivation

/-- The row of a derivation consists of leaves. -/
theorem eq_leaf_of_mem_row {d : Derivation} {t : ParseTree} (ht : t ∈ d.row) :
    ∃ s m, t = leaf s m := by
  obtain ht | ht := List.mem_append.1 ht
  · obtain ⟨⟨s, m⟩, -, rfl⟩ := List.mem_map.1 ht
    exact ⟨s, m, rfl⟩
  · unfold openLeaves at ht
    split at ht
    · obtain rfl | ht := List.mem_cons.1 ht
      · exact ⟨_, _, rfl⟩
      · obtain ⟨s, -, rfl⟩ := List.mem_map.1 ht
        exact ⟨s, _, rfl⟩
    · obtain ⟨s, -, rfl⟩ := List.mem_map.1 ht
      exact ⟨s, _, rfl⟩

/-- **What is built in the arena** is the tree of the derivation before its nodes are named. -/
theorem represents_planted {g : FlatGrammar} {d : Derivation} (h : d.Materialized g) :
    ∃ s, s.id = d.planted.1 ∧ d.planted.2.Represents d.rawTree s ∧ s.Untagged := by
  have hempty : Arena.Row ⟨#[]⟩ [] [] [] := by constructor <;> simp
  have htags : ∀ l ∈ d.row.map (·.label), l.tag = {} := by
    intro l hl
    obtain ⟨t, ht, rfl⟩ := List.mem_map.1 hl
    obtain ⟨s, m, rfl⟩ := eq_leaf_of_mem_row ht
    rfl
  have hrow : (d.row.map (·.label)).map (fun l => .node l []) = d.row := by
    rw [List.map_map]
    refine (List.map_congr_left fun t ht => ?_).trans (List.map_id _)
    obtain ⟨s, m, rfl⟩ := eq_leaf_of_mem_row ht
    rfl
  obtain ⟨leaves, hleaves⟩ := hempty.pushAll htags
  obtain ⟨stored, hstored⟩ := hleaves.gatherAll d.stop d.trace
  rw [List.nil_append, hrow, h.gathered] at hstored
  obtain ⟨s, rfl⟩ : ∃ s, stored = [s] := by
    have hlength := congrArg List.length hstored.trees
    simpa [List.length_eq_one_iff] using hlength
  refine ⟨s, ?_, ⟨hstored.holds s List.mem_cons_self, ?_, ?_⟩,
    hstored.untagged s List.mem_cons_self⟩
  · rw [planted]
    exact (congrArg (·.headD 0) hstored.ids)
  · simpa using hstored.nodup
  · simpa using hstored.trees

end Derivation

end Typeahead
