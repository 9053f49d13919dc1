import Typeahead.Proofs.ParseTree.Finished

/-!
# Proofs/ParseTree/Inner — nodes with something below them

Shaping takes nodes away from below others, and puts in their place what was below these.  Where
there was nothing, nothing comes (`HasInner.of_shape`).  So a node on the way to the stuck one, also
in the finished tree and in what was dropped from it, is either the stuck node itself or stands for
a production with something on its right side (`Derivation.right_ne_nil_of_mem_stuckPath`).
-/

namespace Typeahead

open ParseTree (Occurs occurs_child stuckPathAll?)

/-- Nothing stays below a node, and nothing is dropped, where nothing was. -/
theorem Shaping.split_nil (shaping : Shaping) : shaping.split [] = ([], []) := by
  cases shaping with
  | bracketed keepBrackets => cases keepBrackets <;> rfl
  | _ => rfl

/-- **What a split drops** occurs in the trees that it is given, or has nothing below it. -/
theorem Shaping.exists_occurs_of_mem_split_snd {shaping : Shaping} {ts : List ParseTree}
    {u : ParseTree} (h : u ∈ (shaping.split ts).2) : (∃ t ∈ ts, Occurs u t) ∨ u.children = [] := by
  have hroot : ∀ {ts : List ParseTree}, u ∈ ts → (∃ t ∈ ts, Occurs u t) ∨ u.children = [] :=
    fun hu => .inl ⟨u, hu, .root⟩
  unfold split at h
  dsimp only at h
  split at h
  case h_1 => cases h
  case h_2 | h_6 => exact .inr (List.mem_singleton.1 h ▸ rfl)
  case h_3 => exact hroot (by simp_all)
  case h_4 entry rest =>
    rcases List.mem_cons.1 h with rfl | hu
    · exact .inr rfl
    · obtain ⟨t, -, rfl⟩ := List.mem_map.1 hu
      exact .inr rfl
  case h_5 =>
    split at h
    next => exact .inr (List.mem_singleton.1 h ▸ rfl)
    next => cases h
  case h_7 opening middle closing =>
    simp only [List.mem_cons, List.not_mem_nil, or_false] at h
    rcases h with rfl | rfl | rfl
    · exact hroot (by simp)
    · exact .inr rfl
    · exact hroot (by simp)
  case h_8 first more =>
    rcases List.mem_cons.1 h with rfl | hu
    · exact .inr rfl
    · exact hroot (List.mem_cons_of_mem _ hu)
  case h_9 => exact hroot h

namespace ParseTree

theorem shapeAll_snd (ts : List ParseTree) : (shapeAll ts).2 = ts.flatMap (·.shape.2) := by
  induction ts with
  | nil => rfl
  | cons t ts ih => rw [shapeAll, List.flatMap_cons, ← ih]

theorem shape_node_snd (l : Label) (children : List ParseTree) :
    (node l children).shape.2 =
      children.flatMap (·.shape.2) ++ (l.shaping.split (children.map (·.shape.1))).2 := by
  rw [shape, ← shapeAll_fst, ← shapeAll_snd, Label.shaping]
  rcases l.production with _ | p <;> rfl

/-- **A tree has an inner node with a label**: one with something below it. -/
def HasInner (l : Label) (t : ParseTree) : Prop := ∃ s, Occurs s t ∧ s.label = l ∧ s.children ≠ []

variable {l : Label}

theorem HasInner.of_occurs {s t : ParseTree} (h : s.HasInner l) (hs : Occurs s t) : t.HasInner l := by
  obtain ⟨u, hu, hlabel, hchildren⟩ := h
  exact ⟨u, hu.trans hs, hlabel, hchildren⟩

theorem hasInner_node {l' : Label} {children : List ParseTree} :
    (node l' children).HasInner l ↔ (l' = l ∧ children ≠ []) ∨ ∃ t ∈ children, t.HasInner l := by
  constructor
  · rintro ⟨s, hs, hlabel, hchildren⟩
    cases hs with
    | root => exact .inl ⟨hlabel, hchildren⟩
    | child ht hs => exact .inr ⟨_, ht, s, hs, hlabel, hchildren⟩
  · rintro (⟨rfl, hchildren⟩ | ⟨t, ht, h⟩)
    · exact ⟨_, .root, rfl, hchildren⟩
    · exact h.of_occurs (.child ht .root)

theorem not_hasInner_of_children_eq_nil {t : ParseTree} (h : t.children = []) : ¬t.HasInner l := by
  obtain ⟨l', children⟩ := t
  obtain rfl : children = [] := h
  simp [hasInner_node]

/-- **Shaping makes no inner nodes.** -/
theorem HasInner.of_shape {t u : ParseTree} (hu : u ∈ t.shape.1 :: t.shape.2) (h : u.HasInner l) :
    t.HasInner l := by
  induction t using induction_on_children generalizing u with
  | h l' children ih =>
    -- a tree that is kept or dropped comes from one below, unless it is hollow
    have hbelow : ∀ {u}, (∃ t ∈ children.map (·.shape.1), Occurs u t) → u.HasInner l →
        (node l' children).HasInner l := by
      rintro u ⟨_, ht, hocc⟩ h
      obtain ⟨t, hmem, rfl⟩ := List.mem_map.1 ht
      exact hasInner_node.2 (.inr ⟨t, hmem, ih t hmem (List.mem_cons_self ..) (h.of_occurs hocc)⟩)
    rcases List.mem_cons.1 hu with rfl | hu
    · rw [shape_node] at h
      rcases hasInner_node.1 h with ⟨rfl, hkept⟩ | ⟨u, hu, h⟩
      · refine hasInner_node.2 (.inl ⟨rfl, ?_⟩)
        rintro rfl
        rw [List.map_nil, Shaping.split_nil] at hkept
        exact hkept rfl
      · exact hbelow (Shaping.exists_occurs_of_mem_split hu) h
    · rw [shape_node_snd] at hu
      rcases List.mem_append.1 hu with hu | hu
      · obtain ⟨t, ht, hu⟩ := List.mem_flatMap.1 hu
        exact hasInner_node.2 (.inr ⟨t, ht, ih t ht (List.mem_cons_of_mem _ hu) h⟩)
      · rcases Shaping.exists_occurs_of_mem_split_snd hu with hocc | hhollow
        · exact hbelow hocc h
        · exact absurd h (not_hasInner_of_children_eq_nil hhollow)

/-- A node on the way to the stuck one is that node, or an inner one. -/
theorem isStuckLeaf_or_hasInner {t : ParseTree} {parentRule : Option Nat} {path : List Visit}
    {v : Visit} (h : t.stuckPath? parentRule = some path) (hv : v ∈ path) :
    v.label.isStuckLeaf = true ∨ t.HasInner v.label := by
  induction t using induction_on_children generalizing parentRule path with
  | h l' children ih =>
    rw [stuckPath?] at h
    split at h
    next hleaf =>
      obtain rfl := Option.some.inj h
      exact .inl (List.mem_singleton.1 hv ▸ hleaf)
    next =>
      obtain ⟨path', hpath', rfl⟩ := Option.map_eq_some_iff.1 h
      obtain ⟨t, ht, hpath⟩ := stuckPathAll?_eq_some hpath'
      rcases List.mem_cons.1 hv with rfl | hv
      · exact .inr (hasInner_node.2 (.inl ⟨rfl, List.ne_nil_of_mem ht⟩))
      · exact (ih t ht hpath hv).imp_right fun h => hasInner_node.2 (.inr ⟨t, ht, h⟩)

end ParseTree

namespace Derivation

variable {g : FlatGrammar} {cfg : Config} {input : List Char} {d : Derivation} {v : Visit}
  {p : Production}

/-- The production of an inner node has something on its right side. -/
theorem right_ne_nil_of_hasInner (hd : d ∈ (Branch.initial input).ends g cfg)
    (h : d.tree.HasInner v.label) (hp : v.label.production = some p) :
    p ∈ g.productions ∧ p.right ≠ [] := by
  obtain ⟨s, hs, hlabel, hchildren⟩ := h
  cases (part_tree hd).of_occurs hs with
  | leaf => exact absurd rfl hchildren
  | node hmem hproduction _ hright =>
    obtain rfl := Option.some.inj (hproduction.symm.trans ((congrArg _ hlabel).trans hp))
    exact ⟨hmem, fun hnil => hchildren (List.map_eq_nil_iff.1 (hright.trans hnil))⟩

/-- **A node on the way to the stuck one** that stands for a production has something below it. -/
theorem right_ne_nil_of_mem_stuckPath (hd : d ∈ (Branch.initial input).ends g cfg)
    {t : ParseTree} (ht : t ∈ d.tree :: d.tree.shape.1 :: d.tree.shape.2) {parentRule : Option Nat}
    {path : List Visit} (hpath : t.stuckPath? parentRule = some path) (hv : v ∈ path)
    (hp : v.label.production = some p) : p ∈ g.productions ∧ p.right ≠ [] := by
  rcases ParseTree.isStuckLeaf_or_hasInner hpath hv with hleaf | hinner
  · rw [Label.isStuckLeaf, hp] at hleaf
    cases hleaf
  · refine right_ne_nil_of_hasInner hd ?_ hp
    rcases List.mem_cons.1 ht with rfl | ht
    · exact hinner
    · exact hinner.of_shape ht

end Derivation

end Typeahead
