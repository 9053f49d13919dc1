import Typeahead.ParseTree.Shape
import Typeahead.Proofs.ParseTree.Parts

/-!
# Proofs/ParseTree/Kept — shaping loses no node

A node of a tree is in the finished tree or in what was dropped from it, and there are no others
(`holds_shape`).  So the node a derivation is stuck on is found after shaping as it was before
(`exists_stuckPath_shape`).
-/

namespace Typeahead

namespace ParseTree

/-- **A tree holds a label**: one of its nodes has it. -/
inductive Holds (l : Label) : ParseTree → Prop
  | root (children : List ParseTree) : Holds l (.node l children)
  | child {l' : Label} {children : List ParseTree} {t : ParseTree} (ht : t ∈ children)
    (h : Holds l t) : Holds l (.node l' children)

/-- One of several trees holds a label. -/
def HoldsAny (l : Label) (ts : List ParseTree) : Prop := ∃ t ∈ ts, t.Holds l

variable {l : Label}

theorem holds_iff {t : ParseTree} : t.Holds l ↔ l = t.label ∨ HoldsAny l t.children := by
  obtain ⟨l', children⟩ := t
  constructor
  · rintro (_ | ⟨ht, h⟩)
    · exact .inl rfl
    · exact .inr ⟨_, ht, h⟩
  · rintro (rfl | ⟨t, ht, h⟩)
    · exact .root _
    · exact .child ht h

theorem holds_node {l' : Label} {children : List ParseTree} :
    (node l' children).Holds l ↔ l = l' ∨ HoldsAny l children := holds_iff

@[simp] theorem holdsAny_nil : ¬ HoldsAny l [] := by simp [HoldsAny]

@[simp] theorem holdsAny_cons {t : ParseTree} {ts : List ParseTree} :
    HoldsAny l (t :: ts) ↔ t.Holds l ∨ HoldsAny l ts := by simp [HoldsAny]

@[simp] theorem holdsAny_append {ts us : List ParseTree} :
    HoldsAny l (ts ++ us) ↔ HoldsAny l ts ∨ HoldsAny l us := by
  simp only [HoldsAny, List.mem_append, or_and_right, exists_or]

@[simp] theorem holds_hollow {l' : Label} : (node l' []).Holds l ↔ l = l' := by
  simp [holds_node]

/-- The children of some trees, and their roots without them, hold what these trees hold. -/
theorem holdsAny_flatMap_children {ts : List ParseTree} :
    HoldsAny l (ts.flatMap (·.children)) ∨ HoldsAny l (ts.map fun t => .node t.label []) ↔
      HoldsAny l ts := by
  induction ts with
  | nil => simp
  | cons t ts ih =>
    rw [List.flatMap_cons, List.map_cons, holdsAny_append, holdsAny_cons, holdsAny_cons, ← ih,
      holds_iff (t := t), holds_hollow]
    tauto

end ParseTree

open ParseTree

/-- **A split keeps or drops every node** below the given ones, and makes up none. -/
theorem Shaping.holdsAny_split (shaping : Shaping) (children : List ParseTree) {l : Label} :
    HoldsAny l (shaping.split children).1 ∨ HoldsAny l (shaping.split children).2 ↔
      HoldsAny l children := by
  unfold Shaping.split
  dsimp only
  split
  case h_1 => simp
  case h_2 entry tail =>
    simp only [holdsAny_cons, holds_hollow, holds_iff (t := tail), holdsAny_nil]
    tauto
  case h_3 => simp [or_comm]
  case h_4 entry rest =>
    have hrest : HoldsAny l (rest.children.flatMap (·.children)) ∨
        HoldsAny l (rest.children.map fun t => .node t.label []) ↔ HoldsAny l rest.children :=
      holdsAny_flatMap_children
    simp only [holdsAny_cons, holds_hollow, holds_iff (t := rest), holdsAny_nil]
    tauto
  case h_5 ts =>
    split
    next last hlast =>
      obtain ⟨before, rfl⟩ := List.getLast?_eq_some_iff.1 hlast
      simp only [List.dropLast_concat, holdsAny_append, holdsAny_cons, holds_hollow, holdsAny_nil,
        holds_iff (t := last)]
      tauto
    next hnone =>
      rw [List.getLast?_eq_none_iff.1 hnone]
      simp
  case h_6 opening middle closing =>
    simp only [List.cons_append, holdsAny_append, holdsAny_cons, holds_hollow, holdsAny_nil,
      holds_iff (t := middle)]
    tauto
  case h_7 opening middle closing =>
    simp only [holdsAny_cons, holds_hollow, holdsAny_nil, holds_iff (t := middle)]
    tauto
  case h_8 first more =>
    simp only [holdsAny_cons, holds_hollow, holds_iff (t := first)]
    tauto
  case h_9 => simp

namespace ParseTree

mutual

/-- **The finished tree and what was dropped** hold what the tree holds. -/
theorem holds_shape (l : Label) :
    ∀ t : ParseTree, HoldsAny l (t.shape.1 :: t.shape.2) ↔ t.Holds l
  | .node l' children => by
    have hall := holds_shapeAll l children
    rw [shape]
    rcases hshape : shapeAll children with ⟨shaped, dropped⟩
    rw [hshape] at hall
    dsimp only at hall ⊢
    rw [holds_node, ← hall, holdsAny_cons, holds_node, holdsAny_append, holdsAny_append,
      ← Shaping.holdsAny_split _ shaped]
    tauto

theorem holds_shapeAll (l : Label) :
    ∀ ts : List ParseTree, HoldsAny l ((shapeAll ts).1 ++ (shapeAll ts).2) ↔ HoldsAny l ts
  | [] => by rw [shapeAll, List.append_nil]
  | t :: ts => by
    rw [shapeAll, holdsAny_cons, ← holds_shape l t, ← holds_shapeAll l ts]
    simp only [List.cons_append, holdsAny_cons, holdsAny_append]
    tauto

end

/-! ## The stuck node -/

/-- What holds of a tree if it holds of its children holds of all trees. -/
theorem induction_on_children {P : ParseTree → Prop}
    (h : ∀ l children, (∀ t ∈ children, P t) → P (.node l children)) : ∀ t, P t
  | .node l children => h l children fun t _ => induction_on_children h t

/-- A tree holds the labels on the way to its stuck node. -/
theorem holds_of_mem_stuckPath {t : ParseTree} {parentRule : Option Nat} {path : List Visit}
    {v : Visit} (h : t.stuckPath? parentRule = some path) (hv : v ∈ path) : t.Holds v.label := by
  induction t using induction_on_children generalizing parentRule path with
  | h l children ih =>
    rw [stuckPath?] at h
    split at h
    next =>
      obtain rfl := Option.some.inj h
      obtain rfl := List.mem_singleton.1 hv
      exact .root _
    next =>
      obtain ⟨path', hpath', rfl⟩ := Option.map_eq_some_iff.1 h
      obtain ⟨t, ht, hpath⟩ := stuckPathAll?_eq_some hpath'
      rcases List.mem_cons.1 hv with rfl | hv
      · exact .root _
      · exact .child ht (ih t ht hpath hv)

/-- The way to a stuck node ends in one of the tree. -/
theorem holds_of_stuckPath? {t : ParseTree} {parentRule : Option Nat} {path : List Visit}
    (h : t.stuckPath? parentRule = some path) :
    ∃ v, path.getLast? = some v ∧ v.label.isStuckLeaf = true ∧ t.Holds v.label := by
  induction t using induction_on_children generalizing parentRule path with
  | h l children ih =>
    rw [stuckPath?] at h
    split at h
    next hleaf =>
      obtain rfl := Option.some.inj h
      exact ⟨_, rfl, hleaf, .root _⟩
    next =>
      obtain ⟨path', hpath', rfl⟩ := Option.map_eq_some_iff.1 h
      obtain ⟨t, ht, hpath⟩ := stuckPathAll?_eq_some hpath'
      obtain ⟨v, hlast, hleaf, hholds⟩ := ih t ht hpath
      exact ⟨v, by rw [List.getLast?_cons, hlast]; rfl, hleaf, .child ht hholds⟩

/-- There is a way to a stuck node if there is such a node. -/
theorem exists_stuckPath?_of_holds {t : ParseTree} {l : Label} (h : t.Holds l)
    (hleaf : l.isStuckLeaf = true) (parentRule : Option Nat) :
    ∃ path, t.stuckPath? parentRule = some path := by
  induction h generalizing parentRule with
  | root children =>
    rw [stuckPath?, if_pos hleaf]
    exact ⟨_, rfl⟩
  | @child l' children t ht _ ih =>
    rw [stuckPath?]
    split
    · exact ⟨_, rfl⟩
    · obtain ⟨path, hpath⟩ := exists_stuckPathAll? ht (ih l'.ruleIndex)
      exact ⟨_, by rw [hpath]; rfl⟩

end ParseTree

namespace Derivation

variable {g : FlatGrammar} {d : Derivation}

theorem Part.stuckOn_of_holds {t : ParseTree} (h : d.Part g t) {l : Label} (hholds : t.Holds l)
    (hleaf : l.isStuckLeaf = true) : d.StuckOn l.symbol l.result := by
  rw [Label.isStuckLeaf, Bool.and_eq_true] at hleaf
  induction h with
  | leaf hproduction hstuck =>
    rcases holds_node.1 hholds with rfl | hchild
    · exact hstuck hleaf.2
    · exact absurd hchild holdsAny_nil
  | node _ hproduction _ _ _ _ ih =>
    rcases holds_node.1 hholds with rfl | ⟨t, ht, hchild⟩
    · rw [hproduction] at hleaf
      cases hleaf.1
    · exact ih t ht hchild

/-- **After shaping the way to the stuck node** still ends in the symbol the derivation is stuck
on. -/
theorem exists_stuckPath_shape {cfg : Config} {input : List Char} {m : Match}
    (hd : d ∈ (Branch.initial input).ends g cfg) (hm : d.stuck = some m)
    (hstuck : m.outcome.isStuck = true) :
    ∃ path v, stuckPathAll? none (d.tree.shape.1 :: d.tree.shape.2) = some path ∧
      path.getLast? = some v ∧ d.StuckOn v.label.symbol v.label.result := by
  have hpart := part_tree hd
  have hroot : d.tree.outcome.isStuck = true := by rwa [outcome_tree hd hm]
  obtain ⟨path, hpath⟩ := hpart.exists_stuckPath hroot none
  obtain ⟨v, -, hleaf, hholds⟩ := holds_of_stuckPath? hpath
  obtain ⟨t, ht, hholds⟩ := (holds_shape v.label d.tree).2 hholds
  obtain ⟨path, hpath⟩ :=
    exists_stuckPathAll? ht (exists_stuckPath?_of_holds hholds hleaf none)
  obtain ⟨t, ht, hpath'⟩ := stuckPathAll?_eq_some hpath
  obtain ⟨v, hlast, hleaf, hholds⟩ := holds_of_stuckPath? hpath'
  refine ⟨path, v, hpath, hlast, hpart.stuckOn_of_holds ?_ hleaf⟩
  exact (holds_shape v.label d.tree).1 ⟨t, ht, hholds⟩

end Derivation

end Typeahead
