import Typeahead.Proofs.ParseTree.Kept
import Typeahead.Proofs.Search.Frames

/-!
# Proofs/ParseTree/Leaves — the trees below a node, and its leaves

The leaves of a derivation's tree, from the left to the right, are the terminals it matched, then
the symbol it is stuck on, then the symbols that were never tried (`leaves_tree`).  To undo an
expansion puts a node over some leaves, to undo a match adds one in front (`leavesAll_undo`), so
this holds for traces of any shape.

What holds of a derivation's tree as a part of the derivation holds of every tree below it
(`Part.of_occurs`).
-/

namespace Typeahead

namespace ParseTree

/-! ## The trees below a node -/

/-- **A tree occurs in another**: it is this tree, or it occurs below one of its children. -/
inductive Occurs (s : ParseTree) : ParseTree → Prop
  | root : Occurs s s
  | child {l : Label} {children : List ParseTree} {t : ParseTree} (ht : t ∈ children)
    (h : Occurs s t) : Occurs s (.node l children)

theorem Occurs.trans {s t u : ParseTree} (hst : Occurs s t) (htu : Occurs t u) : Occurs s u := by
  induction htu with
  | root => exact hst
  | child hmem _ ih => exact .child hmem ih

/-- A child occurs in its tree. -/
theorem occurs_child {t u : ParseTree} (hu : u ∈ t.children) : Occurs u t := by
  obtain ⟨l, children⟩ := t
  exact .child hu .root

/-- A label that a tree holds is that of a tree that occurs in it. -/
theorem Holds.exists_occurs {t : ParseTree} {l : Label} (h : t.Holds l) :
    ∃ s, Occurs s t ∧ s.label = l := by
  induction h with
  | root children => exact ⟨_, .root, rfl⟩
  | child ht _ ih =>
    obtain ⟨s, hs, hlabel⟩ := ih
    exact ⟨s, .child ht hs, hlabel⟩

/-- Naming the nodes keeps the trees that occur, up to their names. -/
theorem Occurs.of_withTag {s t : ParseTree} {tag : Tag} {parentRule : Option Nat}
    (h : Occurs s (t.withTag tag parentRule)) :
    ∃ u, Occurs u t ∧ ∃ tag' parentRule', s = u.withTag tag' parentRule' := by
  generalize hv : t.withTag tag parentRule = v at h
  induction h generalizing t tag parentRule with
  | root => exact ⟨t, .root, tag, parentRule, hv.symm⟩
  | child hmem _ ih =>
    obtain ⟨l, children⟩ := t
    rw [withTag] at hv
    obtain ⟨rfl, rfl⟩ := ParseTree.node.inj hv
    obtain ⟨tag', u, hu, hw⟩ := mem_withTags hmem
    obtain ⟨s', hs', hs⟩ := ih hw.symm
    exact ⟨s', .child hu hs', hs⟩

/-! ## Leaves -/

mutual

/-- **The leaves of a tree**: its nodes without a production, from the left to the right. -/
def leaves : ParseTree → List Label
  | node l children => if l.production.isNone then l :: leavesAll children else leavesAll children

/-- The leaves of several trees, from the left to the right. -/
def leavesAll : List ParseTree → List Label
  | [] => []
  | t :: ts => leaves t ++ leavesAll ts

end

@[simp] theorem leavesAll_nil : leavesAll [] = [] := rfl

@[simp] theorem leavesAll_cons (t : ParseTree) (ts : List ParseTree) :
    leavesAll (t :: ts) = t.leaves ++ leavesAll ts := rfl

@[simp] theorem leavesAll_append (ts us : List ParseTree) :
    leavesAll (ts ++ us) = leavesAll ts ++ leavesAll us := by
  induction ts with
  | nil => rfl
  | cons t ts ih => rw [List.cons_append, leavesAll, leavesAll, ih, List.append_assoc]

theorem leavesAll_eq_flatMap (ts : List ParseTree) : leavesAll ts = ts.flatMap leaves := by
  induction ts with
  | nil => rfl
  | cons t ts ih => rw [leavesAll, List.flatMap_cons, ih]

theorem mem_leaves_node {l l' : Label} {children : List ParseTree} :
    l' ∈ (node l children).leaves ↔
      l.production = none ∧ l' = l ∨ ∃ t ∈ children, l' ∈ t.leaves := by
  rw [leaves, leavesAll_eq_flatMap, ← List.mem_flatMap, ← Option.isNone_iff_eq_none]
  split
  next h => rw [List.mem_cons, and_iff_right h]
  next h => exact (or_iff_right fun hl => h hl.1).symm

theorem Occurs.leaves_subset {s t : ParseTree} (h : Occurs s t) : s.leaves ⊆ t.leaves := by
  induction h with
  | root => exact List.Subset.refl _
  | child ht _ ih => exact fun l hl => mem_leaves_node.2 (.inr ⟨_, ht, ih hl⟩)

/-- A leaf is a node without a production. -/
theorem holds_of_mem_leaves {t : ParseTree} {l : Label} (h : l ∈ t.leaves) :
    t.Holds l ∧ l.production = none := by
  induction t using induction_on_children with
  | h l' children ih =>
    rcases mem_leaves_node.1 h with ⟨hnone, rfl⟩ | ⟨t, ht, hl⟩
    · exact ⟨.root _, hnone⟩
    · exact ⟨.child ht (ih t ht hl).1, (ih t ht hl).2⟩

@[simp] theorem leaves_leaf (s : Symbol) (m : Match) :
    (leaf s m).leaves = [{ symbol := s, result := m }] := rfl

theorem leaves_node {l : Label} (h : l.production ≠ none) (children : List ParseTree) :
    (node l children).leaves = leavesAll children := by
  rw [leaves, if_neg (by simpa using h)]

end ParseTree

/-- What a node says of the input: its symbol and its match. -/
def Label.scanned (l : Label) : Symbol × Match := (l.symbol, l.result)

/-- Names are no concern of the leaves. -/
theorem ParseTree.leaves_withTag (tag : Tag) (parentRule : Option Nat) (t : ParseTree) :
    (t.withTag tag parentRule).leaves.map Label.scanned = t.leaves.map Label.scanned := by
  induction t using induction_on_children generalizing tag parentRule with
  | h l children ih =>
    have hall : ∀ tags parentRule, ∀ ts ⊆ children,
        (leavesAll (withTags tags parentRule ts)).map Label.scanned
          = (leavesAll ts).map Label.scanned := by
      intro tags parentRule ts hts
      induction ts generalizing tags with
      | nil => rw [withTags]
      | cons t ts ihs =>
        obtain ⟨ht, hts⟩ := List.cons_subset.1 hts
        rw [withTags, leavesAll, leavesAll, List.map_append, List.map_append, ih t ht, ihs _ hts]
    rw [withTag, leaves, leaves]
    dsimp only
    split
    · rw [List.map_cons, List.map_cons, hall _ _ _ (List.Subset.refl _)]
      rfl
    · exact hall _ _ _ (List.Subset.refl _)

/-! ## The leaves of a derivation -/

/-- The terminal that a step matched, and how. -/
def Step.matched? : Step → Option (Symbol × Match)
  | expand _ _ => none
  | accept t m => some (.terminal t, m)

/-- The terminals that some steps matched, the latest step first, in the order of the input. -/
def Step.matched (trace : List Step) : List (Symbol × Match) :=
  (trace.filterMap Step.matched?).reverse

@[simp] theorem Step.matched_nil : Step.matched [] = [] := rfl

@[simp] theorem Step.matched_accept (t : Terminal) (m : Match) (trace : List Step) :
    Step.matched (.accept t m :: trace) = Step.matched trace ++ [(.terminal t, m)] :=
  List.reverse_cons

@[simp] theorem Step.matched_expand (p : Production) (pos : Nat) (trace : List Step) :
    Step.matched (.expand p pos :: trace) = Step.matched trace := rfl

namespace Derivation

open ParseTree (leavesAll Occurs)

theorem openLeaves_of_stuck {d : Derivation} {m : Match} {s : Symbol} {pending : List Symbol}
    (hm : d.stuck = some m) (hp : d.pending = s :: pending) :
    d.openLeaves = .leaf s m :: pending.map fun s => .leaf s (.notParsed d.stop) := by
  rw [openLeaves, hm, hp]

theorem openLeaves_of_pending_eq_nil {d : Derivation} (hp : d.pending = []) :
    d.openLeaves = [] := by
  rw [openLeaves, hp]
  cases d.stuck <;> rfl

/-- The open leaves have nothing below them. -/
theorem leavesAll_openLeaves (d : Derivation) :
    leavesAll d.openLeaves = d.openLeaves.map (·.label) := by
  have hopen : ∀ pending : List Symbol,
      leavesAll (pending.map fun s => ParseTree.leaf s (.notParsed d.stop))
        = (pending.map fun s => ParseTree.leaf s (.notParsed d.stop)).map (·.label) := by
    intro pending
    induction pending with
    | nil => rfl
    | cons s pending ih => exact congrArg (_ :: ·) ih
  unfold openLeaves
  split
  · exact congrArg (_ :: ·) (hopen _)
  · exact hopen _

/-- **To undo a step** puts a node over some leaves, or adds one in front. -/
theorem leavesAll_undo (forest : List ParseTree) (step : Step) :
    (leavesAll (undo forest step)).map Label.scanned
      = step.matched?.toList ++ (leavesAll forest).map Label.scanned := by
  cases step with
  | accept t m => rfl
  | expand p pos =>
    rw [undo]
    dsimp only
    rw [ParseTree.leavesAll_cons, ParseTree.leaves_node (Option.some_ne_none p),
      ← ParseTree.leavesAll_append, List.take_append_drop]
    rfl

theorem leavesAll_foldl_undo (trace : List Step) (forest : List ParseTree) :
    (leavesAll (trace.foldl undo forest)).map Label.scanned
      = Step.matched trace ++ (leavesAll forest).map Label.scanned := by
  induction trace generalizing forest with
  | nil => rfl
  | cons step trace ih =>
    rw [List.foldl_cons, ih, leavesAll_undo]
    cases step with
    | accept t m => rw [Step.matched_accept, List.append_assoc]; rfl
    | expand p pos => rfl

variable {g : FlatGrammar} {cfg : Config} {input : List Char} {d : Derivation}

theorem forest_eq_singleton (hd : d ∈ (Branch.initial input).ends g cfg) :
    d.forest = [d.rawTree] := by
  obtain ⟨forest, hforest, hsym, -⟩ := parts_of_mem_ends hd
  exact Eq.trans hforest (eq_singleton_rawTree hforest hsym)

/-- **The leaves of a derivation's tree** are the terminals it matched, then the symbols it never
matched. -/
theorem leaves_tree (hd : d ∈ (Branch.initial input).ends g cfg) :
    d.tree.leaves.map Label.scanned
      = Step.matched d.trace ++ d.openLeaves.map (·.label.scanned) := by
  have hraw : d.rawTree.leaves = leavesAll d.forest := by
    rw [forest_eq_singleton hd, ParseTree.leavesAll_cons, ParseTree.leavesAll_nil, List.append_nil]
  rw [tree, ParseTree.named, ParseTree.leaves_withTag, hraw, forest, leavesAll_foldl_undo,
    leavesAll_openLeaves, List.map_map]
  rfl

/-- What occurs in a part of a derivation's tree is a part of it. -/
theorem Part.of_occurs {s t : ParseTree} (h : d.Part g t) (hs : Occurs s t) : d.Part g s := by
  induction hs with
  | root => exact h
  | child hmem _ ih =>
    cases h with
    | leaf => cases hmem
    | node _ _ _ _ _ hparts => exact ih (hparts _ hmem)

end Derivation

end Typeahead
