import Typeahead.ParseTree.Naming
import Typeahead.Proofs.ParseTree.Leaves
import Mathlib.Data.List.TakeDrop

/-!
# Proofs/ParseTree/Tagged — what a node is called is up to the node above it

Names are given from the top down.  A node tags its children by what it is itself: by its own tag,
by the naming of its production, and by whether it continues the rule of the node above it.  In the
tree of a derivation this is how every node got its tag (`Derivation.tagged_tree`), so the name of a
node can be read off step by step along the way to it.
-/

namespace Typeahead

namespace ParseTree

/-- The tags at the roots of several trees. -/
def tags (ts : List ParseTree) : List Tag := ts.map (·.label.tag)

/-- **All nodes below the root are tagged** by the nodes above them; a child without a tag of its own
has the empty one. -/
inductive Tagged : Option Nat → ParseTree → Prop
  | node {parentRule : Option Nat} {l : Label} {children : List ParseTree}
    (htags : tags children = (l.childTags parentRule children.length).takeD children.length {})
    (hchildren : ∀ t ∈ children, Tagged l.ruleIndex t) : Tagged parentRule (.node l children)

variable {parentRule : Option Nat} {s t : ParseTree}

theorem Tagged.tags_children (h : t.Tagged parentRule) : tags t.children =
    (t.label.childTags parentRule t.children.length).takeD t.children.length {} := by
  cases h with
  | node htags _ => exact htags

theorem Tagged.of_mem_children (h : t.Tagged parentRule) (hs : s ∈ t.children) :
    s.Tagged t.label.ruleIndex := by
  cases h with
  | node _ hchildren => exact hchildren s hs

theorem Tagged.of_occurs (h : t.Tagged parentRule) (hs : Occurs s t) :
    ∃ parentRule', s.Tagged parentRule' := by
  induction hs generalizing parentRule with
  | root => exact ⟨_, h⟩
  | child hmem _ ih => exact ih (h.of_mem_children hmem)

/-- As many tags as there are children are given to these, in order. -/
theorem Tagged.tags_eq {p : Production} {ts : List ParseTree} {new : List Tag}
    (h : t.Tagged parentRule) (hproduction : t.label.production = some p) (hts : t.children = ts)
    (hnew : p.naming.tags t.label.tag (t.label.entryIndex parentRule) ts.length = new)
    (hlength : new.length = ts.length) : tags ts = new := by
  subst hts
  have htags : t.label.childTags parentRule t.children.length = new := by
    rw [Label.childTags, hproduction]
    exact hnew
  rw [h.tags_children, htags, ← hlength, List.takeD_eq_take _ (Nat.le_refl _), List.take_length]

/-! ## Giving names -/

theorem tags_withTags (new : List Tag) (parentRule : Option Nat) (ts : List ParseTree) :
    tags (withTags new parentRule ts) = new.takeD ts.length {} := by
  induction ts generalizing new with
  | nil => rw [withTags]; rfl
  | cons t ts ih =>
    rw [withTags, tags, List.map_cons, label_withTag, List.length_cons, List.takeD_succ, ← ih,
      List.headD_eq_head?_getD]
    rfl

theorem length_withTags (new : List Tag) (parentRule : Option Nat) (ts : List ParseTree) :
    (withTags new parentRule ts).length = ts.length := by
  simpa using congrArg List.length (withTags_map (f := fun _ => ()) (fun _ _ _ => rfl) new
    parentRule ts)

/-- **Naming a tree** tags all its nodes. -/
theorem tagged_withTag (t : ParseTree) (tag : Tag) (parentRule : Option Nat) :
    (t.withTag tag parentRule).Tagged parentRule := by
  induction t using induction_on_children generalizing tag parentRule with
  | h l children ih =>
    rw [withTag]
    refine .node ?_ fun t ht => ?_
    · rw [tags_withTags, length_withTags]
    · obtain ⟨tag', u, hu, rfl⟩ := mem_withTags ht
      exact ih u hu tag' _

end ParseTree

/-- **The tree of a derivation is tagged** from its root on. -/
theorem Derivation.tagged_tree (d : Derivation) : d.tree.Tagged none :=
  ParseTree.tagged_withTag ..

end Typeahead
