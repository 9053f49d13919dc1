import Typeahead.FlatGrammar.Lowering
import Typeahead.Proofs.Symbol.Table

/-!
# Proofs/FlatGrammar/Sides — grammars by the sides of their productions

What can be derived depends on the two sides of productions alone.  Productions are added one by one
and merged with those that are there already (`mem_sides_merge`); `FlatGrammar.Adds` says which sides
and which names a grammar has more than another.
-/

namespace Typeahead

/-- The two sides of a production. -/
structure Sides where
  left : String
  right : List Symbol
deriving DecidableEq

namespace Sides

/-- The sides without empty symbols, as a production has them. -/
def bare (s : Sides) : Sides := ⟨s.left, s.right.filter (· ≠ .terminal .epsilon)⟩

/-- A nonterminal occurs in a pair of sides. -/
def Mentions (s : Sides) (x : String) : Prop := x = s.left ∨ .nonterminal x ∈ s.right

@[simp] theorem bare_left (s : Sides) : s.bare.left = s.left := rfl

theorem bare_subset {s : Sides} {symbols : List Symbol} (h : s.right ⊆ symbols) :
    s.bare.right ⊆ symbols :=
  fun _ hx => h (List.mem_of_mem_filter hx)

theorem bare_eq {s : Sides} (h : .terminal .epsilon ∉ s.right) : s.bare = s := by
  have hright : s.right.filter (· ≠ .terminal .epsilon) = s.right :=
    List.filter_eq_self.2 fun x hx => decide_eq_true fun heq => h (heq ▸ hx)
  rw [bare, hright]

theorem mentions_bare {s : Sides} {x : String} : s.bare.Mentions x ↔ s.Mentions x := by
  simp [Mentions, bare]

end Sides

namespace FlatGrammar

/-- The sides of all productions. -/
def sides (g : FlatGrammar) : List Sides := g.productions.map fun p => ⟨p.left, p.right⟩

theorem mem_sides {g : FlatGrammar} {s : Sides} :
    s ∈ g.sides ↔ ∃ p ∈ g.productions, p.left = s.left ∧ p.right = s.right := by
  obtain ⟨left, right⟩ := s
  simp [sides]

theorem map_modify_of_eq {α β : Type} {f : α → α} {h : α → β} (hf : ∀ a, h (f a) = h a)
    (as : List α) (i : Nat) : (as.modify i f).map h = as.map h := by
  induction as generalizing i with
  | nil => simp
  | cons a as ih => cases i <;> simp [hf, ih]

/-- **Merging adds the sides of a production**, whether or not they were there. -/
theorem mem_sides_merge {g : FlatGrammar} {p : Production} {s : Sides} :
    s ∈ (g.merge p).sides ↔ s ∈ g.sides ∨ s = ⟨p.left, p.right⟩ := by
  unfold merge
  split
  next i hfind =>
    have hsame : ⟨p.left, p.right⟩ ∈ g.sides := by
      obtain ⟨hi, hp, -⟩ := List.findIdx?_eq_some_iff_getElem.1 hfind
      exact mem_sides.2 ⟨_, List.getElem_mem hi, by simpa using hp⟩
    rw [sides, map_modify_of_eq (by simp), ← sides]
    exact ⟨.inl, fun h => h.elim id fun h => h ▸ hsame⟩
  next => simp [sides]

theorem merge_symbols (g : FlatGrammar) (p : Production) : (g.merge p).symbols = g.symbols := by
  unfold merge
  split <;> rfl

/-! ## Growing by sides and names -/

/-- **`g'` is `g` with the sides `new`** added, and the `names` that were not known to `g`. -/
structure Adds (g g' : FlatGrammar) (new : List Sides) (names : List String) : Prop where
  sides : ∀ s, s ∈ g'.sides ↔ s ∈ g.sides ∨ ∃ n ∈ new, s = n.bare
  knows : ∀ x, g'.symbols.knows x = true ↔ g.symbols.knows x = true ∨ x ∈ names
  unknown : ∀ x ∈ names, g.symbols.knows x = false
  nodup : names.Nodup

end FlatGrammar

end Typeahead
