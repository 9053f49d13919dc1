import Typeahead.FlatGrammar.Store
import Typeahead.Proofs.FlatGrammar.Sides
import Mathlib.Data.List.Induction

/-!
# Proofs/FlatGrammar/Store — the index of a store is right

The index of a store lists the places of the productions of every left side (`Store.Indexed`), after
adding and after removing productions.  So a store finds what a flat grammar finds by going through
all productions, and both do the same: they go along with each other (`Store.Tracks`).
-/

namespace Typeahead

/-! ## The index -/

/-- The places of the productions of a left side. -/
def places (ps : List Production) (left : String) : List Nat :=
  (ps.zipIdx.filter (·.1.left = left)).map (·.2)

theorem mem_places {ps : List Production} {left : String} {i : Nat} :
    i ∈ places ps left ↔ ∃ p, ps[i]? = some p ∧ p.left = left := by
  simp [places, List.mem_zipIdx_iff_getElem?]

/-- Places come in increasing order. -/
theorem pairwise_places (ps : List Production) (left : String) :
    (places ps left).Pairwise (· < ·) := by
  have hall : (ps.zipIdx.map (·.2)).Pairwise (· < ·) := by
    rw [List.zipIdx_map_snd]
    exact List.pairwise_lt_range'
  exact hall.sublist (List.filter_sublist.map _)

theorem places_concat (ps : List Production) (p : Production) (left : String) :
    places (ps ++ [p]) left = places ps left ++ if left = p.left then [ps.length] else [] := by
  rw [places, List.zipIdx_append, List.filter_append, List.map_append, places]
  by_cases h : left = p.left
  · simp [h]
  · simp [h, Ne.symm h]

/-- Places depend on the left sides only. -/
theorem places_congr {ps qs : List Production} (h : ps.map (·.left) = qs.map (·.left))
    (left : String) : places ps left = places qs left := by
  have hlefts : ∀ ps : List Production,
      places ps left = ((ps.map (·.left)).zipIdx.filter (·.1 = left)).map (·.2) := by
    intro ps
    simp [places, List.zipIdx_map, List.filter_map, Function.comp_def]
  rw [hlefts, hlefts, h]

/-- Every production is found at its place. -/
theorem getElem?_of_mem_zipIdx {ps : List Production} {q : Production × Nat} (h : q ∈ ps.zipIdx) :
    ps[q.2]? = some q.1 :=
  List.mem_zipIdx_iff_getElem?.1 h

/-- Looking up the places of a left side gives its productions. -/
theorem filterMap_places (ps : List Production) (left : String) :
    (places ps left).filterMap (ps[·]?) = ps.filter (·.left = left) := by
  calc (places ps left).filterMap (ps[·]?)
    _ = (ps.zipIdx.filter (·.1.left = left)).filterMap (fun q => ps[q.2]?) := by
      rw [places, List.filterMap_map]; rfl
    _ = (ps.zipIdx.filter (·.1.left = left)).filterMap (fun q => some q.1) :=
      List.filterMap_congr fun q hq => getElem?_of_mem_zipIdx (List.mem_of_mem_filter hq)
    _ = (ps.zipIdx.map (·.1)).filter (·.left = left) := by
      rw [List.filterMap_eq_map', List.filter_map]; rfl
    _ = ps.filter (·.left = left) := by rw [List.zipIdx_map_fst]

/-- Looking among the places of a left side finds the first production with both sides. -/
theorem find?_places (ps : List Production) (left : String) (right : List Symbol) :
    (places ps left).find? (fun i => (ps[i]?).any (·.right = right))
      = ps.findIdx? fun p => p.left = left ∧ p.right = right := by
  rw [places, List.find?_map, List.find?_filter, List.findIdx?_eq_fst_find?_zipIdx,
    ← List.head?_filter, ← List.head?_filter]
  congr 2
  refine List.filter_congr fun q hq => ?_
  simp [getElem?_of_mem_zipIdx hq]

namespace Index

theorem ids_cons (x left : String) (is : List Nat) (more : Index) :
    ids ((x, is) :: more) left = if left = x then is else more.ids left := by
  rw [ids, List.lookup_cons]
  split
  next h => rw [if_pos (beq_iff_eq.1 h), Option.getD_some]
  next h => rw [if_neg (by simpa using h), ids]

theorem ids_push (index : Index) (x left : String) (i : Nat) :
    (index.push x i).ids left = index.ids left ++ if left = x then [i] else [] := by
  induction index with
  | nil => rw [push, ids_cons]; rfl
  | cons entry more ih =>
    obtain ⟨y, is⟩ := entry
    rw [push]
    by_cases hx : y = x
    · subst hx
      by_cases h : left = y <;> simp [ids_cons, h]
    · by_cases h : left = y
      · subst h
        simp [hx, ids_cons]
      · simp [hx, ids_cons, h, ih]

theorem ids_build (ps : List Production) (left : String) :
    (build ps).ids left = places ps left := by
  induction ps using List.reverseRecOn with
  | nil => rfl
  | append_singleton ps p ih =>
    rw [build, List.zipIdx_append, List.foldl_append, places_concat, ← ih]
    simp [ids_push, build]

end Index

/-! ## Stores and flat grammars -/

namespace Store

/-- The index lists the places of the productions of every left side. -/
def Indexed (s : Store) : Prop := ∀ left, s.idsOf left = places s.productions left

/-- **A store goes along with a flat grammar**: it holds the same, and its index is right. -/
structure Tracks (s : Store) (g : FlatGrammar) : Prop where
  flat : s.toFlatGrammar = g
  indexed : s.Indexed

variable {s : Store} {g : FlatGrammar}

theorem tracks_new (table : SymbolTable) : (new table).Tracks (.ofSymbols table) where
  flat := rfl
  indexed _ := rfl

/-- The index finds what going through all productions finds. -/
theorem lookup_eq_find? (h : s.Indexed) (left : String) (right : List Symbol) :
    s.lookup left right = s.toFlatGrammar.find? left right := by
  rw [lookup, h, find?_places, FlatGrammar.find?]

theorem listed_eq_alternatives (h : s.Indexed) (left : String) :
    s.listed left = s.toFlatGrammar.alternatives left := by
  rw [listed, h, filterMap_places, FlatGrammar.alternatives]

theorem Indexed.put (h : s.Indexed) (p : Production) : (s.put p).Indexed := by
  intro left
  rw [idsOf, Store.put, Index.ids_push, places_concat, ← h, idsOf]

/-- Changing how a production is treated leaves the index right. -/
theorem Indexed.treat (h : s.Indexed) (i : Nat) (naming : Naming) (shaping : Shaping) :
    (s.treat i naming shaping).Indexed := by
  intro left
  have hlefts : (s.treat i naming shaping).productions.map (·.left) = s.productions.map (·.left) :=
    FlatGrammar.map_modify_of_eq (by simp) s.productions i
  rw [places_congr hlefts]
  exact h left

theorem Tracks.add (h : s.Tracks g) (p : Production) : (s.add p).2.Tracks (g.add p) := by
  obtain ⟨rfl, hindexed⟩ := h
  rw [Store.add, FlatGrammar.add, lookup_eq_find? hindexed]
  cases s.toFlatGrammar.find? p.left p.right with
  | some i => exact ⟨rfl, hindexed⟩
  | none => exact ⟨rfl, hindexed.put p⟩

theorem Tracks.removeStart (h : s.Tracks g) : s.removeStart.Tracks g.removeStart := by
  obtain ⟨rfl, hindexed⟩ := h
  exact ⟨rfl, Index.ids_build _⟩

theorem modify_concat {α : Type} (as : List α) (a : α) (f : α → α) :
    (as ++ [a]).modify as.length f = as ++ [f a] := by
  induction as with
  | nil => rfl
  | cons b as ih => simpa using ih

/-- Adding a production of a rule and treating it under its number is merging it. -/
theorem Tracks.extend (h : s.Tracks g) (rule : Nat) (left : String) (right : List Symbol)
    (naming : Naming) (shaping : Shaping) :
    (s.extend rule left right naming shaping).Tracks (g.extend rule left right naming shaping) := by
  obtain ⟨rfl, hindexed⟩ := h
  rw [Store.extend, Store.add, FlatGrammar.extend, FlatGrammar.merge, lookup_eq_find? hindexed]
  dsimp only [Production.ofSymbols]
  cases s.toFlatGrammar.find? left (right.filter (· ≠ .terminal .epsilon)) with
  | some i => exact ⟨rfl, hindexed.treat i naming shaping⟩
  | none =>
    refine ⟨?_, (hindexed.put _).treat _ naming shaping⟩
    have hnaming : (if naming = .anonymous then .anonymous else naming) = naming :=
      ite_eq_right_iff.2 Eq.symm
    have hshaping : (if shaping = .keep then .keep else shaping) = shaping :=
      ite_eq_right_iff.2 Eq.symm
    rw [treat, Store.put, modify_concat, hnaming, hshaping]

theorem Tracks.addRule (h : s.Tracks g) (r : Rule) :
    (s.addRule r).1 = (g.addRule r).1 ∧ (s.addRule r).2.Tracks (g.addRule r).2 := by
  obtain ⟨rfl, hindexed⟩ := h
  exact ⟨rfl, rfl, hindexed⟩

theorem Tracks.fresh (h : s.Tracks g) (base : String) :
    (s.fresh base).1 = (g.fresh base).1 ∧ (s.fresh base).2.Tracks (g.fresh base).2 := by
  obtain ⟨rfl, hindexed⟩ := h
  exact ⟨rfl, rfl, hindexed⟩

end Store

end Typeahead
