import Typeahead.Proofs.ParseTree.Terminals

/-!
# Proofs/ParseTree/Lost — which nodes the finished tree is without

A node is lost in two ways.  It stands at or below a bracket or a delimiter of a join that wants its
entries only (`StoredTree.BelowJoint`), or its own children stand for it in the finished tree, like
those of the tail of a repetition (`StoredTree.Spliced`).  All other nodes stay
(`Derivation.Part.mem_ids_finished`).  Nodes of the second kind are nodes of nonterminals
(`Derivation.Part.nonterminal_of_spliced`), so terminals are lost below joints only.
-/

namespace Typeahead

/-- The trees whose children a shaping puts in their place, out of those below a node. -/
def Shaping.spliced (shaping : Shaping) (children : List StoredTree) : List StoredTree :=
  match shaping, children with
  | .entryAndTail, [_, tail] => [tail]
  | .headed, [_, rest] => rest :: rest.children
  | .spreadLast, ts => ts.getLast?.toList
  | .bracketed _, [_, middle, _] => [middle]
  | .wrapped, first :: _ => [first]
  | _, _ => []

namespace StoredTree

/-- **A node stands at or below a joint**: a bracket or a delimiter that is left out. -/
inductive BelowJoint (g : FlatGrammar) (i : Nat) : StoredTree → Prop
  | joint {x k : Nat} {l : Label} {p : Production} {children : List StoredTree} {t : StoredTree}
    (hp : l.production = some p) (hk : k ∈ g.jointPlaces p) (ht : children[k]? = some t)
    (hi : i ∈ t.ids) : BelowJoint g i (.node x l children)
  | child {x : Nat} {l : Label} {children : List StoredTree} {t : StoredTree} (ht : t ∈ children)
    (h : BelowJoint g i t) : BelowJoint g i (.node x l children)

/-- **A node is spliced**: when the node above it is finished, its children are put in its place. -/
inductive Spliced (i : Nat) : StoredTree → Prop
  | here {x : Nat} {l : Label} {children : List StoredTree} {t : StoredTree}
    (ht : t ∈ l.shaping.spliced (children.map finished)) (hi : t.id = i) :
    Spliced i (.node x l children)
  | child {x : Nat} {l : Label} {children : List StoredTree} {t : StoredTree} (ht : t ∈ children)
    (h : Spliced i t) : Spliced i (.node x l children)

variable {g : FlatGrammar} {i x k k' : Nat} {l : Label} {t u : StoredTree}
  {ts us vs children : List StoredTree}

theorem mem_idsAll_of_getElem? (ht : ts[k]? = some t) (hi : i ∈ t.ids) : i ∈ idsAll ts :=
  mem_idsAll.2 ⟨t, List.mem_of_getElem? ht, hi⟩

/-- No number is in two of several trees. -/
theorem eq_of_mem_ids (hnodup : (idsAll ts).Nodup) (ht : ts[k]? = some t) (hu : ts[k']? = some u)
    (hi : i ∈ t.ids) (hi' : i ∈ u.ids) : k = k' := by
  induction ts generalizing k k' with
  | nil => cases ht
  | cons v ts ih =>
    rw [idsAll_cons, List.nodup_append'] at hnodup
    obtain ⟨-, hnodup, hdisjoint⟩ := hnodup
    cases k with
    | zero =>
      cases k' with
      | zero => rfl
      | succ k' =>
        obtain rfl := Option.some.inj ht
        exact (hdisjoint hi (mem_idsAll_of_getElem? hu hi')).elim
    | succ k =>
      cases k' with
      | zero =>
        obtain rfl := Option.some.inj hu
        exact (hdisjoint hi' (mem_idsAll_of_getElem? ht hi)).elim
      | succ k' => exact congrArg _ (ih hnodup ht hu)

/-- **Without its root** a tree has all its numbers but one. -/
theorem mem_idsAll_splice (us : List StoredTree) (t : StoredTree) (vs : List StoredTree)
    (hnodup : (idsAll (us ++ t :: vs)).Nodup) :
    i ∈ idsAll (us ++ t.children ++ vs) ↔ i ∈ idsAll (us ++ t :: vs) ∧ t.id ≠ i := by
  obtain ⟨x, l, children⟩ := t
  simp only [idsAll_append, idsAll_cons, ids_node, List.cons_append, List.nodup_append',
    List.nodup_cons, List.disjoint_cons_right, List.mem_append, List.mem_cons] at hnodup ⊢
  simp only [StoredTree.children, StoredTree.id]
  grind

theorem mem_idsAll_flatMap_children (hnodup : (idsAll (us ++ ts)).Nodup) :
    i ∈ idsAll (us ++ ts.flatMap (·.children)) ↔
      i ∈ idsAll (us ++ ts) ∧ ∀ t ∈ ts, t.id ≠ i := by
  induction ts generalizing us with
  | nil => simp
  | cons t ts ih =>
    have hsub : (idsAll (us ++ t.children ++ ts)).Sublist (idsAll (us ++ t :: ts)) := by
      obtain ⟨x, l, children⟩ := t
      simp [StoredTree.children, ids_node]
    rw [List.flatMap_cons, ← List.append_assoc, ih (hnodup.sublist hsub),
      mem_idsAll_splice us t ts hnodup, List.forall_mem_cons, and_assoc]

/-- A node has a joint above it just if one is among its children or below them. -/
theorem belowJoint_node : (node x l children).BelowJoint g i ↔
    (∃ p, l.production = some p ∧ ∃ k ∈ g.jointPlaces p, ∃ t, children[k]? = some t ∧ i ∈ t.ids) ∨
      ∃ t ∈ children, t.BelowJoint g i := by
  constructor
  · rintro (⟨hp, hk, ht, hi⟩ | ⟨ht, h⟩)
    · exact .inl ⟨_, hp, _, hk, _, ht, hi⟩
    · exact .inr ⟨_, ht, h⟩
  · rintro (⟨p, hp, k, hk, t, ht, hi⟩ | ⟨t, ht, h⟩)
    · exact .joint hp hk ht hi
    · exact .child ht h

theorem spliced_node : (node x l children).Spliced i ↔
    (∃ t ∈ l.shaping.spliced (children.map finished), t.id = i) ∨ ∃ t ∈ children, t.Spliced i := by
  constructor
  · rintro (⟨ht, hi⟩ | ⟨ht, h⟩)
    · exact .inl ⟨_, ht, hi⟩
    · exact .inr ⟨_, ht, h⟩
  · rintro (⟨t, ht, hi⟩ | ⟨t, ht, h⟩)
    · exact .here ht hi
    · exact .child ht h

theorem ids_eq (t : StoredTree) : t.ids = t.id :: idsAll t.children := by
  obtain ⟨x, l, children⟩ := t
  exact ids_node x l children

theorem mem_ids_of_mem_children (h : i ∈ idsAll t.children) : i ∈ t.ids := by
  rw [ids_eq]
  exact List.mem_cons_of_mem _ h

theorem mem_idsAll_iff_getElem? :
    i ∈ idsAll ts ↔ ∃ (k : Nat) (t : StoredTree), ts[k]? = some t ∧ i ∈ t.ids := by
  rw [mem_idsAll]
  constructor
  · rintro ⟨t, ht, hi⟩
    obtain ⟨k, hk⟩ := List.mem_iff_getElem?.1 ht
    exact ⟨k, t, hk, hi⟩
  · rintro ⟨k, t, ht, hi⟩
    exact ⟨t, List.mem_of_getElem? ht, hi⟩

theorem nodup_of_mem_children (hnodup : t.ids.Nodup) : ∀ u ∈ t.children, u.ids.Nodup := by
  rw [ids_eq] at hnodup
  exact fun u hu => (List.nodup_cons.1 hnodup).2.sublist (ids_sublist_idsAll hu)

theorem exists_getElem?_cons {P : Nat → StoredTree → Prop} :
    (∃ (k : Nat) (u : StoredTree), (t :: ts)[k]? = some u ∧ P k u) ↔
      P 0 t ∨ ∃ (k : Nat) (u : StoredTree), ts[k]? = some u ∧ P (k + 1) u := by
  rw [← Nat.or_exists_add_one]
  simp

theorem BelowJoint.mem_idsAll (h : t.BelowJoint g i) : i ∈ idsAll t.children := by
  induction h with
  | joint _ _ ht hi => exact mem_idsAll_of_getElem? ht hi
  | child ht _ ih => exact StoredTree.mem_idsAll.2 ⟨_, ht, mem_ids_of_mem_children ih⟩

end StoredTree

open StoredTree (idsAll idsAll_cons idsAll_nil mem_idsAll eq_pair_of_map eq_triple_of_map
  eq_concat_of_map mem_idsAll_splice mem_idsAll_flatMap_children mem_idsAll_iff_getElem?
  exists_getElem?_cons nodup_of_mem_children symbols_finished)

variable {g : FlatGrammar} {table : SymbolTable} {shaping : Shaping} {right : List Symbol}
  {places : List Nat} {children ts : List StoredTree} {t : StoredTree} {i : Nat}

/-- A tree that is spliced stands below the node, or below a tree that does. -/
theorem Shaping.of_mem_spliced (ht : t ∈ shaping.spliced ts) :
    t ∈ ts ∨ ∃ u ∈ ts, t ∈ u.children := by
  unfold spliced at ht
  split at ht
  case h_1 | h_4 | h_5 =>
    obtain rfl := List.mem_singleton.1 ht
    exact .inl (by simp)
  case h_2 entry rest =>
    rcases List.mem_cons.1 ht with rfl | ht
    · exact .inl (by simp)
    · exact .inr ⟨rest, by simp, ht⟩
  case h_3 => exact .inl (List.mem_of_getLast? (Option.mem_toList.1 ht))
  case h_6 => cases ht

theorem Shaping.id_mem_idsAll_of_mem_spliced (ht : t ∈ shaping.spliced ts) : t.id ∈ idsAll ts := by
  rcases of_mem_spliced ht with ht | ⟨u, hu, ht⟩
  · exact mem_idsAll.2 ⟨t, ht, t.id_mem_ids⟩
  · exact mem_idsAll.2 ⟨u, hu, u.children_ids_sublist.subset (List.mem_map_of_mem ht)⟩

theorem StoredTree.Spliced.mem_idsAll (h : t.Spliced i) : i ∈ idsAll t.children := by
  induction h with
  | @here x l children t ht hi =>
    have hmem := Shaping.id_mem_idsAll_of_mem_spliced ht
    rw [hi] at hmem
    exact (idsAll_map_finished_sublist children).subset hmem
  | child ht _ ih => exact StoredTree.mem_idsAll.2 ⟨_, ht, mem_ids_of_mem_children ih⟩

/-- **What is kept below a node** is what stands at no joint and is not spliced. -/
theorem FlatGrammar.Drops.mem_kept (h : g.Drops table right shaping places)
    (hsymbols : ts.map (·.label.symbol) = right) (hnodup : (idsAll ts).Nodup) :
    i ∈ idsAll (shaping.kept ts) ↔
      (∃ (k : Nat) (t : StoredTree), ts[k]? = some t ∧ k ∉ places ∧ i ∈ t.ids) ∧
        ∀ t ∈ shaping.spliced ts, t.id ≠ i := by
  have hall : (∃ (k : Nat) (t : StoredTree), ts[k]? = some t ∧ k ∉ [] ∧ i ∈ t.ids) ↔
      i ∈ idsAll ts := by
    simp [mem_idsAll_iff_getElem?]
  cases h with
  | keep =>
    rw [hall]
    simp [Shaping.kept, Shaping.spliced]
  | entryAndTail =>
    obtain ⟨entry, tail, rfl, -, -⟩ := eq_pair_of_map hsymbols
    have hsplice := mem_idsAll_splice (i := i) [entry] tail [] hnodup
    rw [hall]
    simpa [Shaping.kept, Shaping.spliced] using hsplice
  | second =>
    obtain ⟨delimiter, entry, rfl, -, -⟩ := eq_pair_of_map hsymbols
    simp [Shaping.kept, Shaping.spliced, exists_getElem?_cons]
  | headed _ hT hx =>
    obtain ⟨entry, rest, rfl, -, hrest⟩ := eq_pair_of_map hsymbols
    have hrest := mem_idsAll_splice (i := i) [entry] rest [] hnodup
    have hsub : (idsAll ([entry] ++ rest.children)).Sublist (idsAll [entry, rest]) := by
      simp [rest.ids_eq]
    have hfollowers := mem_idsAll_flatMap_children (i := i) (hnodup.sublist hsub)
    rw [List.append_nil] at hrest
    rw [hall]
    change i ∈ idsAll ([entry] ++ rest.children.flatMap (·.children)) ↔
      i ∈ idsAll ([entry] ++ [rest]) ∧ ∀ t ∈ rest :: rest.children, t.id ≠ i
    rw [hfollowers, hrest, List.forall_mem_cons, and_assoc]
  | spreadLast =>
    obtain ⟨before, last, rfl, -, hlast⟩ := eq_concat_of_map hsymbols
    have hsplice := mem_idsAll_splice (i := i) before last [] hnodup
    rw [hall]
    simpa [Shaping.kept, Shaping.spliced] using hsplice
  | brackets =>
    obtain ⟨opening, middle, closing, rfl, -, hmiddle, -⟩ := eq_triple_of_map hsymbols
    have hsplice := mem_idsAll_splice (i := i) [opening] middle [closing] hnodup
    rw [hall]
    simpa [Shaping.kept, Shaping.spliced] using hsplice
  | noBrackets =>
    obtain ⟨opening, middle, closing, rfl, -, hmiddle, -⟩ := eq_triple_of_map hsymbols
    have hsub : (idsAll [middle]).Sublist (idsAll [opening, middle, closing]) := by simp
    have hsplice := mem_idsAll_splice (i := i) [] middle [] (hnodup.sublist hsub)
    simpa [Shaping.kept, Shaping.spliced, exists_getElem?_cons] using hsplice
  | wrapped =>
    obtain ⟨first, rfl, hfirst⟩ := List.map_eq_singleton_iff.1 hsymbols
    have hsplice := mem_idsAll_splice (i := i) [] first [] hnodup
    rw [hall]
    simpa [Shaping.kept, Shaping.spliced] using hsplice

/-- Below a node the numbers at some places are not at the others. -/
theorem StoredTree.exists_finished_iff {Q : StoredTree → Prop} (hnodup : (idsAll ts).Nodup)
    (hfinished : ∀ t ∈ ts, i ∈ t.finished.ids ↔ i ∈ t.ids ∧ ¬ Q t)
    (hQ : ∀ t ∈ ts, Q t → i ∈ t.ids) (places : List Nat) :
    (∃ (k : Nat) (t : StoredTree), (ts.map finished)[k]? = some t ∧ k ∉ places ∧ i ∈ t.ids) ↔
      i ∈ idsAll ts ∧ (¬ ∃ k ∈ places, ∃ t, ts[k]? = some t ∧ i ∈ t.ids) ∧ ¬ ∃ t ∈ ts, Q t := by
  constructor
  · rintro ⟨k, u, hu, hk, hi⟩
    rw [List.getElem?_map] at hu
    obtain ⟨t, ht, rfl⟩ := Option.map_eq_some_iff.1 hu
    obtain ⟨hi, hnot⟩ := (hfinished t (List.mem_of_getElem? ht)).1 hi
    refine ⟨mem_idsAll_of_getElem? ht hi, ?_, ?_⟩
    · rintro ⟨k', hk', t', ht', hi'⟩
      rw [eq_of_mem_ids hnodup ht ht' hi hi'] at hk
      exact hk hk'
    · rintro ⟨t', ht', hq⟩
      obtain ⟨k', hk'⟩ := List.mem_iff_getElem?.1 ht'
      obtain rfl := eq_of_mem_ids hnodup ht hk' hi (hQ t' ht' hq)
      rw [Option.some.inj (ht.symm.trans hk')] at hnot
      exact hnot hq
  · rintro ⟨hi, hplaces, hnot⟩
    obtain ⟨k, t, ht, hi⟩ := mem_idsAll_iff_getElem?.1 hi
    have hmem := List.mem_of_getElem? ht
    refine ⟨k, t.finished, by rw [List.getElem?_map, ht]; rfl, ?_, ?_⟩
    · exact fun hk => hplaces ⟨k, hk, t, ht, hi⟩
    · exact (hfinished t hmem).2 ⟨hi, fun hq => hnot ⟨t, hmem, hq⟩⟩

/-- **What is kept of finished trees below a node**: what stays in one of them, if it stands at no
joint and is not spliced. -/
theorem FlatGrammar.Drops.mem_kept_finished {Q : StoredTree → Prop}
    (h : g.Drops table right shaping places) (hsymbols : ts.map (·.label.symbol) = right)
    (hnodup : (idsAll ts).Nodup)
    (hfinished : ∀ t ∈ ts, i ∈ t.finished.ids ↔ i ∈ t.ids ∧ ¬ Q t)
    (hQ : ∀ t ∈ ts, Q t → i ∈ t.ids) :
    i ∈ idsAll (shaping.kept (ts.map StoredTree.finished)) ↔ i ∈ idsAll ts ∧
      (¬ ∃ k ∈ places, ∃ t, ts[k]? = some t ∧ i ∈ t.ids) ∧ (¬ ∃ t ∈ ts, Q t) ∧
        ∀ t ∈ shaping.spliced (ts.map StoredTree.finished), t.id ≠ i := by
  have hsub := StoredTree.idsAll_map_finished_sublist ts
  rw [h.mem_kept ((symbols_finished ts).trans hsymbols) (hnodup.sublist hsub),
    StoredTree.exists_finished_iff hnodup hfinished hQ, and_assoc, and_assoc]

namespace Derivation

variable {d : Derivation}

/-- **The nodes of a finished tree** are those that stand below no joint and are not spliced. -/
theorem Part.mem_ids_finished (hg : g.Clean table) (h : d.Part g t.tree) (hnodup : t.ids.Nodup) :
    i ∈ t.finished.ids ↔ i ∈ t.ids ∧ ¬ (t.BelowJoint g i ∨ t.Spliced i) := by
  induction t using StoredTree.induction_on_children with
  | h x l children ih =>
    obtain ⟨hx, hall⟩ := List.nodup_cons.1 (StoredTree.ids_node x l children ▸ hnodup)
    rw [StoredTree.finished_node, StoredTree.ids_node, StoredTree.ids_node, List.mem_cons,
      List.mem_cons]
    by_cases hix : i = x
    · subst hix
      have hnot : ¬ ((StoredTree.node i l children).BelowJoint g i ∨
          (StoredTree.node i l children).Spliced i) :=
        fun h => hx (h.elim (·.mem_idsAll) (·.mem_idsAll))
      exact iff_of_true (.inl rfl) ⟨.inl rfl, hnot⟩
    · rw [or_iff_right hix, or_iff_right hix, StoredTree.belowJoint_node, StoredTree.spliced_node]
      rcases h.node_cases with ⟨hproduction, rfl⟩ | ⟨p, hp, hproduction, -, hright, hparts⟩
      · simp [Label.shaping, hproduction, Shaping.kept]
      have hkept := (hg.drops p hp).mem_kept_finished hright hall
        (fun t ht => ih t ht (hparts t ht) (nodup_of_mem_children hnodup t ht))
        (fun t _ h => StoredTree.mem_ids_of_mem_children (h.elim (·.mem_idsAll) (·.mem_idsAll)))
      rw [Label.shaping, hproduction, Option.map_some, Option.getD_some, hkept]
      simp only [Option.some.injEq, exists_eq_left']
      grind

end Derivation

/-! ## Spliced nodes -/

/-- **What is spliced below a node** are nodes of nonterminals. -/
theorem FlatGrammar.Drops.nonterminal_of_mem_spliced (h : g.Drops table right shaping places)
    (hsymbols : ts.map (·.label.symbol) = right)
    (hfolds : ∀ T, g.Folds table T → ∀ t ∈ ts, ∀ x, T x → t.label.symbol = .nonterminal x →
      ∀ u ∈ t.children, ∃ y, u.label.symbol = .nonterminal y) :
    ∀ t ∈ shaping.spliced ts, ∃ y, t.label.symbol = .nonterminal y := by
  cases h with
  | keep | second => exact List.forall_mem_nil _
  | entryAndTail =>
    obtain ⟨entry, tail, rfl, -, htail⟩ := eq_pair_of_map hsymbols
    exact List.forall_mem_singleton.2 ⟨_, htail⟩
  | headed _ hT hx =>
    obtain ⟨entry, rest, rfl, -, hrest⟩ := eq_pair_of_map hsymbols
    exact List.forall_mem_cons.2 ⟨⟨_, hrest⟩, hfolds _ hT rest (by simp) _ hx hrest⟩
  | spreadLast =>
    obtain ⟨before, last, rfl, -, hlast⟩ := eq_concat_of_map hsymbols
    intro t ht
    obtain rfl : t = last := by simpa [Shaping.spliced] using ht
    exact ⟨_, hlast⟩
  | brackets | noBrackets =>
    obtain ⟨opening, middle, closing, rfl, -, hmiddle, -⟩ := eq_triple_of_map hsymbols
    exact List.forall_mem_singleton.2 ⟨_, hmiddle⟩
  | wrapped =>
    obtain ⟨first, rfl, hfirst⟩ := List.map_eq_singleton_iff.1 hsymbols
    exact List.forall_mem_singleton.2 ⟨_, hfirst⟩

/-- The root of a finished tree and its children have the labels that they had. -/
theorem Arena.Holds.label?_finished {a : Arena} {q : Option Nat} {u : StoredTree}
    (h : a.Holds q t) (hnodup : t.ids.Nodup) (hu : u = t.finished ∨ u ∈ t.finished.children) :
    a.label? u.id = some u.label := by
  obtain ⟨hholds, hsame⟩ := h.finished hnodup
  rw [← hsame.labels, Arena.label?]
  rcases hu with rfl | hu
  · rw [hholds.cell]
    rfl
  · rw [(hholds.child u hu).cell]
    rfl

/-- **A spliced node** is one of a nonterminal. -/
theorem Derivation.Part.nonterminal_of_spliced {d : Derivation} {a : Arena} {q : Option Nat}
    (hg : g.Clean table) (h : d.Part g t.tree) (ha : a.Holds q t) (hnodup : t.ids.Nodup)
    (hspliced : t.Spliced i) : ∃ l y, a.label? i = some l ∧ l.symbol = .nonterminal y := by
  induction hspliced generalizing q with
  | @here x l children u hu hi =>
    rcases h.node_cases with ⟨hproduction, rfl⟩ | ⟨p, hp, hproduction, -, hright, hparts⟩
    · rw [Label.shaping, hproduction] at hu
      cases hu
    · rw [Label.shaping, hproduction] at hu
      have hsymbols := (symbols_finished children).trans hright
      obtain ⟨y, hy⟩ := (hg.drops p hp).nonterminal_of_mem_spliced hsymbols
        (fun T hT => List.forall_mem_map.2 fun t ht x hx hsymbol =>
          (hparts t ht).nonterminals_finished hT hx (t.label_finished ▸ hsymbol)) u hu
      refine ⟨u.label, y, ?_, hy⟩
      -- what is spliced is finished, and its label is that of the node before
      have hlabel : ∀ t ∈ children, u = t.finished ∨ u ∈ t.finished.children →
          a.label? u.id = some u.label := fun t ht =>
        (ha.child t ht).label?_finished (nodup_of_mem_children hnodup t ht)
      rw [← hi]
      rcases Shaping.of_mem_spliced hu with hu | ⟨v, hv, hu⟩
      · obtain ⟨t, ht, rfl⟩ := List.mem_map.1 hu
        exact hlabel t ht (.inl rfl)
      · obtain ⟨t, ht, rfl⟩ := List.mem_map.1 hv
        exact hlabel t ht (.inr hu)
  | @child x l children t ht _ ih =>
    rcases h.node_cases with ⟨-, rfl⟩ | ⟨p, hp, hproduction, -, hright, hparts⟩
    · cases ht
    · exact ih (hparts t ht) (ha.child t ht) (nodup_of_mem_children hnodup t ht)

end Typeahead
