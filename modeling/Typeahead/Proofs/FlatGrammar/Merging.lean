import Typeahead.Proofs.FlatGrammar.Lowering

/-!
# Proofs/FlatGrammar/Merging — productions asked for more than once

Productions with the same sides are one production.  It stays with the rule that asked for it first,
but is named and shaped as it was asked for last (`Merged`); an empty naming or shaping does not
count.  So whoever asks for a production once more changes how the nodes of another rule are named.

`Merged.foldl_draw` says what comes of a list of drafts, and `Merged.of_mem` what becomes of one
production.
-/

namespace Typeahead

/-- The last naming that there is. -/
def Naming.last (namings : List Naming) : Naming :=
  namings.foldl (fun old new => if new = .anonymous then old else new) .anonymous

/-- The last shaping that there is. -/
def Shaping.last (shapings : List Shaping) : Shaping :=
  shapings.foldl (fun old new => if new = .keep then old else new) .keep

theorem Naming.last_singleton (naming : Naming) : Naming.last [naming] = naming := by
  by_cases h : naming = .anonymous <;> simp [last, h]

/-- The drafts that ask for a production with the given sides. -/
def asking (ds : List Draft) (s : Sides) : List Draft := ds.filter (·.sides.bare = s)

theorem mem_asking {ds : List Draft} {s : Sides} {d : Draft} :
    d ∈ asking ds s ↔ d ∈ ds ∧ d.sides.bare = s := by
  simp [asking]

theorem asking_concat {ds : List Draft} {s : Sides} {d : Draft} :
    asking (ds ++ [d]) s = if d.sides.bare = s then asking ds s ++ [d] else asking ds s := by
  rw [asking, List.filter_append, asking]
  split
  next h => simp [h]
  next h => simp [h]

/-! ## Asking for one production -/

namespace FlatGrammar

variable {g g' : FlatGrammar} {d : Draft} {ds : List Draft} {q : Production}

/-- What asking for a production does, when no two have the same sides: other productions stay as
they are. -/
theorem mem_draw_cases (hnodup : g.sides.Nodup) (hq : q ∈ (g.draw d).productions) :
    q ∈ g.productions ∧ ⟨q.left, q.right⟩ ≠ d.sides.bare ∨
    (∃ p ∈ g.productions, ⟨p.left, p.right⟩ = d.sides.bare ∧ q = p.redrawn d) ∨
    d.sides.bare ∉ g.sides ∧ q = d.production := by
  rcases g.productions_draw d with ⟨i, hi, hbare, hmodify⟩ | ⟨hnot, happend⟩
  · rw [hmodify] at hq
    obtain ⟨k, hk, rfl⟩ := List.mem_iff_getElem.1 hq
    have hk' : k < g.productions.length := by simpa using hk
    rw [List.getElem_modify]
    split
    next hik =>
      subst hik
      exact .inr (.inl ⟨_, List.getElem_mem hi, hbare, rfl⟩)
    next hik =>
      refine .inl ⟨List.getElem_mem hk', fun hsides => hik ?_⟩
      have hlength : g.sides.length = g.productions.length := List.length_map ..
      have his : i < g.sides.length := hlength ▸ hi
      have hks : k < g.sides.length := hlength ▸ hk'
      have hget : g.sides[i] = g.sides[k] := by
        simp only [sides, List.getElem_map]
        rw [hbare, hsides]
      exact hnodup.getElem_inj_iff.1 hget
  · rw [happend] at hq
    rcases List.mem_append.1 hq with hq | hq
    · exact .inl ⟨hq, fun hsides => hnot (hsides ▸ List.mem_map_of_mem hq)⟩
    · exact .inr (.inr ⟨hnot, List.mem_singleton.1 hq⟩)

theorem nodup_sides_draw (hnodup : g.sides.Nodup) (d : Draft) : (g.draw d).sides.Nodup := by
  rcases g.productions_draw d with ⟨i, -, -, hmodify⟩ | ⟨hnot, happend⟩
  · rw [sides, hmodify, map_modify_of_eq (by simp [Production.redrawn])]
    exact hnodup
  · rw [sides, happend, List.map_append, List.map_singleton]
    refine hnodup.append (List.nodup_singleton _) fun s hs hs' => hnot ?_
    obtain rfl := List.mem_singleton.1 hs'
    exact hs

/-- **The productions are what drafts asked for**, those with the same sides merged into the first
of them. -/
structure Merged (g : FlatGrammar) (ds : List Draft) : Prop where
  nodup : g.sides.Nodup
  drawn : ∀ d ∈ ds, d.sides.bare ∈ g.sides
  made : ∀ q ∈ g.productions, ∃ first more, asking ds ⟨q.left, q.right⟩ = first :: more ∧
    q = more.foldl Production.redrawn first.production

theorem merged_ofSymbols (table : SymbolTable) : (ofSymbols table).Merged [] where
  nodup := List.nodup_nil
  drawn := by simp
  made := by simp [ofSymbols]

/-- Asking for one more production. -/
theorem Merged.draw (h : g.Merged ds) (d : Draft) : (g.draw d).Merged (ds ++ [d]) := by
  refine ⟨nodup_sides_draw h.nodup d, fun e he => ?_, fun q hq => ?_⟩
  · rcases List.mem_append.1 he with he | he
    · exact mem_sides_draw.2 (.inl (h.drawn e he))
    · exact mem_sides_draw.2 (.inr (List.mem_singleton.1 he ▸ rfl))
  · rw [asking_concat]
    rcases mem_draw_cases h.nodup hq with ⟨hq, hne⟩ | ⟨p, hp, hsides, rfl⟩ | ⟨hnot, rfl⟩
    · rw [if_neg hne.symm]
      exact h.made q hq
    · obtain ⟨first, more, hasking, hp⟩ := h.made p hp
      have hsides' : d.sides.bare = ⟨(p.redrawn d).left, (p.redrawn d).right⟩ := hsides.symm
      refine ⟨first, more ++ [d], ?_, ?_⟩
      · rw [if_pos hsides', ← hsides', ← hsides, hasking]
        rfl
      · rw [List.foldl_append, ← hp]
        rfl
    · have hnone : asking ds d.sides.bare = [] :=
        List.filter_eq_nil_iff.2 fun e he hsides => hnot (of_decide_eq_true hsides ▸ h.drawn e he)
      refine ⟨d, [], ?_, rfl⟩
      rw [if_pos (show d.sides.bare = ⟨d.production.left, d.production.right⟩ from rfl)]
      exact congrArg (· ++ [d]) hnone

theorem Merged.foldl_draw (h : g.Merged ds) (es : List Draft) :
    (es.foldl FlatGrammar.draw g).Merged (ds ++ es) := by
  induction es generalizing g ds with
  | nil => rwa [List.append_nil]
  | cons d es ih => simpa using ih (h.draw d)

/-- Only the productions matter. -/
theorem Merged.of_productions (h : g.Merged ds) (hg : g'.productions = g.productions) :
    g'.Merged ds := by
  have hsides : g'.sides = g.sides := congrArg (List.map _) hg
  refine ⟨hsides ▸ h.nodup, hsides ▸ h.drawn, ?_⟩
  rw [hg]
  exact h.made

/-! ## What becomes of a production -/

theorem foldl_redrawn (p : Production) (ds : List Draft) :
    ds.foldl Production.redrawn p = { p with
      naming := (ds.map (·.naming)).foldl (fun old new => if new = .anonymous then old else new)
        p.naming
      shaping := (ds.map (·.shaping)).foldl (fun old new => if new = .keep then old else new)
        p.shaping } := by
  induction ds generalizing p with
  | nil => rfl
  | cons d ds ih => rw [List.foldl_cons, ih]; rfl

/-- **A production stays with the rule that asked for it first**, and is named and shaped as it was
asked for last. -/
theorem Merged.of_mem (h : g.Merged ds) (hq : q ∈ g.productions) :
    ∃ first more, asking ds ⟨q.left, q.right⟩ = first :: more ∧ q.rule = some first.rule ∧
      q.naming = .last ((first :: more).map (·.naming)) ∧
      q.shaping = .last ((first :: more).map (·.shaping)) := by
  obtain ⟨first, more, hasking, hq⟩ := h.made q hq
  rw [foldl_redrawn] at hq
  refine ⟨first, more, hasking, by rw [hq]; rfl, ?_, ?_⟩
  · rw [hq, Naming.last, List.map_cons, List.foldl_cons]
    split
    next hnaming => simp [Draft.production, hnaming]
    next => rfl
  · rw [hq, Shaping.last, List.map_cons, List.foldl_cons]
    split
    next hshaping => simp [Draft.production, hshaping]
    next => rfl

theorem foldl_redrawn_self (h : ∀ e ∈ ds, e = d) :
    ds.foldl Production.redrawn d.production = d.production := by
  induction ds with
  | nil => rfl
  | cons e ds ih =>
    obtain ⟨rfl, hds⟩ := List.forall_mem_cons.1 h
    have hself : e.production.redrawn e = e.production := by
      simp [Production.redrawn, Draft.production]
    rw [List.foldl_cons, hself, ih hds]

/-- **A production that is asked for in one way only** is made that way. -/
theorem Merged.eq_production (h : g.Merged ds) (hq : q ∈ g.productions)
    (hsame : ∀ d ∈ ds, ∀ e ∈ ds, d.sides.bare = ⟨q.left, q.right⟩ →
      e.sides.bare = ⟨q.left, q.right⟩ → d = e) :
    ∃ d ∈ ds, q = d.production := by
  obtain ⟨first, more, hasking, hq'⟩ := h.made q hq
  have hall : ∀ d ∈ first :: more, d ∈ ds ∧ d.sides.bare = ⟨q.left, q.right⟩ := fun d hd =>
    mem_asking.1 (hasking ▸ hd)
  obtain ⟨hfirst, hmore⟩ := List.forall_mem_cons.1 hall
  refine ⟨first, hfirst.1, hq'.trans (foldl_redrawn_self fun d hd => ?_)⟩
  exact hsame d (hmore d hd).1 first hfirst.1 (hmore d hd).2 hfirst.2

end FlatGrammar

end Typeahead
