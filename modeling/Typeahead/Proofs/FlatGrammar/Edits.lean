import Typeahead.Proofs.FlatGrammar.Merging
import Typeahead.Proofs.FlatGrammar.Ownership
import Typeahead.Proofs.FlatGrammar.Sink
import Typeahead.Proofs.FlatGrammar.Store

/-!
# Proofs/FlatGrammar/Edits — stores and flat grammars after any edits

A store goes along with a flat grammar through every edit, a refused rule included.  The
productions of a flat grammar stay in order (`FlatGrammar.Consistent`): adding one looks for its
sides first, and lowering a rule adds its drafts one by one.  Lowering keeps the rules that its
productions belong to; only a production that was handed in from elsewhere may belong to a rule that
is not kept (`FlatGrammar.GovernedBut`).  Together: a store is in order, and so is its index
(`Store.consistent_after`).
-/

namespace Typeahead

theorem Store.simulates : Store.sink.Simulates FlatGrammar.sink Store.Tracks where
  extend h := h.extend
  addRule h := h.addRule
  fresh h := h.fresh

theorem Store.Tracks.apply {s : Store} {g : FlatGrammar} (h : s.Tracks g) (e : Edit) :
    (s.apply e).Tracks (g.apply e) := by
  cases e with
  | add p => exact h.add _
  | removeStart => exact h.removeStart
  | lower r =>
    have hlower := (Store.simulates.lower h r).1
    rw [FlatGrammar.sink_lower] at hlower
    rw [Store.apply, FlatGrammar.apply]
    cases hresult : g.lower r with
    | ok g' => simpa only [hresult] using hlower
    | error e => simpa only [hresult] using hlower

/-- **A store goes along with a flat grammar through all edits.** -/
theorem Store.Tracks.foldl_apply {s : Store} {g : FlatGrammar} (h : s.Tracks g)
    (edits : List Edit) :
    (edits.foldl Store.apply s).Tracks (edits.foldl FlatGrammar.apply g) := by
  induction edits generalizing s g with
  | nil => exact h
  | cons e edits ih => exact ih (h.apply e)

namespace FlatGrammar

variable {g g' : FlatGrammar}

/-- **The productions of a flat grammar are in order**: no two have the same sides, and none has an
empty symbol. -/
structure Consistent (g : FlatGrammar) : Prop where
  distinct : g.sides.Nodup
  visible : ∀ p ∈ g.productions, .terminal .epsilon ∉ p.right

/-- **Productions belong to rules that are kept**, if to any, but for some that were handed in. -/
def GovernedBut (g : FlatGrammar) (handed : Production → Prop) : Prop :=
  ∀ p ∈ g.productions, ∀ i, p.rule = some i →
    i < g.rules.size ∨ ∃ q, handed q ∧ q.bare.Like p

theorem consistent_ofSymbols (table : SymbolTable) : (ofSymbols table).Consistent where
  distinct := List.nodup_nil
  visible := by simp [ofSymbols]

theorem governedBut_ofSymbols (table : SymbolTable) (handed : Production → Prop) :
    (ofSymbols table).GovernedBut handed := nofun

theorem epsilon_not_mem_bare (s : Sides) : .terminal .epsilon ∉ s.bare.right := by
  simp [Sides.bare]

/-- A production that is added was there already, or it is the new one. -/
theorem mem_add {p q : Production} (h : q ∈ (g.add p).productions) :
    q ∈ g.productions ∨ q = p := by
  rw [FlatGrammar.add] at h
  split at h
  · exact .inl h
  · simpa using h

theorem rules_add (g : FlatGrammar) (p : Production) : (g.add p).rules = g.rules := by
  rw [FlatGrammar.add]
  split <;> rfl

/-- Any production may be added that has no empty symbol. -/
theorem Consistent.add (h : g.Consistent) {p : Production}
    (hvisible : .terminal .epsilon ∉ p.right) : (g.add p).Consistent where
  distinct := by
    rw [FlatGrammar.add]
    split
    · exact h.distinct
    next hnone =>
      rw [sides, List.map_append, List.map_singleton]
      refine h.distinct.append (List.nodup_singleton _) fun s hs hnew => ?_
      obtain rfl := List.mem_singleton.1 hnew
      obtain ⟨q, hq, hsides⟩ := mem_sides.1 hs
      simpa [hsides] using List.findIdx?_eq_none_iff.1 hnone q hq
  visible q hq := (mem_add hq).elim (h.visible q) fun heq => heq ▸ hvisible

theorem Consistent.removeStart (h : g.Consistent) : g.removeStart.Consistent where
  distinct := h.distinct.sublist (List.filter_sublist.map _)
  visible p hp := h.visible p (List.mem_of_mem_filter hp)

theorem Consistent.addRule (h : g.Consistent) (r : Rule) : (g.addRule r).2.Consistent where
  distinct := h.distinct
  visible := h.visible

theorem nodup_sides_foldl_draw (h : g.sides.Nodup) (ds : List Draft) :
    (ds.foldl draw g).sides.Nodup := by
  induction ds generalizing g with
  | nil => exact h
  | cons d ds ih => exact ih (nodup_sides_draw h d)

theorem Consistent.lower (h : g.Consistent) {r : Rule} (hlower : g.lower r = .ok g') :
    g'.Consistent := by
  obtain ⟨a, -, hmakes⟩ := lower_makes hlower
  refine ⟨?_, fun q hq => ?_⟩
  · rw [sides, hmakes.productions]
    exact nodup_sides_foldl_draw h.distinct _
  · rw [hmakes.productions] at hq
    rcases like_or_of_mem_foldl_draw hq with ⟨p, hp, -, hright, -⟩ | ⟨d, -, -, hsides⟩
    · exact hright ▸ h.visible p hp
    · have hright : q.right = d.sides.bare.right := congrArg Sides.right hsides
      exact hright ▸ epsilon_not_mem_bare d.sides

theorem Consistent.apply (h : g.Consistent) (e : Edit) : (g.apply e).Consistent := by
  cases e with
  | add p => exact h.add (epsilon_not_mem_bare ⟨p.left, p.right⟩)
  | removeStart => exact h.removeStart
  | lower r =>
    rw [FlatGrammar.apply]
    split
    next hlower => exact h.lower hlower
    next => exact h.addRule r

theorem Consistent.foldl_apply (h : g.Consistent) (edits : List Edit) :
    (edits.foldl FlatGrammar.apply g).Consistent := by
  induction edits generalizing g with
  | nil => exact h
  | cons e edits ih => exact ih (h.apply e)

/-- What lowering puts into a grammar belongs to rules that are kept. -/
theorem GovernedBut.puts {handed : Production → Prop} (h : g.GovernedBut handed)
    {added : List Rule} {new : Nat → Sides → Prop} (hputs : Puts g g' added new) :
    g'.GovernedBut handed := by
  intro p hp i hi
  rcases hputs.productions p hp with ⟨q, hq, hlike⟩ | ⟨k, hk, hrule, -⟩
  · refine (h q hq i (hlike.2.2.trans hi)).imp (fun hi => ?_) fun ⟨o, ho, hfrom⟩ => ?_
    · rw [hputs.size]
      exact Nat.lt_add_right _ hi
    · exact ⟨o, ho, hfrom.1.trans hlike.1, hfrom.2.1.trans hlike.2.1, hfrom.2.2.trans hlike.2.2⟩
  · rw [hi, Option.some.injEq] at hrule
    exact .inl (hrule ▸ hk)

theorem GovernedBut.apply {handed : Production → Prop} (h : g.GovernedBut handed) {e : Edit}
    (he : ∀ p, e = .add p → handed p) : (g.apply e).GovernedBut handed := by
  cases e with
  | add p =>
    intro q hq i hi
    rw [FlatGrammar.apply, rules_add]
    rcases mem_add hq with hq | rfl
    · exact h q hq i hi
    · exact .inr ⟨p, he p rfl, rfl, rfl, rfl⟩
  | removeStart => exact fun p hp => h p (List.mem_of_mem_filter hp)
  | lower r =>
    rw [FlatGrammar.apply]
    split
    next hlower =>
      obtain ⟨_, -, _, -, hputs⟩ := lower_puts hlower
      exact h.puts hputs
    next =>
      refine fun p hp i hi => (h p hp i hi).imp_left fun hi => ?_
      rw [FlatGrammar.addRule, Array.size_push]
      exact Nat.lt_succ_of_lt hi

theorem GovernedBut.foldl_apply {handed : Production → Prop} (h : g.GovernedBut handed)
    {edits : List Edit} (hedits : ∀ p, .add p ∈ edits → handed p) :
    (edits.foldl FlatGrammar.apply g).GovernedBut handed := by
  induction edits generalizing g with
  | nil => exact h
  | cons e edits ih =>
    exact ih (h.apply fun p hp => hedits p (hp ▸ List.mem_cons_self ..)) fun p hp =>
      hedits p (List.mem_cons_of_mem _ hp)

end FlatGrammar

namespace Store

/-- **The productions of a store are in order**, and so is its index: the numbers kept for a left
side are those of its productions, in increasing order and each once. -/
structure Consistent (s : Store) : Prop extends s.toFlatGrammar.Consistent where
  ascending : ∀ left, (s.idsOf left).Pairwise (· < ·)
  complete : ∀ left i, i ∈ s.idsOf left ↔ ∃ p, s.productions[i]? = some p ∧ p.left = left

theorem Tracks.consistent {s : Store} {g : FlatGrammar} (h : s.Tracks g) (hg : g.Consistent) :
    s.Consistent where
  toConsistent := h.flat ▸ hg
  ascending left := h.indexed left ▸ pairwise_places ..
  complete left _ := h.indexed left ▸ mem_places

/-- The index made anew lists the same productions, but none of the start symbol. -/
theorem listed_removeStart {s : Store} {g : FlatGrammar} (h : s.Tracks g) (left : String) :
    s.removeStart.listed left = if left = SymbolTable.start then [] else s.listed left := by
  rw [listed_eq_alternatives h.removeStart.indexed, listed_eq_alternatives h.indexed,
    FlatGrammar.alternatives, FlatGrammar.alternatives, Store.removeStart, List.filter_filter]
  split
  next hstart =>
    subst hstart
    simp
  next hother =>
    refine List.filter_congr fun p _ => ?_
    by_cases hp : p.left = left <;> simp [hp, hother]

-- the production of `x` moves to the place of the one that is removed; it was handed in with a rule
-- that is not kept
example : let s := after .initial [.add { left := "S'", right := [.nonterminal "x"] },
      .add { left := "x", right := [.terminal .epsilon], rule := some 3 }]
    s.idsOf "x" = [1] ∧ s.removeStart.idsOf "x" = [0] ∧
      s.removeStart.listed "x" = s.listed "x" := by
  decide

end Store

end Typeahead
