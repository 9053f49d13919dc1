import Typeahead.Proofs.Grammar.Lowered
import Typeahead.Proofs.Grammar.Lots

/-!
# Proofs/Grammar/Realized — the productions of a nonterminal with one rule

If a rule is the only one of its target, the productions of the target are what the rule asks for
(`FlatGrammar.Realizes`): they belong to it, each has the sides and the shaping of one of its
drafts, and no sides of it are without a production.  A compiled grammar realizes each of its rules
that is the only one of its target (`Grammar.exists_realized_of_compile`).
-/

namespace Typeahead

/-- The last shaping is one of them. -/
theorem Shaping.last_mem {shapings : List Shaping} (h : shapings ≠ []) :
    Shaping.last shapings ∈ shapings := by
  induction shapings using List.reverseRecOn with
  | nil => exact absurd rfl h
  | append_singleton before new ih =>
    rw [last, List.foldl_append, List.foldl_cons, List.foldl_nil, ← last]
    split
    next hkeep =>
      rcases eq_or_ne before [] with rfl | hne
      · rw [hkeep]
        exact List.mem_singleton_self _
      · exact List.mem_append_left _ (ih hne)
    next => exact List.mem_append_right _ (List.mem_singleton_self _)

namespace FlatGrammar

/-- **The productions for the target of a rule** are those that the rule asks for. -/
structure Realizes (g : FlatGrammar) (r : Rule) (i : Nat) (a : Auxiliaries) : Prop where
  rule : ∀ q ∈ g.productions, q.left = r.target → g.ruleOf q = some r
  made : ∀ q ∈ g.productions, q.left = r.target →
    ∃ d ∈ r.drafts i a, d.sides.bare = ⟨q.left, q.right⟩ ∧ q.shaping = d.shaping
  drawn : ∀ s ∈ r.sides a, s.bare ∈ g.sides

variable {g : FlatGrammar} {table : SymbolTable} {lots : List Lot} {l : Lot}

/-- A lot whose rule is the only one of its target is realized. -/
theorem Allots.realizes (h : g.Allots table lots) (hknown : ∀ l ∈ lots, l.rule.Known table)
    (hl : l ∈ lots) (honly : ∀ l' ∈ lots, l'.rule.target = l.rule.target → l' = l) :
    g.Realizes l.rule l.index l.names := by
  -- whoever asks for a production of the target is the rule itself
  have hasked : ∀ q ∈ g.productions, q.left = l.rule.target →
      ∀ d ∈ asking (lots.flatMap (·.drafts)) ⟨q.left, q.right⟩, d ∈ l.drafts := by
    intro q hq hleft d hd
    obtain ⟨hdraft, hsides⟩ := mem_asking.1 hd
    refine h.mem_drafts_of_left hknown hl honly hdraft ?_
    rw [← Sides.bare_left, hsides, hleft]
    exact List.mem_cons_self ..
  refine ⟨fun q hq hleft => ?_, fun q hq hleft => ?_, fun s hs => ?_⟩
  · obtain ⟨first, more, hasking, hrule, -, -⟩ := h.merged.of_mem hq
    have hfirst : first ∈ asking (lots.flatMap (·.drafts)) ⟨q.left, q.right⟩ :=
      hasking ▸ List.mem_cons_self ..
    have hsides := congrArg Sides.left (mem_asking.1 hfirst).2
    have hindex : first.rule = l.index :=
      (Rule.shares_of_mem_drafts (hasked q hq hleft first hfirst)).index_of_target (h.fresh l hl)
        (hknown l hl).target (hsides.trans hleft)
    rw [ruleOf, hrule, hindex]
    exact h.rules l hl 0 l.rule rfl
  · obtain ⟨first, more, hasking, -, -, hshaping⟩ := h.merged.of_mem hq
    have hmem : q.shaping ∈ (first :: more).map (·.shaping) := by
      rw [hshaping]
      exact Shaping.last_mem nofun
    obtain ⟨d, hd, hd'⟩ := List.mem_map.1 hmem
    rw [← hasking] at hd
    exact ⟨d, hasked q hq hleft d hd, (mem_asking.1 hd).2, hd'.symm⟩
  · have hsides := l.rule.sides_drafts l.names l.index fun j hj => (h.joins l hl j hj).1
    obtain ⟨d, hd, rfl⟩ := List.mem_map.1 (hsides.mem_iff.2 hs)
    exact h.merged.drawn d (List.mem_flatMap.2 ⟨l, hl, hd⟩)

end FlatGrammar

/-- **A compiled grammar realizes a rule** that is the only one of its target. -/
theorem Grammar.exists_realized_of_compile {G G' : Grammar} {top : Symbol} (hG : G.Reachable)
    (h : (Grammar.compile top).run.run G = (.ok (), G')) {r : Rule}
    (honly : G'.rulesFor r.target = [r]) : ∃ i a, G'.flat.Realizes r i a := by
  obtain ⟨lots, hallots, hknown, l, hl, rfl, hrest⟩ := Grammar.exists_lot_of_compile hG h honly
  exact ⟨l.index, l.names, hallots.realizes hknown hl hrest⟩

end Typeahead
