import Typeahead.Proofs.FlatGrammar.Forms
import Typeahead.Proofs.Parse.Acceptance
import Typeahead.Proofs.Parse.Entries

/-!
# Proofs/Parse/Root — what stands below the root of a tree

The start symbol of a compiled grammar has one production, the top symbol and the end of input, and
its node keeps all of its children (`Grammar.shapes_start_of_compile`).  The root of a tree that did
not fail was expanded by it, so just these two stand below it (`symbols_children_of_compile`).
-/

namespace Typeahead

open ParseTree (symbols)

variable {G G' : Grammar} {top : Symbol}

/-- The production of the start symbol keeps all that is below its node. -/
theorem Grammar.shapes_start_of_compile (h : (Grammar.compile top).run.run G = (.ok (), G')) :
    G'.flat.Shapes fun s shaping => s.left = SymbolTable.start → shaping = .keep := by
  obtain ⟨hfold, -⟩ := Grammar.lowerAll_ok (Grammar.compile_ok h).1
  refine (Grammar.lower_induction (P := fun g => g.symbols.knows SymbolTable.start = true ∧
    g.Shapes fun s shaping => s.left = SymbolTable.start → shaping = .keep) hfold
    ⟨Grammar.knows_start_withStart, by simp [FlatGrammar.Shapes, FlatGrammar.ofSymbols]⟩ ?_).2
  rintro r hr g g' ⟨hknows, hshapes⟩ hlower
  obtain ⟨a, ha, hmakes⟩ := FlatGrammar.lower_makes hlower
  refine ⟨(hmakes.knows _).2 (.inl hknows), fun q hq => ?_⟩
  rw [hmakes.productions] at hq
  refine hshapes.foldl_draw (fun d hd hleft => ?_) q hq
  rcases Grammar.mem_rules_withStart.1 (Array.mem_toList_iff.1 hr) with ⟨-, htarget⟩ | rfl
  · -- other rules have other targets, and the names they make up are new
    rcases (Rule.form_of_mem_drafts (fun _ => FlatGrammar.lower_join hlower) hd).left with hd | hd
    · exact absurd (hd.symm.trans hleft) htarget
    · rw [ha.unknown _ (hleft ▸ hd)] at hknows
      cases hknows
  · obtain rfl := List.mem_singleton.1 hd
    rfl

theorem ParseTree.symbols_withTags (tags : List Tag) (parentRule : Option Nat)
    (ts : List ParseTree) : symbols (withTags tags parentRule ts) = symbols ts :=
  withTags_map (fun _ _ t => by rw [label_withTag]) _ _ _

/-- **The root of a tree that did not fail** was expanded. -/
theorem exists_children_of_mem_ends {g : FlatGrammar} {cfg : Config} {input : List Char}
    {d : Derivation} (hd : d ∈ (Branch.initial input).ends g cfg)
    (hout : d.tree.shape.1.outcome ≠ .failed) :
    ∃ p ∈ g.alternatives SymbolTable.start, ∃ l children, d.tree = .node l children ∧
      l.production = some p ∧ symbols children = p.right := by
  have hp : (Branch.initial input).pending = [.nonterminal SymbolTable.start] := rfl
  by_cases hopen : g.alternatives SymbolTable.start = [] ∨
    cfg.maxDepth ≤ (Branch.initial input).idle
  · have hgiven := hd
    rw [Branch.ends_givenUp hp hopen, List.mem_singleton] at hgiven
    have hstuck : d.stuck = some ⟨.failed, 0, ""⟩ := by rw [hgiven]; rfl
    exact absurd (outcome_of_stuck hd hstuck) hout
  · rw [not_or, Nat.not_le] at hopen
    rw [Branch.ends_expand hp hopen.2 hopen.1] at hd
    obtain ⟨p, hpg, hdp⟩ := List.mem_flatMap.1 hd
    obtain ⟨forest, hforest, hsym, -⟩ := forest_of_mem_ends hdp
    rw [Branch.expand_pending hp, List.append_nil] at hsym
    have hall : forest.take p.right.length = forest := by
      rw [← hsym, symbols, List.length_map, List.take_length]
    have hroot : d.forest = Derivation.undo forest (.expand p 0) := hforest
    rw [Derivation.undo, hall] at hroot
    have htree : d.tree = (d.forest.headD _).named := rfl
    rw [hroot, List.headD_cons, ParseTree.named, ParseTree.withTag] at htree
    exact ⟨p, hpg, _, _, htree, rfl, (ParseTree.symbols_withTags ..).trans hsym⟩

/-- **Below the root of a tree that did not fail** stands the top symbol, and the end of input. -/
theorem symbols_children_of_compile {cfg : Config}
    {input : List Char} {d : Derivation} (h : (Grammar.compile top).run.run G = (.ok (), G'))
    (hd : d ∈ (Branch.initial input).ends G'.flat cfg)
    (hout : d.tree.shape.1.outcome ≠ .failed) :
    symbols d.tree.shape.1.children
      = (Sides.bare ⟨SymbolTable.start, [top, .terminal .endOfInput]⟩).right := by
  obtain ⟨p, hp, l, children, htree, hproduction, hchildren⟩ := exists_children_of_mem_ends hd hout
  obtain ⟨hmem, hleft⟩ := List.mem_filter.1 hp
  have hside : ⟨p.left, p.right⟩ ∈ G'.flat.sides := List.mem_map_of_mem hmem
  have hright : p.right = (Sides.bare ⟨SymbolTable.start, [top, .terminal .endOfInput]⟩).right :=
    congrArg Sides.right (Grammar.start_of_mem_sides h hside (of_decide_eq_true hleft))
  have hkeep : l.shaping = .keep := by
    rw [Label.shaping, hproduction]
    exact Grammar.shapes_start_of_compile h p hmem (of_decide_eq_true hleft)
  have hshaped : d.tree.shape.1.children = children.map (·.shape.1) := by
    rw [htree, ParseTree.shape_node, hkeep]
    rfl
  rw [hshaped, ← hright, ← hchildren, symbols, symbols, List.map_map]
  exact List.map_congr_left fun t _ => congrArg Label.symbol t.label_shape

end Typeahead
