import Typeahead.Proofs.ParseTree.Placed
import Typeahead.Proofs.Search.Cutoff

/-!
# Proofs/ParseTree/Ending — the way to where the input ran out

The node a derivation is stuck on is the last of its siblings that covers anything, so it ends where
its parent does (`Tiles.stop_eq`), and all nodes on the way to it end in one place.  If the
derivation ran out of input this place is the end of the input: every node on the way covers all of
the input from its start on (`text_of_ranOut`).

What a literal covers there is the beginning of the literal (`prefix_of_ranOut`), and any other
terminal covers nothing.
-/

namespace Typeahead

open ParseTree (Occurs)

/-- What is stuck ends where the text ends that it tiles together with others. -/
theorem Match.Tiles.stop_eq {stop pos : Nat} {text : String} {ms : List Match} {m : Match}
    (h : Tiles stop pos text ms) (hm : m ∈ ms) (hstuck : m.outcome.isStuck = true) :
    m.stop = pos + text.utf8ByteSize := by
  induction h with
  | nil => cases hm
  | cons hn _ ih =>
    obtain rfl | hm := List.mem_cons.1 hm
    · rw [hn] at hstuck
      cases hstuck
    · rw [ih hm, Match.stop, String.utf8ByteSize_append, Nat.add_assoc]
  | stuck _ hms =>
    obtain rfl | hm := List.mem_cons.1 hm
    · rfl
    · rw [hms m hm] at hstuck
      cases hstuck

/-- A leaf that a tree holds is one of its leaves. -/
theorem ParseTree.Holds.mem_leaves {t : ParseTree} {l : Label} (h : t.Holds l)
    (hnone : l.production = none) : l ∈ t.leaves := by
  obtain ⟨⟨l, children⟩, hs, rfl⟩ := h.exists_occurs
  exact hs.leaves_subset (mem_leaves_node.2 (.inl ⟨hnone, rfl⟩))

namespace Derivation

variable {g : FlatGrammar} {cfg : Config} {input : List Char} {d : Derivation} {t : ParseTree}
  {parentRule : Option Nat} {path : List Visit} {v : Visit}

/-- A tree with a way to the stuck node is stuck. -/
theorem Part.isStuck_of_stuckPath (h : d.Part g t) (hpath : t.stuckPath? parentRule = some path) :
    t.outcome.isStuck = true := by
  obtain ⟨v, -, hleaf, hholds⟩ := ParseTree.holds_of_stuckPath? hpath
  rw [Label.isStuckLeaf, Bool.and_eq_true] at hleaf
  obtain ⟨hnone, hstuck⟩ := hleaf
  have hmem := hholds.mem_leaves (Option.isNone_iff_eq_none.1 hnone)
  rwa [(h.outcome_eq_iff_of_isStuck hstuck).2 ⟨v.label, hmem, rfl⟩]

/-- Only a node with a production has children. -/
theorem Part.production_of_mem_children {u : ParseTree} (h : d.Part g t) (hu : u ∈ t.children) :
    t.label.production ≠ none := by
  cases h with
  | leaf => cases hu
  | node _ hproduction => exact fun hnone => Option.some_ne_none _ (hproduction.symm.trans hnone)

/-- **All nodes on the way to the stuck node end in one place.** -/
theorem stop_of_mem_stuckPath (hd : d ∈ (Branch.initial input).ends g cfg) (ht : Occurs t d.tree)
    (hpath : t.stuckPath? parentRule = some path) (hv : v ∈ path) :
    v.label.result.stop = t.label.result.stop := by
  induction t using ParseTree.induction_on_children generalizing parentRule path with
  | h l children ih =>
    rw [ParseTree.stuckPath?] at hpath
    split at hpath
    next =>
      obtain rfl := Option.some.inj hpath
      rw [List.mem_singleton.1 hv]
      rfl
    next =>
      obtain ⟨path', hpath', rfl⟩ := Option.map_eq_some_iff.1 hpath
      obtain rfl | hv := List.mem_cons.1 hv
      · rfl
      · obtain ⟨u, hu, hbelow⟩ := ParseTree.stuckPathAll?_eq_some hpath'
        have hoccurs : Occurs u d.tree := (ParseTree.occurs_child hu).trans ht
        have hstuck := ((part_tree hd).of_occurs hoccurs).isStuck_of_stuckPath hbelow
        have hproduction := ((part_tree hd).of_occurs ht).production_of_mem_children hu
        have htiled := (exact_of_mem_ends hd ht).tiled hproduction
        rw [ih u hu hoccurs hbelow hv]
        exact htiled.stop_eq (List.mem_map_of_mem hu) hstuck

/-- A derivation that ran out of input got to the end of it. -/
theorem stop_of_ranOut (hd : d ∈ (Branch.initial input).ends g cfg) (hran : d.ranOut) :
    d.tree.label.result.stop = Text.byteLength input := by
  obtain ⟨forest, hforest, -, text, beyond, hinput, htiles, hend⟩ :=
    laid_of_mem_ends (Branch.within_initial input) hd
  have hroot : forest = [d.rawTree] := hforest.symm.trans (forest_eq_singleton hd)
  have hresult : d.tree.label.result = d.rawTree.label.result := by
    rw [tree, ParseTree.named, ParseTree.label_withTag]
  obtain ⟨m, hm, hout⟩ := (Option.any_eq_true ..).1 hran
  have hstuck : d.tree.label.result.outcome.isStuck = true := by
    rw [← ParseTree.outcome, outcome_tree hd hm, of_decide_eq_true hout]
    rfl
  rw [hend (.inl hran), List.append_nil] at hinput
  rw [hroot, List.map_singleton, ← hresult] at htiles
  rw [htiles.stop_eq (List.mem_singleton_self _) hstuck, Text.utf8ByteSize_ofList, ← hinput]
  exact Nat.zero_add _

/-- **Every node on the way to where the input ran out** covers all of the input from its start
on. -/
theorem text_of_ranOut (hd : d ∈ (Branch.initial input).ends g cfg) (hran : d.ranOut)
    (hpath : d.tree.stuckPath? parentRule = some path) (hv : v ∈ path) :
    ∃ before, input = before ++ v.label.text.toList ∧
      v.label.result.pos = Text.byteLength before := by
  obtain ⟨s, hs, hlabel⟩ := (ParseTree.holds_of_mem_stuckPath hpath hv).exists_occurs
  obtain ⟨before, after, hinput, hpos⟩ := (exact_of_mem_ends hd hs).placed
  rw [hlabel] at hinput hpos
  have hstop : v.label.result.stop = Text.byteLength input :=
    (stop_of_mem_stuckPath hd .root hpath hv).trans (stop_of_ranOut hd hran)
  rw [Match.stop, hpos, ← Text.byteLength_toList, hinput, Text.byteLength_append,
    Text.byteLength_append] at hstop
  obtain rfl : after = [] := Text.byteLength_eq_zero.1 (by omega)
  rw [List.append_nil] at hinput
  exact ⟨before, hinput, hpos⟩

/-- **What is there of a literal** when the input runs out is its beginning. -/
theorem prefix_of_ranOut (hd : d ∈ (Branch.initial input).ends g cfg) {text : String} {m : Match}
    (hstuck : d.StuckOn (.literal text) m) (hout : m.outcome = .endOfInput) :
    m.text.toList <+: text.toList := by
  obtain ⟨before, c, h⟩ := Branch.exists_stops hd hstuck
  have hscan := hout ▸ h.scan
  rw [Terminal.scan_endOfInput hscan]
  exact Terminal.prefix_of_scanLiteral (congrArg Prod.fst hscan)

end Derivation

end Typeahead
