import Typeahead.Proofs.Parse.Joins
import Typeahead.Proofs.Parse.Trees
import Typeahead.Proofs.ParseTree.Terminals

/-!
# Proofs/Parse/Finishing — finishing the tree of a parse in place

However the tree of a derivation is stored, finishing it in place leaves a tree, with the same root
and the same labels (`Arena.finish_of_search`).  It is the finished tree of the derivation, and the
terminals in it are those that were there before, in their order, except for the brackets and
delimiters of joins that want their entries only.
-/

namespace Typeahead

/-- **A stored tree was finished in place**, and `after` is what is stored then. -/
structure Arena.Finishes (g : FlatGrammar) (a : Arena) (t : ParseTree) (before : StoredTree)
    (a' : Arena) (after : StoredTree) : Prop where
  finish : a.finish before.id = some a'
  root : after.id = before.id
  represents : a'.Represents t.shape.1 after
  reaches : ∀ i, a'.Reaches before.id i ↔ i ∈ after.ids
  isTree : a'.IsTree before.id
  labels : ∀ i, a'.label? i = a.label? i
  terminals : after.terminals = before.keptTerminals g

/-- **Finishing loses, duplicates and reorders nothing that it should keep**, in any tree that a
search on a compiled grammar comes back with and however it is stored, if no empty symbol stands in a
rule that rebuilds its nodes. -/
theorem Arena.finish_of_search {G G' : Grammar} {top : Symbol} {g : FlatGrammar} {cfg : Config}
    {input : List Char} {d : Derivation} (hG : G.Reachable)
    (hvisible : ∀ r ∈ G.rules, r.kind.Rebuilds → .terminal .epsilon ∉ r.symbols)
    (hcompile : (Grammar.compile top).run.run G = (.ok (), G')) (hg : G'.flat.Searched g)
    (hd : (search g cfg input).Reaches d) :
    (∃ a before, Arena.Represents a d.tree before) ∧
    ∀ a before, Arena.Represents a d.tree before →
      ∃ a' after, Arena.Finishes g a d.tree before a' after := by
  refine ⟨Arena.exists_represents d.tree, fun a before hbefore => ?_⟩
  obtain ⟨a', hfinish, hafter, hlabels⟩ := hbefore.finish
  have hpart : d.Part g before.tree := hbefore.tree ▸ Derivation.part_tree hd.mem_ends
  have hclean := Grammar.clean_of_searched hG hvisible hcompile hg
  have hid : before.finished.id = before.id := before.id_finished
  refine ⟨a', before.finished, hfinish, hid, hafter, fun i => ?_, ?_, hlabels,
    hpart.terminals_finished hclean⟩
  · rw [← hid, hafter.holds.reaches_iff]
  · rw [← hid]
    exact hafter.holds.isTree hafter.nodup

/-- Digits between commas, which the finished tree is without; the input ends after a comma. -/
theorem Arena.finish_of_search_digitList :
    (∀ r ∈ Grammar.digitList.rules, r.kind.Rebuilds → .terminal .epsilon ∉ r.symbols) ∧
    (Grammar.compile (.nonterminal "l")).run.run Grammar.digitList
      = (.ok (), Grammar.digitListCompiled) ∧
    ∃ a before a' after, Arena.Finishes Grammar.digitListCompiled.flat a
      (search Grammar.digitListCompiled.flat {} "1,".toList).derivation.tree before a' after := by
  have hrules : Grammar.digitList.rules = #[Grammar.digitListRule] := rfl
  have hvisible : ∀ r ∈ Grammar.digitList.rules,
      r.kind.Rebuilds → .terminal .epsilon ∉ r.symbols := by
    intro r hr _
    obtain rfl : r = Grammar.digitListRule := by simpa [hrules] using hr
    decide
  have hd : (search Grammar.digitListCompiled.flat {} "1,".toList).Reaches
      (search Grammar.digitListCompiled.flat {} "1,".toList).derivation := .inl rfl
  obtain ⟨⟨a, before, hbefore⟩, hfinish⟩ := Arena.finish_of_search Grammar.reachable_digitList
    hvisible Grammar.compile_digitList .whole hd
  obtain ⟨a', after, hafter⟩ := hfinish a before hbefore
  exact ⟨hvisible, Grammar.compile_digitList, a, before, a', after, hafter⟩

end Typeahead
