import Typeahead.Proofs.Parse.Completions
import Typeahead.Proofs.ParseTree.Gathered
import Typeahead.Proofs.ParseTree.Placed

/-!
# Proofs/Parse/Trees — the trees that a search comes back with

A search comes back with one derivation and notes others on its way (`SearchResult.Reaches`).  All of
them are ends of the start symbol, so each has a tree that is a derivation tree of its steps
(`materialized_of_search`), with positions, texts and outcomes that are exact (`exact_of_search`).
In a compiled grammar the root covers all of the input, unless the derivation failed.
-/

namespace Typeahead

open ParseTree (Occurs)

/-- **The derivations that a search reaches**: the one it returns, and those that ran out of
input. -/
def SearchResult.Reaches (r : SearchResult) (d : Derivation) : Prop := d = r.derivation ∨ d ∈ r.cut

variable {g : FlatGrammar} {cfg : Config} {input : List Char} {d : Derivation}

theorem SearchResult.Reaches.mem_ends (h : (search g cfg input).Reaches d) :
    d ∈ (Branch.initial input).ends g cfg := by
  obtain ⟨hresult, hcut⟩ := search_mem_ends g cfg input
  rcases h with rfl | hd
  · exact hresult
  · exact (hcut d hd).1

/-- **The tree of every derivation that a search reaches** is a derivation tree of its steps. -/
theorem materialized_of_search (h : (search g cfg input).Reaches d) : d.Materialized g :=
  Derivation.materialized_of_mem_ends h.mem_ends

/-- After `g` the literal `go` is what the derivation is stuck on. -/
theorem materialized_of_search_numberedOrder :
    (search Grammar.numberedOrderCompiled.flat {} "g".toList).derivation.stuck
      = some ⟨.endOfInput, 0, "g"⟩ ∧
    (search Grammar.numberedOrderCompiled.flat {} "g".toList).derivation.Materialized
      Grammar.numberedOrderCompiled.flat :=
  ⟨by cbv, materialized_of_search (.inl rfl)⟩

theorem Grammar.terminated_of_compile {G G' : Grammar} {top : Symbol}
    (h : (Grammar.compile top).run.run G = (.ok (), G')) : G'.flat.Terminated :=
  Grammar.endOfInput_mem_of_compile h

/-- **Positions, texts and outcomes of the nodes are exact** in the tree of every derivation that a
search reaches, and in a compiled grammar the root of one that did not fail covers the input. -/
theorem exact_of_search (h : (search g cfg input).Reaches d) :
    (∀ s, Occurs s d.tree → s.Exact input d) ∧
    ∀ G G' top, (Grammar.compile top).run.run G = (.ok (), G') → g = G'.flat →
      (d.tree.outcome = .successful ∨ d.tree.outcome = .endOfInput ∨ d.tree.outcome = .failed) ∧
      (d.tree.outcome = .successful ∨ d.tree.outcome = .endOfInput →
        d.tree.label.text = String.ofList input) := by
  refine ⟨fun s hs => exact_of_mem_ends h.mem_ends hs, ?_⟩
  rintro G G' top hcompile rfl
  obtain ⟨houtcome, htext⟩ := root_of_mem_ends (Grammar.terminated_of_compile hcompile) h.mem_ends
  refine ⟨houtcome, fun hgood => htext fun hfailed => ?_⟩
  rw [hfailed] at hgood
  cases hgood <;> contradiction

/-- On `g` the root covers the `g`, although the literal is not finished. -/
theorem exact_of_search_numberedOrder :
    (∀ s, Occurs s (search Grammar.numberedOrderCompiled.flat {} "g".toList).derivation.tree →
      s.Exact "g".toList (search Grammar.numberedOrderCompiled.flat {} "g".toList).derivation) ∧
    (search Grammar.numberedOrderCompiled.flat {} "g".toList).derivation.tree.outcome
      = .endOfInput ∧
    (search Grammar.numberedOrderCompiled.flat {} "g".toList).derivation.tree.label.text
      = String.ofList "g".toList := by
  obtain ⟨hexact, hroot⟩ := exact_of_search (g := Grammar.numberedOrderCompiled.flat)
    (.inl rfl)
  have houtcome : (search Grammar.numberedOrderCompiled.flat {} "g".toList).derivation.tree.outcome
      = .endOfInput := by cbv
  exact ⟨hexact, houtcome, (hroot _ _ _ Grammar.compile_numberedOrder rfl).2 (.inr houtcome)⟩

end Typeahead
