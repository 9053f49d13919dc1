import Typeahead.Proofs.FlatGrammar.JoinDrafts
import Typeahead.Proofs.FlatGrammar.Merging
import Typeahead.Proofs.Grammar.Reachable
import Mathlib.Data.List.Pairwise

/-!
# Proofs/Grammar/Lots — the productions of a compiled grammar, rule by rule

Compiling lowers one rule after the other.  Each gets its lot (`Lot`): an index, names for the
nonterminals that it makes up, and so its drafts.  The productions of the compiled grammar are what
all these drafts ask for, in order (`Grammar.exists_allots_of_compile`).

The names of different lots differ from each other and from all names of the grammar, so most
productions are asked for by one rule only.
-/

namespace Typeahead

/-- A rule as it is lowered: its index, and names for the nonterminals that it makes up. -/
structure Lot where
  rule : Rule
  index : Nat
  names : Auxiliaries

namespace Lot

/-- What is asked for. -/
def drafts (l : Lot) : List Draft := l.rule.drafts l.index l.names

/-- The names that are made up. -/
def made (l : Lot) : List String := l.rule.auxiliaries l.names

/-- The rules that are kept. -/
def kept (l : Lot) : List Rule := l.rule :: l.rule.helpers l.names

/-- The nonterminals that productions are asked for. -/
def own (l : Lot) : List String := l.rule.target :: l.made

end Lot

namespace FlatGrammar

/-- **A flat grammar consists of lots**, the names of which are not in `table`. -/
structure Allots (g : FlatGrammar) (table : SymbolTable) (lots : List Lot) : Prop where
  merged : g.Merged (lots.flatMap (·.drafts))
  rules : ∀ l ∈ lots, ∀ i r, l.kept[i]? = some r → g.rules[l.index + i]? = some r
  knows : ∀ x, table.knows x = true → g.symbols.knows x = true
  fresh : ∀ l ∈ lots, l.names.Fresh table
  made : ∀ l ∈ lots, ∀ x ∈ l.made, g.symbols.knows x = true ∧ table.knows x = false
  apart : lots.Pairwise fun l l' => ∀ x ∈ l.made, x ∉ l'.made
  joins : ∀ l ∈ lots, ∀ j, l.rule.kind = .join j →
    j.opening.isSome = j.closing.isSome ∧ j.count.lower ≤ j.count.upper

theorem allots_ofSymbols (table : SymbolTable) : (ofSymbols table).Allots table [] where
  merged := merged_ofSymbols table
  rules := by simp
  knows _ := id
  fresh := by simp
  made := by simp
  apart := .nil
  joins := by simp

variable {g g' : FlatGrammar} {table : SymbolTable} {lots : List Lot} {r : Rule}

/-- **Lowering a rule** gives it its lot. -/
theorem Allots.lower (h : g.Allots table lots) (hlower : g.lower r = .ok g') :
    ∃ l : Lot, l.rule = r ∧ g'.Allots table (lots ++ [l]) := by
  obtain ⟨a, ha, hmakes⟩ := lower_makes hlower
  have hunknown : ∀ {x}, g.symbols.knows x = false → table.knows x = false := by
    intro x hx
    rw [Bool.eq_false_iff] at hx ⊢
    exact mt (h.knows x) hx
  refine ⟨⟨r, g.rules.size, a⟩, rfl, ?_, ?_, fun x hx => (hmakes.knows x).2 (.inl (h.knows x hx)),
    ?_, ?_, ?_, ?_⟩
  · have hdrawn := (h.merged.foldl_draw (r.drafts g.rules.size a)).of_productions hmakes.productions
    simpa [Lot.drafts] using hdrawn
  · intro l hl i r' hi
    rw [← Array.getElem?_toList, hmakes.rules]
    rcases List.mem_append.1 hl with hl | hl
    · have hold := h.rules l hl i r' hi
      rw [← Array.getElem?_toList] at hold
      obtain ⟨hlt, -⟩ := List.getElem?_eq_some_iff.1 hold
      rw [List.getElem?_append_left hlt, hold]
    · obtain rfl := List.mem_singleton.1 hl
      rw [List.getElem?_append_right (by simp), Array.length_toList, Nat.add_sub_cancel_left]
      exact hi
  · refine List.forall_mem_append.2 ⟨h.fresh, List.forall_mem_singleton.2 ⟨?_, ha.nodup⟩⟩
    exact fun x hx => hunknown (ha.unknown x hx)
  · refine List.forall_mem_append.2
      ⟨fun l hl x hx => ?_, List.forall_mem_singleton.2 fun x hx => ?_⟩
    · exact (h.made l hl x hx).imp_left fun hx => (hmakes.knows x).2 (.inl hx)
    · exact ⟨(hmakes.knows x).2 (.inr hx), hunknown (hmakes.unknown x hx)⟩
  · refine List.pairwise_append.2
      ⟨h.apart, List.pairwise_singleton .., fun l hl l' hl' x hx hx' => ?_⟩
    obtain rfl := List.mem_singleton.1 hl'
    have hknows := (h.made l hl x hx).1
    rw [hmakes.unknown x hx'] at hknows
    cases hknows
  · exact List.forall_mem_append.2
      ⟨h.joins, List.forall_mem_singleton.2 fun j hj => lower_join hlower hj⟩

theorem exists_allots {rules : List Rule} (h : g.Allots table lots)
    (hfold : rules.foldlM lower g = .ok g') :
    ∃ lots', lots'.map (·.rule) = rules ∧ g'.Allots table (lots ++ lots') := by
  induction rules generalizing g lots with
  | nil =>
    cases hfold
    exact ⟨[], rfl, by rwa [List.append_nil]⟩
  | cons r rules ih =>
    rw [List.foldlM_cons, bind_eq_ok] at hfold
    obtain ⟨g₁, hlower, hfold⟩ := hfold
    obtain ⟨l, hl, h⟩ := h.lower hlower
    obtain ⟨lots', hrules, h⟩ := ih h hfold
    exact ⟨l :: lots', by rw [List.map_cons, hl, hrules], by simpa using h⟩

/-! ## A rule that is the only one of its target -/

section

variable {l l' : Lot} {d : Draft} {x : String}

theorem Allots.within_of_mem_drafts (h : g.Allots table lots) (hl : l ∈ lots) (hd : d ∈ l.drafts) :
    d.sides.Within l.own l.rule.symbols := by
  have hsides := l.rule.sides_drafts l.names l.index fun j hj => (h.joins l hl j hj).1
  exact Rule.within_of_mem_sides (hsides.mem_iff.1 (List.mem_map_of_mem hd))

variable (h : g.Allots table lots) (hknown : ∀ l ∈ lots, l.rule.Known table) (hl : l ∈ lots)
  (honly : ∀ l' ∈ lots, l'.rule.target = l.rule.target → l' = l)

include h hknown hl honly

/-- **No other rule asks for productions of its nonterminals.** -/
theorem Allots.eq_of_mem_own (hl' : l' ∈ lots) (hx : x ∈ l.own) (hx' : x ∈ l'.own) : l' = l := by
  have hmade : ∀ {k k'}, k ∈ lots → k' ∈ lots → k.rule.target ∉ k'.made := by
    intro k k' hk hk' hmem
    have hunknown := (h.made k' hk' _ hmem).2
    rw [(hknown k hk).target] at hunknown
    cases hunknown
  rcases List.mem_cons.1 hx with rfl | hx <;> rcases List.mem_cons.1 hx' with hx' | hx'
  · exact honly l' hl' hx'.symm
  · exact absurd hx' (hmade hl hl')
  · exact absurd (hx' ▸ hx) (hmade hl' hl)
  · by_contra hne
    have : Std.Symm fun l l' : Lot => ∀ x ∈ l.made, x ∉ l'.made :=
      ⟨fun k k' hkk' y hy hy' => hkk' y hy' hy⟩
    exact h.apart.forall hl' hl hne x hx' hx

/-- What asks for a production of one of its nonterminals is the rule itself. -/
theorem Allots.mem_drafts_of_left (hd : d ∈ lots.flatMap (·.drafts)) (hleft : d.sides.left ∈ l.own) :
    d ∈ l.drafts := by
  obtain ⟨l', hl', hd⟩ := List.mem_flatMap.1 hd
  obtain rfl := h.eq_of_mem_own hknown hl honly hl' hleft (h.within_of_mem_drafts hl' hd).1
  exact hd

theorem Allots.exists_mem_drafts {q : Production} (hq : q ∈ g.productions) (hleft : q.left ∈ l.own) :
    ∃ d, d ∈ l.drafts := by
  obtain ⟨first, more, hasking, -⟩ := h.merged.made q hq
  obtain ⟨hfirst, hsides⟩ := mem_asking.1 (hasking ▸ List.mem_cons_self ..)
  refine ⟨first, h.mem_drafts_of_left hknown hl honly hfirst ?_⟩
  rw [← Sides.bare_left, hsides]
  exact hleft

end

/-- **Some nonterminals have the productions that a join asks for**, and no others. -/
structure Draws (g : FlatGrammar) (j : Join) (rule : Nat) (target : String) (entry : Symbol)
    (names : ChildNames) (a : Auxiliaries) (own : List String) : Prop where
  nodup : (target :: a.names).Nodup
  drawn : ∀ q ∈ g.productions, q.left ∈ own → ∃ d ∈ j.drafts rule target entry names a,
    d.sides.bare = d.sides ∧ q = d.production
  closed : ∀ q ∈ g.productions, q.left ∈ own → ∀ x ∈ a.names, .nonterminal x ∈ q.right → x ∈ own

theorem Allots.draws (h : g.Allots table lots) (hknown : ∀ l ∈ lots, l.rule.Known table) {l : Lot}
    (hl : l ∈ lots) (honly : ∀ l' ∈ lots, l'.rule.target = l.rule.target → l' = l) {j : Join}
    (hj : l.rule.kind = .join j) {entry : Symbol} (hentry : l.rule.children.head? = some entry)
    (hvisible : .terminal .epsilon ∉ l.rule.symbols) :
    g.Draws j l.index l.rule.target entry l.rule.names l.names l.own := by
  have hdrafts : l.drafts = j.drafts l.index l.rule.target entry l.rule.names l.names := by
    obtain ⟨more, hchildren⟩ := List.head?_eq_some_iff.1 hentry
    rw [Lot.drafts, Rule.drafts, hj, hchildren]
  have hnodup : (l.rule.target :: l.names.names).Nodup := by
    refine List.nodup_cons.2 ⟨fun hmem => ?_, (h.fresh l hl).nodup⟩
    have hunknown := (h.fresh l hl).unknown _ hmem
    rw [(hknown l hl).target] at hunknown
    cases hunknown
  have hbare : ∀ d ∈ l.drafts, d.sides.bare = d.sides := by
    refine fun d hd => Sides.bare_eq fun hmem => hvisible ?_
    simpa using (h.within_of_mem_drafts hl hd).2 hmem
  -- nothing else asks for such a production, and a join asks for it only once
  have hdrawn : ∀ q ∈ g.productions, q.left ∈ l.own → ∃ d ∈ l.drafts, q = d.production := by
    intro q hq hleft
    have hmem : ∀ d ∈ lots.flatMap (·.drafts), d.sides.bare = ⟨q.left, q.right⟩ → d ∈ l.drafts := by
      intro d hd hsides
      refine h.mem_drafts_of_left hknown hl honly hd ?_
      rw [← Sides.bare_left, hsides]
      exact hleft
    obtain ⟨d, hd, hq'⟩ := h.merged.eq_production hq fun d hd e he hsides hsides' => by
      have hd := hmem d hd hsides
      have he := hmem e he hsides'
      rw [hbare d hd] at hsides
      rw [hbare e he] at hsides'
      rw [hdrafts] at hd he
      exact Join.eq_of_sides_eq hnodup hd he (hsides.trans hsides'.symm)
    exact ⟨d, hmem d hd (by rw [hq']; rfl), hq'⟩
  refine ⟨hnodup, fun q hq hleft => ?_, fun q hq hleft x hx hmem => ?_⟩
  · obtain ⟨d, hd, hq'⟩ := hdrawn q hq hleft
    exact ⟨d, hdrafts ▸ hd, hbare d hd, hq'⟩
  · obtain ⟨d, hd, rfl⟩ := hdrawn q hq hleft
    have hright : .nonterminal x ∈ d.sides.right := List.mem_of_mem_filter hmem
    rcases (h.within_of_mem_drafts hl hd).mentions (.inr hright) with hown | hsymbol
    · exact hown
    · have hunknown := (h.fresh l hl).unknown x hx
      rw [(hknown l hl).symbols x hsymbol] at hunknown
      cases hunknown

end FlatGrammar

/-- **A compiled grammar consists of the lots of its rules.** -/
theorem Grammar.exists_allots_of_compile {G G' : Grammar} {top : Symbol}
    (h : (Grammar.compile top).run.run G = (.ok (), G')) :
    ∃ lots, lots.map Lot.rule = G'.rules.toList ∧ G'.flat.Allots G'.symbols lots := by
  obtain ⟨hlower, hrules, hsymbols⟩ := Grammar.compile_ok h
  obtain ⟨hfold, -⟩ := Grammar.lowerAll_ok hlower
  rw [hrules, hsymbols]
  exact FlatGrammar.exists_allots (FlatGrammar.allots_ofSymbols _) hfold

theorem Grammar.known_of_lots {G G' : Grammar} {top : Symbol} (hG : G.Reachable)
    (h : (Grammar.compile top).run.run G = (.ok (), G')) {lots : List Lot}
    (hlots : lots.map Lot.rule = G'.rules.toList) : ∀ l ∈ lots, l.rule.Known G'.symbols := by
  have hclosed : G'.Closed := by
    have hclosed := hG.closed.compile top
    rwa [h] at hclosed
  intro l hl
  refine hclosed _ ?_
  rw [← Array.mem_toList_iff, ← hlots]
  exact List.mem_map_of_mem hl

/-- The lot of a rule that is the only one of its target. -/
theorem Grammar.exists_lot_of_compile {G G' : Grammar} {top : Symbol} (hG : G.Reachable)
    (h : (Grammar.compile top).run.run G = (.ok (), G')) {r : Rule}
    (honly : G'.rulesFor r.target = [r]) :
    ∃ lots, G'.flat.Allots G'.symbols lots ∧ (∀ l ∈ lots, l.rule.Known G'.symbols) ∧
      ∃ l ∈ lots, l.rule = r ∧ ∀ l' ∈ lots, l'.rule.target = r.target → l' = l := by
  obtain ⟨lots, hrules, hallots⟩ := Grammar.exists_allots_of_compile h
  rw [rulesFor, ← hrules, List.filter_map, List.map_eq_singleton_iff] at honly
  obtain ⟨l, hfilter, hl⟩ := honly
  have hmem : ∀ l', l' ∈ lots ∧ l'.rule.target = r.target ↔ l' = l := by
    intro l'
    rw [← List.mem_singleton (a := l'), ← hfilter]
    simp
  exact ⟨lots, hallots, Grammar.known_of_lots hG h hrules, l, ((hmem l).2 rfl).1, hl,
    fun l' hl' htarget => (hmem l').1 ⟨hl', htarget⟩⟩

end Typeahead
