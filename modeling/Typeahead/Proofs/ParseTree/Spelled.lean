import Typeahead.Proofs.Grammar.Realized
import Typeahead.Proofs.ParseTree.Placed
import Typeahead.Proofs.ParseTree.Unfolded

/-!
# Proofs/ParseTree/Spelled — what the nodes of a complete derivation cover

In the tree of a complete derivation every leaf covers a text that its terminal writes, and every
other node what its leaves cover, one after the other (`ParseTree.Spelled`).  So what a node covers
is what its children cover, and these are read off the rule of the node (`Spelled.expands`).
-/

namespace Typeahead

namespace ParseTree

/-- The characters that a node covers. -/
def chars (t : ParseTree) : List Char := t.label.text.toList

/-- **A derivation tree with its texts**: the leaves cover what their terminals write, and every
node covers what its leaves do. -/
structure Spelled (g : FlatGrammar) (t : ParseTree) : Prop where
  full : t.Full g
  leaf : ∀ l ∈ t.leaves, ∀ x, l.symbol = .terminal x → x.Writes l.text.toList
  text : ∀ s, Occurs s t → s.chars = s.leaves.flatMap (·.text.toList)

variable {g : FlatGrammar} {s t : ParseTree} {x : Terminal}

theorem Spelled.of_occurs (h : t.Spelled g) (hs : Occurs s t) : s.Spelled g where
  full := h.full.of_occurs hs
  leaf l hl := h.leaf l (hs.leaves_subset hl)
  text u hu := h.text u (hu.trans hs)

/-- What some trees cover, by their leaves. -/
theorem flatMap_chars {ts : List ParseTree} (h : ∀ t ∈ ts, t.Spelled g) :
    ts.flatMap chars = (leavesAll ts).flatMap (·.text.toList) := by
  rw [leavesAll_eq_flatMap, List.flatMap_assoc]
  exact List.flatMap_congr fun t ht => (h t ht).text t .root

/-- A leaf covers what its terminal writes. -/
theorem Spelled.writes (h : t.Spelled g) (hsymbol : t.label.symbol = .terminal x) :
    x.Writes t.chars := by
  have hfull := h.full
  cases hfull with
  | @leaf l _ hproduction _ =>
    exact h.leaf l (mem_leaves_node.2 (.inl ⟨hproduction, rfl⟩)) x hsymbol
  | node _ _ hleft => cases hsymbol.symm.trans hleft

/-- What is left after opening nodes occurred below them. -/
theorem Unfolds.occurs {inner : String → Prop} {ts us : List ParseTree} (h : Unfolds inner ts us) :
    ∀ u ∈ us, ∃ t ∈ ts, Occurs u t := by
  induction h with
  | refl => exact fun u hu => ⟨u, hu, .root⟩
  | tail _ hstep ih =>
    obtain @⟨l, children, x, -, -, before, after⟩ := hstep
    intro u hu
    simp only [List.mem_append] at hu
    rcases hu with (hu | hu) | hu
    · exact ih u (by simp [hu])
    · obtain ⟨t, ht, hocc⟩ := ih (.node l children) (by simp)
      exact ⟨t, ht, (Occurs.child hu .root).trans hocc⟩
    · exact ih u (by simp [hu])

end ParseTree

/-! ## The tree of a complete derivation -/

open ParseTree (Occurs symbols)

/-- Matches that are not stuck tile the text that they cover one after the other. -/
theorem Match.Tiles.flatMap_text {stop pos : Nat} {text : String} {ms : List Match}
    (h : Tiles stop pos text ms) (hms : ∀ m ∈ ms, m.outcome.isStuck = false) :
    text.toList = ms.flatMap (·.text.toList) := by
  induction h with
  | nil => rfl
  | cons _ _ ih =>
    obtain ⟨-, hms⟩ := List.forall_mem_cons.1 hms
    rw [String.toList_append, ih hms, List.flatMap_cons]
  | stuck hm =>
    obtain ⟨hnot, -⟩ := List.forall_mem_cons.1 hms
    rw [hm] at hnot
    cases hnot

theorem Reads.writes {input : List Char} {pos : Nat} {steps : List Step}
    (h : Reads input pos steps) : ∀ t m, .accept t m ∈ steps → t.Writes m.text.toList := by
  induction h with
  | nil => exact fun _ _ hmem => absurd hmem List.not_mem_nil
  | expand _ ih =>
    exact fun t m hmem => ih t m ((List.mem_cons.1 hmem).resolve_left nofun)
  | @accept t pos m steps hm hs _ ih =>
    intro t' m' hmem
    rcases List.mem_cons.1 hmem with heq | hmem
    · obtain ⟨rfl, rfl⟩ := Step.accept.inj heq
      rw [Terminal.matchCursor, Terminal.matchAt] at hm
      rcases hscan : t'.scan (Cursor.mk input pos).remaining (Cursor.mk input pos).atEnd
        with ⟨outcome, seen⟩
      rw [hscan] at hm
      subst hm
      obtain rfl : outcome = .successful := hs
      rw [String.toList_ofList]
      exact Terminal.writes_of_scan hscan
    · exact ih t' m' hmem

section

variable {g : FlatGrammar} {cfg : Config} {input : List Char} {d : Derivation} {s : ParseTree}
  (hd : d ∈ (Branch.initial input).ends g cfg) (hc : d.isComplete)

include hd hc

/-- A complete derivation is stuck on no node. -/
theorem isStuck_of_isComplete (hs : Occurs s d.tree) : s.outcome.isStuck = false := by
  refine Bool.eq_false_iff.2 fun hstuck => ?_
  obtain ⟨l, -, ⟨hhead, -⟩, -⟩ := ((exact_of_mem_ends hd hs).stuck _ hstuck).1 rfl
  rw [List.isEmpty_iff.1 hc] at hhead
  cases hhead

theorem chars_of_isComplete (hs : Occurs s d.tree) :
    s.chars = s.leaves.flatMap (·.text.toList) := by
  have hfull := (Derivation.full_tree hd hc).of_occurs hs
  induction hfull with
  | @leaf l x hproduction hsymbol =>
    have hleaves : (ParseTree.node l []).leaves = [l] := by
      rw [ParseTree.leaves, if_pos (by rw [hproduction]; rfl), ParseTree.leavesAll_nil]
    rw [hleaves, List.flatMap_singleton]
    rfl
  | @node l p children hp hproduction hsymbol hchildren hfull ih =>
    have hbelow : ∀ t ∈ children, Occurs t d.tree := fun t ht => (Occurs.child ht .root).trans hs
    have hne : l.production ≠ none := by rw [hproduction]; exact Option.some_ne_none p
    have htiles := ((exact_of_mem_ends hd hs).tiled hne).flatMap_text
      (List.forall_mem_map.2 fun t ht => isStuck_of_isComplete hd hc (hbelow t ht))
    rw [ParseTree.leaves_node hne, ParseTree.leavesAll_eq_flatMap, List.flatMap_assoc]
    refine Eq.trans htiles ?_
    rw [List.flatMap_map]
    exact List.flatMap_congr fun t ht => ih t ht (hbelow t ht)

/-- **The tree of a complete derivation** is spelled by its leaves. -/
theorem Derivation.spelled_tree : d.tree.Spelled g where
  full := full_tree hd hc
  leaf l hl x hx := by
    obtain ⟨steps, htrace, -, hreads, -⟩ :=
      Branch.leftmost_of_mem_ends hd hc (Branch.within_initial input)
    have hscanned : l.scanned ∈ d.tree.leaves.map Label.scanned := List.mem_map_of_mem hl
    rw [leaves_tree hd, openLeaves_of_pending_eq_nil (List.isEmpty_iff.1 hc), List.map_nil,
      List.append_nil, Step.matched, List.mem_reverse, htrace] at hscanned
    obtain ⟨step, hstep, hmatched⟩ := List.mem_filterMap.1 hscanned
    rw [Branch.initial, List.append_nil, List.mem_reverse] at hstep
    cases step with
    | expand p pos => cases hmatched
    | accept t m =>
      obtain ⟨hsymbol, hm⟩ := Prod.mk.inj (Option.some.inj hmatched)
      obtain rfl : t = x := Symbol.terminal.inj (hsymbol.trans hx)
      rw [Label.text, ← hm]
      exact hreads.writes t m hstep
  text s hs := chars_of_isComplete hd hc hs

end

/-! ## Nodes by their rules -/

namespace ParseTree

/-- **A node is expanded by a rule** into some symbols, and finished in some way. -/
structure Expands (g : FlatGrammar) (r : Rule) (right : List Symbol) (shaping : Shaping)
    (t : ParseTree) : Prop where
  rule : t.label.rule g = some r
  children : symbols t.children = right
  spelled : ∀ u ∈ t.children, u.Spelled g
  chars : t.chars = t.children.flatMap chars
  finished : t.shape.1.children = (shaping.split (t.children.map (·.shape.1))).1

namespace Expands

variable {g : FlatGrammar} {r : Rule} {t : ParseTree} {s s' s'' : Symbol} {shaping : Shaping}

theorem singleton (h : t.Expands g r [s] shaping) :
    ∃ u, t.children = [u] ∧ u.Spelled g ∧ u.label.symbol = s ∧ t.chars = u.chars := by
  obtain ⟨u, hchildren, hu⟩ := symbols_eq_singleton.1 h.children
  refine ⟨u, hchildren, h.spelled u (by simp [hchildren]), hu, ?_⟩
  rw [h.chars, hchildren, List.flatMap_singleton]

theorem pair (h : t.Expands g r [s, s'] shaping) : ∃ u u', t.children = [u, u'] ∧
    (u.Spelled g ∧ u.label.symbol = s) ∧ (u'.Spelled g ∧ u'.label.symbol = s') ∧
    t.chars = u.chars ++ u'.chars := by
  obtain ⟨u, u', hchildren, hu, hu'⟩ := symbols_eq_pair.1 h.children
  refine ⟨u, u', hchildren, ⟨h.spelled u (by simp [hchildren]), hu⟩,
    ⟨h.spelled u' (by simp [hchildren]), hu'⟩, ?_⟩
  rw [h.chars, hchildren, List.flatMap_cons, List.flatMap_singleton]

theorem triple (h : t.Expands g r [s, s', s''] shaping) : ∃ u u' u'', t.children = [u, u', u''] ∧
    (u.Spelled g ∧ u.label.symbol = s) ∧ (u'.Spelled g ∧ u'.label.symbol = s') ∧
    (u''.Spelled g ∧ u''.label.symbol = s'') ∧ t.chars = u.chars ++ (u'.chars ++ u''.chars) := by
  obtain ⟨u, us, hchildren, hu, hus⟩ := symbols_eq_cons.1 h.children
  obtain ⟨u', u'', rfl, hu', hu''⟩ := symbols_eq_pair.1 hus
  refine ⟨u, u', u'', hchildren, ⟨h.spelled u (by simp [hchildren]), hu⟩,
    ⟨h.spelled u' (by simp [hchildren]), hu'⟩, ⟨h.spelled u'' (by simp [hchildren]), hu''⟩, ?_⟩
  rw [h.chars, hchildren, List.flatMap_cons, List.flatMap_cons, List.flatMap_singleton]

theorem chars_nil (h : t.Expands g r [] shaping) : t.chars = [] := by
  rw [h.chars, symbols_eq_nil.1 h.children, List.flatMap_nil]

end Expands

namespace Spelled

variable {g : FlatGrammar} {r : Rule} {i : Nat} {a : Auxiliaries} {t : ParseTree} {s : Symbol}
  {x : Terminal}

/-- A node covers what its children cover. -/
theorem chars_eq (h : t.Spelled g) (hproduction : t.label.production ≠ none) :
    t.chars = t.children.flatMap chars := by
  have hchildren : ∀ u ∈ t.children, u.Spelled g := fun u hu => h.of_occurs (occurs_child hu)
  obtain ⟨l, children⟩ := t
  have hleaves : (node l children).leaves = leavesAll children := leaves_node hproduction _
  rw [h.text _ .root, hleaves]
  exact (flatMap_chars hchildren).symm

/-- **The nodes of a rule** that is realized are expanded by it. -/
theorem exists_expands (hr : g.Realizes r i a) (h : t.Spelled g)
    (hsymbol : t.label.symbol = .nonterminal r.target) :
    ∃ d ∈ r.drafts i a, d.sides.left = r.target ∧
      t.Expands g r d.sides.bare.right d.shaping := by
  obtain ⟨q, hq, hproduction, hleft, hchildren, -⟩ := h.full.of_nonterminal hsymbol
  obtain ⟨d, hd, hsides, hshaping⟩ := hr.made q hq hleft
  obtain ⟨hleft', hright⟩ := Sides.mk.inj hsides
  refine ⟨d, hd, hleft'.trans hleft, ?_, ?_, ?_, ?_, ?_⟩
  · rw [Label.rule, hproduction]
    exact hr.rule q hq hleft
  · rw [hchildren, ← hright]
    rfl
  · exact fun u hu => h.of_occurs (occurs_child hu)
  · exact h.chars_eq (by rw [hproduction]; exact Option.some_ne_none q)
  · rw [children_shape hproduction, hshaping]

section

variable (hr : g.Realizes r i a) (h : t.Spelled g)
  (hsymbol : t.label.symbol = .nonterminal r.target) (hvisible : .terminal .epsilon ∉ r.children)

include hr h hsymbol hvisible

/-- A sequence is expanded into all of its children. -/
theorem of_sequence (hkind : r.kind = .sequence) : t.Expands g r r.children .keep := by
  obtain ⟨d, hd, -, hexpands⟩ := h.exists_expands hr hsymbol
  rw [Rule.drafts, hkind] at hd
  obtain rfl := List.mem_singleton.1 hd
  rwa [Sides.bare_eq hvisible] at hexpands

/-- A choice is expanded into one of its children. -/
theorem of_choice (hkind : r.kind = .choice) : ∃ c ∈ r.children, t.Expands g r [c] .keep := by
  obtain ⟨d, hd, -, hexpands⟩ := h.exists_expands hr hsymbol
  rw [Rule.drafts, hkind] at hd
  obtain ⟨⟨c, n⟩, hc, rfl⟩ := List.mem_map.1 hd
  have hmem : c ∈ r.children := List.fst_mem_of_mem_zipIdx hc
  refine ⟨c, hmem, ?_⟩
  have hbare : .terminal .epsilon ∉ [c] := by
    rw [List.mem_singleton]
    rintro rfl
    exact hvisible hmem
  rwa [Sides.bare_eq hbare] at hexpands

theorem of_optional (hkind : r.kind = .optional) (hchildren : r.children = [s]) :
    t.Expands g r [s] .keep ∨ t.Expands g r [] .keep := by
  obtain ⟨d, hd, -, hexpands⟩ := h.exists_expands hr hsymbol
  rw [hchildren] at hvisible
  rw [Rule.drafts, hkind, hchildren] at hd
  rcases List.mem_pair.1 hd with rfl | rfl
  · rw [Sides.bare_eq hvisible] at hexpands
    exact .inl hexpands
  · exact .inr hexpands

theorem of_star (hkind : r.kind = .star) (hchildren : r.children = [s]) :
    t.Expands g r [s, .nonterminal r.target] .entryAndTail ∨ t.Expands g r [] .keep := by
  obtain ⟨d, hd, -, hexpands⟩ := h.exists_expands hr hsymbol
  rw [hchildren] at hvisible
  rw [Rule.drafts, hkind, hchildren] at hd
  rcases List.mem_pair.1 hd with rfl | rfl
  · rw [Sides.bare_eq (by simpa [Draft.more] using hvisible)] at hexpands
    exact .inl hexpands
  · exact .inr hexpands

theorem of_plus (hkind : r.kind = .plus) (hchildren : r.children = [s]) :
    t.Expands g r [s, .nonterminal r.target] .entryAndTail ∨ t.Expands g r [s] .keep := by
  obtain ⟨d, hd, -, hexpands⟩ := h.exists_expands hr hsymbol
  rw [hchildren] at hvisible
  rw [Rule.drafts, hkind, hchildren] at hd
  rcases List.mem_pair.1 hd with rfl | rfl
  · rw [Sides.bare_eq (by simpa [Draft.more] using hvisible)] at hexpands
    exact .inl hexpands
  · rw [Sides.bare_eq hvisible] at hexpands
    exact .inr hexpands

end

/-- **A run of a terminal** covers pieces that the terminal writes. -/
theorem exists_pieces_of_star (hr : g.Realizes r i a) (hkind : r.kind = .star)
    (hchildren : r.children = [.terminal x]) (hx : x ≠ .epsilon) (h : t.Spelled g)
    (hsymbol : t.label.symbol = .nonterminal r.target) :
    ∃ pieces : List (List Char), t.chars = pieces.flatten ∧ ∀ p ∈ pieces, x.Writes p := by
  have hvisible : .terminal .epsilon ∉ r.children := by simpa [hchildren] using hx.symm
  induction t using induction_on_children with
  | h l children ih =>
    rcases h.of_star hr hsymbol hvisible hkind hchildren with hexpands | hexpands
    · obtain ⟨first, tail, hpair, ⟨hfirst, hx'⟩, ⟨htail, hsymbol'⟩, hchars⟩ := hexpands.pair
      obtain rfl : children = [first, tail] := hpair
      obtain ⟨pieces, htext, hpieces⟩ := ih tail (by simp) htail hsymbol'
      exact ⟨first.chars :: pieces, by rw [hchars, htext, List.flatten_cons],
        List.forall_mem_cons.2 ⟨hfirst.writes hx', hpieces⟩⟩
    · exact ⟨[], hexpands.chars_nil, List.forall_mem_nil _⟩

/-- The same of a run that is not empty. -/
theorem exists_pieces_of_plus (hr : g.Realizes r i a) (hkind : r.kind = .plus)
    (hchildren : r.children = [.terminal x]) (hx : x ≠ .epsilon) (h : t.Spelled g)
    (hsymbol : t.label.symbol = .nonterminal r.target) :
    ∃ pieces : List (List Char), pieces ≠ [] ∧ t.chars = pieces.flatten ∧
      ∀ p ∈ pieces, x.Writes p := by
  have hvisible : .terminal .epsilon ∉ r.children := by simpa [hchildren] using hx.symm
  induction t using induction_on_children with
  | h l children ih =>
    rcases h.of_plus hr hsymbol hvisible hkind hchildren with hexpands | hexpands
    · obtain ⟨first, tail, hpair, ⟨hfirst, hx'⟩, ⟨htail, hsymbol'⟩, hchars⟩ := hexpands.pair
      obtain rfl : children = [first, tail] := hpair
      obtain ⟨pieces, -, htext, hpieces⟩ := ih tail (by simp) htail hsymbol'
      exact ⟨first.chars :: pieces, nofun, by rw [hchars, htext, List.flatten_cons],
        List.forall_mem_cons.2 ⟨hfirst.writes hx', hpieces⟩⟩
    · obtain ⟨last, -, hlast, hx', hchars⟩ := hexpands.singleton
      exact ⟨[last.chars], nofun, by rw [hchars]; simp,
        List.forall_mem_singleton.2 (hlast.writes hx')⟩

end Spelled

end ParseTree

end Typeahead
