import Typeahead.Proofs.Grammar.Lots
import Typeahead.Proofs.ParseTree.Tagged
import Typeahead.Proofs.ParseTree.Unfolded

/-!
# Proofs/ParseTree/EntryNames — the names of the entries of a join

The index of an entry is handed down from node to node: the tail counts its entries, the rest counts
those in front of its tail, and every `next` names its entry by the number it got.  So the names
follow from what the tail counts (`Full.range_of_tail`), and that is from where the tail starts:
from zero, unless it goes on another tail.

A join that needs at least two entries and may have any number of them puts the entries it needs in
front of the tail, which starts from zero again.  The entries behind these are named as those from
the second one on (`Count.place`, `Full.exists_named`).
-/

namespace Typeahead

open ParseTree (tags symbols symbols_eq_cons symbols_eq_nil symbols_eq_singleton symbols_eq_pair
  children_shape)

/-- What a join is made of in the finished tree: brackets and delimiters may have been dropped. -/
def Join.shown (j : Join) : Join := if j.entriesOnly then {} else j

/-- **The place by which an entry is named.**  This is its index, unless there are entries needed
before it and any number admitted. -/
def Count.place (c : Count) (i : Nat) : Nat :=
  if c.upper = limit ∧ 1 < c.lower ∧ c.lower ≤ i then i - c.lower + 1 else i

theorem Count.place_eq {c : Count} {i : Nat} (h : c.upper = limit → 1 < c.lower → i < c.lower) :
    c.place i = i :=
  if_neg fun ⟨hlimit, hlower, hle⟩ => Nat.not_lt.2 hle (h hlimit hlower)

theorem Count.place_add {c : Count} (hlimit : c.upper = limit) (hlower : 1 < c.lower) (i : Nat) :
    c.place (c.lower + i) = i + 1 := by
  rw [place, if_pos ⟨hlimit, hlower, Nat.le_add_right ..⟩, Nat.add_sub_cancel_left]

/-- Counting on behind the first entry. -/
theorem Count.map_place_range {c : Count} (h : c.upper = limit → c.lower ≤ 1) (n : Nat) :
    (List.range (n + 1)).map c.place = 0 :: (List.range n).map (· + 1) := by
  rw [← List.range_succ_eq_map]
  refine (List.map_congr_left fun i _ => place_eq fun hlimit hlower => ?_).trans (List.map_id' _)
  exact absurd hlower (Nat.not_lt.2 (h hlimit))

/-- Counting anew behind the entries that there have to be. -/
theorem Count.map_place_range_add {c : Count} (hlimit : c.upper = limit) (hlower : 1 < c.lower)
    (m : Nat) : (List.range (c.lower + m)).map c.place =
      0 :: (List.range (c.lower - 1) ++ List.range m).map (· + 1) := by
  have hfirst : (List.range c.lower).map c.place = 0 :: (List.range (c.lower - 1)).map (· + 1) := by
    rw [← List.range_succ_eq_map, Nat.sub_add_cancel hlower.le]
    refine (List.map_congr_left fun i hi => place_eq fun _ _ => ?_).trans (List.map_id' _)
    exact List.mem_range.1 hi
  rw [List.range_add, List.map_append, hfirst, List.map_map, List.map_append, List.cons_append]
  simp only [Function.comp_def, place_add hlimit hlower]

/-- The names at the roots of several trees. -/
def ParseTree.names (ts : List ParseTree) : List (Option String) := ts.map (·.label.tag.name)

/-- The numbers at the roots of several trees. -/
def ParseTree.numbers (ts : List ParseTree) : List Nat := ts.map (·.label.tag.nth)

open ParseTree (numbers)

variable {g : FlatGrammar} {j : Join} {rule : Nat} {a : Auxiliaries} {target x : String}
  {entry : Symbol} {names : ChildNames} {own : List String} {parentRule : Option Nat}
  {t : ParseTree} {nexts : List ParseTree}

/-- **A node is made by a draft** of the join. -/
theorem FlatGrammar.Draws.exists_draft (h : g.Draws j rule target entry names a own) (ht : t.Full g)
    (hsymbol : t.label.symbol = .nonterminal x) (hx : x ∈ own) :
    ∃ d ∈ j.drafts rule target entry names a, d.sides.left = x ∧
      t.label.production = some d.production ∧ ParseTree.symbols t.children = d.sides.right ∧
      (∀ u ∈ t.children, u.Full g) ∧ ∀ y ∈ a.names, .nonterminal y ∈ d.sides.right → y ∈ own := by
  obtain ⟨p, hp, hproduction, hleft, hchildren, hfull⟩ := ht.of_nonterminal hsymbol
  obtain ⟨d, hd, hbare, rfl⟩ := h.drawn p hp (hleft ▸ hx)
  have hright : d.production.right = d.sides.right := congrArg Sides.right hbare
  have hclosed := h.closed _ hp (hleft ▸ hx)
  rw [hright] at hchildren hclosed
  exact ⟨d, hd, hleft, hproduction, hchildren, hfull, hclosed⟩

namespace ParseTree

/-- **A node for an entry behind its delimiter**, in a tagged tree. -/
structure AtNext (g : FlatGrammar) (a : Auxiliaries) (own : List String) (t : ParseTree) : Prop where
  full : t.Full g
  tagged : ∃ parentRule, t.Tagged parentRule
  symbol : t.label.symbol = .nonterminal a.next
  own : a.next ∈ own

/-- **An entry is named by the number of its `next`.** -/
theorem AtNext.exists_entry (h : g.Draws j rule target entry names a own) (ht : AtNext g a own t) :
    ∃ before e, t.shape.1.children = before ++ [e] ∧ symbols before = j.shown.delimiter.toList ∧
      e.label.symbol = entry ∧ e.label.tag.name = names.nameAt (t.label.tag.nth + 1) := by
  obtain ⟨parentRule, htagged⟩ := ht.tagged
  obtain ⟨d, hd, hleft, hproduction, hchildren, -⟩ := h.exists_draft ht.full ht.symbol ht.own
  obtain rfl := Join.eq_nextDraft hd h.nodup hleft
  rw [children_shape hproduction]
  unfold Join.nextDraft at hproduction hchildren ⊢
  rcases hdelimiter : j.delimiter with _ | delimiter <;>
    simp only [hdelimiter] at hproduction hchildren ⊢
  · obtain ⟨e, heq, he⟩ := symbols_eq_singleton.1 hchildren
    have htags := htagged.tags_eq hproduction heq rfl rfl
    rw [heq]
    refine ⟨[], e.shape.1, rfl, ?_, ?_, ?_⟩
    · rw [Join.shown]
      split <;> simp [hdelimiter, symbols]
    · rw [label_shape, he]
    · rw [label_shape]
      exact congrArg Tag.name (List.singleton_inj.1 htags)
  · obtain ⟨d, e, heq, hd, he⟩ := symbols_eq_pair.1 hchildren
    have htags := htagged.tags_eq hproduction heq rfl rfl
    rw [heq]
    have hname : e.shape.1.label.tag.name = names.nameAt (t.label.tag.nth + 1) := by
      rw [label_shape]
      exact congrArg Tag.name (List.singleton_inj.1 (List.cons.inj htags).2)
    rcases hentries : j.entriesOnly
    · refine ⟨[d.shape.1], e.shape.1, rfl, ?_, by rw [label_shape, he], hname⟩
      simp [Join.shown, hentries, hdelimiter, symbols, label_shape, hd]
    · refine ⟨[], e.shape.1, rfl, ?_, by rw [label_shape, he], hname⟩
      simp [Join.shown, hentries, symbols]

/-- **Entries behind their delimiters.** -/
theorem exists_follows_named (h : g.Draws j rule target entry names a own)
    (hnexts : ∀ n ∈ nexts, AtNext g a own n) :
    ∃ entries, j.shown.Follows entry ((nexts.map (·.shape.1)).flatMap (·.children)) entries ∧
      ParseTree.names entries = (numbers nexts).map fun i => names.nameAt (i + 1) := by
  induction nexts with
  | nil => exact ⟨[], .nil, rfl⟩
  | cons n nexts ih =>
    obtain ⟨hn, hnexts⟩ := List.forall_mem_cons.1 hnexts
    obtain ⟨before, e, hchildren, hbefore, he, hname⟩ := hn.exists_entry h
    obtain ⟨entries, hfollows, hnames⟩ := ih hnexts
    refine ⟨e :: entries, ?_, ?_⟩
    · rw [List.map_cons, List.flatMap_cons, hchildren, List.append_assoc, List.singleton_append]
      exact .cons hbefore he hfollows
    · change e.label.tag.name :: ParseTree.names entries = _
      rw [hname, hnames]
      rfl

/-! ## The tail -/

/-- The tail has the rule after that of the join. -/
theorem ruleIndex_of_tail (h : g.Draws j rule target entry names a own) (ht : t.Full g)
    (hsymbol : t.label.symbol = .nonterminal a.tail) (hown : a.tail ∈ own) :
    t.label.ruleIndex = some (rule + 1) := by
  obtain ⟨d, hd, hleft, hproduction, -⟩ := h.exists_draft ht hsymbol hown
  rw [Label.ruleIndex, hproduction]
  have hasks := Join.asks_of_left hd h.nodup (by simp [hleft])
  rcases hasks.of_tail h.nodup.of_cons hleft with ⟨-, rfl | rfl⟩ | ⟨-, n, -, -, rfl⟩ <;> rfl

/-- A tail counts on from a tail above it. -/
theorem entryIndex_of_tail (h : g.Draws j rule target entry names a own) (ht : t.Full g)
    (hsymbol : t.label.symbol = .nonterminal a.tail) (hown : a.tail ∈ own) :
    t.label.entryIndex parentRule = if parentRule = some (rule + 1) then t.label.tag.nth else 0 := by
  rw [Label.entryIndex, Label.continues, ruleIndex_of_tail h ht hsymbol hown]
  simp [eq_comm]

/-- Positions number the nodes. -/
theorem numbers_of_positions {ts : List ParseTree} {n : Nat} {f : Nat → Tag}
    (h : tags ts = (List.range n).map f) (hf : ∀ i, (f i).nth = i) : numbers ts = List.range n := by
  have hmap : numbers ts = (tags ts).map (·.nth) := List.map_map.symm
  rw [hmap, h, List.map_map]
  exact (List.map_congr_left fun i _ => hf i).trans (List.map_id _)

/-- A tail of copies numbers them by their position. -/
theorem exists_numbered_of_copies (h : g.Draws j rule target entry names a own) (ht : t.Full g)
    (htagged : t.Tagged parentRule) (hsymbol : t.label.symbol = .nonterminal a.tail)
    (hown : a.tail ∈ own) (hlimit : j.count.upper ≠ Count.limit) :
    ∃ nexts, (∀ n ∈ nexts, AtNext g a own n) ∧ j.count.Admits (nexts.length + 1) ∧
      t.shape.1.children = nexts.map (·.shape.1) ∧ numbers nexts = List.range nexts.length := by
  obtain ⟨d, hd, hleft, hproduction, hchildren, hfull, hclosed⟩ := h.exists_draft ht hsymbol hown
  have hasks := Join.asks_of_left hd h.nodup (by simp [hleft])
  obtain ⟨-, n, hleast, hmost, rfl⟩ :=
    (hasks.of_tail h.nodup.of_cons hleft).resolve_left fun h => hlimit h.1
  obtain ⟨hlength, hnexts⟩ := List.eq_replicate_iff.1 hchildren
  rw [symbols, List.length_map] at hlength
  refine ⟨t.children, fun u hu => ?_, ?_, children_shape hproduction, ?_⟩
  · have hnext := hnexts _ (List.mem_map_of_mem hu)
    refine ⟨hfull u hu, ⟨_, htagged.of_mem_children hu⟩, hnext, hclosed _ (by simp) ?_⟩
    rw [← hchildren, ← hnext]
    exact List.mem_map_of_mem hu
  · rw [hlength]
    exact ⟨hleast, .inr hmost⟩
  · exact numbers_of_positions (htagged.tags_eq hproduction rfl rfl (by simp)) fun _ => rfl

/-- **A tail of any number of entries** numbers them from where it starts. -/
theorem exists_numbered_of_star (h : g.Draws j rule target entry names a own) (ht : t.Full g)
    (htagged : t.Tagged parentRule) (hsymbol : t.label.symbol = .nonterminal a.tail)
    (hown : a.tail ∈ own) (hlimit : j.count.upper = Count.limit) :
    ∃ nexts, (∀ n ∈ nexts, AtNext g a own n) ∧
      t.shape.1.children = nexts.map (·.shape.1) ∧
      numbers nexts = List.range' (t.label.entryIndex parentRule) nexts.length := by
  induction ht generalizing parentRule with
  | leaf _ hterminal => cases hterminal.symm.trans hsymbol
  | @node l p children hp hproduction hleft hchildren hfull ih =>
    have ht : Full g (.node l children) := .node hp hproduction hleft hchildren hfull
    have hindex := ruleIndex_of_tail h ht hsymbol hown
    obtain ⟨d, hd, hleft, hproduction, hchildren, -, hclosed⟩ := h.exists_draft ht hsymbol hown
    have hasks := Join.asks_of_left hd h.nodup (by simp [hleft])
    rw [children_shape hproduction]
    obtain ⟨-, rfl | rfl⟩ :=
      (hasks.of_tail h.nodup.of_cons hleft).resolve_right fun h => h.1 hlimit
    · obtain ⟨next, tail, rfl, hnext, htail⟩ := symbols_eq_pair.1 hchildren
      have hmem : ∀ u ∈ [next, tail], u.Tagged (some (rule + 1)) :=
        fun u hu => hindex ▸ htagged.of_mem_children hu
      obtain ⟨hnext', htail'⟩ := List.cons.inj (htagged.tags_eq hproduction rfl rfl rfl)
      obtain ⟨nexts, hnexts, hfinished, hnumbers⟩ :=
        ih tail (by simp) (hmem tail (by simp)) htail
      -- the tail below continues this one
      rw [entryIndex_of_tail h (hfull tail (by simp)) htail hown, if_pos rfl,
        congrArg Tag.nth (List.singleton_inj.1 htail')] at hnumbers
      refine ⟨next :: nexts, List.forall_mem_cons.2 ⟨?_, hnexts⟩, ?_, ?_⟩
      · exact ⟨hfull next (by simp), ⟨_, hmem next (by simp)⟩, hnext,
          hclosed _ (by simp) (by simp [Draft.more])⟩
      · rw [List.map_cons, ← hfinished]
        rfl
      · rw [List.length_cons, List.range'_succ]
        exact congrArg₂ List.cons (congrArg Tag.nth hnext') hnumbers
    · obtain rfl := symbols_eq_nil.1 hchildren
      exact ⟨[], by simp, rfl, rfl⟩

/-- **The tail of a join** numbers its entries from zero. -/
theorem exists_numbered_of_tail (h : g.Draws j rule target entry names a own) (ht : t.Full g)
    (htagged : t.Tagged (some rule)) (hsymbol : t.label.symbol = .nonterminal a.tail)
    (hown : a.tail ∈ own) :
    ∃ nexts, (∀ n ∈ nexts, AtNext g a own n) ∧ j.TailAdmits nexts.length ∧
      t.shape.1.children = nexts.map (·.shape.1) ∧ numbers nexts = List.range nexts.length := by
  by_cases hlimit : j.count.upper = Count.limit
  · obtain ⟨nexts, hnexts, hfinished, hnumbers⟩ :=
      exists_numbered_of_star h ht htagged hsymbol hown hlimit
    refine ⟨nexts, hnexts, .inl hlimit, hfinished, ?_⟩
    rw [hnumbers, entryIndex_of_tail h ht hsymbol hown, if_neg (by simp), List.range_eq_range']
  · obtain ⟨nexts, hnexts, hadmits, hfinished, hnumbers⟩ :=
      exists_numbered_of_copies h ht htagged hsymbol hown hlimit
    exact ⟨nexts, hnexts, .inr hadmits, hfinished, hnumbers⟩

/-- **The rest of a join** numbers the entries there have to be, and those of its tail from zero
again. -/
theorem exists_numbered_of_rest (h : g.Draws j rule target entry names a own) (ht : t.Full g)
    (htagged : t.Tagged parentRule) (hsymbol : t.label.symbol = .nonterminal a.rest)
    (hown : a.rest ∈ own) :
    ∃ nexts, (∀ n ∈ nexts, AtNext g a own n) ∧ t.shape.1.children = nexts.map (·.shape.1) ∧
      ∃ m, numbers nexts = List.range (j.count.lower - 1) ++ List.range m := by
  obtain ⟨d, hd, hleft, hproduction, hchildren, hfull, hclosed⟩ := h.exists_draft ht hsymbol hown
  have hasks := Join.asks_of_left hd h.nodup (by simp [hleft])
  obtain ⟨-, -, rfl⟩ := hasks.of_rest h.nodup.of_cons hleft
  obtain ⟨copies, us, heq, hcopies, hus⟩ := List.map_eq_append_iff.1 hchildren
  obtain ⟨tail, rfl, htail⟩ := symbols_eq_singleton.1 hus
  obtain ⟨hlength, hcopies⟩ := List.eq_replicate_iff.1 hcopies
  rw [List.length_map] at hlength
  have htailOwn : a.tail ∈ own := hclosed _ (by simp) (by simp [Auxiliaries.spreadDraft])
  have hindex : t.label.ruleIndex = some rule := by
    rw [Label.ruleIndex, hproduction]
    rfl
  have hmem : ∀ u ∈ t.children, u.Tagged (some rule) :=
    fun u hu => hindex ▸ htagged.of_mem_children hu
  obtain ⟨more, hmore, -, hfinished, hnumbers⟩ := exists_numbered_of_tail h
    (hfull tail (heq ▸ by simp)) (hmem tail (heq ▸ by simp)) htail htailOwn
  refine ⟨copies ++ more, List.forall_mem_append.2 ⟨fun u hu => ?_, hmore⟩, ?_, more.length, ?_⟩
  · have hu' : u ∈ t.children := heq ▸ List.mem_append_left _ hu
    have hnext := hcopies _ (List.mem_map_of_mem hu)
    refine ⟨hfull u hu', ⟨_, hmem u hu'⟩, hnext, hclosed _ (by simp) ?_⟩
    rw [← hchildren, ← hnext]
    exact List.mem_map_of_mem hu'
  · rw [children_shape hproduction, heq, List.map_append, List.map_append, ← hfinished]
    simp [Draft.production, Auxiliaries.spreadDraft, Shaping.split]
  · have hnumbers' : numbers t.children = List.range (j.count.lower - 1 + 1) := by
      rw [← hlength, ← List.length_singleton (a := tail), ← List.length_append, ← heq]
      exact numbers_of_positions (htagged.tags_eq hproduction rfl rfl (by simp)) fun _ => rfl
    rw [heq, List.range_succ, numbers, List.map_append] at hnumbers'
    rw [numbers, List.map_append, List.append_inj_left' hnumbers' rfl]
    exact congrArg _ hnumbers

/-! ## All entries -/

/-- An entry that stands alone is the first one. -/
theorem exists_lines_alone
    (hproduction : t.label.production = some (Draft.alone rule a.repetition entry names).production)
    (htagged : t.Tagged parentRule) {e : ParseTree} (hchildren : t.children = [e])
    (he : e.label.symbol = entry) :
    ∃ shown, j.shown.Lines entry t.shape.1.children [shown] ∧
      shown.label.tag.name = names.nameAt 0 := by
  refine ⟨e.shape.1, ?_, ?_⟩
  · rw [children_shape hproduction, hchildren]
    exact .cons (by rw [label_shape, he]) .nil
  · rw [label_shape]
    have htags := htagged.tags_eq hproduction hchildren rfl rfl
    exact congrArg Tag.name (List.singleton_inj.1 htags)

/-- The first entry and those behind it, by the numbers of these. -/
theorem exists_lines_named (h : g.Draws j rule target entry names a own) {word : String}
    (hproduction : t.label.production =
      some (Draft.headed rule a.repetition entry names x word).production)
    (htagged : t.Tagged parentRule) {e rest : ParseTree} (hchildren : t.children = [e, rest])
    (he : e.label.symbol = entry) (hnexts : ∀ n ∈ nexts, AtNext g a own n)
    (hfinished : rest.shape.1.children = nexts.map (·.shape.1)) :
    ∃ entries, j.shown.Lines entry t.shape.1.children entries ∧
      entries.length = nexts.length + 1 ∧
      ParseTree.names entries = (0 :: (numbers nexts).map (· + 1)).map names.nameAt := by
  obtain ⟨entries, hfollows, hnames⟩ := exists_follows_named h hnexts
  have htags := htagged.tags_eq hproduction hchildren rfl rfl
  refine ⟨e.shape.1 :: entries, ?_, ?_, ?_⟩
  · rw [children_shape hproduction, hchildren]
    change j.shown.Lines entry (e.shape.1 :: rest.shape.1.children.flatMap (·.children)) _
    rw [hfinished]
    exact .cons (by rw [label_shape, he]) hfollows
  · simpa [ParseTree.names, numbers] using congrArg List.length hnames
  · rw [List.map_cons, List.map_map]
    have hname : e.shape.1.label.tag.name = names.nameAt 0 := by
      rw [label_shape]
      exact congrArg Tag.name (List.cons.inj htags).1
    exact congrArg₂ List.cons hname hnames

/-- **The part of a join between its brackets** names its entries by their places. -/
theorem exists_named_of_repetition (h : g.Draws j rule target entry names a own)
    (hcount : j.count.lower ≤ j.count.upper) (ht : t.Full g) (htagged : t.Tagged parentRule)
    (hsymbol : t.label.symbol = .nonterminal a.repetition) (hown : a.repetition ∈ own) :
    ∃ entries, j.shown.Lines entry t.shape.1.children entries ∧ j.count.Admits entries.length ∧
      ParseTree.names entries =
        (List.range entries.length).map fun i => names.nameAt (j.count.place i) := by
  obtain ⟨d, hd, hleft, hproduction, hchildren, hfull, hclosed⟩ := h.exists_draft ht hsymbol hown
  have hasks := Join.asks_of_left hd h.nodup (by simp [hleft])
  rcases hasks.of_repetition h.nodup.of_cons hleft with
    ⟨hlower, rfl⟩ | ⟨hupper, rfl⟩ | ⟨hupper, hlower, rfl⟩ | ⟨hlimit, hlower, rfl⟩
  · have heq := symbols_eq_nil.1 hchildren
    refine ⟨[], ?_, ⟨hlower.le, .inr (Nat.zero_le _)⟩, rfl⟩
    rw [children_shape hproduction, heq]
    exact .nil
  · obtain ⟨e, heq, he⟩ := symbols_eq_singleton.1 hchildren
    obtain ⟨shown, hlines, hname⟩ := exists_lines_alone (j := j) hproduction htagged heq he
    have hplace : j.count.place 0 = 0 := Count.place_eq fun _ hlower => Nat.zero_lt_of_lt hlower
    refine ⟨[shown], hlines, ⟨by simpa [hupper] using hcount, .inr hupper.ge⟩, ?_⟩
    simp [ParseTree.names, hname, hplace]
  · obtain ⟨e, rest, heq, he, hrest⟩ := symbols_eq_pair.1 hchildren
    have hmem : rest ∈ t.children := heq ▸ by simp
    have htagged' : rest.Tagged (some rule) := by
      have htagged' := htagged.of_mem_children hmem
      rwa [Label.ruleIndex, hproduction] at htagged'
    obtain ⟨nexts, hnexts, hadmits, hfinished, hnumbers⟩ := exists_numbered_of_tail h
      (hfull rest hmem) htagged' hrest (hclosed _ (by simp) (by simp [Draft.headed]))
    obtain ⟨entries, hlines, hlength, hnames⟩ :=
      exists_lines_named h hproduction htagged heq he hnexts hfinished
    refine ⟨entries, hlines, hlength ▸ hadmits.admits hlower, ?_⟩
    rw [hnames, hnumbers, ← Count.map_place_range hlower, hlength, List.map_map]
    rfl
  · obtain ⟨e, rest, heq, he, hrest⟩ := symbols_eq_pair.1 hchildren
    have hmem : rest ∈ t.children := heq ▸ by simp
    obtain ⟨nexts, hnexts, hfinished, m, hnumbers⟩ := exists_numbered_of_rest h
      (hfull rest hmem) (htagged.of_mem_children hmem) hrest
      (hclosed _ (by simp) (by simp [Draft.headed]))
    obtain ⟨entries, hlines, hlength, hnames⟩ :=
      exists_lines_named h hproduction htagged heq he hnexts hfinished
    have hlength' : nexts.length = j.count.lower - 1 + m := by
      simpa [numbers] using congrArg List.length hnumbers
    have hplaces : entries.length = j.count.lower + m := by omega
    refine ⟨entries, hlines, ⟨by omega, .inl hlimit⟩, ?_⟩
    rw [hnames, hnumbers, ← Count.map_place_range_add hlimit hlower, hplaces, List.map_map]
    rfl

/-- **The entries of a join are named by their places**, whatever is kept besides them. -/
theorem exists_named (h : g.Draws j rule target entry names a own)
    (hbalanced : j.opening.isSome = j.closing.isSome) (hcount : j.count.lower ≤ j.count.upper)
    (ht : t.Full g) (htagged : t.Tagged parentRule) (hsymbol : t.label.symbol = .nonterminal target)
    (hown : target ∈ own) :
    ∃ entries, j.shown.Spells entry t.shape.1.children entries ∧ j.count.Admits entries.length ∧
      ParseTree.names entries =
        (List.range entries.length).map fun i => names.nameAt (j.count.place i) := by
  obtain ⟨d, hd, hleft, hproduction, hchildren, hfull, hclosed⟩ := h.exists_draft ht hsymbol hown
  obtain rfl := Join.eq_wholeDraft hd h.nodup hleft
  rw [children_shape hproduction]
  unfold Join.wholeDraft at hproduction hchildren hclosed ⊢
  rcases hopening : j.opening with _ | opening <;> rcases hclosing : j.closing with _ | closing <;>
    simp only [hopening, hclosing] at hproduction hchildren hclosed ⊢
  · obtain ⟨m, heq, hm⟩ := symbols_eq_singleton.1 hchildren
    have hmem : m ∈ t.children := heq ▸ by simp
    obtain ⟨entries, hlines, hadmits, hnames⟩ := exists_named_of_repetition h hcount
      (hfull m hmem) (htagged.of_mem_children hmem) hm (hclosed _ (by simp) (by simp))
    refine ⟨entries, ⟨[], m.shape.1.children, [], ?_, ?_, hlines, ?_⟩, hadmits, hnames⟩
    · rw [heq, List.append_nil]
      rfl
    · rw [Join.shown]
      split <;> simp [hopening, symbols]
    · rw [Join.shown]
      split <;> simp [hclosing, symbols]
  · simp [hopening, hclosing] at hbalanced
  · simp [hopening, hclosing] at hbalanced
  · obtain ⟨o, us, heq, ho, hus⟩ := symbols_eq_cons.1 hchildren
    obtain ⟨m, c, rfl, hm, hc⟩ := symbols_eq_pair.1 hus
    have hmem : m ∈ t.children := heq ▸ by simp
    obtain ⟨entries, hlines, hadmits, hnames⟩ := exists_named_of_repetition h hcount
      (hfull m hmem) (htagged.of_mem_children hmem) hm (hclosed _ (by simp) (by simp))
    refine ⟨entries, ?_, hadmits, hnames⟩
    rw [heq]
    rcases hkeep : j.entriesOnly
    · refine ⟨[o.shape.1], m.shape.1.children, [c.shape.1], rfl, ?_, hlines, ?_⟩ <;>
        simp [Join.shown, hkeep, hopening, hclosing, symbols, label_shape, ho, hc]
    · refine ⟨[], m.shape.1.children, [], (List.append_nil _).symm, ?_, hlines, ?_⟩ <;>
        simp [Join.shown, hkeep, symbols]

end ParseTree

end Typeahead
