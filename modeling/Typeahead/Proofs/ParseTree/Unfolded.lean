import Typeahead.Proofs.Grammar.Lowered
import Typeahead.Proofs.ParseTree.Finished

/-!
# Proofs/ParseTree/Unfolded — the entries below a repetition

A repetition is derived entry by entry, so its entries lie at different depths below tails and
auxiliary nodes.  Opening these nodes puts everything in one row (`ParseTree.Unfolds`), which spells
the entries with their delimiters and brackets (`Join.Spells`).

In the finished tree the node of the repetition has just the entries as its children.  This goes
from the inside to the outside: the tail (`Full.exists_items`), an entry behind its delimiter
(`Full.exists_next`), the part between the brackets (`Full.exists_lines`), the node itself
(`Full.exists_spells`).
-/

namespace Typeahead

namespace ParseTree

/-! ## Opening nodes -/

/-- **A node is opened**: a node of an inner nonterminal gives way to its children. -/
inductive Opens (inner : String → Prop) : List ParseTree → List ParseTree → Prop
  | intro {l : Label} {children : List ParseTree} {x : String} (hsymbol : l.symbol = .nonterminal x)
    (hx : inner x) (before after : List ParseTree) :
    Opens inner (before ++ .node l children :: after) (before ++ children ++ after)

/-- Any number of nodes are opened. -/
def Unfolds (inner : String → Prop) : List ParseTree → List ParseTree → Prop :=
  Relation.ReflTransGen (Opens inner)

variable {g : FlatGrammar} {inner : String → Prop} {ts us ts' us' row : List ParseTree}
  {t : ParseTree} {x : String}

theorem Opens.append (h : Opens inner ts us) (before after : List ParseTree) :
    Opens inner (before ++ ts ++ after) (before ++ us ++ after) := by
  obtain ⟨hsymbol, hx, before', after'⟩ := h
  simpa using Opens.intro hsymbol hx (before ++ before') (after' ++ after)

theorem Unfolds.append (h : Unfolds inner ts us) (h' : Unfolds inner ts' us') :
    Unfolds inner (ts ++ ts') (us ++ us') := by
  have hleft : Unfolds inner (ts ++ ts') (us ++ ts') :=
    h.lift (· ++ ts') fun a b hab => by simpa using hab.append [] ts'
  have hright : Unfolds inner (us ++ ts') (us ++ us') :=
    h'.lift (us ++ ·) fun a b hab => by simpa using hab.append us []
  exact hleft.trans hright

theorem Unfolds.cons (h : Unfolds inner ts us) : Unfolds inner (t :: ts) (t :: us) :=
  @Unfolds.append inner [t] [t] ts us .refl h

/-- To unfold a node, open it and unfold its children. -/
theorem Unfolds.of_children (hsymbol : t.label.symbol = .nonterminal x) (hx : inner x)
    (h : Unfolds inner t.children row) : Unfolds inner [t] row := by
  obtain ⟨l, children⟩ := t
  have hl : l.symbol = .nonterminal x := hsymbol
  have hopen : Opens inner ([] ++ .node l children :: []) ([] ++ children ++ []) :=
    .intro hl hx [] []
  rw [List.nil_append, List.append_nil] at hopen
  exact h.head hopen

/-- **Opening nodes loses no leaf** of a derivation tree. -/
theorem Unfolds.leavesAll_eq (h : Unfolds inner ts us) (hts : ∀ t ∈ ts, t.Full g) :
    (∀ u ∈ us, u.Full g) ∧ leavesAll us = leavesAll ts := by
  induction h with
  | refl => exact ⟨hts, rfl⟩
  | tail _ hstep ih =>
    obtain ⟨hfull, hleaves⟩ := ih
    obtain @⟨l, children, x, hsymbol, -, before, after⟩ := hstep
    obtain ⟨p, -, hproduction, -, -, hchildren⟩ :=
      (hfull (.node l children) (by simp)).of_nonterminal hsymbol
    have hnode : (node l children).leaves = leavesAll children :=
      leaves_node (by rw [show l.production = some p from hproduction]; nofun) children
    refine ⟨fun u hu => ?_, ?_⟩
    · simp only [List.mem_append] at hu
      rcases hu with (hu | hu) | hu
      · exact hfull u (by simp [hu])
      · exact hchildren u hu
      · exact hfull u (by simp [hu])
    · rw [← hleaves]
      simp [hnode]

end ParseTree

open ParseTree (symbols symbols_eq_cons symbols_eq_nil symbols_eq_singleton symbols_eq_pair Unfolds
  children_shape leavesAll)

/-! ## Entries in a row -/

/-- More entries of a join, each behind a delimiter if there is one. -/
inductive Join.Follows (j : Join) (entry : Symbol) : List ParseTree → List ParseTree → Prop
  | nil : Follows j entry [] []
  | cons {before row entries : List ParseTree} {t : ParseTree}
    (hbefore : symbols before = j.delimiter.toList) (ht : t.label.symbol = entry)
    (h : Follows j entry row entries) : Follows j entry (before ++ t :: row) (t :: entries)

/-- The entries of a join, the first of them without a delimiter. -/
inductive Join.Lines (j : Join) (entry : Symbol) : List ParseTree → List ParseTree → Prop
  | nil : Lines j entry [] []
  | cons {row entries : List ParseTree} {t : ParseTree} (ht : t.label.symbol = entry)
    (h : j.Follows entry row entries) : Lines j entry (t :: row) (t :: entries)

/-- **A row spells the entries of a join**: the brackets stand around them, and the delimiters
between them. -/
def Join.Spells (j : Join) (entry : Symbol) (row entries : List ParseTree) : Prop :=
  ∃ opening middle closing, row = opening ++ middle ++ closing ∧
    symbols opening = j.opening.toList ∧ j.Lines entry middle entries ∧
    symbols closing = j.closing.toList

/-- How a kind of rule joins its entries: all but a join without any symbols of their own. -/
def RuleKind.joins : RuleKind → Join
  | .join j => j
  | _ => {}

theorem Join.follows_plain {entry : Symbol} {ts : List ParseTree}
    (h : ∀ t ∈ ts, t.label.symbol = entry) : Join.Follows {} entry ts ts := by
  induction ts with
  | nil => exact .nil
  | cons t ts ih =>
    obtain ⟨ht, hts⟩ := List.forall_mem_cons.1 h
    exact @Join.Follows.cons {} entry [] ts ts t rfl ht (ih hts)

/-- Without brackets and delimiters a row is its entries. -/
theorem Join.spells_plain {entry : Symbol} {ts : List ParseTree}
    (h : ∀ t ∈ ts, t.label.symbol = entry) : Join.Spells {} entry ts ts := by
  refine ⟨[], ts, [], (List.append_nil ts).symm, rfl, ?_, rfl⟩
  cases ts with
  | nil => exact .nil
  | cons t ts =>
    obtain ⟨ht, hts⟩ := List.forall_mem_cons.1 h
    exact .cons ht (follows_plain hts)

/-! ## Repetitions -/

/-- **A repetition unfolds** to as many children as it admits, and is finished to these. -/
theorem ParseTree.Full.exists_items {g : FlatGrammar} {inner : String → Prop} {t : ParseTree}
    {x : String} {child : Symbol} {admits : Nat → Prop}
    (hforms : ∀ p ∈ g.productions, p.left = x →
      Sides.Iterates x child admits ⟨p.left, p.right⟩ p.shaping)
    (hx : inner x) (ht : t.Full g) (hsymbol : t.label.symbol = .nonterminal x) :
    ∃ items, Unfolds inner t.children items ∧ (∀ i ∈ items, i.Full g ∧ i.label.symbol = child ∧
        ∃ p ∈ g.productions, p.left = x ∧ child ∈ p.right) ∧
      admits items.length ∧ t.shape.1.children = items.map (·.shape.1) := by
  induction ht with
  | leaf _ hterminal => cases hterminal.symm.trans hsymbol
  | @node l p children hp hproduction hleft hchildren hfull ih =>
    have hx' : p.left = x := Symbol.nonterminal.inj (hleft.symm.trans hsymbol)
    have hshape := children_shape (t := .node l children) hproduction
    rw [hshape]
    rcases (hforms p hp hx').elim with ⟨hright, hshaping, hmore⟩ | ⟨n, hright, hshaping, hn⟩
    · obtain ⟨e, tail, rfl, he, htail⟩ := symbols_eq_pair.1 (hchildren.trans hright)
      obtain ⟨items, hunfolds, hitems, hadmits, hfinished⟩ := ih tail (by simp) htail
      have hchild : child ∈ p.right := by
        rw [← hchildren, ← he]
        exact List.mem_cons_self ..
      refine ⟨e :: items, ?_, List.forall_mem_cons.2
        ⟨⟨hfull e (by simp), he, p, hp, hx', hchild⟩, hitems⟩, hmore _ hadmits, ?_⟩
      · exact (hunfolds.of_children htail hx).cons
      · rw [hshaping, List.map_cons, ← hfinished]
        rfl
    · have hsymbols : symbols children = List.replicate n child := hchildren.trans hright
      obtain ⟨hlength, hitems⟩ := List.eq_replicate_iff.1 hsymbols
      rw [symbols, List.length_map] at hlength
      refine ⟨children, .refl, fun i hi => ?_, ?_, ?_⟩
      · have hchild := hitems _ (List.mem_map_of_mem hi)
        refine ⟨hfull i hi, hchild, p, hp, hx', ?_⟩
        rw [← hchildren, ← hchild]
        exact List.mem_map_of_mem hi
      · rwa [hlength]
      · rw [hshaping]
        rfl

/-! ## Joins -/

/-- Some nonterminals have the productions of a join. -/
structure FlatGrammar.Joins (g : FlatGrammar) (j : Join) (a : Auxiliaries) (target : String)
    (entry : Symbol) (own : List String) : Prop where
  nodup : (target :: a.names).Nodup
  form : ∀ p ∈ g.productions, p.left ∈ own → j.Form a target entry ⟨p.left, p.right⟩ p.shaping
  closed : ∀ p ∈ g.productions, p.left ∈ own → ∀ x ∈ a.names, .nonterminal x ∈ p.right → x ∈ own

namespace ParseTree.Full

variable {g : FlatGrammar} {j : Join} {a : Auxiliaries} {target : String} {entry : Symbol}
  {own : List String} {inner : String → Prop} {t : ParseTree} {nexts : List ParseTree}

/-- An entry behind its delimiter. -/
theorem exists_next (h : g.Joins j a target entry own) (hj : j.entriesOnly = true) (ht : t.Full g)
    (hsymbol : t.label.symbol = .nonterminal a.next) (hown : a.next ∈ own) :
    ∃ before e, t.children = before ++ [e] ∧ symbols before = j.delimiter.toList ∧
      e.label.symbol = entry ∧ t.shape.1.children = [e.shape.1] := by
  obtain ⟨p, hp, hproduction, hleft, hchildren, -⟩ := ht.of_nonterminal hsymbol
  rw [children_shape hproduction]
  rcases (h.form p hp (hleft ▸ hown)).of_next h.nodup hleft with
    ⟨delimiter, hdelimiter, hright, hshaping⟩ | ⟨hdelimiter, hright, hshaping⟩
  · obtain ⟨d, e, heq, hd, he⟩ := symbols_eq_pair.1 (hchildren.trans hright)
    refine ⟨[d], e, heq, ?_, he, ?_⟩
    · rw [hdelimiter, ← hd]
      rfl
    · rw [hshaping, if_pos hj, heq]
      rfl
  · obtain ⟨e, heq, he⟩ := symbols_eq_singleton.1 (hchildren.trans hright)
    refine ⟨[], e, heq, ?_, he, ?_⟩
    · rw [hdelimiter]
      rfl
    · rw [hshaping, heq]
      rfl

/-- A node for an entry behind its delimiter. -/
def IsNext (g : FlatGrammar) (a : Auxiliaries) (own : List String) (t : ParseTree) : Prop :=
  t.Full g ∧ t.label.symbol = .nonterminal a.next ∧ a.next ∈ own

/-- Entries behind their delimiters. -/
theorem exists_follows (h : g.Joins j a target entry own) (hj : j.entriesOnly = true)
    (hinner : ∀ x ∈ own, inner x) (hnexts : ∀ n ∈ nexts, IsNext g a own n) :
    ∃ row entries, Unfolds inner nexts row ∧ j.Follows entry row entries ∧
      entries.length = nexts.length ∧
      (nexts.map (·.shape.1)).flatMap (·.children) = entries.map (·.shape.1) := by
  induction nexts with
  | nil => exact ⟨[], [], .refl, .nil, rfl, rfl⟩
  | cons n nexts ih =>
    obtain ⟨⟨hfull, hsymbol, hown⟩, hnexts⟩ := List.forall_mem_cons.1 hnexts
    obtain ⟨before, e, hchildren, hbefore, he, hshape⟩ := hfull.exists_next h hj hsymbol hown
    obtain ⟨row, entries, hunfolds, hfollows, hlength, hfinished⟩ := ih hnexts
    refine ⟨before ++ e :: row, e :: entries, ?_, .cons hbefore he hfollows,
      congrArg (· + 1) hlength, ?_⟩
    · have hnext : Unfolds inner [n] (before ++ [e]) :=
        Unfolds.of_children hsymbol (hinner _ hown) (hchildren ▸ .refl)
      simpa using hnext.append hunfolds
    · rw [List.map_cons, List.flatMap_cons, hfinished, hshape]
      rfl

/-- **The tail of a join.** -/
theorem exists_nexts_of_tail (h : g.Joins j a target entry own) (hinner : ∀ x ∈ own, inner x)
    (ht : t.Full g) (hsymbol : t.label.symbol = .nonterminal a.tail) (hown : a.tail ∈ own) :
    ∃ nexts, Unfolds inner t.children nexts ∧ (∀ n ∈ nexts, IsNext g a own n) ∧
      j.TailAdmits nexts.length ∧ t.shape.1.children = nexts.map (·.shape.1) := by
  obtain ⟨nexts, hunfolds, hnexts, hadmits, hfinished⟩ := exists_items
    (fun p hp hleft => (h.form p hp (hleft ▸ hown)).of_tail h.nodup hleft) (hinner _ hown) ht
    hsymbol
  refine ⟨nexts, hunfolds, fun n hn => ?_, hadmits, hfinished⟩
  obtain ⟨hfull, hnext, p, hp, hleft, hright⟩ := hnexts n hn
  exact ⟨hfull, hnext, h.closed p hp (hleft ▸ hown) _ (by simp) hright⟩

/-- **The rest of a join** with a lower bound only. -/
theorem exists_nexts_of_rest (h : g.Joins j a target entry own) (hinner : ∀ x ∈ own, inner x)
    (ht : t.Full g) (hsymbol : t.label.symbol = .nonterminal a.rest) (hown : a.rest ∈ own) :
    ∃ nexts, Unfolds inner t.children nexts ∧ (∀ n ∈ nexts, IsNext g a own n) ∧
      j.count.lower - 1 ≤ nexts.length ∧ t.shape.1.children = nexts.map (·.shape.1) := by
  obtain ⟨p, hp, hproduction, hleft, hchildren, hfull⟩ := ht.of_nonterminal hsymbol
  obtain ⟨hright, hshaping⟩ := (h.form p hp (hleft ▸ hown)).of_rest h.nodup hleft
  have hclosed := h.closed p hp (hleft ▸ hown)
  obtain ⟨copies, us, heq, hcopies, hus⟩ := List.map_eq_append_iff.1 (hchildren.trans hright)
  obtain ⟨tail, rfl, htail⟩ := symbols_eq_singleton.1 hus
  have htailOwn : a.tail ∈ own := hclosed _ (by simp) (by rw [show p.right = _ from hright]; simp)
  obtain ⟨more, hunfolds, hmore, -, hfinished⟩ :=
    exists_nexts_of_tail h hinner (hfull tail (heq ▸ by simp)) htail htailOwn
  obtain ⟨hlength, hcopies⟩ := List.eq_replicate_iff.1 hcopies
  refine ⟨copies ++ more, ?_, fun n hn => ?_, ?_, ?_⟩
  · rw [heq]
    exact Unfolds.append .refl (hunfolds.of_children htail (hinner _ htailOwn))
  · rcases List.mem_append.1 hn with hn | hn
    · have hnext := hcopies _ (List.mem_map_of_mem hn)
      refine ⟨hfull n (heq ▸ List.mem_append_left _ hn), hnext, hclosed _ (by simp) ?_⟩
      rw [← hchildren, heq, ← hnext]
      exact List.mem_map_of_mem (List.mem_append_left _ hn)
    · exact hmore n hn
  · rw [List.length_append, ← hlength, List.length_map]
    exact Nat.le_add_right ..
  · rw [children_shape hproduction, hshaping, heq, List.map_append, List.map_append, ← hfinished]
    simp [Shaping.split]

/-- The first entry of a join, and those behind it. -/
theorem exists_lines_of_headed (h : g.Joins j a target entry own) (hj : j.entriesOnly = true)
    (hinner : ∀ x ∈ own, inner x) {p : Production} {e rest : ParseTree} {x : String}
    (hproduction : t.label.production = some p) (hshaping : p.shaping = .headed)
    (hchildren : t.children = [e, rest]) (he : e.label.symbol = entry)
    (hsymbol : rest.label.symbol = .nonterminal x) (hx : x ∈ own)
    (hunfolds : Unfolds inner rest.children nexts) (hnexts : ∀ n ∈ nexts, IsNext g a own n)
    (hfinished : rest.shape.1.children = nexts.map (·.shape.1)) :
    ∃ row entries, Unfolds inner t.children row ∧ j.Lines entry row entries ∧
      entries.length = nexts.length + 1 ∧ t.shape.1.children = entries.map (·.shape.1) := by
  obtain ⟨row, entries, hrow, hfollows, hlength, hflat⟩ := exists_follows h hj hinner hnexts
  refine ⟨e :: row, e :: entries, ?_, .cons he hfollows, congrArg (· + 1) hlength, ?_⟩
  · rw [hchildren]
    exact .cons ((hunfolds.of_children hsymbol (hinner x hx)).trans hrow)
  · rw [children_shape hproduction, hshaping, hchildren]
    change e.shape.1 :: rest.shape.1.children.flatMap (·.children) = _
    rw [hfinished, hflat, List.map_cons]

/-- **The part of a join between its brackets.** -/
theorem exists_lines (h : g.Joins j a target entry own) (hj : j.entriesOnly = true)
    (hinner : ∀ x ∈ own, inner x) (ht : t.Full g)
    (hsymbol : t.label.symbol = .nonterminal a.repetition) (hown : a.repetition ∈ own) :
    ∃ row entries, Unfolds inner t.children row ∧ j.Lines entry row entries ∧
      j.count.Admits entries.length ∧ t.shape.1.children = entries.map (·.shape.1) := by
  obtain ⟨p, hp, hproduction, hleft, hchildren, hfull⟩ := ht.of_nonterminal hsymbol
  have hclosed := h.closed p hp (hleft ▸ hown)
  rcases (h.form p hp (hleft ▸ hown)).of_repetition h.nodup hleft with
    ⟨hright, hshaping, hadmits⟩ | ⟨hright, hshaping, hadmits⟩ | ⟨hright, hshaping, hlower⟩ |
      ⟨hright, hshaping, hlimit⟩
  · have heq := symbols_eq_nil.1 (hchildren.trans hright)
    refine ⟨[], [], heq ▸ .refl, .nil, hadmits, ?_⟩
    rw [children_shape hproduction, hshaping, heq]
    rfl
  · obtain ⟨e, heq, he⟩ := symbols_eq_singleton.1 (hchildren.trans hright)
    refine ⟨[e], [e], heq ▸ .refl, .cons he .nil, hadmits, ?_⟩
    rw [children_shape hproduction, hshaping, heq]
    rfl
  all_goals
    obtain ⟨e, rest, heq, he, hrest⟩ := symbols_eq_pair.1 (hchildren.trans hright)
    have hfull := hfull rest (heq ▸ by simp)
  · have htail : a.tail ∈ own := hclosed _ (by simp) (by rw [show p.right = _ from hright]; simp)
    obtain ⟨nexts, hunfolds, hnexts, hadmits, hfinished⟩ :=
      exists_nexts_of_tail h hinner hfull hrest htail
    obtain ⟨row, entries, hrow, hlines, hlength, hflat⟩ := exists_lines_of_headed h hj hinner
      hproduction hshaping heq he hrest htail hunfolds hnexts hfinished
    exact ⟨row, entries, hrow, hlines, hlength ▸ hadmits.admits hlower, hflat⟩
  · have hown' : a.rest ∈ own := hclosed _ (by simp) (by rw [show p.right = _ from hright]; simp)
    obtain ⟨nexts, hunfolds, hnexts, hlower, hfinished⟩ :=
      exists_nexts_of_rest h hinner hfull hrest hown'
    obtain ⟨row, entries, hrow, hlines, hlength, hflat⟩ := exists_lines_of_headed h hj hinner
      hproduction hshaping heq he hrest hown' hunfolds hnexts hfinished
    refine ⟨row, entries, hrow, hlines, hlength ▸ ⟨?_, .inl hlimit⟩, hflat⟩
    omega

/-- What stands between the brackets of a join. -/
theorem exists_middle (h : g.Joins j a target entry own) (hj : j.entriesOnly = true) (ht : t.Full g)
    (hsymbol : t.label.symbol = .nonterminal target) (hown : target ∈ own) :
    a.repetition ∈ own ∧ ∃ opening m closing, t.children = opening ++ [m] ++ closing ∧
      symbols opening = j.opening.toList ∧ symbols closing = j.closing.toList ∧ m.Full g ∧
      m.label.symbol = .nonterminal a.repetition ∧
      t.shape.1.children = m.shape.1.children := by
  obtain ⟨p, hp, hproduction, hleft, hchildren, hfull⟩ := ht.of_nonterminal hsymbol
  have hclosed := h.closed p hp (hleft ▸ hown) a.repetition (by simp)
  rw [children_shape hproduction]
  rcases (h.form p hp (hleft ▸ hown)).of_target h.nodup hleft with
    ⟨opening, closing, hopening, hclosing, hright, hshaping⟩ |
      ⟨hopening, hclosing, hright, hshaping⟩
  · refine ⟨hclosed (by rw [show p.right = _ from hright]; simp), ?_⟩
    obtain ⟨o, us, heq, ho, hus⟩ := symbols_eq_cons.1 (hchildren.trans hright)
    obtain ⟨m, c, rfl, hm, hc⟩ := symbols_eq_pair.1 hus
    refine ⟨[o], m, [c], heq, ?_, ?_, hfull m (heq ▸ by simp), hm, ?_⟩
    · rw [hopening, ← ho]
      rfl
    · rw [hclosing, ← hc]
      rfl
    · rw [hshaping, hj, heq]
      rfl
  · refine ⟨hclosed (by rw [show p.right = _ from hright]; simp), ?_⟩
    obtain ⟨m, heq, hm⟩ := symbols_eq_singleton.1 (hchildren.trans hright)
    refine ⟨[], m, [], heq, ?_, ?_, hfull m (heq ▸ by simp), hm, ?_⟩
    · rw [hopening]
      rfl
    · rw [hclosing]
      rfl
    · rw [hshaping, heq]
      rfl

/-- **A join unfolds** to its entries, with the delimiters and brackets of the join, and is finished
to the entries alone. -/
theorem exists_spells (h : g.Joins j a target entry own) (hj : j.entriesOnly = true)
    (hinner : ∀ x ∈ own, inner x) (ht : t.Full g)
    (hsymbol : t.label.symbol = .nonterminal target) (hown : target ∈ own) :
    ∃ row entries, Unfolds inner t.children row ∧ j.Spells entry row entries ∧
      j.count.Admits entries.length ∧ t.shape.1.children = entries.map (·.shape.1) := by
  obtain ⟨hown, opening, m, closing, heq, hopening, hclosing, hfull, hm, hfinished⟩ :=
    exists_middle h hj ht hsymbol hown
  obtain ⟨row, entries, hunfolds, hlines, hadmits, hentries⟩ :=
    exists_lines h hj hinner hfull hm hown
  have hmiddle : Unfolds inner [m] row := hunfolds.of_children hm (hinner _ hown)
  refine ⟨opening ++ row ++ closing, entries, ?_,
    ⟨opening, row, closing, rfl, hopening, hlines, hclosing⟩, hadmits, hfinished.trans hentries⟩
  rw [heq]
  exact (Unfolds.append .refl hmiddle).append .refl

end ParseTree.Full

end Typeahead
