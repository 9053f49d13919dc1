import Typeahead.Proofs.Pattern.Variables

/-!
# Proofs/Pattern/RoundTrip — reading the items of a pattern in writing

Blanks separate items and are kept as one; what else a text says is in its items.  A literal goes on
to the next brace or line break, so what follows it, past blanks, has to start with one of these or
with nothing (`Item.Admits`).  An item that was read admits what follows it (`of_readItem`) and
still does when that is written anew, since a variable is written with its brace
(`admits_render_readItems`); and a legible item reads back in front of all that it admits
(`readItem_append`).  Along the items this makes the reading of a pattern in writing the pattern
(`read_render`).
-/

namespace Typeahead.Pattern

open Text

variable {cs rest : List Char} {item : Item}

/-! ## Literals -/

/-- A literal as the reader of literals takes it. -/
structure IsLiteral (text : String) : Prop where
  ne : text.toList ≠ []
  chars : ∀ c ∈ text.toList, !endsLiteral c
  start : Stops isBlank text.toList
  ending : Stops isBlank text.toList.reverse

/-- Past blanks, the text goes on with nothing that a literal could take. -/
def EndsLiteral (cs : List Char) : Prop := Stops (!endsLiteral ·) (skipBlanks cs)

theorem isBlank_of_endsLiteral {c : Char} (h : endsLiteral c) : isBlank c = false := by
  rw [endsLiteral, Bool.or_eq_true, decide_eq_true_eq, decide_eq_true_eq] at h
  rcases h with rfl | rfl <;> decide

theorem endsLiteral_of_isBlank {c : Char} (h : isBlank c) : !endsLiteral c := by
  cases hc : endsLiteral c with
  | false => rfl
  | true => cases h.symm.trans (isBlank_of_endsLiteral hc)

theorem skipBlanks_of_endsLiteral (h : Stops (!endsLiteral ·) cs) : skipBlanks cs = cs :=
  skipBlanks_of_stops fun c hc =>
    isBlank_of_endsLiteral (by simpa using h c hc)

/-- Dropping the blanks at the end of a text cuts it in two. -/
theorem exists_blanks (run : List Char) :
    ∃ text blanks, (run.reverse.dropWhile isBlank).reverse = text ∧ run = text ++ blanks ∧
      Stops isBlank text.reverse ∧ ∀ c ∈ blanks, isBlank c := by
  refine ⟨_, (run.reverse.takeWhile isBlank).reverse, rfl, ?_, ?_, fun c hc => ?_⟩
  · rw [← List.reverse_append, List.takeWhile_append_dropWhile, List.reverse_reverse]
  · rw [List.reverse_reverse]
    exact stops_dropWhile _
  · exact List.mem_takeWhile_imp (List.mem_reverse.1 hc)

/-- The text a literal was read from: the literal, blanks, and what no literal takes. -/
theorem exists_cut_of_readLiteral (h : readLiteral cs = some (item, rest)) :
    ∃ text blanks after, item = .literal (String.ofList text) ∧ text ≠ [] ∧
      cs = text ++ rest ∧ rest = blanks ++ after ∧ (∀ c ∈ text, !endsLiteral c) ∧
      Stops isBlank text.reverse ∧ (∀ c ∈ blanks, isBlank c) ∧ Stops (!endsLiteral ·) after := by
  obtain ⟨text, blanks, htext, hrun, hending, hblanks⟩ :=
    exists_blanks (cs.takeWhile (!endsLiteral ·))
  have hcs : cs = text ++ (blanks ++ cs.dropWhile (!endsLiteral ·)) := by
    rw [← List.append_assoc, ← hrun, List.takeWhile_append_dropWhile]
  have hrest : cs.drop text.length = blanks ++ cs.dropWhile (!endsLiteral ·) := by
    rw [hcs, List.drop_left, ← hcs]
  simp only [readLiteral, htext] at h
  split at h
  · cases h
  · rename_i hne
    cases h
    rw [List.isEmpty_iff] at hne
    refine ⟨text, blanks, _, rfl, hne, hrest ▸ hcs, hrest, fun c hc => ?_, hending, hblanks,
      stops_dropWhile cs⟩
    have hmem : c ∈ cs.takeWhile (!endsLiteral ·) := hrun ▸ List.mem_append_left _ hc
    exact List.mem_takeWhile_imp (p := fun c => !endsLiteral c) hmem

/-- **A literal that was read** starts and ends without a blank, and nothing that follows belongs to
it. -/
theorem of_readLiteral (h : readLiteral cs = some (item, rest)) (hstart : Stops isBlank cs) :
    ∃ text, item = .literal text ∧ IsLiteral text ∧ EndsLiteral rest := by
  obtain ⟨text, blanks, after, rfl, hne, rfl, rfl, hchars, hending, hblanks, hafter⟩ :=
    exists_cut_of_readLiteral h
  refine ⟨_, rfl, ?_, ?_⟩
  · rw [← String.toList_ofList (l := text)] at hne hchars hending hstart
    exact ⟨hne, hchars, hstart.of_append hne, hending⟩
  · rw [EndsLiteral, skipBlanks, List.dropWhile_append_of_pos hblanks, ← skipBlanks,
      skipBlanks_of_endsLiteral hafter]
    exact hafter

/-- **A literal reads back** in front of what ends it. -/
theorem readLiteral_append {text : String} (h : IsLiteral text) (hrest : EndsLiteral rest) :
    readLiteral (text.toList ++ rest) = some (.literal text, rest) := by
  have hblanks : ∀ c ∈ rest.takeWhile isBlank, isBlank c := fun _ => List.mem_takeWhile_imp
  have hrun : (text.toList ++ rest).takeWhile (!endsLiteral ·)
      = text.toList ++ rest.takeWhile isBlank := by
    have hfront : ∀ c ∈ text.toList ++ rest.takeWhile isBlank, !endsLiteral c := by
      intro c hc
      exact (List.mem_append.1 hc).elim (h.chars c) fun hc => endsLiteral_of_isBlank (hblanks c hc)
    rw [← takeWhile_append_of_stops hfront hrest, skipBlanks, List.append_assoc,
      List.takeWhile_append_dropWhile]
  have htext : ((text.toList ++ rest.takeWhile isBlank).reverse.dropWhile isBlank).reverse
      = text.toList := by
    rw [List.reverse_append, dropWhile_append_of_stops
      (fun c hc => hblanks c (List.mem_reverse.1 hc)) h.ending, List.reverse_reverse]
  simp only [readLiteral, hrun, htext]
  rw [if_neg (by simpa using h.ne), String.ofList_toList, List.drop_left]

/-! ## Items -/

/-- An item that its writing gives back. -/
def Item.Legible : Item → Prop
  | literal text => IsLiteral text
  | blanks => False
  | slot v => v.Legible

/-- What may follow an item without becoming part of it. -/
def Item.Admits : Item → List Char → Prop
  | literal _, rest => EndsLiteral rest
  | _, _ => True

/-- **An item that was read is legible**, and admits what follows it. -/
theorem of_readItem (h : readItem cs = some (item, rest)) (hstart : Stops isBlank cs) :
    item.Legible ∧ item.Admits rest := by
  rcases Option.or_eq_some_iff.1 h with h | ⟨-, h⟩
  · obtain ⟨v, rfl, hv⟩ := of_readSlot h
    exact ⟨hv, trivial⟩
  · obtain ⟨text, rfl, htext, hrest⟩ := of_readLiteral h hstart
    exact ⟨htext, hrest⟩

/-- **A legible item reads back** in front of all that it admits. -/
theorem readItem_append (h : item.Legible) (hrest : item.Admits rest) :
    readItem (item.render.toList ++ rest) = some (item, rest) := by
  cases item with
  | blanks => exact h.elim
  | slot v => rw [readItem, Item.render, readSlot_append h, Option.some_or]
  | literal text =>
    have hslot : readSlot (text.toList ++ rest) = none := by
      obtain ⟨c, cs, hcons⟩ := List.exists_cons_of_ne_nil h.ne
      have hne : c ≠ '\x7b' := by
        rintro rfl
        exact absurd (h.chars _ (hcons ▸ List.mem_cons_self)) (by decide)
      rw [readSlot, hcons, List.cons_append, readBracketed_eq_none hne]
      rfl
    rw [readItem, Item.render, hslot, Option.none_or, readLiteral_append h hrest]

/-- An item in writing does not start with a blank. -/
theorem stops_render (h : item.Legible) : Stops isBlank (item.render.toList ++ rest) := by
  cases item with
  | blanks => exact h.elim
  | slot v =>
    rw [Item.render, Variable.toList_render]
    exact stops_cons.2 (by decide)
  | literal text => exact h.start.append h.ne

/-- Where a literal has to end, only a variable is read. -/
theorem exists_slot_of_readItem (h : readItem cs = some (item, rest))
    (hends : Stops (!endsLiteral ·) cs) : ∃ v, item = .slot v := by
  rcases Option.or_eq_some_iff.1 h with h | ⟨-, h⟩
  · obtain ⟨v, rfl, -⟩ := of_readSlot h
    exact ⟨v, rfl⟩
  · rw [readLiteral, hends.takeWhile] at h
    cases h

/-! ## Sequences of items -/

theorem toList_render_cons {items : List Item} :
    (render (item :: items)).toList = item.render.toList ++ (render items).toList := by
  simp [render, String.toList_join]

/-- An item with the blanks before it, if there are any. -/
def spaced (blank : Bool) (item : Item) : List Item := if blank then [.blanks, item] else [item]

theorem toList_render_spaced {items : List Item} (blank : Bool) :
    (render (spaced blank item ++ items)).toList
      = (if blank then [' '] else []) ++ (item.render.toList ++ (render items).toList) := by
  cases blank
  · exact toList_render_cons
  · change (render (.blanks :: item :: items)).toList = _
    rw [toList_render_cons, toList_render_cons]
    rfl

theorem skipBlanks_render_spaced {items : List Item} (h : item.Legible) (blank : Bool) :
    skipBlanks (render (spaced blank item ++ items)).toList
      = item.render.toList ++ (render items).toList := by
  have hblank : ∀ c ∈ (if blank then [' '] else []), isBlank c := by
    cases blank with
    | true => exact List.forall_mem_singleton.2 rfl
    | false => exact List.forall_mem_nil _
  rw [toList_render_spaced, skipBlanks, dropWhile_append_of_stops hblank (stops_render h)]

theorem any_isBlank_render_spaced {items : List Item} (h : item.Legible) (blank : Bool) :
    (render (spaced blank item ++ items)).toList.head?.any isBlank = blank := by
  rw [toList_render_spaced]
  cases blank with
  | true => rfl
  | false =>
    have hstart : Stops isBlank (item.render.toList ++ (render items).toList) := stops_render h
    rw [if_neg (by decide), List.nil_append]
    cases hhead : (item.render.toList ++ (render items).toList).head? with
    | none => rfl
    | some c => exact hstart c hhead

theorem readItems_of_none (h : readItem (skipBlanks cs) = none) : readItems cs = ([], cs) := by
  rw [readItems]
  split
  · rfl
  · rename_i h'
    cases h.symm.trans h'

theorem readItems_of_some (h : readItem (skipBlanks cs) = some (item, rest)) :
    readItems cs = (spaced (cs.head?.any isBlank) item ++ (readItems rest).1, (readItems rest).2) := by
  rw [readItems]
  split
  · rename_i h'
    cases h'.symm.trans h
  · rename_i h'
    cases h'.symm.trans h
    rfl

/-- **What an item admits it admits in writing**: where a literal has to end, the writing goes on
with a variable. -/
theorem admits_render_readItems (h : item.Admits cs) :
    item.Admits (render (readItems cs).1).toList := by
  cases item with
  | blanks | slot v => trivial
  | literal text =>
    change EndsLiteral cs at h
    change EndsLiteral (render (readItems cs).1).toList
    cases hread : readItem (skipBlanks cs) with
    | none =>
      rw [readItems_of_none hread]
      exact stops_nil
    | some found =>
      obtain ⟨next, rest⟩ := found
      have hlegible := (of_readItem hread (stops_dropWhile cs)).1
      obtain ⟨v, rfl⟩ := exists_slot_of_readItem hread h
      rw [EndsLiteral, readItems_of_some hread, skipBlanks_render_spaced hlegible, Item.render,
        Variable.toList_render]
      exact stops_cons.2 (by decide)

/-- **The items that were read read back from their writing**, to its end. -/
theorem readItems_render (cs : List Char) :
    readItems (render (readItems cs).1).toList = ((readItems cs).1, []) := by
  fun_induction readItems cs with
  | case1 => exact readItems_of_none rfl
  | case2 cs item rest hread items r hitems ih =>
    rw [hitems] at ih
    obtain ⟨hlegible, hadmits⟩ := of_readItem hread (stops_dropWhile cs)
    have hnext : item.Admits (render items).toList := by
      have := admits_render_readItems hadmits
      rwa [hitems] at this
    change readItems (render (spaced (cs.head?.any isBlank) item ++ items)).toList
      = (spaced (cs.head?.any isBlank) item ++ items, [])
    have hagain : readItem (skipBlanks (render (spaced (cs.head?.any isBlank) item ++ items)).toList)
        = some (item, (render items).toList) := by
      rw [skipBlanks_render_spaced hlegible, readItem_append hlegible hnext]
    rw [readItems_of_some hagain, ih, any_isBlank_render_spaced hlegible]

/-! ## Whole patterns -/

/-- **A pattern in writing reads back**: what was read from a text is read again from its writing,
and every range of 64 bits from the writing of a range. -/
theorem read_render :
    (∀ p items, read p = .ok items → read (render items) = .ok items) ∧
      ∀ q : Count, q.lower < 2 ^ 64 → q.upper < 2 ^ 64 →
        readQuantifier q.render.toList = some (q, []) := by
  refine ⟨fun p items h => ?_, fun q => readQuantifier_toList_render⟩
  simp only [read] at h
  split at h
  · cases h
  rename_i first rest hread
  split at h
  case isFalse => cases h
  cases h
  obtain ⟨hlegible, hadmits⟩ := of_readItem hread (stops_dropWhile _)
  have hnext := admits_render_readItems hadmits
  have hstart : skipBlanks (render (first :: (readItems rest).1)).toList
      = first.render.toList ++ (render (readItems rest).1).toList :=
    skipBlanks_render_spaced hlegible false
  simp only [read, hstart, readItem_append hlegible hnext, readItems_render]
  rfl

/-- A list type and bounds with blanks in them, between literals: the blanks inside the variable are
gone after the first reading, and a run of them outside is one. -/
theorem read_render_spaced_list :
    read "on \t \x7bx:list< int >:1 - 3\x7d. " = .ok [.literal "on", .blanks,
        .slot ⟨"x", some (.list "int"), some ⟨1, 3⟩⟩, .literal "."] ∧
      read (render [.literal "on", .blanks,
        .slot ⟨"x", some (.list "int"), some ⟨1, 3⟩⟩, .literal "."])
        = .ok [.literal "on", .blanks,
          .slot ⟨"x", some (.list "int"), some ⟨1, 3⟩⟩, .literal "."] ∧
      readQuantifier (Count.render ⟨1, 3⟩).toList = some (⟨1, 3⟩, []) :=
  have hread : read "on \t \x7bx:list< int >:1 - 3\x7d. " = .ok [.literal "on", .blanks,
      .slot ⟨"x", some (.list "int"), some ⟨1, 3⟩⟩, .literal "."] := by cbv
  ⟨hread, read_render.1 _ _ hread, read_render.2 ⟨1, 3⟩ (by decide) (by decide)⟩

end Typeahead.Pattern
