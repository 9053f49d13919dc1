import Typeahead.Completion.Rendering
import Typeahead.Proofs.Text.Offset
import Mathlib.Data.List.TakeWhile

/-!
# Proofs/Completion/Rendering — the renderings of a completion agree

A completion unfolds to its pieces, and each of its renderings is one function of these: what is
shown, what is inserted with the ranges of the slots, and the fixed beginning.  Along the pieces the
renderings are compared: slots lie in their text one behind the other, each over its own name, and
writing every name between braces leads from what is inserted to what is shown.
-/

namespace Typeahead

/-! ## Along the pieces -/

namespace Piece

/-- The texts of some pieces before they are filled in, one after the other. -/
def renderAll (ps : List Piece) : String := String.join (ps.map render)

/-- What some pieces put into the input, one after the other. -/
def contentAll (ps : List Piece) : String := String.join (ps.map content)

@[simp] theorem renderAll_nil : renderAll [] = "" := rfl

@[simp] theorem renderAll_cons (p : Piece) (ps : List Piece) :
    renderAll (p :: ps) = p.render ++ renderAll ps := String.join_cons

@[simp] theorem renderAll_append (ps qs : List Piece) :
    renderAll (ps ++ qs) = renderAll ps ++ renderAll qs := by
  rw [renderAll, List.map_append, String.join_append, renderAll, renderAll]

@[simp] theorem contentAll_nil : contentAll [] = "" := rfl

@[simp] theorem contentAll_cons (p : Piece) (ps : List Piece) :
    contentAll (p :: ps) = p.content ++ contentAll ps := String.join_cons

@[simp] theorem contentAll_append (ps qs : List Piece) :
    contentAll (ps ++ qs) = contentAll ps ++ contentAll qs := by
  rw [contentAll, List.map_append, String.join_append, contentAll, contentAll]

theorem slots_append (pos : Nat) (ps qs : List Piece) :
    slots pos (ps ++ qs) = slots pos ps ++ slots (pos + (contentAll ps).utf8ByteSize) qs := by
  induction ps generalizing pos with
  | nil => simp [slots]
  | cons p ps ih =>
    cases p <;> simp [slots, ih, content, Nat.add_assoc]

/-- The text of some pieces begins with the fixed texts in front of the first slot. -/
theorem takeBytes?_contentAll (ps : List Piece) :
    Text.takeBytes? (contentAll (ps.takeWhile isText)).utf8ByteSize (contentAll ps).toList
      = some (contentAll (ps.takeWhile isText)).toList := by
  have hps := contentAll_append (ps.takeWhile isText) (ps.dropWhile isText)
  rw [List.takeWhile_append_dropWhile] at hps
  rw [hps, String.toList_append, ← Text.byteLength_toList, Text.takeBytes?_append]

theorem slots_eq_nil_iff {pos : Nat} {ps : List Piece} : slots pos ps = [] ↔ ps.all isText := by
  induction ps generalizing pos with
  | nil => simp [slots]
  | cons p ps ih => cases p <;> simp [slots, isText, ih]

/-- The first slot begins where the fixed texts in front of it end. -/
theorem first_of_slots_eq_cons {pos : Nat} {ps : List Piece} {s : Slot} {more : List Slot}
    (h : slots pos ps = s :: more) :
    s.first = pos + (contentAll (ps.takeWhile isText)).utf8ByteSize := by
  induction ps generalizing pos with
  | nil => simp [slots] at h
  | cons p ps ih =>
    cases p with
    | text t =>
      rw [ih h, List.takeWhile_cons_of_pos rfl, contentAll_cons, String.utf8ByteSize_append,
        content, Nat.add_assoc]
    | slot name =>
      rw [slots, List.cons.injEq] at h
      rw [← h.1, List.takeWhile_cons_of_neg Bool.false_ne_true, contentAll_nil,
        String.utf8ByteSize_empty, Nat.add_zero]

theorem le_first_of_mem_slots {pos : Nat} {ps : List Piece} {s : Slot} (h : s ∈ slots pos ps) :
    pos ≤ s.first := by
  induction ps generalizing pos with
  | nil => simp [slots] at h
  | cons p ps ih =>
    cases p with
    | text t => exact Nat.le_of_add_right_le (ih h)
    | slot name =>
      rcases List.mem_cons.1 h with rfl | h
      · exact Nat.le_refl _
      · exact Nat.le_of_add_right_le (ih h)

/-- Slots lie one behind the other. -/
theorem pairwise_slots (pos : Nat) (ps : List Piece) :
    (slots pos ps).Pairwise fun a b => a.last ≤ b.first := by
  induction ps generalizing pos with
  | nil => exact .nil
  | cons p ps ih =>
    cases p with
    | text t => exact ih _
    | slot name => exact .cons (fun _ h => le_first_of_mem_slots h) (ih _)

end Piece

/-- A slot lies between characters of a text, and what it covers there is just its own name. -/
def Slot.Holds (s : Slot) (text : String) : Prop :=
  ∃ before after : String, text = before ++ s.name ++ after ∧
    s.first = before.utf8ByteSize ∧ s.last = s.first + s.name.utf8ByteSize

namespace Piece

/-- Every slot holds its name in the text the pieces are inserted into. -/
theorem holds_of_mem_slots {ps : List Piece} {s : Slot} (before : String)
    (h : s ∈ slots before.utf8ByteSize ps) : s.Holds (before ++ contentAll ps) := by
  induction ps generalizing before with
  | nil => simp [slots] at h
  | cons p ps ih =>
    have hrest : before ++ contentAll (p :: ps) = (before ++ p.content) ++ contentAll ps := by
      rw [contentAll_cons, String.append_assoc]
    cases p with
    | text t =>
      rw [hrest]
      exact ih (before ++ t) (by rwa [String.utf8ByteSize_append])
    | slot name =>
      rcases List.mem_cons.1 h with rfl | h
      · exact ⟨before, contentAll ps, hrest, rfl, rfl⟩
      · rw [hrest]
        exact ih (before ++ name) (by rwa [String.utf8ByteSize_append])

/-- Writing every slot of the inserted pieces between braces leads to what the pieces render to. -/
theorem replaceAll_slots (pos : Nat) (before : String) (ps : List Piece) :
    Slot.replaceAll (slots (pos + before.utf8ByteSize) ps) pos (before ++ contentAll ps).toList
      = some (before ++ renderAll ps).toList := by
  induction ps generalizing pos before with
  | nil => rfl
  | cons p ps ih =>
    cases p with
    | text t =>
      -- the fixed text joins what is in front of the slots to come
      simpa [slots, content, render, String.append_assoc, Nat.add_assoc] using ih pos (before ++ t)
    | slot name =>
      have hbefore : Text.takeBytes? before.utf8ByteSize
          (before ++ contentAll (.slot name :: ps)).toList = some before.toList := by
        rw [String.toList_append, ← Text.byteLength_toList, Text.takeBytes?_append]
      have hafter : Text.dropBytes? (before.utf8ByteSize + name.utf8ByteSize)
          (before ++ contentAll (.slot name :: ps)).toList = some (contentAll ps).toList := by
        rw [contentAll_cons, ← String.append_assoc, String.toList_append,
          ← String.utf8ByteSize_append, ← Text.byteLength_toList]
        exact Text.dropBytes?_append ..
      have hmore := ih (pos + before.utf8ByteSize + name.utf8ByteSize) ""
      rw [String.utf8ByteSize_empty, Nat.add_zero, String.empty_append, String.empty_append]
        at hmore
      rw [slots, Slot.replaceAll, if_pos ⟨Nat.le_add_right .., Nat.le_add_right ..⟩,
        Nat.add_sub_cancel_left, Nat.add_assoc, Nat.add_sub_cancel_left, hbefore, hafter,
        ← Nat.add_assoc]
      simp [hmore]

end Piece

/-- An insertion to which some pieces are appended. -/
def Insertion.extend (so : Insertion) (ps : List Piece) : Insertion :=
  ⟨so.text ++ Piece.contentAll ps, so.slots ++ Piece.slots so.text.utf8ByteSize ps⟩

@[simp] theorem Insertion.extend_nil (so : Insertion) : so.extend [] = so := by
  simp [extend, Piece.slots]

theorem Insertion.extend_append (so : Insertion) (ps qs : List Piece) :
    so.extend (ps ++ qs) = (so.extend ps).extend qs := by
  simp [extend, Piece.slots_append, String.append_assoc]

/-! ## The renderings along the pieces -/

namespace Completion

mutual

/-- What is shown is the rendering of the pieces, whatever it is shown for. -/
theorem shown_eq_renderAll (purpose : Purpose) :
    ∀ c : Completion, c.shown purpose = Piece.renderAll c.pieces
  | literal _ text => by simp [shown, pieces, Piece.render]
  | placeholder _ name => by simp [shown, pieces, Piece.render]
  | veto _ => rfl
  | available _ => rfl
  | template _ parts => shownAll_eq_renderAll purpose parts

theorem shownAll_eq_renderAll (purpose : Purpose) :
    ∀ cs : List Completion, shownAll purpose cs = Piece.renderAll (piecesAll cs)
  | [] => rfl
  | c :: cs => by
    rw [shownAll, piecesAll, Piece.renderAll_append, shown_eq_renderAll purpose c,
      shownAll_eq_renderAll purpose cs]

end

mutual

/-- Filling in a completion appends its pieces. -/
theorem fill_eq_extend : ∀ (c : Completion) (so : Insertion), c.fill so = so.extend c.pieces
  | literal _ text, so => by simp [fill, pieces, Insertion.extend, Piece.slots, Piece.content]
  | placeholder _ name, so => by
    simp [fill, pieces, Insertion.extend, Piece.slots, Piece.content]
  | veto _, so => so.extend_nil.symm
  | available _, so => so.extend_nil.symm
  | template _ parts, so => fillAll_eq_extend parts so

theorem fillAll_eq_extend :
    ∀ (cs : List Completion) (so : Insertion), fillAll cs so = so.extend (piecesAll cs)
  | [], so => so.extend_nil.symm
  | c :: cs, so => by
    rw [fillAll, piecesAll, Insertion.extend_append, fill_eq_extend c, fillAll_eq_extend cs]

end

mutual

/-- The fixed beginning is that of the pieces. -/
theorem lead_eq : ∀ (c : Completion) (out : String),
    c.lead out = (out ++ Piece.contentAll (c.pieces.takeWhile Piece.isText),
      c.pieces.all Piece.isText)
  | literal _ text, out => by
    rw [lead, pieces, List.takeWhile_cons_of_pos rfl]
    simp [Piece.isText, Piece.content]
  | placeholder _ name, out => by simp [lead, pieces, Piece.isText]
  | veto _, out => by simp [lead, pieces]
  | available _, out => by simp [lead, pieces]
  | template _ parts, out => leadAll_eq parts out

theorem leadAll_eq : ∀ (cs : List Completion) (out : String),
    leadAll cs out = (out ++ Piece.contentAll ((piecesAll cs).takeWhile Piece.isText),
      (piecesAll cs).all Piece.isText)
  | [], out => by simp [leadAll, piecesAll]
  | c :: cs, out => by
    rw [leadAll, piecesAll, lead_eq c out, List.all_append]
    cases hall : c.pieces.all Piece.isText with
    | true =>
      -- no slot in `c`: its text is passed whole, and the beginning goes on behind it
      have hall := List.all_eq_true.1 hall
      rw [List.takeWhile_append_of_pos hall, List.takeWhile_eq_self_iff.2 hall,
        Piece.contentAll_append, ← String.append_assoc, Bool.true_and]
      exact leadAll_eq cs _
    | false =>
      obtain ⟨p, hp, hslot⟩ : ∃ p ∈ c.pieces, ¬ p.isText := by simpa using hall
      have hstop : (c.pieces ++ piecesAll cs).takeWhile Piece.isText
          = c.pieces.takeWhile Piece.isText := by
        rw [List.takeWhile_append, if_neg]
        intro hlength
        have hself := (List.takeWhile_prefix Piece.isText).eq_of_length hlength
        exact hslot (List.takeWhile_eq_self_iff.1 hself p hp)
      rw [hstop, Bool.false_and]

end

variable (c : Completion)

/-- The renderings made in one go are those along the pieces. -/
theorem shown_eq_render (purpose : Purpose) : c.shown purpose = c.render :=
  c.shown_eq_renderAll purpose

theorem insertion_eq : c.insertion = ⟨c.insertedText, c.insertedSlots⟩ := by
  simp [insertion, fill_eq_extend, Insertion.extend, insertedText, insertedSlots,
    Piece.contentAll]

theorem lead_eq_leadingText (out : String) : (c.lead out).1 = out ++ c.leadingText := by
  rw [lead_eq, leadingText, Piece.contentAll]

/-- **The renderings of a completion agree.**  What it inserts has its slots in order, none reaching
into the next, each between characters of the text and over just its own name.  Writing every name
between braces makes it what is shown, in a menu and in the input.  The fixed beginning is the
inserted text up to the first slot, or all of it if there is none. -/
theorem renderings_agree :
    c.insertion.slots.Pairwise (fun a b => a.last ≤ b.first) ∧
    (∀ s ∈ c.insertion.slots, s.Holds c.insertion.text) ∧
    (∀ purpose, Slot.replaceAll c.insertion.slots 0 c.insertion.text.toList
      = some (c.shown purpose).toList) ∧
    ∀ out, match c.insertion.slots with
      | [] => c.lead out = (out ++ c.insertion.text, true)
      | s :: _ => ∃ before, Text.takeBytes? s.first c.insertion.text.toList = some before ∧
        c.lead out = (out ++ String.ofList before, false) := by
  have htext : c.insertion.text = Piece.contentAll c.pieces := congrArg _ c.insertion_eq
  have hslots : c.insertion.slots = Piece.slots 0 c.pieces := congrArg _ c.insertion_eq
  rw [htext, hslots]
  refine ⟨Piece.pairwise_slots .., fun s hs => ?_, fun purpose => ?_, fun out => ?_⟩
  · simpa using Piece.holds_of_mem_slots "" hs
  · simpa [shown_eq_renderAll] using Piece.replaceAll_slots 0 "" c.pieces
  · split
    next hnone =>
      have hall := Piece.slots_eq_nil_iff.1 hnone
      rw [lead_eq, hall, List.takeWhile_eq_self_iff.2 (List.all_eq_true.1 hall)]
    next s more hcons =>
      refine ⟨(Piece.contentAll (c.pieces.takeWhile Piece.isText)).toList, ?_, ?_⟩
      · rw [Piece.first_of_slots_eq_cons hcons, Nat.zero_add, Piece.takeBytes?_contentAll]
      · have hall : c.pieces.all Piece.isText = false := by
          refine Bool.eq_false_iff.2 fun hall => ?_
          rw [Piece.slots_eq_nil_iff.2 hall] at hcons
          exact absurd hcons (List.cons_ne_nil s more).symm
        rw [lead_eq, hall, String.ofList_toList]

-- a slot without a name, and one behind a character of two bytes
example :
    (template {} [.literal {} "é", .template {} [.placeholder {} "", .placeholder {} "r"]]).insertion
      = ⟨"ér", [⟨"", 2, 2⟩, ⟨"r", 2, 3⟩]⟩ := by decide

end Completion

end Typeahead
