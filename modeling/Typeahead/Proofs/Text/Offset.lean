import Typeahead.Cursor
import Mathlib.Data.List.Basic

/-!
# Proofs/Text/Offset — byte offsets between characters

An offset that is the length of a first part of a text is a boundary: the text can be cut there into
its two parts, and a cursor there has the second part before it and is at the end just when that
part is empty.
-/

namespace Typeahead

namespace Text

@[simp] theorem utf8ByteSize_ofList (cs : List Char) :
    (String.ofList cs).utf8ByteSize = byteLength cs := by
  induction cs with
  | nil => rfl
  | cons c cs ih =>
    rw [String.ofList_cons, String.utf8ByteSize_append, String.utf8ByteSize_singleton, ih,
      byteLength]

theorem byteLength_toList (s : String) : byteLength s.toList = s.utf8ByteSize := by
  rw [← utf8ByteSize_ofList, String.ofList_toList]

theorem byteLength_eq_zero {cs : List Char} : byteLength cs = 0 ↔ cs = [] := by
  cases cs with
  | nil => simp [byteLength]
  | cons c cs =>
    have := c.utf8Size_pos
    simp only [byteLength, reduceCtorEq, iff_false]
    omega

theorem byteLength_le_of_prefix {a b : List Char} (h : a <+: b) : byteLength a ≤ byteLength b := by
  obtain ⟨more, rfl⟩ := h
  rw [byteLength_append]
  exact Nat.le_add_right ..

theorem eq_of_prefix_of_byteLength_le {a b : List Char} (h : a <+: b)
    (hle : byteLength b ≤ byteLength a) : a = b := by
  obtain ⟨more, rfl⟩ := h
  rw [byteLength_append] at hle
  have hmore : byteLength more = 0 := by omega
  rw [byteLength_eq_zero.1 hmore, List.append_nil]

/-- Of two first parts of a text the shorter one is a first part of the longer one. -/
theorem prefix_of_byteLength_le {a b cs : List Char} (ha : a <+: cs) (hb : b <+: cs)
    (hle : byteLength a ≤ byteLength b) : a <+: b := by
  rcases List.prefix_or_prefix_of_prefix ha hb with h | h
  · exact h
  · exact (eq_of_prefix_of_byteLength_le h hle) ▸ List.prefix_rfl

/-- What follows the first part of a text starts where that part ends. -/
theorem dropBytes?_append (a b : List Char) : dropBytes? (byteLength a) (a ++ b) = some b := by
  induction a with
  | nil => rw [byteLength, List.nil_append, dropBytes?]
  | cons c a ih =>
    obtain ⟨n, hn⟩ : ∃ n, c.utf8Size + byteLength a = n + 1 :=
      ⟨_, (Nat.succ_pred_eq_of_pos (Nat.add_pos_left c.utf8Size_pos _)).symm⟩
    rw [byteLength, List.cons_append, hn, dropBytes?, if_pos (by omega),
      show n + 1 - c.utf8Size = byteLength a by omega, ih]

/-- The first part of a text ends where it does. -/
theorem takeBytes?_append (a b : List Char) : takeBytes? (byteLength a) (a ++ b) = some a := by
  induction a with
  | nil => rw [byteLength, takeBytes?]
  | cons c a ih =>
    obtain ⟨n, hn⟩ : ∃ n, c.utf8Size + byteLength a = n + 1 :=
      ⟨_, (Nat.succ_pred_eq_of_pos (Nat.add_pos_left c.utf8Size_pos _)).symm⟩
    rw [byteLength, List.cons_append, hn, takeBytes?, if_pos (by omega),
      show n + 1 - c.utf8Size = byteLength a by omega, ih]
    rfl

theorem sliceFrom_append (a b : List Char) : sliceFrom (a ++ b) (byteLength a) = b := by
  have hb := takeBytes?_append b []
  rw [List.append_nil] at hb
  rw [sliceFrom, slice, Nat.min_self, byteLength_append, Nat.min_eq_left (Nat.le_add_right ..),
    Nat.add_sub_cancel_left, dropBytes?_append, Option.bind_some, hb]
  rfl

end Text

namespace Cursor

variable (a b : List Char)

@[simp] theorem remaining_append : (⟨a ++ b, Text.byteLength a⟩ : Cursor).remaining = b := by
  rw [remaining, Text.dropBytes?_append]
  rfl

@[simp] theorem atEnd_append : (⟨a ++ b, Text.byteLength a⟩ : Cursor).atEnd = b.isEmpty := by
  have hb : Text.byteLength b = 0 ↔ b = [] := Text.byteLength_eq_zero
  rw [Bool.eq_iff_iff, List.isEmpty_iff, ← hb, atEnd, Text.byteLength_append, decide_eq_true_eq]
  dsimp only
  omega

end Cursor

end Typeahead
