import Mathlib
import Typeahead.Pattern.Reader

/-!
# Proofs/Pattern/Quantifiers — a range in writing reads back as that range

The digits of a number read back as the number in front of anything but a digit
(`readCount_append`), two numbers with a dash as bounds (`readBounds_append`), and a range in
writing, signs included, as the range (`readQuantifier_toList_render`).  Conversely, a quantifier
that was read has bounds of 64 bits, and its text consists of digits, blanks, dashes and signs
(`of_readQuantifier`).
-/

namespace Typeahead.Pattern

open Text

variable {cs rest : List Char} {n : Nat} {q : Count}

/-! ## Reading what was written -/

theorem skipBlanks_of_stops (h : Stops isBlank cs) : skipBlanks cs = cs := h.dropWhile

theorem isBlank_of_isDigit {c : Char} (h : c.isDigit) : isBlank c = false := by
  rw [isBlank, Bool.or_eq_false_iff, decide_eq_false_iff_not, decide_eq_false_iff_not]
  constructor <;> rintro rfl <;> exact absurd h (by decide)

/-- A number in writing begins with a digit. -/
theorem exists_toDigits (n : Nat) : ∃ c cs, Nat.toDigits 10 n = c :: cs ∧ c.isDigit := by
  obtain ⟨c, cs, h⟩ := List.exists_cons_of_ne_nil (Nat.toDigits_ne_nil (n := n) (b := 10))
  have hmem : c ∈ Nat.toDigits 10 n := h ▸ List.mem_cons_self
  exact ⟨c, cs, h, Nat.isDigit_of_mem_toDigits (by omega) (by omega) hmem⟩

theorem readCount_append (hn : n < 18446744073709551616) (hrest : Stops Char.isDigit rest) :
    readCount (Nat.toDigits 10 n ++ rest) = some (n, rest) := by
  have hdigits : ∀ c ∈ Nat.toDigits 10 n, c.isDigit :=
    fun _ => Nat.isDigit_of_mem_toDigits (by omega) (by omega)
  simp only [readCount, takeWhile_append_of_stops hdigits hrest,
    dropWhile_append_of_stops hdigits hrest, digitsValue_toDigits]
  rw [if_neg (by simp [Nat.toDigits_ne_nil, hn])]

theorem readCount_toDigits (hn : n < 18446744073709551616) :
    readCount (Nat.toDigits 10 n) = some (n, []) := by
  simpa using readCount_append hn stops_nil

theorem readBounds_append {lower upper : Nat} (hl : lower < 18446744073709551616)
    (hu : upper < 18446744073709551616) :
    readBounds (Nat.toDigits 10 lower ++ '-' :: Nat.toDigits 10 upper)
      = some (⟨lower, upper⟩, []) := by
  have hlower : readCount (Nat.toDigits 10 lower ++ '-' :: Nat.toDigits 10 upper)
      = some (lower, '-' :: Nat.toDigits 10 upper) :=
    readCount_append hl (stops_cons.2 (by decide))
  have hdash : skipBlanks ('-' :: Nat.toDigits 10 upper) = '-' :: Nat.toDigits 10 upper :=
    skipBlanks_of_stops (stops_cons.2 rfl)
  obtain ⟨c, cs, hcons, hc⟩ := exists_toDigits upper
  have hblank : skipBlanks (Nat.toDigits 10 upper) = Nat.toDigits 10 upper :=
    skipBlanks_of_stops (hcons ▸ stops_cons.2 (isBlank_of_isDigit hc))
  simp [readBounds, hlower, hdash, expect, hblank, readCount_toDigits hu]

theorem readQuantifier_of_digit {c : Char} (hc : c.isDigit) :
    readQuantifier (c :: cs)
      = (readBounds (c :: cs) <|> (readCount (c :: cs)).map fun (n, rest) => (.exactly n, rest)) := by
  unfold readQuantifier
  split
  case h_4 => rfl
  all_goals rename_i heq; cases heq; exact absurd hc (by decide)

/-- **A range in writing reads back as the range.** -/
theorem readQuantifier_toList_render (hl : q.lower < 18446744073709551616)
    (hu : q.upper < 18446744073709551616) : readQuantifier q.render.toList = some (q, []) := by
  unfold Count.render
  split
  case isTrue h => rw [h]; rfl
  split
  case isTrue h => rw [h]; rfl
  split
  case isTrue h => rw [h]; rfl
  obtain ⟨c, cs, hcons, hc⟩ := exists_toDigits q.lower
  split
  case isTrue heq =>
    have hread := readCount_toDigits hl
    have hbounds : readBounds (Nat.toDigits 10 q.lower) = none := by
      simp [readBounds, hread, skipBlanks, expect]
    have hself : Count.exactly q.lower = q := by rw [Count.exactly]; congr
    rw [Nat.toString_eq_ofList_toDigits, String.toList_ofList]
    rw [hcons] at hread hbounds ⊢
    rw [readQuantifier_of_digit hc, hread, hbounds]
    simp [hself]
  case isFalse =>
    have htext : (toString q.lower ++ "-" ++ toString q.upper).toList
        = Nat.toDigits 10 q.lower ++ '-' :: Nat.toDigits 10 q.upper := by simp
    have hread := readBounds_append hl hu
    rw [htext]
    rw [hcons, List.cons_append] at hread ⊢
    rw [readQuantifier_of_digit hc, hread]
    rfl

/-! ## What a quantifier consists of -/

/-- A character of a quantifier. -/
def isQuantifierChar (c : Char) : Bool :=
  c.isDigit || isBlank c || c = '-' || c = '?' || c = '+' || c = '*'

theorem isQuantifierChar_render : ∀ c ∈ q.render.toList, isQuantifierChar c := by
  have hdigit : ∀ n : Nat, ∀ c ∈ Nat.toDigits 10 n, isQuantifierChar c := fun n c hc => by
    simp [isQuantifierChar, Nat.isDigit_of_mem_toDigits (by omega) (by omega) hc]
  unfold Count.render
  split
  · exact List.forall_mem_singleton.2 rfl
  split
  · exact List.forall_mem_singleton.2 rfl
  split
  · exact List.forall_mem_singleton.2 rfl
  split
  · simpa using hdigit q.lower
  · simp only [String.toList_append, Nat.toString_eq_ofList_toDigits, String.toList_ofList]
    exact List.forall_mem_append.2
      ⟨List.forall_mem_append.2 ⟨hdigit _, List.forall_mem_singleton.2 rfl⟩, hdigit _⟩

theorem isBlank_or_mem_skipBlanks {c : Char} (hc : c ∈ cs) : isBlank c ∨ c ∈ skipBlanks cs := by
  rw [← List.takeWhile_append_dropWhile (p := isBlank) (l := cs), List.mem_append] at hc
  exact hc.imp List.mem_takeWhile_imp id

theorem expect_eq_some_iff {d : Char} : expect d cs = some rest ↔ cs = d :: rest := by
  cases cs with
  | nil => simp [expect]
  | cons c cs => simp [expect, eq_comm]

/-- A number that was read has at most 64 bits, and its text consists of digits. -/
theorem of_readCount (h : readCount cs = some (n, rest)) :
    n < 18446744073709551616 ∧ ∀ c ∈ cs, c.isDigit ∨ c ∈ rest := by
  simp only [readCount] at h
  split at h
  · cases h
  · rename_i hbound
    cases h
    refine ⟨by simp only [Bool.or_eq_true, decide_eq_true_eq, not_or] at hbound; omega, ?_⟩
    intro c hc
    rw [← List.takeWhile_append_dropWhile (p := Char.isDigit) (l := cs), List.mem_append] at hc
    exact hc.imp List.mem_takeWhile_imp id

theorem of_readBounds (h : readBounds cs = some (q, rest)) :
    (q.lower < 18446744073709551616 ∧ q.upper < 18446744073709551616) ∧
      ∀ c ∈ cs, isQuantifierChar c ∨ c ∈ rest := by
  simp only [readBounds, Option.bind_eq_bind, Option.bind_eq_some_iff, Option.pure_def,
    Option.some.injEq] at h
  obtain ⟨⟨lower, rest₁⟩, hlower, rest₂, hdash, ⟨upper, rest₃⟩, hupper, he⟩ := h
  cases he
  obtain ⟨hl, hmem₁⟩ := of_readCount hlower
  obtain ⟨hu, hmem₂⟩ := of_readCount hupper
  refine ⟨⟨hl, hu⟩, fun c hc => ?_⟩
  rcases hmem₁ c hc with hd | hc
  · exact .inl (by simp [isQuantifierChar, hd])
  rcases isBlank_or_mem_skipBlanks hc with hb | hc
  · exact .inl (by simp [isQuantifierChar, hb])
  rw [expect_eq_some_iff.1 hdash, List.mem_cons] at hc
  rcases hc with rfl | hc
  · exact .inl rfl
  rcases isBlank_or_mem_skipBlanks hc with hb | hc
  · exact .inl (by simp [isQuantifierChar, hb])
  exact (hmem₂ c hc).imp_left fun hd => by simp [isQuantifierChar, hd]

/-- **What a quantifier that was read is like**: its bounds have 64 bits, and its text consists of
characters of quantifiers. -/
theorem of_readQuantifier (h : readQuantifier cs = some (q, rest)) :
    (q.lower < 18446744073709551616 ∧ q.upper < 18446744073709551616) ∧
      ∀ c ∈ cs, isQuantifierChar c ∨ c ∈ rest := by
  unfold readQuantifier at h
  split at h
  case h_4 cs _ _ _ =>
    rcases (Option.orElse_eq_some _ _ _).1 h with h | ⟨-, h⟩
    · exact of_readBounds h
    · obtain ⟨⟨n, r⟩, hcount, he⟩ := Option.map_eq_some_iff.1 h
      cases he
      obtain ⟨hn, hmem⟩ := of_readCount hcount
      exact ⟨⟨hn, hn⟩, fun c hc => (hmem c hc).imp_left fun hd => by simp [isQuantifierChar, hd]⟩
  all_goals
    cases h
    refine ⟨by decide, fun c hc => ?_⟩
    rcases List.mem_cons.1 hc with rfl | hc
    · exact .inl rfl
    · exact .inr hc

end Typeahead.Pattern
