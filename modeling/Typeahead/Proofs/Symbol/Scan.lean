import Typeahead.Symbol
import Mathlib.Data.List.Basic

/-!
# Proofs/Symbol/Scan — what a scan says about a longer text

A scan always comes to a verdict (`scan_isStuck`).  The verdict of a success on `w ++ v` is one on
`w` as well, unless `w` stops too early (`scan_append`): a literal may straddle the cut, and then
the shorter text runs out.  What it was cut off in is finished by `v` (`spans_of_scan`).

Conversely, a success on `w` is one on `w ++ v` (`scan_append_right`), and what ran out of `w` gets
beyond it on `w ++ v` (`scan_beyond`).  A failure stops at the first character that does not fit
(`scan_failed`).
-/

namespace Typeahead.Terminal

theorem scanLiteral_ne_notParsed (es cs : List Char) : (scanLiteral es cs).1 ≠ .notParsed := by
  fun_induction scanLiteral es cs <;> simp_all

theorem scan_ne_notParsed (t : Terminal) (cs : List Char) (atEnd : Bool) :
    (t.scan cs atEnd).1 ≠ .notParsed := by
  cases t with
  | epsilon => simp [scan]
  | endOfInput => cases atEnd <;> simp [scan]
  | literal text => exact scanLiteral_ne_notParsed _ _
  | digit | letter | whitespace | charClass _ =>
    cases cs with
    | nil => simp [scan, scanChar]
    | cons c cs =>
      simp only [scan, scanChar]
      split <;> simp

/-- **A scan that does not succeed is stuck.** -/
theorem scan_isStuck {t : Terminal} {cs seen : List Char} {atEnd : Bool} {outcome : Outcome}
    (h : t.scan cs atEnd = (outcome, seen)) (hne : outcome ≠ .successful) :
    outcome.isStuck = true := by
  have hnp := t.scan_ne_notParsed cs atEnd
  rw [h] at hnp
  cases outcome <;> simp_all [Outcome.isStuck]

/-- At the end of the input no scan fails. -/
theorem scan_nil (t : Terminal) :
    (t.scan [] true).1 = .successful ∨ (t.scan [] true).1 = .endOfInput := by
  cases t with
  | epsilon | endOfInput => exact .inl rfl
  | literal text =>
    rcases hcs : text.toList with _ | ⟨c, cs⟩
    · exact .inl (by rw [scan, hcs]; rfl)
    · exact .inr (by rw [scan, hcs]; rfl)
  | digit | letter | whitespace | charClass _ => exact .inr rfl

theorem scanLiteral_append {es w v seen : List Char}
    (h : scanLiteral es (w ++ v) = (.successful, seen)) :
    scanLiteral es w = (.successful, seen) ∨ (scanLiteral es w).1 = .endOfInput := by
  induction es generalizing w seen with
  | nil => exact .inl h
  | cons e es ih =>
    cases w with
    | nil => exact .inr rfl
    | cons c w =>
      simp only [List.cons_append, scanLiteral] at h ⊢
      split at h
      · rename_i hec
        rw [if_pos hec]
        simp only [Prod.mk.injEq] at h
        obtain ⟨hs, rfl⟩ := h
        rcases ih (Prod.ext hs rfl) with h1 | h1
        · exact .inl (by rw [h1])
        · exact .inr h1
      · cases h

theorem scanChar_append {p : Char → Bool} {w v seen : List Char}
    (h : scanChar p (w ++ v) = (.successful, seen)) :
    scanChar p w = (.successful, seen) ∨ (scanChar p w).1 = .endOfInput := by
  cases w with
  | nil => exact .inr rfl
  | cons c w => exact .inl h

/-- **A success on a text is a success on a shorter one, or the shorter one runs out.** -/
theorem scan_append {t : Terminal} {w v seen : List Char}
    (h : t.scan (w ++ v) (w ++ v).isEmpty = (.successful, seen)) :
    t.scan w w.isEmpty = (.successful, seen) ∨ (t.scan w w.isEmpty).1 = .endOfInput := by
  cases t with
  | epsilon => exact .inl h
  | endOfInput =>
    refine .inl ?_
    cases w with
    | nil =>
      cases v with
      | nil => exact h
      | cons c v => cases h
    | cons c w => cases h
  | literal text => exact scanLiteral_append h
  | digit | letter | whitespace | charClass _ => exact scanChar_append h

/-! ## Scans that run out -/

theorem scanLiteral_eq {es cs seen : List Char} (h : scanLiteral es cs = (.successful, seen)) :
    seen = es := by
  induction es generalizing cs seen with
  | nil => simpa [scanLiteral, eq_comm] using h
  | cons e es ih =>
    cases cs with
    | nil => cases h
    | cons c cs =>
      simp only [scanLiteral] at h
      split at h
      next hec =>
        obtain ⟨hs, rfl⟩ := Prod.mk.inj h
        rw [hec]
        exact congrArg (c :: ·) (ih (Prod.ext hs rfl))
      next => cases h

/-- Only a literal can be cut off in its middle. -/
theorem literal_or_nil_of_scan {t : Terminal} {cs seen : List Char} {atEnd : Bool}
    (h : t.scan cs atEnd = (.endOfInput, seen)) : (∃ text, t = .literal text) ∨ seen = [] := by
  cases t with
  | epsilon => cases h
  | endOfInput => cases atEnd <;> cases h
  | literal text => exact .inl ⟨text, rfl⟩
  | digit | letter | whitespace | charClass _ =>
    refine .inr ?_
    cases cs with
    | nil =>
      cases h
      rfl
    | cons c cs =>
      simp only [scan, scanChar] at h
      split at h <;> cases h

/-- A terminal that begins within `w` or right after it and goes on with the text `v`. -/
def Spans (t : Terminal) (w v : List Char) : Prop :=
  (∃ text, t = .literal text ∧ text.toList <+: w ++ v) ∨ ∃ c, v.head? = some c ∧ t.accepts c = true

theorem scanChar_accepts {p : Char → Bool} {w v seen : List Char}
    (h : scanChar p (w ++ v) = (.successful, seen)) (hw : (scanChar p w).1 = .endOfInput) :
    ∃ c, v.head? = some c ∧ p c = true := by
  cases w with
  | nil =>
    cases v with
    | nil => cases h
    | cons c v =>
      simp only [List.nil_append, scanChar, Prod.mk.injEq] at h
      refine ⟨c, rfl, ?_⟩
      by_contra hc
      rw [if_neg hc] at h
      cases h.1
  | cons c w =>
    simp only [scanChar] at hw
    split at hw <;> cases hw

/-- **A text that runs out is finished by one that goes on.** -/
theorem spans_of_scan {t : Terminal} {w v seen : List Char}
    (h : t.scan (w ++ v) (w ++ v).isEmpty = (.successful, seen))
    (hw : (t.scan w w.isEmpty).1 = .endOfInput) : t.Spans w v := by
  cases t with
  | epsilon => cases hw
  | endOfInput =>
    simp only [scan] at hw
    split at hw <;> cases hw
  | literal text =>
    have hstarts := scanLiteral_successful h
    rw [scanLiteral_eq h] at hstarts
    exact .inl ⟨text, rfl, hstarts⟩
  | digit | letter | whitespace | charClass _ => exact .inr (scanChar_accepts h hw)

theorem scanLiteral_endOfInput {es cs seen : List Char}
    (h : scanLiteral es cs = (.endOfInput, seen)) : seen = cs := by
  induction es generalizing cs seen with
  | nil => cases h
  | cons e es ih =>
    cases cs with
    | nil => exact (Prod.mk.inj h).2.symm
    | cons c cs =>
      simp only [scanLiteral] at h
      split at h
      next =>
        obtain ⟨hs, rfl⟩ := Prod.mk.inj h
        exact congrArg (c :: ·) (ih (Prod.ext hs rfl))
      next => cases h

/-- **A text that runs out** was looked at as a whole. -/
theorem scan_endOfInput {t : Terminal} {cs seen : List Char} {atEnd : Bool}
    (h : t.scan cs atEnd = (.endOfInput, seen)) : seen = cs := by
  cases t with
  | epsilon => cases h
  | endOfInput => cases atEnd <;> cases h
  | literal text => exact scanLiteral_endOfInput h
  | digit | letter | whitespace | charClass _ =>
    cases cs with
    | nil => exact (Prod.mk.inj h).2.symm
    | cons c cs =>
      simp only [scan, scanChar] at h
      split at h <;> cases h

/-! ## Successes and failures on a longer text -/

theorem scanLiteral_of_prefix {es cs : List Char} (h : es <+: cs) :
    scanLiteral es cs = (.successful, es) := by
  induction es generalizing cs with
  | nil => rw [scanLiteral]
  | cons e es ih =>
    obtain ⟨more, rfl⟩ := h
    rw [List.cons_append, scanLiteral, if_pos rfl, ih (List.prefix_append ..)]

/-- A success that lies within the shorter text is one on that text. -/
theorem scan_of_prefix {t : Terminal} {w v seen : List Char}
    (h : t.scan (w ++ v) (w ++ v).isEmpty = (.successful, seen)) (hseen : seen <+: w) :
    t.scan w w.isEmpty = (.successful, seen) := by
  cases t with
  | epsilon => exact h
  | endOfInput =>
    cases w with
    | nil =>
      cases v with
      | nil => exact h
      | cons c v => cases h
    | cons c w => cases h
  | literal text =>
    obtain rfl := scanLiteral_eq h
    exact scanLiteral_of_prefix hseen
  | digit | letter | whitespace | charClass _ =>
    cases w with
    | nil =>
      obtain rfl := List.prefix_nil.1 hseen
      cases v with
      | nil => cases h
      | cons c v => cases (Prod.mk.inj h).2
    | cons c w => exact h

/-- A success is one on any longer text, unless it is that of the end of input. -/
theorem scan_append_right {t : Terminal} {w seen : List Char}
    (h : t.scan w w.isEmpty = (.successful, seen)) (ht : t ≠ .endOfInput) (v : List Char) :
    t.scan (w ++ v) (w ++ v).isEmpty = (.successful, seen) := by
  cases t with
  | epsilon => exact h
  | endOfInput => exact absurd rfl ht
  | literal text =>
    have hstarts := scanLiteral_successful h
    obtain rfl := scanLiteral_eq h
    exact scanLiteral_of_prefix (hstarts.trans (List.prefix_append ..))
  | digit | letter | whitespace | charClass _ =>
    cases w with
    | nil => cases h
    | cons c w => exact h

theorem scanLiteral_failed {es cs seen : List Char} (h : scanLiteral es cs = (.failed, seen)) :
    ∃ common c, seen = common ++ [c] ∧ seen <+: cs ∧ (scanLiteral es common).1 = .endOfInput := by
  induction es generalizing cs seen with
  | nil => cases h
  | cons e es ih =>
    cases cs with
    | nil => cases h
    | cons c cs =>
      simp only [scanLiteral] at h
      split at h
      next hec =>
        obtain ⟨hs, rfl⟩ := Prod.mk.inj h
        obtain ⟨common, d, hseen, hstarts, hend⟩ := ih (Prod.ext hs rfl)
        refine ⟨c :: common, d, congrArg (c :: ·) hseen, ?_, ?_⟩
        · exact List.cons_prefix_cons.2 ⟨rfl, hstarts⟩
        · rw [scanLiteral, if_pos hec]
          exact hend
      next =>
        obtain ⟨-, rfl⟩ := Prod.mk.inj h
        exact ⟨[], c, rfl, ⟨cs, rfl⟩, rfl⟩

/-- **A failure covers what fits and one more character**; the part that fits, by itself, ends too
early.  Only the end of input fails without looking at a character. -/
theorem scan_failed {t : Terminal} {cs seen : List Char}
    (h : t.scan cs cs.isEmpty = (.failed, seen)) :
    t = .endOfInput ∧ seen = [] ∨ ∃ common c, seen = common ++ [c] ∧ seen <+: cs ∧
      (t.scan common common.isEmpty).1 = .endOfInput := by
  cases t with
  | epsilon => cases h
  | endOfInput => exact .inl ⟨rfl, (Prod.mk.inj h).2.symm⟩
  | literal text => exact .inr (scanLiteral_failed h)
  | digit | letter | whitespace | charClass _ =>
    cases cs with
    | nil => cases h
    | cons c cs =>
      obtain ⟨-, rfl⟩ := Prod.mk.inj h
      exact .inr ⟨[], c, rfl, ⟨cs, rfl⟩, rfl⟩

theorem scanLiteral_failed_append {es w v seen : List Char}
    (hw : (scanLiteral es w).1 = .endOfInput) (h : scanLiteral es (w ++ v) = (.failed, seen)) :
    ∃ common c, seen = common ++ [c] ∧ w <+: common := by
  induction es generalizing w seen with
  | nil => cases h
  | cons e es ih =>
    cases w with
    | nil =>
      obtain ⟨common, c, hseen, -⟩ := scanLiteral_failed h
      exact ⟨common, c, hseen, List.nil_prefix⟩
    | cons c w =>
      simp only [List.cons_append, scanLiteral] at h hw
      split at h
      next hec =>
        rw [if_pos hec] at hw
        obtain ⟨hs, rfl⟩ := Prod.mk.inj h
        obtain ⟨common, d, hseen, hstarts⟩ := ih hw (Prod.ext hs rfl)
        exact ⟨c :: common, d, congrArg (c :: ·) hseen, List.cons_prefix_cons.2 ⟨rfl, hstarts⟩⟩
      next hec =>
        rw [if_neg hec] at hw
        cases hw

theorem prefix_of_scanLiteral {es w : List Char} (hw : (scanLiteral es w).1 = .endOfInput) :
    w <+: es := by
  induction es generalizing w with
  | nil => cases hw
  | cons e es ih =>
    cases w with
    | nil => exact List.nil_prefix
    | cons c w =>
      simp only [scanLiteral] at hw
      split at hw
      next hec => exact List.cons_prefix_cons.2 ⟨hec.symm, ih hw⟩
      next => cases hw

/-- **A terminal that ran out of a text** gets beyond it on a longer one, if it does not run out of
that as well. -/
theorem scan_beyond {t : Terminal} {w v seen : List Char} {outcome : Outcome}
    (hw : (t.scan w w.isEmpty).1 = .endOfInput)
    (h : t.scan (w ++ v) (w ++ v).isEmpty = (outcome, seen)) :
    outcome = .endOfInput ∨ outcome = .successful ∧ w <+: seen ∨
      outcome = .failed ∧ ∃ common c, seen = common ++ [c] ∧ w <+: common := by
  cases t with
  | epsilon => cases hw
  | endOfInput =>
    simp only [scan] at hw
    split at hw <;> cases hw
  | literal text =>
    cases outcome with
    | successful =>
      obtain rfl := scanLiteral_eq h
      exact .inr (.inl ⟨rfl, prefix_of_scanLiteral hw⟩)
    | endOfInput => exact .inl rfl
    | failed => exact .inr (.inr ⟨rfl, scanLiteral_failed_append hw h⟩)
    | notParsed => exact absurd (congrArg Prod.fst h) (scan_ne_notParsed _ _ _)
  | digit | letter | whitespace | charClass _ =>
    cases w with
    | nil =>
      cases v with
      | nil => exact .inl (Prod.mk.inj h).1.symm
      | cons c v =>
        obtain ⟨houtcome, rfl⟩ := Prod.mk.inj h
        split at houtcome
        · exact .inr (.inl ⟨houtcome.symm, List.nil_prefix⟩)
        · exact .inr (.inr ⟨houtcome.symm, [], c, rfl, List.nil_prefix⟩)
    | cons c w =>
      simp only [scan, scanChar] at hw
      split at hw <;> cases hw

/-- **Whatever a scan comes to**, it looked at a part that the text starts with. -/
theorem prefix_of_scan {t : Terminal} {cs seen : List Char} {outcome : Outcome}
    (h : t.scan cs cs.isEmpty = (outcome, seen)) : seen <+: cs := by
  cases outcome with
  | successful => exact scan_successful h
  | endOfInput => exact (scan_endOfInput h) ▸ List.prefix_rfl
  | failed =>
    obtain ⟨-, rfl⟩ | ⟨_, _, -, hstarts, -⟩ := scan_failed h
    · exact List.nil_prefix
    · exact hstarts
  | notParsed => exact absurd (congrArg Prod.fst h) (scan_ne_notParsed _ _ _)

/-- The end of input is matched at the end only. -/
theorem scan_endOfInput_successful {cs seen : List Char}
    (h : endOfInput.scan cs cs.isEmpty = (.successful, seen)) : cs = [] := by
  cases cs with
  | nil => rfl
  | cons c cs => cases h

/-! ## The texts of a terminal -/

/-- **A terminal writes a text** if it matches all of that text wherever it stands. -/
def Writes : Terminal → List Char → Prop
  | epsilon, cs | endOfInput, cs => cs = []
  | literal text, cs => cs = text.toList
  | t, cs => ∃ c, cs = [c] ∧ t.accepts c = true

/-- What a terminal matched it writes. -/
theorem writes_of_scan {t : Terminal} {cs seen : List Char} {atEnd : Bool}
    (h : t.scan cs atEnd = (.successful, seen)) : t.Writes seen := by
  cases t with
  | epsilon | endOfInput => exact (Prod.mk.inj h).2.symm
  | literal text => exact scanLiteral_eq h
  | digit | letter | whitespace | charClass _ =>
    cases cs with
    | nil => cases h
    | cons c cs =>
      obtain ⟨hout, rfl⟩ := Prod.mk.inj h
      refine ⟨c, rfl, ?_⟩
      by_contra hc
      rw [if_neg hc] at hout
      cases hout

/-- What a terminal writes it matches in front of any text. -/
theorem scan_of_writes {t : Terminal} {cs : List Char} (h : t.Writes cs) (ht : t ≠ .endOfInput)
    (more : List Char) (atEnd : Bool) : t.scan (cs ++ more) atEnd = (.successful, cs) := by
  cases t with
  | epsilon =>
    obtain rfl : cs = [] := h
    rfl
  | endOfInput => exact absurd rfl ht
  | literal text =>
    obtain rfl : cs = text.toList := h
    exact scanLiteral_of_prefix (List.prefix_append ..)
  | digit | letter | whitespace | charClass _ =>
    obtain ⟨c, rfl, hc⟩ := h
    rw [List.cons_append, scan, scanChar, if_pos hc]

end Typeahead.Terminal
