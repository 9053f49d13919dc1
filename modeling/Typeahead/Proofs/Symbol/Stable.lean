import Typeahead.Proofs.Symbol.Scan
import Typeahead.Proofs.Text.Offset

/-!
# Proofs/Symbol/Stable — matching where the input goes on

A terminal is matched against what stands behind its place.  Once it was found, or some character
does not fit, nothing that follows can change this (`scan_append_eq`).  Only a terminal that ran out
of input may come to another end on a longer one.

For a literal there are three cases (`scanLiteral_cases`): the text begins with the literal, it ends
within the literal, or the two part at some character.
-/

namespace Typeahead

namespace Text

/-- **Two texts part** behind `common`, at the characters `x` and `y`. -/
def PartAt (a b common : List Char) (x y : Char) : Prop :=
  x ≠ y ∧ common ++ [x] <+: a ∧ common ++ [y] <+: b

/-- One of two texts begins with the other, or they part. -/
theorem prefix_or_partAt (a b : List Char) :
    a <+: b ∨ b <+: a ∨ ∃ common x y, PartAt a b common x y := by
  induction a generalizing b with
  | nil => exact .inl List.nil_prefix
  | cons c a ih =>
    cases b with
    | nil => exact .inr (.inl List.nil_prefix)
    | cons d b =>
      by_cases hcd : c = d
      · subst hcd
        obtain h | h | ⟨common, x, y, hxy, ha, hb⟩ := ih b
        · exact .inl (List.cons_prefix_cons.2 ⟨rfl, h⟩)
        · exact .inr (.inl (List.cons_prefix_cons.2 ⟨rfl, h⟩))
        · exact .inr (.inr ⟨c :: common, x, y, hxy, List.cons_prefix_cons.2 ⟨rfl, ha⟩,
            List.cons_prefix_cons.2 ⟨rfl, hb⟩⟩)
      · exact .inr (.inr ⟨[], c, d, hcd, List.cons_prefix_cons.2 ⟨rfl, List.nil_prefix⟩,
          List.cons_prefix_cons.2 ⟨rfl, List.nil_prefix⟩⟩)

variable {a b common cs : List Char} {x y : Char}

/-- What both texts begin with is not longer than the part in front of the two characters. -/
theorem PartAt.prefix_common (h : PartAt a b common x y) (ha : cs <+: a) (hb : cs <+: b) :
    cs <+: common := by
  obtain ⟨hxy, hx, hy⟩ := h
  have hcommon : common <+: a := (List.prefix_append ..).trans hx
  -- a longer one would go on with both characters
  refine List.prefix_of_prefix_length_le ha hcommon (Nat.not_lt.1 fun hlength => hxy ?_)
  have hle : ∀ z, (common ++ [z]).length ≤ cs.length := fun z => by
    rwa [List.length_append, List.length_singleton]
  have hax : common ++ [x] <+: cs := List.prefix_of_prefix_length_le hx ha (hle x)
  have hby : common ++ [y] <+: cs := List.prefix_of_prefix_length_le hy hb (hle y)
  have heq := (List.prefix_of_prefix_length_le hax hby (by simp)).eq_of_length (by simp)
  simpa using heq

theorem PartAt.not_prefix (h : PartAt a b common x y) : ¬a <+: b := by
  intro hab
  have hlength := (h.2.1.trans (h.prefix_common List.prefix_rfl hab)).length_le
  rw [List.length_append, List.length_singleton] at hlength
  exact Nat.not_succ_le_self _ hlength

theorem PartAt.append_right (h : PartAt a b common x y) (more : List Char) :
    PartAt a (b ++ more) common x y :=
  ⟨h.1, h.2.1, h.2.2.trans (List.prefix_append ..)⟩

end Text

open Text (PartAt)

namespace Terminal

variable {es cs common : List Char} {e c : Char}

/-! ## Literals -/

theorem scanLiteral_of_proper (h : cs <+: es) (hne : ¬es <+: cs) :
    scanLiteral es cs = (.endOfInput, cs) := by
  induction cs generalizing es with
  | nil =>
    cases es with
    | nil => exact absurd List.nil_prefix hne
    | cons e es => rfl
  | cons c cs ih =>
    obtain ⟨es, rfl⟩ := h
    have hne : ¬cs ++ es <+: cs := fun h => hne (List.cons_prefix_cons.2 ⟨rfl, h⟩)
    rw [List.cons_append, scanLiteral, if_pos rfl, ih (List.prefix_append ..) hne]

theorem scanLiteral_of_partAt (h : PartAt es cs common e c) :
    scanLiteral es cs = (.failed, common ++ [c]) := by
  obtain ⟨hec, ⟨es, rfl⟩, ⟨cs, rfl⟩⟩ := h
  induction common with
  | nil => exact if_neg hec
  | cons d common ih =>
    rw [List.cons_append, List.cons_append, List.cons_append, List.cons_append, scanLiteral,
      if_pos rfl, ih]

/-- **The verdict on a literal.**  The text begins with it, or ends within it, or the two part at
some character. -/
theorem scanLiteral_cases (es cs : List Char) :
    es <+: cs ∧ scanLiteral es cs = (.successful, es) ∨
    (cs <+: es ∧ ¬es <+: cs) ∧ scanLiteral es cs = (.endOfInput, cs) ∨
    ∃ common e c, PartAt es cs common e c ∧ scanLiteral es cs = (.failed, common ++ [c]) := by
  by_cases hes : es <+: cs
  · exact .inl ⟨hes, scanLiteral_of_prefix hes⟩
  · obtain h | h | ⟨common, e, c, h⟩ := Text.prefix_or_partAt es cs
    · exact absurd h hes
    · exact .inr (.inl ⟨⟨h, hes⟩, scanLiteral_of_proper h hes⟩)
    · exact .inr (.inr ⟨common, e, c, h, scanLiteral_of_partAt h⟩)

theorem scanLiteral_append_eq (h : (scanLiteral es cs).1 ≠ .endOfInput) (more : List Char) :
    scanLiteral es (cs ++ more) = scanLiteral es cs := by
  obtain ⟨hes, heq⟩ | ⟨-, heq⟩ | ⟨common, e, c, hpart, heq⟩ := scanLiteral_cases es cs
  · rw [heq, scanLiteral_of_prefix (hes.trans (List.prefix_append ..))]
  · exact absurd (congrArg Prod.fst heq) h
  · rw [heq, scanLiteral_of_partAt (hpart.append_right more)]

/-! ## All terminals -/

/-- **A verdict stands**, whatever follows the text, if the text did not run out. -/
theorem scan_append_eq {t : Terminal} (ht : t ≠ .endOfInput)
    (h : (t.scan cs cs.isEmpty).1 ≠ .endOfInput) (more : List Char) :
    t.scan (cs ++ more) (cs ++ more).isEmpty = t.scan cs cs.isEmpty := by
  cases t with
  | epsilon => rfl
  | endOfInput => exact absurd rfl ht
  | literal text => exact scanLiteral_append_eq h more
  | digit | letter | whitespace | charClass _ =>
    cases cs with
    | nil => exact absurd rfl h
    | cons c cs => rfl

/-- The match of a terminal at a place in a text, between what is before and what follows. -/
def matchBetween (t : Terminal) (before rest : List Char) : Match :=
  t.matchCursor ⟨before ++ rest, Text.byteLength before⟩

theorem matchBetween_eq (t : Terminal) (before rest : List Char) : t.matchBetween before rest =
    ⟨(t.scan rest rest.isEmpty).1, Text.byteLength before,
      String.ofList (t.scan rest rest.isEmpty).2⟩ := by
  rw [matchBetween, matchCursor, Cursor.remaining_append, Cursor.atEnd_append]
  rfl

theorem outcome_matchBetween (t : Terminal) (before rest : List Char) :
    (t.matchBetween before rest).outcome = (t.scan rest rest.isEmpty).1 := by
  rw [matchBetween_eq]

theorem matchBetween_append {t : Terminal} (ht : t ≠ .endOfInput) {before rest : List Char}
    (h : (t.matchBetween before rest).outcome ≠ .endOfInput) (more : List Char) :
    t.matchBetween before (rest ++ more) = t.matchBetween before rest := by
  rw [outcome_matchBetween] at h
  rw [matchBetween_eq, matchBetween_eq, scan_append_eq ht h]

/-- A terminal that runs out of input covers all that follows. -/
theorem text_matchBetween {t : Terminal} {before rest : List Char}
    (h : (t.matchBetween before rest).outcome = .endOfInput) :
    (t.matchBetween before rest).text = String.ofList rest := by
  rw [outcome_matchBetween] at h
  rw [matchBetween_eq]
  exact congrArg String.ofList (scan_endOfInput (Prod.ext h rfl))

theorem matchBetween_literal {text : String} {before rest seen : List Char} {outcome : Outcome}
    (h : scanLiteral text.toList rest = (outcome, seen)) :
    (literal text).matchBetween before rest
      = ⟨outcome, Text.byteLength before, String.ofList seen⟩ := by
  rw [matchBetween_eq, scan, h]

/-- **Matches are stable when the input goes on.**  A terminal other than the end of input that was
found, or did not fit, matches the same on every longer input.  If it ran out of input it covers all
that was left; a literal then is longer than that and begins with it, and is found on some longer
input.  A literal is found just where the input begins with it; where neither begins with the other,
it fails with what both begin with and one more character. -/
theorem matchBetween_stable {t : Terminal} (ht : t ≠ .endOfInput) (before rest : List Char) :
    ((t.matchBetween before rest).outcome = .successful ∨
        (t.matchBetween before rest).outcome = .failed →
      ∀ more, t.matchBetween before (rest ++ more) = t.matchBetween before rest) ∧
    ((t.matchBetween before rest).outcome = .endOfInput →
      (t.matchBetween before rest).text = String.ofList rest ∧
      ∀ text, t = .literal text → rest <+: text.toList ∧ rest ≠ text.toList ∧
        ∃ more, (t.matchBetween before (rest ++ more)).outcome = .successful) ∧
    ∀ text, t = .literal text →
      ((t.matchBetween before rest).outcome = .successful ↔ text.toList <+: rest) ∧
      (¬text.toList <+: rest → ¬rest <+: text.toList →
        ∃ common e c, PartAt text.toList rest common e c ∧
          (∀ cs, cs <+: text.toList → cs <+: rest → cs <+: common) ∧
          t.matchBetween before rest
            = ⟨.failed, Text.byteLength before, String.ofList (common ++ [c])⟩) := by
  refine ⟨fun h more => matchBetween_append ht ?_ more, fun h => ⟨text_matchBetween h, ?_⟩, ?_⟩
  · intro hend
    rw [hend] at h
    rcases h with h | h <;> cases h
  · rintro text rfl
    obtain ⟨-, heq⟩ | ⟨⟨⟨more, hmore⟩, hne⟩, -⟩ | ⟨_, _, _, -, heq⟩ :=
      scanLiteral_cases text.toList rest
    · rw [matchBetween_literal heq] at h
      cases h
    · refine ⟨⟨more, hmore⟩, fun heq => hne (heq ▸ List.prefix_rfl), more, ?_⟩
      have hstarts : text.toList <+: rest ++ more := hmore ▸ List.prefix_rfl
      have hscan := scanLiteral_of_prefix hstarts
      rw [matchBetween_literal hscan]
    · rw [matchBetween_literal heq] at h
      cases h
  · rintro text rfl
    obtain ⟨hes, heq⟩ | ⟨⟨hrest, hne⟩, heq⟩ | ⟨common, e, c, hpart, heq⟩ :=
      scanLiteral_cases text.toList rest
    · rw [matchBetween_literal heq]
      exact ⟨iff_of_true rfl hes, fun hno => absurd hes hno⟩
    · rw [matchBetween_literal heq]
      exact ⟨iff_of_false nofun hne, fun _ hno => absurd hrest hno⟩
    · rw [matchBetween_literal heq]
      refine ⟨iff_of_false nofun hpart.not_prefix, fun _ _ => ?_⟩
      exact ⟨common, e, c, hpart, fun cs => hpart.prefix_common, rfl⟩

/-- Behind `é` the literal `vif` is cut off in `vi`, and fails in `vier` however that goes on. -/
theorem matchBetween_stable_vif : literal "vif" ≠ .endOfInput ∧
    ((literal "vif").matchBetween "é".toList "vi".toList = ⟨.endOfInput, 2, "vi"⟩ ∧
      ∃ more, ((literal "vif").matchBetween "é".toList ("vi".toList ++ more)).outcome
        = .successful) ∧
    ∀ more, (literal "vif").matchBetween "é".toList ("vier".toList ++ more)
      = ⟨.failed, 2, "vie"⟩ := by
  have hne : literal "vif" ≠ .endOfInput := nofun
  have hcut : (literal "vif").matchBetween "é".toList "vi".toList = ⟨.endOfInput, 2, "vi"⟩ := by
    decide
  have hfail : (literal "vif").matchBetween "é".toList "vier".toList = ⟨.failed, 2, "vie"⟩ := by
    decide
  obtain ⟨-, hends, -⟩ := matchBetween_stable hne "é".toList "vi".toList
  obtain ⟨-, hliteral⟩ := hends (by rw [hcut])
  obtain ⟨-, -, hmore⟩ := hliteral "vif" rfl
  obtain ⟨hstable, -, -⟩ := matchBetween_stable hne "é".toList "vier".toList
  refine ⟨hne, ⟨hcut, hmore⟩, fun more => ?_⟩
  rw [hstable (.inr (by rw [hfail])), hfail]

end Terminal

end Typeahead
