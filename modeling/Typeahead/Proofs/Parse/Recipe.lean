import Typeahead.Parse.Context
import Mathlib.Data.List.TakeWhile
import Mathlib.Logic.Relation

/-!
# Proofs/Parse/Recipe — answers from a record of those already given

To complete a part, other parts are asked for and the answers are put together (`Recipe`).  A
record of all answers is kept, in which a part under way stands as having none (`Recipe.Answers`).

Without a record a part would be completed anew whenever it is asked for, except within itself
(`Recipe.Plain`).  A part that no other part leads to and back, and that leads to no such part,
always gets this answer (`Answers.plain`).  So two records that differ only about such parts give
the same answers (`Answers.alike`), and answers do not depend on what was asked before, if it has
no circle in common with them (`Answers.eq_of_apart`).  About the parts on a circle nothing of the
kind holds: what is under way when one of them is met decides what is put on record.
-/

namespace Typeahead

/-- The answers on record. -/
abbrev Answered := List (Part × Option Completion)

/-- **How parts are completed**: the parts that a part asks for, in order, and what is made of the
answers. -/
structure Recipe where
  asks : Part → List Part
  make : Part → List (Option Completion) → Option Completion

namespace Recipe

variable {R : Recipe} {k k' k₁ k₁' k₂ k₂' : Answered} {P Q : Part} {Ps : List Part}
  {v w : Option Completion} {vs us ws : List (Option Completion)} {qs Qs S : List Part}

/-- **The answers to parts asked for one after the other**, and the record before and after.  An
answer on record is repeated; any other part goes on record without an answer before it asks for
more, and with its answer after that. -/
inductive Answers (R : Recipe) :
    Answered → List Part → List (Option Completion) → Answered → Prop
  | nil (k : Answered) : Answers R k [] [] k
  | known {k k' : Answered} {P : Part} {Ps : List Part} {v : Option Completion}
    {vs : List (Option Completion)} (hP : k.lookup P = some v) (h : Answers R k Ps vs k') :
    Answers R k (P :: Ps) (v :: vs) k'
  | anew {k k₁ k' : Answered} {P : Part} {Ps : List Part} {us vs : List (Option Completion)}
    (hP : k.lookup P = none) (hasks : Answers R ((P, none) :: k) (R.asks P) us k₁)
    (h : Answers R ((P, R.make P us) :: k₁) Ps vs k') :
    Answers R k (P :: Ps) (R.make P us :: vs) k'

/-- **The answers without a record**, for parts that `P` asks for: none for `P` itself, and for
every other part what it makes of the answers it gets. -/
inductive Plain (R : Recipe) : Part → List Part → List (Option Completion) → Prop
  | nil (P : Part) : Plain R P [] []
  | self {P : Part} {Qs : List Part} {vs : List (Option Completion)} (h : Plain R P Qs vs) :
    Plain R P (P :: Qs) (none :: vs)
  | other {P Q : Part} {Qs : List Part} {us vs : List (Option Completion)} (hne : Q ≠ P)
    (hasks : Plain R Q (R.asks Q) us) (h : Plain R P Qs vs) :
    Plain R P (Q :: Qs) (R.make Q us :: vs)

theorem Plain.unique (h : R.Plain P Ps us) (h' : R.Plain P Ps vs) : us = vs := by
  induction h generalizing vs with
  | nil => cases h'; rfl
  | self _ ih =>
    cases h' with
    | self h' => rw [ih h']
    | other hne => exact absurd rfl hne
  | other hne _ _ ihasks ih =>
    cases h' with
    | self => exact absurd rfl hne
    | other _ hasks' h' => rw [ihasks hasks', ih h']

/-- **The answers are determined** by the record and the parts asked for. -/
theorem Answers.unique (h : R.Answers k Ps vs k') (h' : R.Answers k Ps ws k₁) :
    vs = ws ∧ k' = k₁ := by
  induction h generalizing ws k₁ with
  | nil =>
    cases h'
    exact ⟨rfl, rfl⟩
  | known hP _ ih =>
    cases h' with
    | known hP' h' =>
      obtain rfl := Option.some.inj (hP.symm.trans hP')
      obtain ⟨rfl, rfl⟩ := ih h'
      exact ⟨rfl, rfl⟩
    | anew hP' => cases hP.symm.trans hP'
  | anew hP _ _ ihasks ih =>
    cases h' with
    | known hP' => cases hP.symm.trans hP'
    | anew _ hasks' h' =>
      obtain ⟨rfl, rfl⟩ := ihasks hasks'
      obtain ⟨rfl, rfl⟩ := ih h'
      exact ⟨rfl, rfl⟩

theorem Answers.cons (h : R.Answers k [P] [v] k₁) (h' : R.Answers k₁ Ps vs k') :
    R.Answers k (P :: Ps) (v :: vs) k' := by
  cases h with
  | known hk h =>
    cases h
    exact .known hk h'
  | anew hk hasks h =>
    cases h
    exact .anew hk hasks h'

/-- The first part is asked for alone. -/
theorem Answers.of_cons (h : R.Answers k (P :: Ps) vs k') : ∃ v ws k₁,
    vs = v :: ws ∧ R.Answers k [P] [v] k₁ ∧ R.Answers k₁ Ps ws k' := by
  cases h with
  | known hP h => exact ⟨_, _, _, rfl, .known hP (.nil _), h⟩
  | anew hP hasks h => exact ⟨_, _, _, rfl, .anew hP hasks (.nil _), h⟩

theorem Answers.of_append (h : R.Answers k (Ps ++ Qs) vs k') : ∃ us ws k₁,
    vs = us ++ ws ∧ R.Answers k Ps us k₁ ∧ R.Answers k₁ Qs ws k' := by
  induction Ps generalizing k vs with
  | nil => exact ⟨[], vs, k, rfl, .nil k, h⟩
  | cons P Ps ih =>
    obtain ⟨v, vs, k₁, rfl, hP, h⟩ := h.of_cons
    obtain ⟨us, ws, k₂, rfl, hPs, hQs⟩ := ih h
    exact ⟨v :: us, ws, k₂, rfl, hP.cons hPs, hQs⟩

/-! ## Parts that lead to each other -/

/-- One part leads to another: it asks for it, or for a part that leads to it. -/
def Leads (R : Recipe) : Part → Part → Prop := Relation.ReflTransGen fun P Q => Q ∈ R.asks P

/-- One of several parts leads to a part. -/
def LedTo (R : Recipe) (qs : List Part) (P : Part) : Prop := ∃ q ∈ qs, R.Leads q P

/-- A part lies on a circle with another. -/
def Circular (R : Recipe) (P : Part) : Prop := ∃ Q, Q ≠ P ∧ R.Leads P Q ∧ R.Leads Q P

/-- A part leads to no circle. -/
def Straight (R : Recipe) (P : Part) : Prop := ∀ Q, R.Leads P Q → ¬ R.Circular Q

theorem Leads.of_asks (hQ : Q ∈ R.asks P) : R.Leads P Q := .single hQ

theorem Leads.of_ledTo (h : R.LedTo (R.asks P) Q) : R.Leads P Q := by
  obtain ⟨T, hT, hTQ⟩ := h
  exact .head hT hTQ

theorem ledTo_cons : R.LedTo (P :: Ps) Q ↔ R.Leads P Q ∨ R.LedTo Ps Q := by simp [LedTo]

theorem LedTo.of_mem (hP : P ∈ qs) : R.LedTo qs P := ⟨P, hP, .refl⟩

theorem LedTo.leads (h : R.LedTo qs P) (hPQ : R.Leads P Q) : R.LedTo qs Q := by
  obtain ⟨q, hq, hqsP⟩ := h
  exact ⟨q, hq, hqsP.trans hPQ⟩

/-- What asking keeps, leading keeps. -/
theorem Leads.of_closed {p : Part → Prop} (h : R.Leads P Q)
    (hp : ∀ P, p P → ∀ Q ∈ R.asks P, p Q) (hP : p P) : p Q := by
  induction h with
  | refl => exact hP
  | tail _ hasks ih => exact hp _ ih _ hasks

theorem Leads.eq_of_asks_nil (h : R.Leads P Q) (hP : R.asks P = []) : Q = P :=
  h.of_closed (p := (· = P)) (by simp [hP]) rfl

theorem Straight.leads (h : R.Straight P) (hPQ : R.Leads P Q) : R.Straight Q :=
  fun _ hQ => h _ (hPQ.trans hQ)

theorem Straight.of_asks (h : R.Straight P) (hQ : Q ∈ R.asks P) : R.Straight Q :=
  h.leads (.of_asks hQ)

/-- **To ask for itself** makes no circle. -/
theorem Straight.of_self (h : ∀ Q ∈ R.asks P, Q = P ∨ R.Straight Q ∧ ¬ R.Leads Q P) :
    R.Straight P := by
  have hleads : ∀ T, R.Leads P T → T = P ∨ R.Straight T ∧ ¬ R.Leads T P := by
    intro T hPT
    refine hPT.of_closed (p := fun T => T = P ∨ R.Straight T ∧ ¬ R.Leads T P) ?_ (.inl rfl)
    rintro T (rfl | ⟨hT, hback⟩) Q hQ
    · exact h Q hQ
    · exact .inr ⟨hT.of_asks hQ, fun hQP => hback (.head hQ hQP)⟩
  rintro T hPT ⟨U, hne, hTU, hUT⟩
  rcases hleads T hPT with rfl | ⟨hT, -⟩
  · obtain ⟨-, hback⟩ := (hleads U hTU).resolve_left hne
    exact hback hUT
  · exact hT T .refl ⟨U, hne, hTU, hUT⟩

/-- What leads to a part and back is the part itself. -/
theorem Straight.eq_of_leads (h : R.Straight P) (hQP : R.Leads Q P) (hPQ : R.Leads P Q) :
    Q = P := by
  by_cases heq : Q = P
  · exact heq
  · exact absurd ⟨Q, heq, hPQ, hQP⟩ (h P .refl)

/-- **A part that the parts under way lead to** is one of them, or leads to a circle, or leads to
none of them and to no circle. -/
theorem underWay_or_straight (hS : ∀ Q ∈ S, R.Leads Q P) :
    (P ∈ S ∨ ¬ R.Straight P) ∨ R.Straight P ∧ ∀ T, R.Leads P T → T ∉ S := by
  by_cases hP : P ∈ S ∨ ¬ R.Straight P
  · exact .inl hP
  · obtain ⟨hmem, hP⟩ := not_or.1 hP
    have hP := Classical.not_not.1 hP
    exact .inr ⟨hP, fun T hPT hT => hmem (hP.eq_of_leads (hS T hT) hPT ▸ hT)⟩

/-! ## What becomes of the record -/

theorem lookup_cons_self : ((P, v) :: k).lookup P = some v := by simp

theorem lookup_cons_of_ne (h : Q ≠ P) : ((P, v) :: k).lookup Q = k.lookup Q := by
  rw [List.lookup_cons, beq_false_of_ne h]

/-- **An answer on record stays.** -/
theorem Answers.lookup_eq_some (h : R.Answers k Ps vs k') (hQ : k.lookup Q = some v) :
    k'.lookup Q = some v := by
  induction h with
  | nil => exact hQ
  | known _ _ ih => exact ih hQ
  | anew hP _ _ ihasks ih =>
    have hne : Q ≠ _ := fun heq => by rw [heq, hP] at hQ; cases hQ
    apply ih
    rw [lookup_cons_of_ne hne]
    apply ihasks
    rwa [lookup_cons_of_ne hne]

/-- **What is not led to stays as it is.** -/
theorem Answers.lookup_eq (h : R.Answers k Ps vs k') (hQ : ¬ R.LedTo Ps Q) :
    k'.lookup Q = k.lookup Q := by
  induction h with
  | nil => rfl
  | known _ _ ih =>
    rw [ledTo_cons, not_or] at hQ
    exact ih hQ.2
  | @anew _ _ _ P _ _ _ _ _ _ ihasks ih =>
    rw [ledTo_cons, not_or] at hQ
    have hne : Q ≠ P := by rintro rfl; exact hQ.1 .refl
    rw [ih hQ.2, lookup_cons_of_ne hne, ihasks fun h => hQ.1 (.of_ledTo h), lookup_cons_of_ne hne]

/-! ## Parts that lead to no circle -/

/-- **A record is sound** while the parts `S` are under way: the other parts have the answers that
they get without a record, if they lead to no circle. -/
def Sound (R : Recipe) (k : Answered) (S : List Part) : Prop :=
  ∀ P v, k.lookup P = some v → P ∉ S → R.Straight P →
    ∃ us, R.Plain P (R.asks P) us ∧ v = R.make P us

theorem sound_nil (S : List Part) : R.Sound [] S := fun _ _ h => by cases h

/-- A part that comes under way. -/
theorem Sound.enter (h : R.Sound k S) : R.Sound ((P, none) :: k) (P :: S) := by
  intro Q v hQ hmem
  rw [List.mem_cons, not_or] at hmem
  rw [lookup_cons_of_ne hmem.1] at hQ
  exact h Q v hQ hmem.2

/-- A part that is under way no more. -/
theorem Sound.leave (h : R.Sound k (P :: S))
    (hP : P ∉ S → R.Straight P → ∃ us, R.Plain P (R.asks P) us ∧ v = R.make P us) :
    R.Sound ((P, v) :: k) S := by
  intro Q w hQ hmem hstraight
  by_cases heq : Q = P
  · subst heq
    rw [lookup_cons_self, Option.some.injEq] at hQ
    exact hQ ▸ hP hmem hstraight
  · rw [lookup_cons_of_ne heq] at hQ
    exact h Q w hQ (by simp [heq, hmem]) hstraight

/-- **Parts that lead to no circle** get the answers that they get without a record, and the record
stays sound.  None of them leads to a part under way, except for `P` that asks for them. -/
theorem Answers.plain (h : R.Answers k Ps vs k') (hsound : R.Sound k S)
    (hP : k.lookup P = some none) (hstraight : ∀ Q ∈ Ps, R.Straight Q)
    (hapart : ∀ Q ∈ Ps, Q ≠ P → ∀ T, R.Leads Q T → T ∉ S) :
    R.Plain P Ps vs ∧ R.Sound k' S := by
  induction h generalizing P S with
  | nil => exact ⟨.nil P, hsound⟩
  | @known k k' Q Qs v vs hQ _ ih =>
    obtain ⟨hQs, hstraight⟩ := List.forall_mem_cons.1 hstraight
    obtain ⟨hQapart, hapart⟩ := List.forall_mem_cons.1 hapart
    obtain ⟨hplain, hsound'⟩ := ih hsound hP hstraight hapart
    refine ⟨?_, hsound'⟩
    by_cases heq : Q = P
    · subst heq
      rw [hP, Option.some.injEq] at hQ
      exact hQ ▸ .self hplain
    · obtain ⟨us, hus, rfl⟩ := hsound Q v hQ (hQapart heq Q .refl) hQs
      exact .other heq hus hplain
  | @anew k k₁ k' Q Qs us vs hQ hasks _ ihasks ih =>
    obtain ⟨hQs, hstraight⟩ := List.forall_mem_cons.1 hstraight
    obtain ⟨hQapart, hapart⟩ := List.forall_mem_cons.1 hapart
    have hne : Q ≠ P := by rintro rfl; rw [hP] at hQ; cases hQ
    obtain ⟨hus, hsound₁⟩ := ihasks hsound.enter lookup_cons_self (fun T hT => hQs.of_asks hT)
      fun T hT hTQ T' hT' hmem => by
        rcases List.mem_cons.1 hmem with rfl | hmem
        · exact hTQ (hQs.eq_of_leads hT' (.of_asks hT))
        · exact hQapart hne T' (.head hT hT') hmem
    have hP₁ : k₁.lookup P = some none := by
      apply hasks.lookup_eq_some
      rwa [lookup_cons_of_ne hne.symm]
    obtain ⟨hplain, hsound'⟩ := ih (hsound₁.leave fun _ _ => ⟨us, hus, rfl⟩)
      (by rwa [lookup_cons_of_ne hne.symm]) hstraight hapart
    exact ⟨.other hne hus hplain, hsound'⟩

/-! ## Two records -/

/-- Two records say the same about the parts under way and those that lead to a circle, among the
parts that `qs` lead to. -/
def Agrees (R : Recipe) (qs S : List Part) (k₁ k₂ : Answered) : Prop :=
  ∀ P, R.LedTo qs P → P ∈ S ∨ ¬ R.Straight P → k₁.lookup P = k₂.lookup P

/-- **A part that leads to no circle is completed anew** as it is without a record.  This concerns
no part under way. -/
theorem Answers.completes (h : R.Answers ((P, none) :: k) (R.asks P) us k')
    (hsound : R.Sound k S) (hP : R.Straight P) (hapart : ∀ T, R.Leads P T → T ∉ S) :
    R.Plain P (R.asks P) us ∧ R.Sound ((P, R.make P us) :: k') S ∧
      R.Agrees qs S ((P, R.make P us) :: k') k := by
  obtain ⟨hus, hsound'⟩ := h.plain hsound.enter lookup_cons_self (fun T hT => hP.of_asks hT)
    fun T hT hne T' hT' hmem => by
      rcases List.mem_cons.1 hmem with rfl | hmem
      · exact hne (hP.eq_of_leads hT' (.of_asks hT))
      · exact hapart T' (.head hT hT') hmem
  refine ⟨hus, hsound'.leave fun _ _ => ⟨us, hus, rfl⟩, fun Q _ hmem => ?_⟩
  have hnot : ¬ R.Leads P Q := fun hPQ => hmem.elim (hapart Q hPQ) fun hQ => hQ (hP.leads hPQ)
  have hne : Q ≠ P := by rintro rfl; exact hnot .refl
  rw [lookup_cons_of_ne hne, h.lookup_eq fun hled => hnot (.of_ledTo hled), lookup_cons_of_ne hne]

/-- The first of several parts, if it leads to no circle. -/
theorem Answers.head_straight (qs : List Part) (h : R.Answers k (P :: Ps) vs k')
    (hsound : R.Sound k S) (hP : R.Straight P) (hapart : ∀ T, R.Leads P T → T ∉ S) : ∃ us ws k₁,
      vs = R.make P us :: ws ∧ R.Plain P (R.asks P) us ∧ R.Answers k₁ Ps ws k' ∧ R.Sound k₁ S ∧
      R.Agrees qs S k₁ k := by
  cases h with
  | known hk h =>
    obtain ⟨us, hus, rfl⟩ := hsound P _ hk (hapart P .refl) hP
    exact ⟨us, _, k, rfl, hus, h, hsound, fun _ _ _ => rfl⟩
  | anew _ hasks h =>
    obtain ⟨hus, hsound', hagrees⟩ := hasks.completes hsound hP hapart
    exact ⟨_, _, _, rfl, hus, h, hsound', hagrees⟩

/-- **Two records are alike**: both are sound, and they agree about all other parts. -/
structure Alike (R : Recipe) (qs S : List Part) (k₁ k₂ : Answered) : Prop where
  left : R.Sound k₁ S
  right : R.Sound k₂ S
  agrees : R.Agrees qs S k₁ k₂

/-- A part comes under way. -/
theorem Alike.enter (h : R.Alike qs S k₁ k₂) (P : Part) :
    R.Alike qs (P :: S) ((P, none) :: k₁) ((P, none) :: k₂) where
  left := h.left.enter
  right := h.right.enter
  agrees Q hQ hmem := by
    by_cases heq : Q = P
    · rw [heq, lookup_cons_self, lookup_cons_self]
    · rw [lookup_cons_of_ne heq, lookup_cons_of_ne heq]
      exact h.agrees Q hQ (by simpa [heq] using hmem)

/-- A part is under way no more. -/
theorem Alike.leave (h : R.Alike qs (P :: S) k₁ k₂) (hP : P ∈ S ∨ ¬ R.Straight P)
    (v : Option Completion) : R.Alike qs S ((P, v) :: k₁) ((P, v) :: k₂) where
  left := h.left.leave fun hmem hstraight => absurd hstraight (hP.resolve_left hmem)
  right := h.right.leave fun hmem hstraight => absurd hstraight (hP.resolve_left hmem)
  agrees Q hQ hmem := by
    rw [List.lookup_cons, List.lookup_cons,
      h.agrees Q hQ (hmem.imp_left (List.mem_cons_of_mem _))]

/-- The first of several parts, if it leads to no circle, when it has been completed on the other
record. -/
theorem Alike.head_straight (h : R.Alike qs S k₁ k₂) (hus : R.Plain P (R.asks P) us)
    (hleft : R.Sound k₁' S) (hagrees : R.Agrees qs S k₁' k₁) (h₂ : R.Answers k₂ (P :: Ps) ws k₂')
    (hP : R.Straight P) (hapart : ∀ T, R.Leads P T → T ∉ S) : ∃ ws' k,
      ws = R.make P us :: ws' ∧ R.Answers k Ps ws' k₂' ∧ R.Alike qs S k₁' k := by
  obtain ⟨us', ws', k, rfl, hus', hrest, hright, hagrees'⟩ :=
    h₂.head_straight qs h.right hP hapart
  obtain rfl := hus.unique hus'
  refine ⟨ws', k, rfl, hrest, hleft, hright, fun Q hQ hmem => ?_⟩
  rw [hagrees Q hQ hmem, h.agrees Q hQ hmem, hagrees' Q hQ hmem]

/-- **Records that are alike give the same answers**, and are alike afterwards. -/
theorem Answers.alike (h₁ : R.Answers k₁ Ps vs k₁') (h₂ : R.Answers k₂ Ps ws k₂')
    (h : R.Alike qs S k₁ k₂) (hqs : ∀ P ∈ Ps, R.LedTo qs P) (hS : ∀ P ∈ Ps, ∀ Q ∈ S, R.Leads Q P) :
    vs = ws ∧ R.Alike qs S k₁' k₂' := by
  induction h₁ generalizing k₂ ws k₂' S with
  | nil =>
    cases h₂
    exact ⟨rfl, h⟩
  | @known k₁ k₁' P Ps v vs hk _ ih =>
    obtain ⟨hqsP, hqsPs⟩ := List.forall_mem_cons.1 hqs
    obtain ⟨hSP, hSPs⟩ := List.forall_mem_cons.1 hS
    rcases underWay_or_straight hSP with hP | ⟨hP, hapart⟩
    · rw [h.agrees P hqsP hP] at hk
      cases h₂ with
      | known hk₂ h₂ =>
        obtain rfl := Option.some.inj (hk₂.symm.trans hk)
        obtain ⟨rfl, hafter⟩ := ih h₂ h hqsPs hSPs
        exact ⟨rfl, hafter⟩
      | anew hk₂ => cases hk.symm.trans hk₂
    · obtain ⟨us, hus, rfl⟩ := h.left P v hk (hapart P .refl) hP
      obtain ⟨ws, k, rfl, h₂, halike⟩ :=
        h.head_straight hus h.left (fun _ _ _ => rfl) h₂ hP hapart
      obtain ⟨rfl, hafter⟩ := ih h₂ halike hqsPs hSPs
      exact ⟨rfl, hafter⟩
  | @anew k₁ k k₁' P Ps us vs hk hasks _ ihasks ih =>
    obtain ⟨hqsP, hqsPs⟩ := List.forall_mem_cons.1 hqs
    obtain ⟨hSP, hSPs⟩ := List.forall_mem_cons.1 hS
    rcases underWay_or_straight hSP with hP | ⟨hP, hapart⟩
    · rw [h.agrees P hqsP hP] at hk
      cases h₂ with
      | known hk₂ => cases hk.symm.trans hk₂
      | anew _ hasks₂ h₂ =>
        obtain ⟨rfl, hasked⟩ := ihasks hasks₂ (h.enter P)
          (fun T hT => hqsP.leads (.of_asks hT)) fun T hT =>
            List.forall_mem_cons.2 ⟨.of_asks hT, fun Q hQ => (hSP Q hQ).tail hT⟩
        obtain ⟨rfl, hafter⟩ := ih h₂ (hasked.leave hP _) hqsPs hSPs
        exact ⟨rfl, hafter⟩
    · obtain ⟨hus, hleft, hagrees⟩ := hasks.completes h.left hP hapart
      obtain ⟨ws, k, rfl, h₂, halike⟩ := h.head_straight hus hleft hagrees h₂ hP hapart
      obtain ⟨rfl, hafter⟩ := ih h₂ halike hqsPs hSPs
      exact ⟨rfl, hafter⟩

/-- **Every record is sound** when nothing is under way. -/
theorem Answers.sound (h : R.Answers [] Ps vs k) : R.Sound k [] :=
  (h.alike h ⟨sound_nil [], sound_nil [], fun _ _ _ => rfl⟩ (fun _ => .of_mem)
    fun _ _ _ => nofun).2.left

/-- **Answers do not depend on what was asked before**, if no circle is led to both then and now. -/
theorem Answers.eq_of_apart (hbefore : R.Answers [] Ps us k) (h : R.Answers k Qs vs k₁)
    (h' : R.Answers [] Qs ws k₂)
    (hapart : ∀ T, R.LedTo Ps T → R.LedTo Qs T → ¬ R.Circular T) : vs = ws := by
  refine (h.alike h' ⟨hbefore.sound, sound_nil [], fun T hT hmem => ?_⟩ (fun _ => .of_mem)
    fun _ _ _ => nofun).1
  have hnot : ¬ R.LedTo Ps T := fun hled => hmem.resolve_left List.not_mem_nil fun U hTU =>
    hapart U (hled.leads hTU) (hT.leads hTU)
  exact hbefore.lookup_eq hnot

/-- The first answer is on record afterwards. -/
theorem Answers.lookup_head (h : R.Answers k (P :: Ps) (v :: vs) k') : k'.lookup P = some v := by
  cases h with
  | known hP h => exact h.lookup_eq_some hP
  | anew _ _ h => exact h.lookup_eq_some lookup_cons_self

/-- An answer on record is given. -/
theorem Answers.eq_of_lookup (h : R.Answers k [P] [v] k') (hP : k.lookup P = some w) : v = w := by
  cases h with
  | known hP' => exact Option.some.inj (hP'.symm.trans hP)
  | anew hP' => cases hP'.symm.trans hP

/-- **An answer is as it is without anything asked before**, if this shares no circle with what had
been asked when the part was first asked for. -/
theorem Answers.eq_fresh (hbefore : R.Answers [] Ps us k) (h : R.Answers k [P] [v] k₁)
    (hfresh : R.Answers [] [P] [w] k₂)
    (hapart : ∀ T, R.LedTo (Ps.takeWhile (· ≠ P)) T → R.Leads P T → ¬ R.Circular T) : v = w := by
  have hapart : ∀ T, R.LedTo (Ps.takeWhile (· ≠ P)) T → R.LedTo [P] T → ¬ R.Circular T := by
    simpa [LedTo] using hapart
  by_cases hmem : P ∈ Ps
  · obtain ⟨Qs, Rs, rfl, hnot⟩ := List.eq_append_cons_of_mem hmem
    have hfirst : (Qs ++ P :: Rs).takeWhile (· ≠ P) = Qs := by
      rw [List.takeWhile_append_of_pos fun Q hQ => decide_eq_true (ne_of_mem_of_not_mem hQ hnot)]
      simp
    rw [hfirst] at hapart
    obtain ⟨us, ws, k', -, hQs, hPs⟩ := hbefore.of_append
    obtain ⟨v', ws', k'', -, hP, hRs⟩ := hPs.of_cons
    obtain rfl := List.head_eq_of_cons_eq (hQs.eq_of_apart hP hfresh hapart)
    exact h.eq_of_lookup (hRs.lookup_eq_some hP.lookup_head)
  · have hall : Ps.takeWhile (· ≠ P) = Ps :=
      List.takeWhile_eq_self_iff.2 fun Q hQ => decide_eq_true (ne_of_mem_of_not_mem hQ hmem)
    rw [hall] at hapart
    exact List.head_eq_of_cons_eq (hbefore.eq_of_apart h hfresh hapart)

/-! ## A circle of two parts -/

/-- A part that asks for nothing. -/
theorem Answers.of_asks_nil (hP : k.lookup P = none) (hasks : R.asks P = []) :
    R.Answers k [P] [R.make P []] ((P, R.make P []) :: (P, none) :: k) := by
  refine .anew hP ?_ (.nil _)
  rw [hasks]
  exact .nil _

/-- Parts that ask for nothing get the answers that they have on their own. -/
theorem exists_answers_of_asks_nil
    (hPs : ∀ P ∈ Ps, R.asks P = [])
    (hk : ∀ P ∈ Ps, k.lookup P = none ∨ k.lookup P = some (R.make P [])) :
    ∃ k', R.Answers k Ps (Ps.map fun P => R.make P []) k' ∧
      ∀ P ∈ Ps, k'.lookup P = some (R.make P []) := by
  induction Ps generalizing k with
  | nil => exact ⟨k, .nil k, List.forall_mem_nil _⟩
  | cons P Ps ih =>
    obtain ⟨hP, hPs⟩ := List.forall_mem_cons.1 hPs
    obtain ⟨hkP, hk⟩ := List.forall_mem_cons.1 hk
    rcases hkP with hkP | hkP
    · have hanswer := Answers.of_asks_nil hkP hP
      obtain ⟨k', h, hknown⟩ := ih (k := (P, R.make P []) :: (P, none) :: k) hPs fun Q hQ => by
        by_cases hQP : Q = P
        · exact .inr (hQP ▸ lookup_cons_self)
        · rw [lookup_cons_of_ne hQP, lookup_cons_of_ne hQP]
          exact hk Q hQ
      exact ⟨k', hanswer.cons h,
        List.forall_mem_cons.2 ⟨h.lookup_eq_some lookup_cons_self, hknown⟩⟩
    · obtain ⟨k', h, hknown⟩ := ih hPs hk
      exact ⟨k', .known hkP h, List.forall_mem_cons.2 ⟨h.lookup_eq_some hkP, hknown⟩⟩

/-- **On a circle of two** the part that is asked for first gets its answer with the other in it,
and the other goes on record without the first. -/
theorem exists_answers_of_circle {P Q T U : Part} (hP : R.asks P = [T, Q]) (hQ : R.asks Q = [U, P])
    (hT : R.asks T = []) (hU : R.asks U = []) (hnodup : [P, Q, T, U].Nodup) :
    ∃ k, R.Answers [] [P] [R.make P [R.make T [], R.make Q [R.make U [], none]]] k ∧
      k.lookup Q = some (R.make Q [R.make U [], none]) := by
  obtain ⟨⟨hPQ, hPT, hPU⟩, ⟨hQT, hQU⟩, hTU⟩ :
      (P ≠ Q ∧ P ≠ T ∧ P ≠ U) ∧ (Q ≠ T ∧ Q ≠ U) ∧ T ≠ U := by simpa using hnodup
  let k₁ : Answered := (T, R.make T []) :: (T, none) :: [(P, none)]
  let k₂ : Answered := (U, R.make U []) :: (U, none) :: (Q, none) :: k₁
  have hfirst : R.Answers [(P, none)] [T] [R.make T []] k₁ :=
    .of_asks_nil (lookup_cons_of_ne hPT.symm) hT
  have hsecond : R.Answers ((Q, none) :: k₁) [U] [R.make U []] k₂ :=
    .of_asks_nil (by simp [k₁, lookup_cons_of_ne, hQU.symm, hTU.symm, hPU.symm]) hU
  have hagain : R.Answers k₂ [P] [none] k₂ :=
    .known (by simp [k₂, k₁, lookup_cons_of_ne, hPQ, hPT, hPU]) (.nil _)
  have hother : R.Answers k₁ [Q] [R.make Q [R.make U [], none]]
      ((Q, R.make Q [R.make U [], none]) :: k₂) :=
    .anew (by simp [k₁, lookup_cons_of_ne, hQT, hPQ.symm]) (hQ ▸ hsecond.cons hagain) (.nil _)
  refine ⟨_, .anew rfl (hP ▸ hfirst.cons hother) (.nil _), ?_⟩
  rw [lookup_cons_of_ne hPQ.symm, lookup_cons_self]

end Recipe

end Typeahead
