import Typeahead.Proofs.FlatGrammar.Drafts

/-!
# Proofs/FlatGrammar/JoinDrafts — the drafts of a join by what they are for

A join asks for productions of its target and of the nonterminals it makes up.  Which productions
there are for one of them depends on the count alone: one for the entry behind its delimiter, one
for the whole, and for the entries those that `Auxiliaries.Asks` lists.  So no two drafts of a join
have the same sides (`Join.eq_of_sides_eq`), and none of them changes what another one says.
-/

namespace Typeahead

section

variable {j : Join} {a : Auxiliaries} {rule helper : Nat} {target : String} {entry : Symbol}
  {names : ChildNames} {count : Count} {d e : Draft}

/-- The draft for an entry behind its delimiter is for the nonterminal of these. -/
@[simp] theorem Join.nextDraft_left (next : String) :
    (j.nextDraft rule entry names next).sides.left = next := by
  rw [nextDraft]
  split <;> rfl

/-- The draft for the whole join is for its target. -/
@[simp] theorem Join.wholeDraft_left (repetition : String) :
    (j.wholeDraft rule target repetition).sides.left = target := by
  rw [wholeDraft]
  split <;> rfl

/-! ## Entries -/

namespace Auxiliaries.Asks

/-- **The drafts for the tail** of entries: those of a star if there may be any number of them, and
else one for every number of entries after the first. -/
theorem of_tail (h : a.Asks rule entry names helper count d) (hnodup : a.names.Nodup)
    (hleft : d.sides.left = a.tail) :
    count.upper = Count.limit ∧ (d = .more helper a.tail (.nonterminal a.next) [some "next"] ∨
        d = .nothing helper a.tail) ∨
      count.upper ≠ Count.limit ∧ ∃ n, count.lower ≤ n + 1 ∧ n + 1 ≤ count.upper ∧
        d = .copies helper a.tail (.nonterminal a.next) [some "next"] n := by
  cases h with
  | star hlimit hd => exact .inl ⟨hlimit, by simpa [starDrafts] using hd⟩
  | @copies n hupper hlimit hleast hmost => exact .inr ⟨hlimit, n, by omega, by omega, rfl⟩
  | _ => simp_all [Draft.nothing, Draft.alone, Draft.headed, spreadDraft]

/-- The draft for the rest, which is there only if several entries are required and any number of
them may follow. -/
theorem of_rest (h : a.Asks rule entry names helper count d) (hnodup : a.names.Nodup)
    (hleft : d.sides.left = a.rest) :
    count.upper = Count.limit ∧ 1 < count.lower ∧ d = a.spreadDraft rule count.lower := by
  cases h with
  | spread hlimit hlower => exact ⟨hlimit, hlower, rfl⟩
  | star hlimit hd =>
    simp only [starDrafts, List.mem_cons, List.not_mem_nil, or_false] at hd
    rcases hd with rfl | rfl <;> simp_all [Draft.more, Draft.nothing]
  | _ => simp_all [Draft.nothing, Draft.alone, Draft.headed, Draft.copies]

/-- **The drafts for the entries** as a whole: none of them, one alone, or the first one in front of
the tail or of the rest. -/
theorem of_repetition (h : a.Asks rule entry names helper count d) (hnodup : a.names.Nodup)
    (hleft : d.sides.left = a.repetition) :
    (count.lower = 0 ∧ d = .nothing rule a.repetition) ∨
    (count.upper = 1 ∧ d = .alone rule a.repetition entry names) ∨
    (1 < count.upper ∧ (count.upper = Count.limit → count.lower ≤ 1) ∧
      d = .headed rule a.repetition entry names a.tail
        (if count.upper = Count.limit then "star" else "repeat")) ∨
    count.upper = Count.limit ∧ 1 < count.lower ∧
      d = .headed rule a.repetition entry names a.rest "rest" := by
  cases h with
  | nothing hlower => exact .inl ⟨hlower, rfl⟩
  | alone hupper => exact .inr (.inl ⟨hupper, rfl⟩)
  | tail hupper hlower hword => exact .inr (.inr (.inl ⟨hupper, hlower, by rw [hword]⟩))
  | rest hlimit hlower => exact .inr (.inr (.inr ⟨hlimit, hlower, rfl⟩))
  | star hlimit hd =>
    simp only [starDrafts, List.mem_cons, List.not_mem_nil, or_false] at hd
    rcases hd with rfl | rfl <;> simp_all [Draft.more, Draft.nothing]
  | _ => simp_all [Draft.copies, spreadDraft]

/-- A draft for entries is for one of the three nonterminals made up for them. -/
theorem left (h : a.Asks rule entry names helper count d) :
    d.sides.left ∈ [a.repetition, a.tail, a.rest] := by
  cases h with
  | star hlimit hd =>
    simp only [starDrafts, List.mem_cons, List.not_mem_nil, or_false] at hd
    rcases hd with rfl | rfl <;> simp [Draft.more, Draft.nothing]
  | _ => simp [Draft.nothing, Draft.alone, Draft.copies, Draft.headed, spreadDraft]

end Auxiliaries.Asks

/-! ## All drafts -/

namespace Join

/-- The drafts of a join: for an entry behind its delimiter, for the entries, and for the whole. -/
theorem mem_drafts : d ∈ j.drafts rule target entry names a ↔
    d = j.nextDraft rule entry names a.next ∨
    d ∈ a.entryDrafts rule entry names (rule + 1) j.count ∨
    d = j.wholeDraft rule target a.repetition := by
  rw [drafts, List.mem_cons, List.mem_append, List.mem_singleton]

section

variable (hd : d ∈ j.drafts rule target entry names a) (hnodup : (target :: a.names).Nodup)

include hd

/-- A draft of a join is for its target or for a nonterminal made up for it. -/
theorem left_of_mem_drafts : d.sides.left ∈ target :: a.names := by
  rcases mem_drafts.1 hd with rfl | hd | rfl
  · simp
  · have hleft := (Auxiliaries.asks_of_mem_entryDrafts d hd).left
    simp only [List.mem_cons, List.not_mem_nil, or_false] at hleft
    rcases hleft with hleft | hleft | hleft <;> simp [hleft]
  · simp

include hnodup

/-- Only one draft is for an entry behind its delimiter. -/
theorem eq_nextDraft (hleft : d.sides.left = a.next) : d = j.nextDraft rule entry names a.next := by
  rcases mem_drafts.1 hd with h | hd | rfl
  · exact h
  · have hleft' := (Auxiliaries.asks_of_mem_entryDrafts d hd).left
    simp_all
  · simp_all

/-- Only one draft is for the whole join. -/
theorem eq_wholeDraft (hleft : d.sides.left = target) :
    d = j.wholeDraft rule target a.repetition := by
  rcases mem_drafts.1 hd with rfl | hd | h
  · simp_all
  · have hleft' := (Auxiliaries.asks_of_mem_entryDrafts d hd).left
    simp_all
  · exact h

/-- The drafts for the three nonterminals of the entries are those that the count asks for. -/
theorem asks_of_left (hleft : d.sides.left ∈ [a.repetition, a.tail, a.rest]) :
    a.Asks rule entry names (rule + 1) j.count d := by
  rcases mem_drafts.1 hd with rfl | hd | rfl
  · simp_all
  · exact Auxiliaries.asks_of_mem_entryDrafts d hd
  · simp_all

end

/-- **No two drafts of a join have the same sides.** -/
theorem eq_of_sides_eq (hnodup : (target :: a.names).Nodup)
    (hd : d ∈ j.drafts rule target entry names a) (he : e ∈ j.drafts rule target entry names a)
    (hsides : d.sides = e.sides) : d = e := by
  have hnames : a.names.Nodup := hnodup.of_cons
  have hleft : e.sides.left = d.sides.left := by rw [hsides]
  have hmem := left_of_mem_drafts hd
  simp only [List.mem_cons, List.not_mem_nil, or_false] at hmem
  rcases hmem with h | h | h
  · rw [eq_wholeDraft hd hnodup h, eq_wholeDraft he hnodup (hleft.trans h)]
  · rw [eq_nextDraft hd hnodup h, eq_nextDraft he hnodup (hleft.trans h)]
  have hd := asks_of_left hd hnodup (by simpa using h)
  have he := asks_of_left he hnodup (by simpa [hleft] using h)
  rcases h with h | h | h
  · -- the right sides tell the cases apart
    rcases hd.of_repetition hnames h with ⟨-, rfl⟩ | ⟨-, rfl⟩ | ⟨-, -, rfl⟩ | ⟨-, -, rfl⟩ <;>
      rcases he.of_repetition hnames (hleft.trans h) with
        ⟨-, rfl⟩ | ⟨-, rfl⟩ | ⟨-, -, rfl⟩ | ⟨-, -, rfl⟩ <;>
      simp_all [Draft.nothing, Draft.alone, Draft.headed]
  · rcases hd.of_tail hnames h with ⟨hlimit, rfl | rfl⟩ | ⟨hlimit, n, -, -, rfl⟩ <;>
      rcases he.of_tail hnames (hleft.trans h) with
        ⟨hlimit', rfl | rfl⟩ | ⟨hlimit', m, -, -, rfl⟩ <;>
      simp_all [Draft.more, Draft.nothing, Draft.copies]
  · rw [(hd.of_rest hnames h).2.2, (he.of_rest hnames (hleft.trans h)).2.2]

end Join

end

end Typeahead
