import Typeahead.Proofs.FlatGrammar.Derivable

/-!
# Proofs/FlatGrammar/Meaning — the sides of a rule against its meaning

Two facts tie the sides of a rule to what the rule means.  A valuation that holds for all of them
has the target stand for at least what the rule does (`Rule.meaning_le_of_holds`).  And a valuation
in which the target does so already can be continued to the names that the rule makes up
(`Rule.exists_holds`).  A rule that repeats by recursion on its target needs more: the target must
not stand for anything else.
-/

namespace Typeahead

open Computability

variable {ρ : Valuation} {x : String} {child entry : Symbol}

/-! ## Repetitions -/

theorem starSides_hold_iff : (∀ s ∈ starSides x child, s.Holds ρ) ↔
    child.meaning ρ * ρ x ≤ ρ x ∧ 1 ≤ ρ x := by
  simp [starSides, Sides.Holds, Symbol.meaning]

theorem plusSides_hold_iff :
    (∀ s ∈ [(⟨x, [child, .nonterminal x]⟩ : Sides), ⟨x, [child]⟩], s.Holds ρ) ↔
      child.meaning ρ * ρ x ≤ ρ x ∧ child.meaning ρ ≤ ρ x := by
  simp [Sides.Holds, Symbol.meaning]

theorem optionalSides_hold_iff :
    (∀ s ∈ [(⟨x, [child]⟩ : Sides), ⟨x, []⟩], s.Holds ρ) ↔
      child.meaning ρ ≤ ρ x ∧ 1 ≤ ρ x := by
  simp [Sides.Holds]

theorem repetitionSides_hold_iff {least most : Nat} :
    (∀ s ∈ repetitionSides x child least most, s.Holds ρ) ↔
      ∀ n, least ≤ n → n ≤ most → child.meaning ρ ^ n ≤ ρ x := by
  constructor
  · intro h n hleast hmost
    have hn := h ⟨x, List.replicate (most - (most - n)) child⟩
      (List.mem_map.2 ⟨most - n, List.mem_range.2 (by omega), rfl⟩)
    rwa [Sides.Holds, Symbol.meaningAll_replicate, Nat.sub_sub_self hmost] at hn
  · intro h s hs
    obtain ⟨i, hi, rfl⟩ := List.mem_map.1 hs
    rw [List.mem_range] at hi
    rw [Sides.Holds, Symbol.meaningAll_replicate]
    exact h _ (by omega) (by omega)

/-! ## Entries of a join -/

namespace Auxiliaries

variable {a : Auxiliaries} {count : Count} {d : TerminalLanguage}

/-- What it takes for the sides of the entries to hold. -/
theorem entrySides_hold_iff : (∀ s ∈ a.entrySides entry count, s.Holds ρ) ↔
    (count.lower = 0 → 1 ≤ ρ a.repetition) ∧
    if count.upper = 0 then True
    else if count.upper = 1 then entry.meaning ρ ≤ ρ a.repetition
    else if count.upper = Count.limit then
      (ρ a.next * ρ a.tail ≤ ρ a.tail ∧ 1 ≤ ρ a.tail) ∧
      if count.lower ≤ 1 then entry.meaning ρ * ρ a.tail ≤ ρ a.repetition
      else ρ a.next ^ (count.lower - 1) * ρ a.tail ≤ ρ a.rest ∧
        entry.meaning ρ * ρ a.rest ≤ ρ a.repetition
    else (∀ n, count.lower - 1 ≤ n → n ≤ count.upper - 1 → ρ a.next ^ n ≤ ρ a.tail) ∧
      entry.meaning ρ * ρ a.tail ≤ ρ a.repetition := by
  rw [entrySides, List.forall_mem_append]
  refine and_congr ?_ ?_
  · by_cases hlower : count.lower = 0 <;> simp [hlower, Sides.Holds]
  · split_ifs
    · simp
    · simp [Sides.Holds]
    · rw [List.forall_mem_append, starSides_hold_iff]
      simp [Sides.Holds, Symbol.meaning]
    · rw [List.forall_mem_append, starSides_hold_iff]
      simp [Sides.Holds, Symbol.meaning]
    · rw [List.forall_mem_append, repetitionSides_hold_iff]
      simp [Sides.Holds, Symbol.meaning]

/-- **Entries derive from `repetition`** if the sides of the join hold. -/
theorem separated_le_of_holds (hnext : d * entry.meaning ρ ≤ ρ a.next)
    (h : ∀ s ∈ a.entrySides entry count, s.Holds ρ) {n : Nat} (hn : count.Admits n) :
    separated (entry.meaning ρ) d n ≤ ρ a.repetition := by
  obtain ⟨hlower, hupper⟩ := hn
  obtain ⟨hnil, h⟩ := entrySides_hold_iff.1 h
  rcases n with _ | n
  · exact hnil (Nat.le_zero.1 hlower)
  -- the entries after the first one derive from `next`
  have hpow : separated (entry.meaning ρ) d (n + 1) ≤ entry.meaning ρ * ρ a.next ^ n :=
    mul_le_mul_right (pow_le_pow_left' hnext n) _
  refine hpow.trans ?_
  split_ifs at h with hnone hone hlimit hle
  · rw [hnone] at hupper
    rcases hupper with hupper | hupper
    · cases hupper
    · omega
  · obtain rfl : n = 0 := by
      rw [hone] at hupper
      rcases hupper with hupper | hupper
      · cases hupper
      · omega
    rwa [pow_zero, mul_one]
  · obtain ⟨⟨hstep, hstop⟩, hentry⟩ := h
    have htail : (ρ a.next)∗ ≤ ρ a.tail := kstar_le_of_mul_le_right hstop hstep
    exact (mul_le_mul_right (pow_le_kstar.trans htail) _).trans hentry
  · obtain ⟨⟨hstep, hstop⟩, hrest, hentry⟩ := h
    have htail : (ρ a.next)∗ ≤ ρ a.tail := kstar_le_of_mul_le_right hstop hstep
    have hsplit : ρ a.next ^ n ≤ ρ a.rest := by
      calc ρ a.next ^ n = ρ a.next ^ (count.lower - 1) * ρ a.next ^ (n - (count.lower - 1)) := by
            rw [← pow_add, Nat.add_sub_cancel' (by omega)]
        _ ≤ ρ a.next ^ (count.lower - 1) * ρ a.tail :=
            mul_le_mul_right (pow_le_kstar.trans htail) _
        _ ≤ ρ a.rest := hrest
    exact (mul_le_mul_right hsplit _).trans hentry
  · obtain ⟨htail, hentry⟩ := h
    have hn : n + 1 ≤ count.upper := hupper.resolve_left hlimit
    exact (mul_le_mul_right (htail n (by omega) (by omega)) _).trans hentry

/-- **The sides of the entries hold** once the names they need stand for what they should. -/
theorem holds_entrySides (hcount : count.lower ≤ count.upper)
    (hnext : ρ a.next = d * entry.meaning ρ)
    (htail : ρ a.tail = if count.upper = Count.limit then (ρ a.next)∗
      else ⨆ n, ⨆ _ : count.lower - 1 ≤ n ∧ n ≤ count.upper - 1, ρ a.next ^ n)
    (hrest : ρ a.rest = ρ a.next ^ (count.lower - 1) * (ρ a.next)∗)
    (hrepetition : ρ a.repetition = ⨆ n, ⨆ _ : count.Admits n, separated (entry.meaning ρ) d n) :
    ∀ s ∈ a.entrySides entry count, s.Holds ρ := by
  have hadmits : ∀ n, count.Admits n → separated (entry.meaning ρ) d n ≤ ρ a.repetition := by
    intro n hn
    rw [hrepetition]
    exact le_iSup₂_of_le n hn le_rfl
  have hsucc : ∀ n, separated (entry.meaning ρ) d (n + 1) = entry.meaning ρ * ρ a.next ^ n := by
    intro n
    rw [separated, hnext]
  rw [entrySides_hold_iff]
  refine ⟨fun hlower => hadmits 0 ⟨hlower.le, .inr (Nat.zero_le _)⟩, ?_⟩
  split_ifs with hnone hone hlimit hle
  · have := hadmits 1 ⟨by omega, .inr hone.ge⟩
    rwa [hsucc, pow_zero, mul_one] at this
  · rw [if_pos hlimit] at htail
    rw [htail]
    refine ⟨⟨mul_kstar_le_kstar, one_le_kstar⟩, ?_⟩
    rw [Language.kstar_eq_iSup_pow, Language.mul_iSup]
    refine iSup_le fun n => ?_
    rw [← hsucc]
    exact hadmits _ ⟨by omega, .inl hlimit⟩
  · rw [if_pos hlimit] at htail
    rw [htail, hrest]
    refine ⟨⟨mul_kstar_le_kstar, one_le_kstar⟩, le_rfl, ?_⟩
    rw [Language.kstar_eq_iSup_pow, Language.mul_iSup, Language.mul_iSup]
    refine iSup_le fun n => ?_
    rw [← pow_add, ← hsucc]
    exact hadmits _ ⟨by omega, .inl hlimit⟩
  · rw [if_neg hlimit] at htail
    rw [htail]
    refine ⟨fun n hleast hmost => le_iSup₂_of_le n ⟨hleast, hmost⟩ le_rfl, ?_⟩
    rw [Language.mul_iSup]
    refine iSup_le fun n => ?_
    rw [Language.mul_iSup]
    refine iSup_le fun hn => ?_
    rw [← hsucc]
    exact hadmits _ ⟨by omega, .inr (by omega)⟩

end Auxiliaries

/-! ## Rules -/

variable {r : Rule} {a : Auxiliaries}

theorem Join.sides_hold_iff {j : Join} {target : String} :
    (∀ s ∈ j.sides target entry a, s.Holds ρ) ↔
      Symbol.meaningAll ρ j.delimiter.toList * entry.meaning ρ ≤ ρ a.next ∧
      (∀ s ∈ a.entrySides entry j.count, s.Holds ρ) ∧
      Symbol.meaningAll ρ j.opening.toList * ρ a.repetition *
        Symbol.meaningAll ρ j.closing.toList ≤ ρ target := by
  rw [Join.sides, List.forall_mem_cons, List.forall_mem_append, List.forall_mem_singleton]
  simp [Sides.Holds, Symbol.meaning, mul_assoc]

/-- **If its sides hold, the target stands for what the rule does.** -/
theorem Rule.meaning_le_of_holds (h : ∀ s ∈ r.sides a, s.Holds ρ) : r.meaning ρ ≤ ρ r.target := by
  obtain ⟨⟨kind, target, children, names⟩, evaluator, completer, listener⟩ := r
  cases kind with
  | sequence => exact h _ (List.mem_singleton_self _)
  | choice =>
    refine iSup₂_le fun s hs => ?_
    simpa [Sides.Holds] using h ⟨target, [s]⟩ (List.mem_map.2 ⟨s, hs, rfl⟩)
  | optional =>
    rcases children with _ | ⟨s, more⟩
    · exact bot_le
    · obtain ⟨hchild, hnil⟩ := optionalSides_hold_iff.1 h
      exact add_le hnil hchild
  | star =>
    rcases children with _ | ⟨s, more⟩
    · exact bot_le
    · obtain ⟨hstep, hstop⟩ := starSides_hold_iff.1 h
      exact kstar_le_of_mul_le_right hstop hstep
  | plus =>
    rcases children with _ | ⟨s, more⟩
    · exact bot_le
    · obtain ⟨hstep, hstop⟩ := plusSides_hold_iff.1 h
      change s.meaning ρ * (s.meaning ρ)∗ ≤ ρ target
      rw [← Language.mul_self_kstar_comm]
      exact kstar_mul_le hstop hstep
  | repetition least most =>
    rcases children with _ | ⟨s, more⟩
    · exact bot_le
    · exact iSup₂_le fun n hn => repetitionSides_hold_iff.1 h n hn.1 hn.2
  | join j =>
    rcases children with _ | ⟨s, more⟩
    · exact bot_le
    · obtain ⟨hnext, hentries, htarget⟩ := Join.sides_hold_iff.1 h
      refine le_trans (mul_le_mul_left (mul_le_mul_right ?_ _) _) htarget
      exact iSup₂_le fun n hn => Auxiliaries.separated_le_of_holds hnext hentries hn

/-- A valuation changed at the names that a join makes up. -/
def Auxiliaries.assign (a : Auxiliaries) (ρ : Valuation)
    (next repetition tail rest : TerminalLanguage) : Valuation := fun x =>
  if x = a.next then next
  else if x = a.repetition then repetition
  else if x = a.tail then tail
  else if x = a.rest then rest
  else ρ x

section Assign

variable {table : SymbolTable} {next repetition tail rest : TerminalLanguage}

theorem Auxiliaries.Fresh.assign_names (ha : a.Fresh table) :
    a.assign ρ next repetition tail rest a.next = next ∧
    a.assign ρ next repetition tail rest a.repetition = repetition ∧
    a.assign ρ next repetition tail rest a.tail = tail ∧
    a.assign ρ next repetition tail rest a.rest = rest := by
  have hnodup := ha.nodup
  simp only [List.nodup_cons, List.mem_cons, List.not_mem_nil, or_false, not_or] at hnodup
  obtain ⟨⟨h₁, h₂, h₃⟩, ⟨h₄, h₅⟩, h₆, -⟩ := hnodup
  simp [assign, Ne.symm h₁, Ne.symm h₂, Ne.symm h₃, Ne.symm h₄, Ne.symm h₅, Ne.symm h₆]

theorem Auxiliaries.Fresh.assign_of_knows (ha : a.Fresh table) (hx : table.knows x = true) :
    a.assign ρ next repetition tail rest x = ρ x := by
  have hne := ha.ne_of_knows hx
  simp only [List.forall_mem_cons] at hne
  simp [assign, hne]

end Assign

/-- **The names a join makes up can be given a meaning**: there is one that they should have. -/
theorem Join.exists_holds {table : SymbolTable} {j : Join} {target : String} (ha : a.Fresh table)
    (htarget : table.knows target = true)
    (hentry : ∀ x, entry = .nonterminal x → table.knows x = true)
    (hjoints : ∀ x, .nonterminal x ∈ j.joints → table.knows x = true)
    (hcount : j.count.lower ≤ j.count.upper) (hmeaning : j.meaning ρ entry ≤ ρ target) :
    ∃ ρ' : Valuation, (∀ x, table.knows x = true → ρ' x = ρ x) ∧
      ∀ s ∈ j.sides target entry a, s.Holds ρ' := by
  let d := Symbol.meaningAll ρ j.delimiter.toList
  let next := d * entry.meaning ρ
  let ρ' := a.assign ρ next
    (⨆ n, ⨆ _ : j.count.Admits n, separated (entry.meaning ρ) d n)
    (if j.count.upper = Count.limit then next∗
      else ⨆ n, ⨆ _ : j.count.lower - 1 ≤ n ∧ n ≤ j.count.upper - 1, next ^ n)
    (next ^ (j.count.lower - 1) * next∗)
  have hρ : ∀ x, table.knows x = true → ρ' x = ρ x := fun x hx => ha.assign_of_knows hx
  obtain ⟨hnext, hrepetition, htail, hrest⟩ : ρ' a.next = _ ∧ ρ' a.repetition = _ ∧
    ρ' a.tail = _ ∧ ρ' a.rest = _ := ha.assign_names
  -- the symbols of the rule are all known, so they stand for what they did
  have hentry' : entry.meaning ρ' = entry.meaning ρ :=
    Symbol.meaning_congr fun x hx => hρ x (hentry x hx)
  have hall : ∀ ss ⊆ j.joints, Symbol.meaningAll ρ' ss = Symbol.meaningAll ρ ss := fun ss hss =>
    Symbol.meaningAll_congr fun x hx => hρ x (hjoints x (hss hx))
  have hopening := hall j.opening.toList (by simp [Join.joints])
  have hclosing := hall j.closing.toList (by simp [Join.joints])
  have hdelimiter : Symbol.meaningAll ρ' j.delimiter.toList = d := hall _ (by simp [Join.joints])
  refine ⟨ρ', hρ, Join.sides_hold_iff.2 ⟨?_, ?_, ?_⟩⟩
  · rw [hnext, hdelimiter, hentry']
  · refine Auxiliaries.holds_entrySides (d := d) hcount ?_ ?_ ?_ ?_
    · rw [hnext, hentry']
    · rw [htail, hnext]
    · rw [hrest, hnext]
    · rw [hrepetition, hentry']
  · rw [hρ target htarget, hopening, hclosing, hrepetition]
    exact hmeaning

/-- **The names a rule makes up can be given a meaning** that makes its sides hold, provided the
target stands for what the rule does, and for nothing else if it recurses. -/
theorem Rule.exists_holds {table : SymbolTable} (ha : a.Fresh table)
    (htarget : table.knows r.target = true)
    (hsymbols : ∀ x, .nonterminal x ∈ r.symbols → table.knows x = true)
    (hcount : ∀ j, r.kind = .join j → j.count.lower ≤ j.count.upper)
    (hmeaning : r.meaning ρ ≤ ρ r.target)
    (hlone : r.kind = .star ∨ r.kind = .plus → ρ r.target ≤ r.meaning ρ) :
    ∃ ρ' : Valuation, (∀ x, table.knows x = true → ρ' x = ρ x) ∧ ∀ s ∈ r.sides a, s.Holds ρ' := by
  obtain ⟨⟨kind, target, children, names⟩, evaluator, completer, listener⟩ := r
  cases kind with
  | sequence =>
    refine ⟨ρ, fun _ _ => rfl, fun s hs => ?_⟩
    obtain rfl := List.mem_singleton.1 hs
    exact hmeaning
  | choice =>
    refine ⟨ρ, fun _ _ => rfl, fun s hs => ?_⟩
    obtain ⟨option, hoption, rfl⟩ := List.mem_map.1 hs
    rw [Sides.Holds, Symbol.meaningAll_cons, Symbol.meaningAll_nil, mul_one]
    exact (le_iSup₂_of_le option hoption le_rfl).trans hmeaning
  | optional =>
    refine ⟨ρ, fun _ _ => rfl, ?_⟩
    rcases children with _ | ⟨s, more⟩
    · simp [sides]
    · obtain ⟨hnil, hchild⟩ := add_le_iff.1 hmeaning
      exact optionalSides_hold_iff.2 ⟨hchild, hnil⟩
  | star =>
    refine ⟨ρ, fun _ _ => rfl, ?_⟩
    rcases children with _ | ⟨s, more⟩
    · simp [sides]
    · have heq : ρ target = (s.meaning ρ)∗ := le_antisymm (hlone (.inl rfl)) hmeaning
      refine starSides_hold_iff.2 ?_
      rw [heq]
      exact ⟨mul_kstar_le_kstar, one_le_kstar⟩
  | plus =>
    refine ⟨ρ, fun _ _ => rfl, ?_⟩
    rcases children with _ | ⟨s, more⟩
    · simp [sides]
    · have heq : ρ target = s.meaning ρ * (s.meaning ρ)∗ :=
        le_antisymm (hlone (.inr rfl)) hmeaning
      refine plusSides_hold_iff.2 ?_
      rw [heq]
      exact ⟨mul_le_mul_right mul_kstar_le_kstar _, le_mul_of_one_le_right' one_le_kstar⟩
  | repetition least most =>
    refine ⟨ρ, fun _ _ => rfl, ?_⟩
    rcases children with _ | ⟨s, more⟩
    · simp [sides]
    · refine repetitionSides_hold_iff.2 fun n hleast hmost => ?_
      exact (le_iSup₂_of_le n ⟨hleast, hmost⟩ le_rfl).trans hmeaning
  | join j =>
    rcases children with _ | ⟨entry, more⟩
    · exact ⟨ρ, fun _ _ => rfl, by simp [sides]⟩
    · refine j.exists_holds ha htarget ?_ ?_ (hcount j rfl) hmeaning
      · rintro x rfl
        exact hsymbols x (by simp [symbols])
      · intro x hx
        exact hsymbols x (by simp_all [symbols])

end Typeahead
