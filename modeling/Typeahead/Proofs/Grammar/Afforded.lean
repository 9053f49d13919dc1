import Typeahead.Proofs.Grammar.Realized
import Typeahead.Proofs.Search.Affords

/-!
# Proofs/Grammar/Afforded — texts that the target of a rule affords

If a rule is realized, its target affords what the children of the rule do: one after the other, one
of them, or any number of them (`Realizes.affords_star`, `Realizes.affords_plus`).  A join of a
fixed number of entries affords these with the delimiters between them and the brackets around them
(`Realizes.affords_join`).
-/

namespace Typeahead

/-- The sides of a fixed number of entries. -/
theorem Auxiliaries.entrySides_exactly (a : Auxiliaries) (s : Symbol) {k : Nat}
    (hlimit : k + 2 < Count.limit) : a.entrySides s (.exactly (k + 2)) =
      [⟨a.tail, List.replicate (k + 1) (.nonterminal a.next)⟩,
        ⟨a.repetition, [s, .nonterminal a.tail]⟩] := by
  simp [entrySides, repetitionSides, Count.exactly, Nat.ne_of_lt hlimit]

namespace FlatGrammar.Realizes

variable {g : FlatGrammar} {r : Rule} {i : Nat} {a : Auxiliaries} {limit n k m : Nat}
  {cs : List Char} {s : Symbol} {x : String} {pieces : List (List Char)}
  (hr : g.Realizes r i a)

include hr

/-- The left side of a production affords what its right side does. -/
theorem affords (ss : List Symbol) (hs : ⟨x, ss⟩ ∈ r.sides a)
    (hvisible : .terminal .epsilon ∉ ss) (hn : n < limit)
    (h : g.Affords limit (n + 1) ss cs m) : g.Affords limit n [.nonterminal x] cs m := by
  refine .nonterminal hn ?_ h
  rw [← Sides.bare_eq (s := ⟨x, ss⟩) hvisible]
  exact hr.drawn _ hs

section

variable (hvisible : .terminal .epsilon ∉ r.children) (hn : n < limit)

include hvisible hn

theorem affords_sequence (hkind : r.kind = .sequence)
    (h : g.Affords limit (n + 1) r.children cs m) :
    g.Affords limit n [.nonterminal r.target] cs m :=
  hr.affords _ (by simp [Rule.sides, hkind]) hvisible hn h

theorem affords_choice (hkind : r.kind = .choice) (hs : s ∈ r.children)
    (h : g.Affords limit (n + 1) [s] cs m) : g.Affords limit n [.nonterminal r.target] cs m := by
  refine hr.affords [s] (by simp [Rule.sides, hkind, hs]) ?_ hn h
  rw [List.mem_singleton]
  rintro rfl
  exact hvisible hs

theorem affords_optional (hkind : r.kind = .optional) (hchildren : r.children = [s])
    (h : g.Affords limit (n + 1) [s] cs m) : g.Affords limit n [.nonterminal r.target] cs m :=
  hr.affords _ (by simp [Rule.sides, hkind, hchildren]) (hchildren ▸ hvisible) hn h

end

/-- An option may be left out. -/
theorem affords_nothing (hn : n < limit) (hkind : r.kind = .optional)
    (hchildren : r.children = [s]) : g.Affords limit n [.nonterminal r.target] [] (n + 1) :=
  hr.affords _ (by simp [Rule.sides, hkind, hchildren]) List.not_mem_nil hn (.nil (Nat.le_refl _))

section

variable (hvisible : .terminal .epsilon ∉ r.children) (hchildren : r.children = [s])

include hvisible hchildren

/-- **Any number of pieces.** -/
theorem affords_star (hkind : r.kind = .star) (hn : n < limit)
    (h : ∀ p ∈ pieces, g.Affords limit (n + 1) [s] p 0) :
    g.Affords limit n [.nonterminal r.target] pieces.flatten (n + 1) := by
  have hsides : r.sides a = starSides r.target s := by rw [Rule.sides, hkind, hchildren]
  rw [hchildren, List.mem_singleton] at hvisible
  induction pieces generalizing n with
  | nil =>
    exact hr.affords _ (by simp [hsides, starSides]) List.not_mem_nil hn (.nil (Nat.le_refl _))
  | cons p pieces ih =>
    obtain ⟨hp, hpieces⟩ := List.forall_mem_cons.1 h
    have hle : 1 ≤ n + 1 := Nat.succ_le_succ (Nat.zero_le n)
    have hrest := ih (Nat.zero_lt_of_lt hn) fun q hq => (hpieces q hq).mono hle (Nat.le_refl 0)
    exact hr.affords [s, .nonterminal r.target] (by simp [hsides, starSides])
      (by simpa using hvisible) hn (hp.cons (hrest.mono (Nat.le_refl 0) hle))

/-- **At least one piece.** -/
theorem affords_plus (hkind : r.kind = .plus) (hn : n < limit) (hne : pieces ≠ [])
    (h : ∀ p ∈ pieces, g.Affords limit (n + 1) [s] p 0) :
    g.Affords limit n [.nonterminal r.target] pieces.flatten 0 := by
  have hsides : r.sides a = [⟨r.target, [s, .nonterminal r.target]⟩, ⟨r.target, [s]⟩] := by
    rw [Rule.sides, hkind, hchildren]
  rw [hchildren, List.mem_singleton] at hvisible
  induction pieces generalizing n with
  | nil => exact absurd rfl hne
  | cons p pieces ih =>
    obtain ⟨hp, hpieces⟩ := List.forall_mem_cons.1 h
    rcases eq_or_ne pieces [] with rfl | hmore
    · rw [List.flatten_singleton]
      exact hr.affords [s] (by simp [hsides]) (by simpa using hvisible) hn hp
    · have hrest := ih (Nat.zero_lt_of_lt hn) hmore fun q hq =>
        (hpieces q hq).mono (Nat.succ_le_succ (Nat.zero_le n)) (Nat.le_refl 0)
      exact hr.affords [s, .nonterminal r.target] (by simp [hsides])
        (by simpa using hvisible) hn (hp.cons hrest)

end

/-- **The entries of a join** between its brackets, the first of them without a delimiter. -/
theorem affords_join {j : Join} (hkind : r.kind = .join j) (hchildren : r.children = [s])
    (hvisible : .terminal .epsilon ∉ s :: j.joints) (hcount : j.count = .exactly (k + 2))
    (hlimit : k + 2 < Count.limit) {opening first closing : List Char} {o : Nat}
    (hn : n < limit) (hopening : g.Affords limit (n + 1) j.opening.toList opening o)
    (ho : o < limit) (hone : 1 < limit) (hfirst : g.Affords limit (o + 1) [s] first 0)
    (hpieces : ∀ p ∈ pieces, g.Affords limit 2 (j.delimiter.toList ++ [s]) p 0)
    (hlength : pieces.length = k + 1) (hclosing : g.Affords limit 1 j.closing.toList closing m) :
    g.Affords limit n [.nonterminal r.target] (opening ++ (first ++ pieces.flatten) ++ closing)
      m := by
  have hsides : r.sides a = j.sides r.target s a := by rw [Rule.sides, hkind, hchildren]
  rw [Join.sides, hcount, a.entrySides_exactly s hlimit] at hsides
  simp only [Join.joints, List.mem_cons, List.mem_append, not_or] at hvisible
  obtain ⟨hs, ⟨hvopening, hvclosing⟩, hvdelimiter⟩ := hvisible
  have hnext : ∀ p ∈ pieces, g.Affords limit 1 [.nonterminal a.next] p 0 := fun p hp =>
    hr.affords _ (by simp [hsides]) (by simp [hs, hvdelimiter]) hone (hpieces p hp)
  have htail : g.Affords limit 0 [.nonterminal a.tail] pieces.flatten 1 := by
    refine hr.affords (List.replicate (k + 1) (.nonterminal a.next)) (by simp [hsides])
      (by simp) (Nat.zero_lt_of_lt hn) ?_
    rw [← hlength]
    exact .replicate hnext
  have hrepetition : g.Affords limit o [.nonterminal a.repetition] (first ++ pieces.flatten) 1 :=
    hr.affords [s, .nonterminal a.tail] (by simp [hsides]) (by simp [hs]) ho
      (hfirst.cons htail)
  exact hr.affords _ (by simp [hsides]) (by simp [hvopening, hvclosing]) hn
    ((hopening.append hrepetition).append hclosing)

end FlatGrammar.Realizes

end Typeahead
