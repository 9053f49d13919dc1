import Typeahead.Proofs.FlatGrammar.Sides
import Typeahead.Proofs.Search.Enumeration

/-!
# Proofs/Search/Affords — texts that are derived within the limit

A search gives up a nonterminal when too many expansions happened without reading.  A form affords a
text if it derives that text without coming to this limit (`FlatGrammar.Affords`); the number of
expansions that precede it and an upper bound for those that are left behind are counted along.
Forms are put together one after the other (`Affords.append`).

A branch whose pending symbols begin with such a form gets past it, if what comes after it can be
completed (`Affords.exists_isComplete`).
-/

namespace Typeahead

/-- **A form derives a text within a limit**: `n` expansions have happened since text was last read,
and no more than `m` have when the form is used up. -/
inductive FlatGrammar.Affords (g : FlatGrammar) (limit : Nat) :
    Nat → List Symbol → List Char → Nat → Prop
  | nil {n m : Nat} (h : n ≤ m) : Affords g limit n [] [] m
  | accept {n m : Nat} {t : Terminal} {ss : List Symbol} {cs ds : List Char} (hcs : t.Writes cs)
    (ht : t ≠ .endOfInput) (h : Affords g limit (if cs = [] then n else 0) ss ds m) :
    Affords g limit n (.terminal t :: ss) (cs ++ ds) m
  | expand {n m : Nat} {x : String} {right ss : List Symbol} {cs : List Char} (hn : n < limit)
    (hx : ⟨x, right⟩ ∈ g.sides) (h : Affords g limit (n + 1) (right ++ ss) cs m) :
    Affords g limit n (.nonterminal x :: ss) cs m

namespace FlatGrammar.Affords

variable {g : FlatGrammar} {limit n n' k m m' : Nat} {ss ss' : List Symbol} {cs ds : List Char}
  {t : Terminal} {x : String} {s : Symbol}

/-- Fewer expansions before, and more behind. -/
theorem mono (h : g.Affords limit n ss cs m) (hn : n' ≤ n) (hm : m ≤ m') :
    g.Affords limit n' ss cs m' := by
  induction h generalizing n' with
  | nil h => exact .nil (Nat.le_trans hn (Nat.le_trans h hm))
  | accept hcs ht _ ih =>
    refine .accept hcs ht (ih ?_ hm)
    split
    · exact hn
    · exact Nat.le_refl 0
  | expand hlt hx _ ih =>
    exact .expand (Nat.lt_of_le_of_lt hn hlt) hx (ih (Nat.succ_le_succ hn) hm)

/-- **One form after the other.** -/
theorem append (h : g.Affords limit n ss cs k) (h' : g.Affords limit k ss' ds m) :
    g.Affords limit n (ss ++ ss') (cs ++ ds) m := by
  induction h with
  | nil hle => exact h'.mono hle (Nat.le_refl m)
  | accept hcs ht _ ih =>
    rw [List.append_assoc]
    exact .accept hcs ht (ih h')
  | expand hlt hx _ ih =>
    have h := ih h'
    rw [List.append_assoc] at h
    exact .expand hlt hx h

theorem cons (h : g.Affords limit n [s] cs k) (h' : g.Affords limit k ss ds m) :
    g.Affords limit n (s :: ss) (cs ++ ds) m := h.append h'

/-- A terminal reads what it writes. -/
theorem terminal (hcs : t.Writes cs) (ht : t ≠ .endOfInput) (hne : cs ≠ []) :
    g.Affords limit n [.terminal t] cs 0 := by
  have h : g.Affords limit n [.terminal t] (cs ++ []) 0 :=
    .accept hcs ht (by rw [if_neg hne]; exact .nil (Nat.le_refl 0))
  rwa [List.append_nil] at h

/-- A nonterminal derives what one of its right sides does. -/
theorem nonterminal (hn : n < limit) (hx : ⟨x, ss⟩ ∈ g.sides)
    (h : g.Affords limit (n + 1) ss cs m) : g.Affords limit n [.nonterminal x] cs m :=
  .expand hn hx (by rwa [List.append_nil])

/-- The same form any number of times, each time leaving no expansions behind. -/
theorem replicate {parts : List (List Char)} (h : ∀ p ∈ parts, g.Affords limit n [s] p 0) :
    g.Affords limit n (List.replicate parts.length s) parts.flatten n := by
  induction parts with
  | nil => exact .nil (Nat.le_refl n)
  | cons p parts ih =>
    obtain ⟨hp, hparts⟩ := List.forall_mem_cons.1 h
    exact (hp.mono (Nat.le_refl n) (Nat.zero_le n)).cons (ih hparts)

/-- **A branch gets past a form** that affords what it has to read. -/
theorem exists_isComplete {cfg : Config} (h : g.Affords cfg.maxDepth n ss cs m) {b : Branch}
    {pending : List Symbol} {rest : List Char} (hpending : b.pending = ss ++ pending)
    (hrest : b.rest = cs ++ rest) (hidle : b.idle ≤ n)
    (hbehind : ∀ b' : Branch, b'.pending = pending → b'.rest = rest → b'.idle ≤ m →
      ∃ d ∈ b'.ends g cfg, d.isComplete) :
    ∃ d ∈ b.ends g cfg, d.isComplete := by
  induction h generalizing b with
  | nil hle => exact hbehind b hpending hrest (Nat.le_trans hidle hle)
  | @accept n m t ss cs ds hcs ht _ ih =>
    rw [List.append_assoc] at hrest
    have hscan := Terminal.scan_of_writes hcs ht (ds ++ rest) b.rest.isEmpty
    rw [← hrest] at hscan
    rw [Branch.ends_accept hpending hscan]
    refine ih (Branch.accept_pending hpending t cs) ?_ ?_ hbehind
    · rw [Branch.accept, hrest, List.drop_left]
    · simp only [Branch.accept, List.isEmpty_iff]
      split
      · exact hidle
      · exact Nat.le_refl 0
  | @expand n m x right ss cs hlt hx _ ih =>
    obtain ⟨p, hp, hleft, hright⟩ := mem_sides.1 hx
    have halternative : p ∈ g.alternatives x := List.mem_filter.2 ⟨hp, decide_eq_true hleft⟩
    rw [Branch.ends_expand hpending (Nat.lt_of_le_of_lt hidle hlt)
      (List.ne_nil_of_mem halternative)]
    have hexpanded : (b.expand p).pending = right ++ ss ++ pending := by
      rw [Branch.expand_pending hpending, hright, List.append_assoc]
      rfl
    obtain ⟨d, hd, hc⟩ := ih hexpanded hrest (Nat.succ_le_succ hidle) hbehind
    exact ⟨d, List.mem_flatMap.2 ⟨p, halternative, hd⟩, hc⟩

/-- **A start symbol with one form in front of the end of input** is derived if that form affords
the input. -/
theorem exists_isComplete_initial {cfg : Config} {input : List Char}
    (hstart : ⟨SymbolTable.start, ss ++ [.terminal .endOfInput]⟩ ∈ g.sides)
    (hlimit : 0 < cfg.maxDepth) (h : g.Affords cfg.maxDepth 1 ss input m) :
    ∃ d ∈ (Branch.initial input).ends g cfg, d.isComplete := by
  obtain ⟨p, hp, hleft, hright⟩ := mem_sides.1 hstart
  have halternative : p ∈ g.alternatives SymbolTable.start :=
    List.mem_filter.2 ⟨hp, decide_eq_true hleft⟩
  have hpending : (Branch.initial input).pending = [.nonterminal SymbolTable.start] := rfl
  rw [Branch.ends_expand hpending hlimit (List.ne_nil_of_mem halternative)]
  have hexpanded : ((Branch.initial input).expand p).pending = ss ++ [.terminal .endOfInput] := by
    rw [Branch.expand_pending hpending, List.append_nil, hright]
  obtain ⟨d, hd, hc⟩ := h.exists_isComplete hexpanded (List.append_nil input).symm (Nat.le_refl 1)
    fun b hb hrest _ => by
      have hscan : Terminal.endOfInput.scan b.rest b.rest.isEmpty = (.successful, []) := by
        rw [hrest]
        rfl
      have hnone := Branch.accept_pending hb .endOfInput []
      rw [Branch.ends_accept hb hscan, Branch.ends_nil hnone]
      exact ⟨_, List.mem_singleton_self _, List.isEmpty_iff.2 hnone⟩
  exact ⟨d, List.mem_flatMap.2 ⟨p, halternative, hd⟩, hc⟩

end FlatGrammar.Affords

end Typeahead
