import Typeahead.Proofs.Derivation.Leftmost
import Typeahead.Proofs.Grammar.Joins
import Typeahead.Proofs.Grammar.Meaning
import Typeahead.Proofs.Grammar.Recompiled

/-!
# Proofs/Grammar/Renamed — the productions of some rules among those of more

A rule that is lowered together with other rules has the same productions as before, except for the
names of the nonterminals it makes up: other rules may have taken them.  So a grammar with more rules
has all productions of one with fewer, up to a renaming that leaves alone every name that rules are
written with (`Grammar.exists_renames`).

Derivations do not depend on names.  Renamed step by step, a derivation matches the same terminals
at the same offsets and makes as many expansions in between (`Leftmost.exists_renamed`).
-/

namespace Typeahead

/-! ## Renaming -/

/-- The symbol with its nonterminal renamed. -/
def Symbol.rename (ρ : String → String) : Symbol → Symbol
  | .terminal t => .terminal t
  | .nonterminal x => .nonterminal (ρ x)

/-- The sides with all nonterminals renamed. -/
def Sides.rename (ρ : String → String) (s : Sides) : Sides := ⟨ρ s.left, s.right.map (Symbol.rename ρ)⟩

/-- The names of a join, renamed. -/
def Auxiliaries.rename (ρ : String → String) (a : Auxiliaries) : Auxiliaries :=
  ⟨ρ a.next, ρ a.repetition, ρ a.tail, ρ a.rest⟩

variable {ρ : String → String}

@[simp] theorem Symbol.rename_terminal (t : Terminal) :
    (Symbol.terminal t).rename ρ = .terminal t := rfl

@[simp] theorem Symbol.rename_nonterminal (x : String) :
    (Symbol.nonterminal x).rename ρ = .nonterminal (ρ x) := rfl

@[simp] theorem Sides.rename_mk (x : String) (ss : List Symbol) :
    Sides.rename ρ ⟨x, ss⟩ = ⟨ρ x, ss.map (Symbol.rename ρ)⟩ := rfl

theorem Symbol.rename_eq_self {s : Symbol} (h : ∀ x, s = .nonterminal x → ρ x = x) :
    s.rename ρ = s := by
  rcases s with t | x
  · rfl
  · rw [rename_nonterminal, h x rfl]

theorem Symbol.map_rename_eq_self {ss : List Symbol} (h : ∀ x, .nonterminal x ∈ ss → ρ x = x) :
    ss.map (Symbol.rename ρ) = ss := by
  conv_rhs => rw [← List.map_id ss]
  exact List.map_congr_left fun s hs => rename_eq_self fun x hx => h x (hx ▸ hs)

theorem Symbol.rename_eq_epsilon {s : Symbol} :
    s.rename ρ = .terminal .epsilon ↔ s = .terminal .epsilon := by
  rcases s with t | x <;> simp

/-- Renaming keeps empty symbols. -/
theorem Sides.bare_rename (s : Sides) : s.bare.rename ρ = (s.rename ρ).bare := by
  have hsame : (fun t : Symbol => decide (t ≠ .terminal .epsilon)) ∘ Symbol.rename ρ
      = fun t : Symbol => decide (t ≠ .terminal .epsilon) :=
    funext fun t => by simp [Symbol.rename_eq_epsilon]
  rw [bare, bare, rename, rename, List.filter_map, hsame]

theorem Sides.rename_congr {ρ' : String → String} {s : Sides}
    (h : ∀ x, s.Mentions x → ρ x = ρ' x) : s.rename ρ = s.rename ρ' := by
  rw [rename, rename, h s.left (.inl rfl)]
  refine congrArg _ (List.map_congr_left fun t ht => ?_)
  rcases t with t | x
  · rfl
  · rw [Symbol.rename_nonterminal, Symbol.rename_nonterminal, h x (.inr ht)]

/-! ## Derivations -/

/-- **A derivation renamed step by step.**  It reads what the other reads, and keeps its pace. -/
theorem Leftmost.exists_renamed {g g' : FlatGrammar} {pending : List Symbol} {steps : List Step}
    (hsides : ∀ s ∈ g.sides, s.rename ρ ∈ g'.sides) (h : Leftmost g pending steps) :
    ∃ steps', Leftmost g' (pending.map (Symbol.rename ρ)) steps' ∧
      (∀ input pos, Reads input pos steps → Reads input pos steps') ∧
      ∀ limit idle, PacedFrom limit idle steps → PacedFrom limit idle steps' := by
  induction h with
  | nil => exact ⟨[], .nil, fun _ _ => id, fun _ _ => id⟩
  | @expand x p pos pending steps hp _ ih =>
    obtain ⟨steps', hleft, hreads, hpaced⟩ := ih
    obtain ⟨hmem, hx⟩ := List.mem_filter.1 hp
    obtain rfl : p.left = x := of_decide_eq_true hx
    have hside : ⟨p.left, p.right⟩ ∈ g.sides := List.mem_map_of_mem hmem
    obtain ⟨q, hq, hqleft, hqright⟩ := FlatGrammar.mem_sides.1 (hsides _ hside)
    refine ⟨.expand q pos :: steps', .expand ?_ ?_, ?_, fun limit idle hsteps => ?_⟩
    · exact List.mem_filter.2 ⟨hq, decide_eq_true hqleft⟩
    · rw [hqright]
      rwa [List.map_append] at hleft
    · rintro input _ (_ | hsteps)
      exact .expand (hreads input pos hsteps)
    · exact ⟨hsteps.1, hpaced limit _ hsteps.2⟩
  | @accept t m pending steps _ ih =>
    obtain ⟨steps', hleft, hreads, hpaced⟩ := ih
    refine ⟨.accept t m :: steps', .accept hleft, ?_, fun limit idle => hpaced limit _⟩
    rintro input pos (_ | _ | ⟨hm, hs, hsteps⟩)
    exact .accept hm hs (hreads input _ hsteps)

/-! ## Rules -/

section Rules

variable {r : Rule} {a : Auxiliaries} {entry : Symbol} {s : Sides}

theorem map_rename_starSides (x : String) (child : Symbol) :
    (starSides x child).map (Sides.rename ρ) = starSides (ρ x) (child.rename ρ) := rfl

theorem map_rename_repetitionSides (x : String) (child : Symbol) (least most : Nat) :
    (repetitionSides x child least most).map (Sides.rename ρ)
      = repetitionSides (ρ x) (child.rename ρ) least most := by
  simp [repetitionSides, Function.comp_def]

theorem Auxiliaries.map_rename_entrySides (count : Count) :
    (a.entrySides entry count).map (Sides.rename ρ)
      = (a.rename ρ).entrySides (entry.rename ρ) count := by
  rw [entrySides, entrySides, List.map_append]
  congr 1
  · split <;> rfl
  · split_ifs <;>
      simp [map_rename_starSides, map_rename_repetitionSides, rename]

theorem Join.map_rename_sides {j : Join} {target : String}
    (hjoints : ∀ x, .nonterminal x ∈ j.joints → ρ x = x) :
    (j.sides target entry a).map (Sides.rename ρ)
      = j.sides (ρ target) (entry.rename ρ) (a.rename ρ) := by
  have hall : ∀ ss ⊆ j.joints, ss.map (Symbol.rename ρ) = ss := fun ss hss =>
    Symbol.map_rename_eq_self fun x hx => hjoints x (hss hx)
  have hopening := hall j.opening.toList (by simp [joints])
  have hclosing := hall j.closing.toList (by simp [joints])
  have hdelimiter := hall j.delimiter.toList (by simp [joints])
  rw [sides, sides, List.map_cons, List.map_append, Auxiliaries.map_rename_entrySides]
  simp [Auxiliaries.rename, hopening, hclosing, hdelimiter]

/-- **The sides of a rule under other names** for its own nonterminals, if the names it is written
with stay. -/
theorem Rule.map_rename_sides (htarget : ρ r.target = r.target)
    (hsymbols : ∀ x, .nonterminal x ∈ r.symbols → ρ x = x) :
    (r.sides a).map (Sides.rename ρ) = r.sides (a.rename ρ) := by
  have hchildren : r.children.map (Symbol.rename ρ) = r.children :=
    Symbol.map_rename_eq_self fun x hx => hsymbols x (r.children_subset_symbols hx)
  obtain ⟨⟨kind, target, children, names⟩, evaluator, completer, listener⟩ := r
  replace htarget : ρ target = target := htarget
  cases kind with
  | sequence => simpa [sides, htarget] using hchildren
  | choice =>
    conv_rhs => rw [sides, ← hchildren]
    simp [sides, htarget]
  | optional | star | plus =>
    rcases children with _ | ⟨child, _⟩
    · rfl
    · have hchild : child.rename ρ = child := (List.cons.inj hchildren).1
      simp [sides, starSides, htarget, hchild]
  | repetition least most =>
    rcases children with _ | ⟨child, _⟩
    · rfl
    · have hchild : child.rename ρ = child := (List.cons.inj hchildren).1
      exact (map_rename_repetitionSides ..).trans (by rw [htarget, hchild]; rfl)
  | join j =>
    rcases children with _ | ⟨child, _⟩
    · rfl
    · have hchild : child.rename ρ = child := (List.cons.inj hchildren).1
      refine (Join.map_rename_sides fun x hx => hsymbols x ?_).trans (by rw [htarget, hchild]; rfl)
      exact List.mem_append_right _ hx

end Rules

/-! ## Names made up for a rule -/

/-- Sends the names made up for a rule to others. -/
def Auxiliaries.sendTo (a a' : Auxiliaries) (ρ : String → String) (x : String) : String :=
  if x = a.next then a'.next
  else if x = a.repetition then a'.repetition
  else if x = a.tail then a'.tail
  else if x = a.rest then a'.rest
  else ρ x

section Names

variable {table : SymbolTable} {a : Auxiliaries}

theorem Auxiliaries.Fresh.rename_sendTo (ha : a.Fresh table) (a' : Auxiliaries) :
    a.rename (a.sendTo a' ρ) = a' := by
  have hnodup := ha.nodup
  simp only [List.nodup_cons, List.mem_cons, List.not_mem_nil, or_false, not_or] at hnodup
  obtain ⟨⟨h₁, h₂, h₃⟩, ⟨h₄, h₅⟩, h₆, -⟩ := hnodup
  simp [rename, sendTo, Ne.symm h₁, Ne.symm h₂, Ne.symm h₃, Ne.symm h₄, Ne.symm h₅, Ne.symm h₆]

theorem Auxiliaries.Fresh.sendTo_of_knows (ha : a.Fresh table) (a' : Auxiliaries) {x : String}
    (hx : table.knows x = true) : a.sendTo a' ρ x = ρ x := by
  have hne := ha.ne_of_knows hx
  simp only [List.forall_mem_cons] at hne
  simp [sendTo, hne]

end Names

/-! ## Lowering among more rules -/

namespace FlatGrammar

variable {g g' h : FlatGrammar} {table : SymbolTable} {r : Rule}

/-- **The productions of `g` are among those of `h`** up to a renaming that leaves the names of a
table alone. -/
structure Embeds (table : SymbolTable) (g h : FlatGrammar) : Prop where
  knows : ∀ x, table.knows x = true → g.symbols.knows x = true
  closed : ∀ s ∈ g.sides, ∀ x, s.Mentions x → g.symbols.knows x = true
  renames : ∃ ρ : String → String, (∀ x, table.knows x = true → ρ x = x) ∧
    ∀ s ∈ g.sides, s.rename ρ ∈ h.sides

theorem embeds_ofSymbols (table : SymbolTable) (h : FlatGrammar) :
    Embeds table (ofSymbols table) h where
  knows _ hx := hx
  closed := by simp [sides, ofSymbols]
  renames := ⟨id, fun _ _ => rfl, by simp [sides, ofSymbols]⟩

/-- **A rule is lowered** whose productions are among the others under some names. -/
theorem Embeds.lower (hg : Embeds table g h) (hr : r.Known table) {a' : Auxiliaries}
    (ha' : ∀ s ∈ r.sides a', s.bare ∈ h.sides) (hlower : g.lower r = .ok g') :
    Embeds table g' h := by
  obtain ⟨a, ha, hadds⟩ := lower_adds hlower
  obtain ⟨ρ, hρ, hsides⟩ := hg.renames
  have hold : ∀ x, g.symbols.knows x = true → a.sendTo a' ρ x = ρ x :=
    fun x hx => ha.sendTo_of_knows a' hx
  have hfixed : ∀ x, table.knows x = true → a.sendTo a' ρ x = x :=
    fun x hx => (hold x (hg.knows x hx)).trans (hρ x hx)
  have hnew : (r.sides a).map (Sides.rename (a.sendTo a' ρ)) = r.sides a' := by
    rw [Rule.map_rename_sides (hfixed _ hr.target) fun x hx => hfixed x (hr.symbols x hx),
      ha.rename_sendTo]
  refine ⟨fun x hx => (hadds.knows x).2 (.inl (hg.knows x hx)),
    knows_of_lower (hr.mono hg.knows) hg.closed hlower, a.sendTo a' ρ, hfixed, fun s hs => ?_⟩
  rcases (hadds.sides s).1 hs with hs | ⟨n, hn, rfl⟩
  · rw [Sides.rename_congr fun x hx => hold x (hg.closed s hs x hx)]
    exact hsides s hs
  · rw [Sides.bare_rename]
    exact ha' _ (hnew ▸ List.mem_map_of_mem hn)

end FlatGrammar

namespace Grammar

/-- All rules of a grammar are rules of another, apart from those of the start symbol, which every
compile replaces. -/
def Within (G H : Grammar) : Prop := ∀ r ∈ G.ownRules, r ∈ H.ownRules

variable {G G' H H' : Grammar} {top : Symbol}

/-- **A compile with more rules has all productions of one with fewer**, up to names that no rule is
written with. -/
theorem exists_renames (hG : G.Closed) (hwithin : G.Within H)
    (hbefore : (compile top).run.run G = (.ok (), G'))
    (hafter : (compile top).run.run H = (.ok (), H')) :
    ∃ ρ : String → String, (∀ x, G'.symbols.knows x = true → ρ x = x) ∧
      ∀ s ∈ G'.flat.sides, s.rename ρ ∈ H'.flat.sides := by
  obtain ⟨hfold, -⟩ := lowerAll_ok (compile_ok hbefore).1
  obtain ⟨hfold', -⟩ := lowerAll_ok (compile_ok hafter).1
  have hrules : ∀ r ∈ (G.withStart top).rules.toList, r ∈ (H.withStart top).rules.toList := by
    simp only [Array.mem_toList_iff, mem_rules_withStart]
    rintro r (hr | rfl)
    · exact .inl (by simpa [ownRules] using hwithin r (by simpa [ownRules] using hr))
    · exact .inr rfl
  have hembeds : FlatGrammar.Embeds (G.withStart top).symbols G'.flat H'.flat := by
    refine lower_induction (P := (FlatGrammar.Embeds _ · H'.flat)) hfold
      (FlatGrammar.embeds_ofSymbols _ _) fun r hr g g' hg hlower => ?_
    obtain ⟨a', ha'⟩ := (FlatGrammar.sides_of_lower hfold').2 r (hrules r hr)
    exact hg.lower (hG.withStart top r (Array.mem_toList_iff.1 hr)) ha' hlower
  rw [(compile_ok hbefore).2.2]
  exact hembeds.renames

/-- **What is derived with some rules is derived with more**: the same terminals, one after the
other, at the same pace. -/
theorem exists_leftmost_of_within (hG : G.Closed) (hwithin : G.Within H)
    (hbefore : (compile top).run.run G = (.ok (), G'))
    (hafter : (compile top).run.run H = (.ok (), H')) {input : List Char} {limit : Nat}
    (h : ∃ steps, Leftmost G'.flat [.nonterminal SymbolTable.start] steps ∧
      Reads input 0 steps ∧ Paced limit steps) :
    ∃ steps, Leftmost H'.flat [.nonterminal SymbolTable.start] steps ∧
      Reads input 0 steps ∧ Paced limit steps := by
  obtain ⟨ρ, hρ, hsides⟩ := exists_renames hG hwithin hbefore hafter
  obtain ⟨steps, hleft, hreads, hpaced⟩ := h
  obtain ⟨steps', hleft', hreads', hpaced'⟩ := hleft.exists_renamed hsides
  have hstart : ρ SymbolTable.start = SymbolTable.start := by
    refine hρ _ ?_
    rw [(compile_ok hbefore).2.2]
    exact knows_start_withStart
  rw [List.map_singleton, Symbol.rename_nonterminal, hstart] at hleft'
  rw [paced_iff] at hpaced
  exact ⟨steps', hleft', hreads' _ _ hreads, paced_iff.2 (hpaced' _ _ hpaced)⟩

end Grammar

end Typeahead
