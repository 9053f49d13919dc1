import Typeahead.Proofs.Grammar.Lots

/-!
# Proofs/Grammar/Complete — grammars that compile

Compiling refuses a rule that cannot be lowered, and a nonterminal without productions.  A grammar
is complete if neither is among its rules (`Grammar.Complete`): each rule can be lowered, and each
nonterminal that one is written with is the target of a rule.  Rules that can be lowered ask for
productions of their target and of all nonterminals that they make up (`Rule.exists_draft_of_own`),
so a complete grammar compiles for each of its targets (`Grammar.Complete.exists_compile`).
-/

namespace Typeahead

/-- **A rule can be lowered**: it has the children that its kind needs, brackets on both sides or on
none, and a range with something in it. -/
def Rule.Lowerable (r : Rule) : Prop :=
  match r.kind with
  | .sequence => True
  | .choice | .optional | .star | .plus => r.children ≠ []
  | .repetition least most => r.children ≠ [] ∧ least ≤ most
  | .join j => r.children ≠ [] ∧ j.opening.isSome = j.closing.isSome ∧
    j.count.lower ≤ j.count.upper

instance : DecidablePred Rule.Lowerable := fun ⟨⟨kind, _, children, _⟩, _, _, _⟩ =>
  match kind with
  | .sequence => inferInstanceAs (Decidable True)
  | .choice | .optional | .star | .plus => inferInstanceAs (Decidable (children ≠ []))
  | .repetition least most => inferInstanceAs (Decidable (children ≠ [] ∧ least ≤ most))
  | .join j => inferInstanceAs (Decidable (children ≠ [] ∧ j.opening.isSome = j.closing.isSome ∧
    j.count.lower ≤ j.count.upper))

/-! ## Rules that can be lowered -/

theorem mem_repetitionDrafts_most {i least most : Nat} {x : String} {child : Symbol}
    {names : ChildNames} (h : least ≤ most) :
    Draft.copies i x child names most ∈ repetitionDrafts i x child names least most :=
  List.mem_map.2 ⟨0, List.mem_range.2 (by omega), rfl⟩

section

variable {a : Auxiliaries} {i helper : Nat} {entry : Symbol} {names : ChildNames} {count : Count}

/-- The entries of a join are asked for, whatever the count. -/
theorem Auxiliaries.exists_repetition (h : count.lower ≤ count.upper) :
    ∃ d ∈ a.entryDrafts i entry names helper count, d.sides.left = a.repetition := by
  rw [entryDrafts]
  by_cases hzero : count.lower = 0
  · exact ⟨.nothing i a.repetition, by simp [hzero], rfl⟩
  have hnone : count.upper ≠ 0 := by omega
  rw [if_neg hnone, if_neg hzero, List.append_nil]
  split_ifs
  · exact ⟨.alone i a.repetition entry names, by simp, rfl⟩
  · exact ⟨.headed i a.repetition entry names a.tail "star", by simp, rfl⟩
  · exact ⟨.headed i a.repetition entry names a.rest "rest", by simp, rfl⟩
  · exact ⟨.headed i a.repetition entry names a.tail "repeat", by simp, rfl⟩

/-- So is all that the entries need. -/
theorem Auxiliaries.exists_entryName (h : count.lower ≤ count.upper) {x : String}
    (hx : x ∈ a.entryNames count) :
    ∃ d ∈ a.entryDrafts i entry names helper count, d.sides.left = x := by
  have hupper : ¬ count.upper ≤ 1 := fun hle => by
    rw [entryNames, if_pos hle] at hx
    cases hx
  have hnone : count.upper ≠ 0 := by omega
  have hone : count.upper ≠ 1 := by omega
  rw [entryNames, if_neg hupper] at hx
  rw [entryDrafts, if_neg hnone, if_neg hone]
  by_cases hlimit : count.upper = Count.limit
  · have htail : Draft.nothing helper a.tail ∈
        starDrafts helper a.tail (.nonterminal a.next) [some "next"] := by simp [starDrafts]
    rw [if_pos hlimit]
    split_ifs at hx with hrest
    · rw [if_neg (Nat.not_le.2 hrest.2)]
      rcases List.mem_pair.1 hx with rfl | rfl
      · exact ⟨_, List.mem_append_left _ (List.mem_append_left _ htail), rfl⟩
      · exact ⟨a.spreadDraft i count.lower, by simp, rfl⟩
    · obtain rfl := List.mem_singleton.1 hx
      exact ⟨_, List.mem_append_left _ (List.mem_append_left _ htail), rfl⟩
  · rw [if_neg fun hrest => hlimit hrest.1] at hx
    rw [if_neg hlimit]
    obtain rfl := List.mem_singleton.1 hx
    have hmost := @mem_repetitionDrafts_most helper (count.lower - 1) (count.upper - 1) a.tail
      (.nonterminal a.next) [some "next"] (by omega)
    exact ⟨_, List.mem_append_left _ (List.mem_append_left _ hmost), rfl⟩

end

variable {r : Rule}

/-- **A rule that can be lowered** asks for productions of its target, and of all the nonterminals
that it makes up. -/
theorem Rule.exists_draft_of_own (h : r.Lowerable) (i : Nat) (a : Auxiliaries) {x : String}
    (hx : x ∈ r.target :: r.auxiliaries a) : ∃ d ∈ r.drafts i a, d.sides.left = x := by
  obtain ⟨⟨kind, target, children, names⟩, evaluator, completer, listener⟩ := r
  cases kind with
  | sequence =>
    obtain rfl := List.mem_singleton.1 hx
    exact ⟨_, List.mem_singleton_self _, rfl⟩
  | choice =>
    obtain ⟨c, more, rfl⟩ := List.exists_cons_of_ne_nil h
    obtain rfl := List.mem_singleton.1 hx
    exact ⟨_, List.mem_map_of_mem (List.mem_cons_self ..), rfl⟩
  | optional | star | plus =>
    obtain ⟨c, more, rfl⟩ := List.exists_cons_of_ne_nil h
    obtain rfl := List.mem_singleton.1 hx
    exact ⟨_, List.mem_cons_self .., rfl⟩
  | repetition least most =>
    obtain ⟨hne, hle⟩ := h
    obtain ⟨c, more, rfl⟩ := List.exists_cons_of_ne_nil hne
    obtain rfl := List.mem_singleton.1 hx
    exact ⟨_, mem_repetitionDrafts_most hle, rfl⟩
  | join j =>
    obtain ⟨hne, -, hcount⟩ := h
    obtain ⟨c, more, rfl⟩ := List.exists_cons_of_ne_nil hne
    simp only [auxiliaries, List.mem_cons, List.mem_append, List.not_mem_nil, or_false] at hx
    rcases hx with rfl | (rfl | rfl) | hx
    · exact ⟨_, Join.mem_drafts.2 (.inr (.inr rfl)), Join.wholeDraft_left _⟩
    · exact ⟨_, Join.mem_drafts.2 (.inl rfl), Join.nextDraft_left _⟩
    · obtain ⟨d, hd, hleft⟩ := Auxiliaries.exists_repetition hcount
      exact ⟨d, Join.mem_drafts.2 (.inr (.inl hd)), hleft⟩
    · obtain ⟨d, hd, hleft⟩ := Auxiliaries.exists_entryName hcount hx
      exact ⟨d, Join.mem_drafts.2 (.inr (.inl hd)), hleft⟩

/-- Lowering such a rule succeeds. -/
theorem FlatGrammar.exists_lower (h : r.Lowerable) (g : FlatGrammar) :
    ∃ g', g.lower r = .ok g' := by
  obtain ⟨⟨kind, target, children, names⟩, evaluator, completer, listener⟩ := r
  cases kind with
  | sequence | choice => exact ⟨_, rfl⟩
  | optional | star | plus =>
    obtain ⟨c, more, rfl⟩ := List.exists_cons_of_ne_nil h
    exact ⟨_, rfl⟩
  | repetition least most =>
    obtain ⟨hne, hle⟩ := h
    obtain ⟨c, more, rfl⟩ := List.exists_cons_of_ne_nil hne
    exact ⟨_, if_neg (Nat.not_lt.2 hle)⟩
  | join j =>
    obtain ⟨hne, hbalanced, hcount⟩ := h
    obtain ⟨c, more, rfl⟩ := List.exists_cons_of_ne_nil hne
    exact ⟨_, (if_neg (not_not.2 hbalanced)).trans (if_neg (Nat.not_lt.2 hcount))⟩

theorem FlatGrammar.exists_foldlM_lower {rules : List Rule} (h : ∀ r ∈ rules, r.Lowerable)
    (g : FlatGrammar) : ∃ g', rules.foldlM lower g = .ok g' := by
  induction rules generalizing g with
  | nil => exact ⟨g, rfl⟩
  | cons r rules ih =>
    obtain ⟨hr, hrules⟩ := List.forall_mem_cons.1 h
    obtain ⟨g₁, hlower⟩ := exists_lower hr g
    obtain ⟨g₂, hfold⟩ := ih hrules g₁
    exact ⟨g₂, by rw [List.foldlM_cons, hlower]; exact hfold⟩

/-! ## Nonterminals with productions -/

namespace FlatGrammar

variable {g : FlatGrammar} {table : SymbolTable} {lots : List Lot}

/-- **Every nonterminal has productions** if some lots are lowered that have rules for all of the
nonterminals they are written with. -/
theorem Allots.exists_production (h : g.Allots table lots)
    (hlowerable : ∀ l ∈ lots, l.rule.Lowerable)
    (hdefined : ∀ l ∈ lots, ∀ y, .nonterminal y ∈ l.rule.symbols →
      ∃ l' ∈ lots, l'.rule.target = y) {q : Production} (hq : q ∈ g.productions) {y : String}
    (hy : .nonterminal y ∈ q.right) : ∃ p ∈ g.productions, p.left = y := by
  -- whatever a lot is written with, or makes up, has a draft
  have hdraft : ∀ l ∈ lots, ∀ y ∈ l.own, ∃ d ∈ lots.flatMap (·.drafts), d.sides.left = y := by
    intro l hl y hy
    obtain ⟨d, hd, hleft⟩ := Rule.exists_draft_of_own (hlowerable l hl) l.index l.names hy
    exact ⟨d, List.mem_flatMap.2 ⟨l, hl, hd⟩, hleft⟩
  obtain ⟨first, more, hasking, -⟩ := h.merged.of_mem hq
  obtain ⟨hfirst, hsides⟩ := mem_asking.1 (hasking ▸ List.mem_cons_self ..)
  obtain ⟨l, hl, hfirst⟩ := List.mem_flatMap.1 hfirst
  have hmentions : first.sides.Mentions y := by
    refine Sides.mentions_bare.1 (.inr ?_)
    rw [hsides]
    exact hy
  obtain ⟨d, hd, hleft⟩ : ∃ d ∈ lots.flatMap (·.drafts), d.sides.left = y := by
    rcases (h.within_of_mem_drafts hl hfirst).mentions hmentions with hown | hsymbol
    · exact hdraft l hl y hown
    · obtain ⟨l', hl', rfl⟩ := hdefined l hl y hsymbol
      exact hdraft l' hl' _ (List.mem_cons_self ..)
  obtain ⟨p, hp, hp', -⟩ := mem_sides.1 (h.merged.drawn d hd)
  exact ⟨p, hp, hp'.trans ((Sides.bare_left _).trans hleft)⟩

/-- No nonterminal is reported if all of them have productions. -/
theorem undefined?_eq_none (h : ∀ q ∈ g.productions, ∀ y, .nonterminal y ∈ q.right →
    ∃ p ∈ g.productions, p.left = y) : g.undefined? = none := by
  refine List.findSome?_eq_none_iff.2 fun s hs => ?_
  obtain ⟨q, hq, hs⟩ := List.mem_flatMap.1 hs
  cases s with
  | terminal t => rfl
  | nonterminal y =>
    obtain ⟨p, hp, hleft⟩ := h q hq y hs
    exact if_pos (List.any_eq_true.2 ⟨p, hp, decide_eq_true hleft⟩)

end FlatGrammar

/-! ## Complete grammars -/

namespace Grammar

/-- **A complete grammar**: all rules can be lowered, and all nonterminals have rules. -/
structure Complete (G : Grammar) : Prop where
  lowerable : ∀ r ∈ G.rules, r.Lowerable
  defined : ∀ r ∈ G.rules, ∀ x, .nonterminal x ∈ r.symbols → ∃ r' ∈ G.rules, r'.target = x

variable {G : Grammar} {x : String}

/-- Whether a grammar is complete can be read off the list of its rules. -/
theorem Complete.of_rules (hlowerable : ∀ r ∈ G.rules.toList, r.Lowerable)
    (hdefined : ∀ r ∈ G.rules.toList, ∀ s ∈ r.symbols,
      s.isTerminal = true ∨ s.name ∈ G.rules.toList.map (·.target)) : G.Complete where
  lowerable r hr := hlowerable r (Array.mem_toList_iff.2 hr)
  defined r hr x hx := by
    have hname := (hdefined r (Array.mem_toList_iff.2 hr) _ hx).resolve_left Bool.false_ne_true
    obtain ⟨r', hr', htarget⟩ := List.mem_map.1 hname
    exact ⟨r', Array.mem_toList_iff.1 hr', htarget⟩

/-- With a rule for the start symbol it is complete as well. -/
theorem Complete.withStart (h : G.Complete) (hx : ∃ r ∈ G.rules, r.target = x) :
    (G.withStart (.nonterminal x)).Complete := by
  have htarget : ∀ y, (∃ r ∈ G.rules, r.target = y) →
      ∃ r ∈ (G.withStart (.nonterminal x)).rules, r.target = y := by
    rintro y ⟨r, hr, rfl⟩
    by_cases hstart : r.target = SymbolTable.start
    · exact ⟨_, mem_rules_withStart.2 (.inr rfl), hstart.symm⟩
    · exact ⟨r, mem_rules_withStart.2 (.inl ⟨hr, hstart⟩), rfl⟩
  refine ⟨fun r hr => ?_, fun r hr y hy => ?_⟩
  · rcases mem_rules_withStart.1 hr with ⟨hr, -⟩ | rfl
    · exact h.lowerable r hr
    · trivial
  · rcases mem_rules_withStart.1 hr with ⟨hr, -⟩ | rfl
    · exact htarget y (h.defined r hr y hy)
    · obtain rfl : y = x := by
        simpa [startRule, Rule.symbols, Rule.ofChildren, Symbol.unnamed] using hy
      exact htarget y hx

/-- **A complete grammar lowers** to one in which every nonterminal has productions. -/
theorem Complete.exists_lowerAll (h : G.Complete) : ∃ flat, G.lowerAll = .ok flat := by
  obtain ⟨flat, hfold⟩ := FlatGrammar.exists_foldlM_lower
    (fun r hr => h.lowerable r (Array.mem_toList_iff.1 hr)) (FlatGrammar.ofSymbols G.symbols)
  obtain ⟨lots, hlots, hallots⟩ :=
    FlatGrammar.exists_allots (FlatGrammar.allots_ofSymbols G.symbols) hfold
  rw [List.nil_append] at hallots
  have hrule : ∀ l ∈ lots, l.rule ∈ G.rules := fun l hl =>
    Array.mem_toList_iff.1 (hlots ▸ List.mem_map_of_mem hl)
  have hdefined : ∀ l ∈ lots, ∀ y, .nonterminal y ∈ l.rule.symbols →
      ∃ l' ∈ lots, l'.rule.target = y := by
    intro l hl y hy
    obtain ⟨r', hr', hleft⟩ := h.defined _ (hrule l hl) y hy
    rw [← Array.mem_toList_iff, ← hlots] at hr'
    obtain ⟨l', hl', rfl⟩ := List.mem_map.1 hr'
    exact ⟨l', hl', hleft⟩
  have hnone : flat.undefined? = none := FlatGrammar.undefined?_eq_none fun q hq y hy =>
    hallots.exists_production (fun l hl => h.lowerable _ (hrule l hl)) hdefined hq hy
  exact ⟨flat, by rw [lowerAll, bind_eq_ok]; exact ⟨flat, hfold, by rw [hnone]⟩⟩

/-- **A complete grammar compiles** for each of its targets. -/
theorem Complete.exists_compile (h : G.Complete) (hx : ∃ r ∈ G.rules, r.target = x) :
    ∃ G', (compile (.nonterminal x)).run.run G = (.ok (), G') := by
  obtain ⟨flat, hflat⟩ := (h.withStart hx).exists_lowerAll
  rw [compile_eq, hflat]
  exact ⟨_, rfl⟩

end Grammar

end Typeahead
