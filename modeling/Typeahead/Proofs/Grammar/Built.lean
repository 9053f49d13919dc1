import Typeahead.Proofs.Grammar.Ways
import Typeahead.Proofs.Search.GivenUp

/-!
# Proofs/Grammar/Built — grammars made by their builders

`Grammar.Call` lists what the builders of a grammar do.  Each call is a change of the grammar
(`Call.change`), but only sequences and choices come to have several children (`Built.single`).

So whatever stands below a rule stands in one of its productions as well, unless that rule derives
nothing but the empty text (`Rule.exists_side_of_child`).  Compiling has refused the grammar if a
nonterminal of a production has no productions of its own, and with it, if a node has something
below it, a nonterminal among the children of its rule (`Grammar.defines_children_of_compile`).
-/

namespace Typeahead

/-- Only sequences and choices have more than one child. -/
def Rule.Single (r : Rule) : Prop :=
  r.kind ≠ .sequence → r.kind ≠ .choice → r.children.length ≤ 1

/-! ## Building -/

namespace Grammar

/-- **One call of a builder.**  A rule that is there may be given another behaviour, other names for
its children, or another count if it is a join. -/
inductive Call : Grammar → Grammar → Prop
  | declare (G : Grammar) (name : String) : Call G ((declare name).run G).2
  | sequence (G : Grammar) (name : Option String) (children : List Named) :
    Call G ((sequence name children).run G).2
  | choice (G : Grammar) (name : Option String) (options : List Named) :
    Call G ((choice name options).run G).2
  | optional (G : Grammar) (name : Option String) (child : Named) :
    Call G ((optional name child).run G).2
  | star (G : Grammar) (name : Option String) (child : Named) : Call G ((star name child).run G).2
  | plus (G : Grammar) (name : Option String) (child : Named) : Call G ((plus name child).run G).2
  | repetition (G : Grammar) (name : Option String) (child : Named) (least most : Nat) :
    Call G ((repetition name child least most).run G).2
  | join (G : Grammar) (name : Option String) (entry : Named) (j : Join) :
    Call G ((join name entry j).run G).2
  | modifyRule (G : Grammar) (r : RuleRef) {change : Rule → Rule}
    (hword : ∀ r, (change r).kind.word = r.kind.word) (htarget : ∀ r, (change r).target = r.target)
    (hchildren : ∀ r, (change r).children = r.children)
    (hsymbols : ∀ r, (change r).symbols = r.symbols) : Call G ((modifyRule r change).run G).2
  | removeRules (G : Grammar) (target : String) : Call G ((removeRules target).run G).2
  | compile (G : Grammar) (top : Symbol) : Call G ((compile top).run.run G).2

/-- A grammar that is made from the empty one by calls of its builders. -/
def Built (G : Grammar) : Prop := Relation.ReflTransGen Call {} G

variable {G G' : Grammar}

theorem Call.change (h : G.Call G') : G.Change G' := by
  cases h with
  | declare name => exact .declare _ name
  | sequence | choice | optional | star | plus | repetition =>
    exact .insert _ (fun _ => RuleKind.noConfusion) _ _
  | join name entry j => exact .join _ name entry j
  | modifyRule r _ htarget _ hsymbols => exact .modifyRule _ r htarget hsymbols
  | removeRules target => exact .removeRules _ target
  | compile top => exact .compile _ top

theorem Built.reachable (h : G.Built) : G.Reachable :=
  Relation.ReflTransGen.mono (fun _ _ => Call.change) _ _ h

/-! ### Rules with several children -/

theorem single_insert (h : ∀ r ∈ G.rules, r.Single) {kind : RuleKind} {children : List Named}
    (hnew : kind ≠ .sequence → kind ≠ .choice → children.length ≤ 1) (name : Option String) :
    ∀ r ∈ ((insert kind name children).run G).2.rules, r.Single := by
  rw [run_insert]
  intro r hr
  rcases Array.mem_push.1 hr with hr | rfl
  · exact h r hr
  · intro hsequence hchoice
    rw [Rule.ofChildren, List.length_map]
    exact hnew hsequence hchoice

theorem RuleKind.eq_of_word {k k' : RuleKind} (h : k.word = k'.word) :
    (k = .sequence ↔ k' = .sequence) ∧ (k = .choice ↔ k' = .choice) := by
  cases k <;> cases k' <;> simp_all [RuleKind.word]

theorem Call.single (hcall : G.Call G') (h : ∀ r ∈ G.rules, r.Single) :
    ∀ r ∈ G'.rules, r.Single := by
  cases hcall with
  | declare => exact h
  | sequence => exact single_insert h (fun hne => absurd rfl hne) _
  | choice => exact single_insert h (fun _ hne => absurd rfl hne) _
  | optional _ child | star _ child | plus _ child | repetition _ child =>
    exact single_insert h (fun _ _ => Nat.le_of_eq List.length_singleton) _
  | join name entry j =>
    rw [run_join]
    refine single_insert ?_ (fun _ _ => Nat.le_of_eq List.length_singleton) _
    exact h
  | @modifyRule r change hword htarget hchildren hsymbols =>
    intro rule hrule
    obtain ⟨old, hold, rfl | rfl⟩ := exists_of_mem_modifyRule hrule
    · exact h rule hold
    · obtain ⟨hsequence, hchoice⟩ := RuleKind.eq_of_word (hword old)
      rw [Rule.Single, Ne, Ne, hsequence, hchoice, hchildren]
      exact h old hold
  | removeRules target => exact fun r hr => h r (Array.mem_filter.1 hr).1
  | compile top =>
    have hstart : ∀ r ∈ (G.withStart top).rules, r.Single := by
      intro r hr
      rcases mem_rules_withStart.1 hr with ⟨hr, -⟩ | rfl
      · exact h r hr
      · exact fun hne => absurd rfl hne
    rw [compile_eq]
    split <;> exact hstart

/-- **In a built grammar** only sequences and choices have more than one child. -/
theorem Built.single (h : G.Built) : ∀ r ∈ G.rules, r.Single := by
  induction h with
  | refl => exact fun r hr => absurd hr (Array.not_mem_empty r)
  | tail _ hcall ih => exact hcall.single ih

end Grammar

/-! ## Children and productions -/

/-- A rule with one child at most has the first one only. -/
theorem Rule.Single.eq_head {r : Rule} (h : r.Single) (hsequence : r.kind ≠ .sequence)
    (hchoice : r.kind ≠ .choice) {s : Symbol} (hs : s ∈ r.children) : r.children = [s] := by
  have hlength := h hsequence hchoice
  obtain ⟨t, ht⟩ := List.length_eq_one_iff.1
    (Nat.le_antisymm hlength (List.length_pos_of_mem hs))
  rw [ht] at hs ⊢
  rw [List.mem_singleton.1 hs]

/-- **Children stand in productions**: each on the right side of one of them, if there is a right
side that is not empty. -/
theorem Rule.exists_side_of_child {r : Rule} (h : r.Single) (a : Auxiliaries)
    (hne : ∃ s ∈ r.sides a, s.right ≠ []) {child : Symbol} (hchild : child ∈ r.children) :
    ∃ s ∈ r.sides a, child ∈ s.right := by
  have hhead := h.eq_head
  obtain ⟨⟨kind, target, children, names⟩, evaluator, completer, listener⟩ := r
  cases kind with
  | sequence => exact ⟨_, List.mem_singleton_self _, hchild⟩
  | choice => exact ⟨⟨target, [child]⟩, List.mem_map_of_mem hchild, List.mem_singleton_self _⟩
  | optional | star | plus =>
    obtain rfl : children = [child] := hhead nofun nofun hchild
    exact ⟨_, List.mem_cons_self .., List.mem_cons_self ..⟩
  | repetition least most =>
    obtain rfl : children = [child] := hhead nofun nofun hchild
    obtain ⟨s, hs, hright⟩ := hne
    refine ⟨s, hs, ?_⟩
    obtain ⟨i, -, rfl⟩ := List.mem_map.1 hs
    have hpos : most - i ≠ 0 := fun hzero => hright (by rw [hzero]; rfl)
    exact List.mem_replicate.2 ⟨hpos, rfl⟩
  | join j =>
    obtain rfl : children = [child] := hhead nofun nofun hchild
    exact ⟨_, List.mem_cons_self .., List.mem_append_right _ (List.mem_singleton_self _)⟩

/-- **Below a node there may be what its rule has as children**: in a compiled grammar all of these
have productions, if the rule completes to something and the node has something below it. -/
theorem Grammar.defines_children_of_compile {G G' : Grammar} {top : Symbol} (hG : G.Built)
    (h : (Grammar.compile top).run.run G = (.ok (), G')) {p : Production}
    (hp : p ∈ G'.flat.productions) (hright : p.right ≠ []) {r : Rule}
    (hr : G'.flat.ruleOf p = some r) (hcompleter : r.completer ≠ none) :
    G'.flat.Defines r.children := by
  obtain ⟨lots, hrules, hallots⟩ := Grammar.exists_allots_of_compile h
  obtain ⟨first, more, hasking, hrule, -⟩ := hallots.merged.of_mem hp
  obtain ⟨hfirst, hsides⟩ := mem_asking.1 (hasking ▸ List.mem_cons_self ..)
  obtain ⟨l, hl, hfirst⟩ := List.mem_flatMap.1 hfirst
  rw [FlatGrammar.ruleOf, hrule, Option.bind_some] at hr
  obtain rfl := (hallots.rule_eq_or_mem_helpers hl hfirst hr).resolve_right fun hmem =>
    hcompleter (Rule.isHelper_of_mem_helpers hmem).completer
  have hsingle : l.rule.Single := by
    have hbuilt := Built.single (hG.tail (.compile G top))
    rw [h] at hbuilt
    refine hbuilt _ ?_
    rw [← Array.mem_toList_iff, ← hrules]
    exact List.mem_map_of_mem hl
  have hperm := l.rule.sides_drafts l.names l.index fun j hj => (hallots.joins l hl j hj).1
  have hne : ∃ s ∈ l.rule.sides l.names, s.right ≠ [] := by
    refine ⟨first.sides, hperm.mem_iff.1 (List.mem_map_of_mem hfirst), fun hnil => hright ?_⟩
    have hbare : first.sides.bare.right = p.right := congrArg Sides.right hsides
    rw [← hbare, Sides.bare, hnil]
    rfl
  intro x hx
  obtain ⟨s, hs, hmem⟩ := Rule.exists_side_of_child hsingle l.names hne hx
  obtain ⟨d, hd, rfl⟩ := List.mem_map.1 (hperm.mem_iff.2 hs)
  obtain ⟨q, hq, -, hqright⟩ := FlatGrammar.mem_sides.1
    (hallots.merged.drawn d (List.mem_flatMap.2 ⟨l, hl, hd⟩))
  refine Grammar.defines_of_compile h q hq x ?_
  rw [hqright]
  exact List.mem_filter.2 ⟨hmem, rfl⟩

end Typeahead
