import Typeahead.Language
import Typeahead.Proofs.Grammar.Reachable
import Mathlib

/-!
# Proofs/Language/Refused — what a refused definition leaves behind

A definition reads its pattern item by item.  An item that is refused changes nothing by itself
(`registers_itemOf`), but the items before it have been taken in by then, and lists, tuples and
repetitions among them have registered rules.  These rules stay behind the old ones: the language
is as it was just if no item before the refused one needed a rule (`defineType_refused_iff`).
-/

namespace Typeahead

namespace Pattern

/-- Whether a type needs rules of its own: lists and tuples do. -/
def VarType.needsRule : VarType → Bool
  | list _ | tuple _ _ => true
  | named _ | charClass _ => false

/-- Whether a variable needs rules of its own, for its type or for its repetition. -/
def Variable.needsRule (v : Variable) : Bool :=
  v.type.any VarType.needsRule || v.quantifier.isSome

/-- Whether an item of a pattern needs rules of its own. -/
def Item.needsRule : Item → Bool
  | literal _ | blanks => false
  | slot v => v.needsRule

end Pattern

namespace Grammar

/-- **A grammar with more rules**, all of them behind the old ones. -/
structure Grown (G G' : Grammar) : Prop where
  rules : G.rules.toList <+: G'.rules.toList
  size : G.rules.size < G'.rules.size
  flat : G'.flat = G.flat
  compiled : G'.compiled = false

theorem Grown.trans {G G' G'' : Grammar} (h : G.Grown G') (h' : G'.Grown G'') : G.Grown G'' :=
  ⟨h.rules.trans h'.rules, Nat.lt_trans h.size h'.size, h'.flat.trans h.flat, h'.compiled⟩

theorem Grown.rules_ne {G G' : Grammar} (h : G.Grown G') : G'.rules ≠ G.rules := by
  intro hrules
  have hsize := h.size
  rw [hrules] at hsize
  exact Nat.lt_irrefl _ hsize

/-! ## Builders -/

/-- A builder registers rules and refers to one of them. -/
structure Appends (m : StateM Grammar RuleRef) : Prop where
  grown : ∀ G : Grammar, G.Grown (m.run G).2
  index : ∀ G : Grammar, G.rules.size ≤ (m.run G).1.index

theorem appends_insert (kind : RuleKind) (name : Option String) (children : List Named) :
    Appends (insert kind name children) where
  grown G := by
    rw [run_insert]
    exact ⟨by simp, by simp, rfl, rfl⟩
  index G := by simp [run_insert]

theorem appends_join (name : Option String) (entry : Named) (j : Join) :
    Appends (join name entry j) where
  grown G := by
    rw [run_join]
    obtain ⟨hrules, hsize, hflat, hcompiled⟩ := (appends_insert (.join j) name [entry]).grown
      { G with symbols := G.symbols.registerAll j.joints }
    exact ⟨hrules, hsize, hflat, hcompiled⟩
  index G := by
    rw [run_join]
    exact (appends_insert (.join j) name [entry]).index
      { G with symbols := G.symbols.registerAll j.joints }

variable {m : StateM Grammar RuleRef}

theorem Appends.bind {f : RuleRef → StateM Grammar RuleRef} (hm : Appends m)
    (hf : ∀ r, Appends (f r)) : Appends (m >>= f) where
  grown G := (hm.grown G).trans ((hf _).grown _)
  index G := Nat.le_trans (Nat.le_of_lt (hm.grown G).size) ((hf _).index _)

theorem prefix_modify {α : Type} {as bs : List α} (h : as <+: bs) {i : Nat} (hi : as.length ≤ i)
    (f : α → α) : as <+: bs.modify i f := by
  induction as generalizing bs i with
  | nil => exact List.nil_prefix
  | cons a as ih =>
    obtain ⟨more, rfl⟩ := h
    obtain ⟨i, rfl⟩ := Nat.exists_eq_succ_of_ne_zero (Nat.ne_zero_of_lt hi)
    rw [List.cons_append, List.modify_succ_cons, List.cons_prefix_cons]
    exact ⟨rfl, ih (List.prefix_append ..) (Nat.le_of_succ_le_succ hi)⟩

/-- Changing a rule that was added leaves the old ones alone. -/
theorem Grown.modifyRule {G G' : Grammar} (h : G.Grown G') {r : RuleRef}
    (hr : G.rules.size ≤ r.index) (change : Rule → Rule) :
    G.Grown ((modifyRule r change).run G').2 := by
  refine ⟨?_, ?_, h.flat, rfl⟩
  · change _ <+: (G'.rules.modify r.index change).toList
    rw [Array.toList_modify]
    exact prefix_modify h.rules hr change
  · change _ < (G'.rules.modify r.index change).size
    rw [Array.size_modify]
    exact h.size

theorem Appends.modifyRule (hm : Appends m) (change : Rule → Rule) :
    Appends (m >>= fun r => modifyRule r change) where
  grown G := (hm.grown G).modifyRule (hm.index G) change
  index := hm.index

theorem appends_list (name : Option String) (entry : Named) (count : Count) :
    Appends (list name entry count) := by
  rw [list]
  refine (appends_insert ..).bind fun ws => ?_
  rw [← bind_assoc]
  exact ((appends_insert ..).modifyRule _).bind fun delimiter => appends_join ..

theorem appends_tuple (name : Option String) (entry : Symbol) (names : List String) :
    Appends (tuple name entry names) := by
  rw [tuple, ← bind_assoc]
  refine ((appends_insert ..).modifyRule _).bind fun ws => ?_
  refine (appends_insert ..).bind fun opening => (appends_insert ..).bind fun closing =>
    (appends_insert ..).bind fun delimiter => ?_
  exact ((appends_join ..).modifyRule _).modifyRule _

theorem appends_quantified (child : Named) (count : Count) : Appends (quantified child count) := by
  unfold quantified
  split_ifs <;> exact appends_insert ..

/-! ## Items of a pattern -/

/-- What follows a grammar: more rules if `rules` says so, nothing new otherwise. -/
def Follows (rules : Bool) (G G' : Grammar) : Prop :=
  if rules then G.Grown G' else G' = G

theorem Follows.trans {b b' : Bool} {G G' G'' : Grammar} (h : Follows b G G')
    (h' : Follows b' G' G'') : Follows (b || b') G G'' := by
  cases b <;> cases b'
  case true.true => exact Grown.trans h h'
  all_goals
    simp only [Follows, Bool.false_eq_true, if_false, if_true, Bool.or_false, Bool.or_true] at *
    subst_vars
    first | rfl | assumption

/-- A change that, if refused, leaves the grammar as it was, and that registers rules just if
`rules` says so. -/
def Registers {α : Type} (rules : Bool) (m : GrammarM α) : Prop := ∀ G : Grammar,
  (∃ e, m.run.run G = (.error e, G)) ∨ ∃ a G', m.run.run G = (.ok a, G') ∧ Follows rules G G'

/-- The same of a change that is never refused. -/
def Succeeds {α : Type} (rules : Bool) (m : GrammarM α) : Prop := ∀ G : Grammar,
  ∃ a G', m.run.run G = (.ok a, G') ∧ Follows rules G G'

section

variable {α β : Type} {b b' : Bool} {m : GrammarM α} {f : α → GrammarM β}

theorem Succeeds.registers (h : Succeeds b m) : Registers b m := fun G => .inr (h G)

theorem succeeds_pure (a : α) : Succeeds false (pure a) := fun G => ⟨a, G, rfl, rfl⟩

theorem Appends.succeeds {m : StateM Grammar RuleRef} (h : Appends m) (f : RuleRef → α) :
    Succeeds true (do return f (← m)) :=
  fun G => ⟨_, _, rfl, h.grown G⟩

/-- What comes first may be refused, what comes after it may not. -/
theorem Registers.bind (hm : Registers b m) (hf : ∀ a, Succeeds b' (f a)) :
    Registers (b || b') (m >>= f) := by
  intro G
  rw [GrammarM.run_bind]
  rcases hm G with ⟨e, hrun⟩ | ⟨a, G', hrun, hfollows⟩
  · exact .inl ⟨e, by rw [hrun]⟩
  · obtain ⟨c, G'', hrun', hfollows'⟩ := hf a G'
    exact .inr ⟨c, G'', by rw [hrun]; exact hrun', hfollows.trans hfollows'⟩

/-- What only looks at the grammar may come before a change that may be refused. -/
theorem Registers.check_bind (hm : Registers false m) (hf : ∀ a, Registers b (f a)) :
    Registers b (m >>= f) := by
  intro G
  rw [GrammarM.run_bind]
  rcases hm G with ⟨e, hrun⟩ | ⟨a, G', hrun, hG⟩
  · exact .inl ⟨e, by rw [hrun]⟩
  · obtain rfl : G' = G := hG
    rw [hrun]
    exact hf a G'

end

theorem registers_typeSymbol (name : String) : Registers false (typeSymbol name) := by
  intro G
  rw [typeSymbol, GrammarM.run_bind, GrammarM.run_get]
  dsimp only
  split
  · exact .inr ⟨_, G, rfl, rfl⟩
  · exact .inl ⟨_, rfl⟩

theorem registers_ofClass (pattern : String) :
    Registers false (liftM (Terminal.ofClass pattern) : GrammarM Terminal) := by
  intro G
  rw [GrammarM.run_ofExcept]
  rcases Terminal.ofClass pattern with e | t
  · exact .inl ⟨e, rfl⟩
  · exact .inr ⟨t, G, rfl, rfl⟩

theorem registers_typeOf (v : Pattern.Variable) :
    Registers (v.type.any Pattern.VarType.needsRule) (typeOf v) := by
  rw [typeOf]
  rcases v.type with _ | name | pattern | entry | ⟨entry, names⟩
  · exact (succeeds_pure _).registers
  · exact registers_typeSymbol name
  · exact (registers_ofClass pattern).bind fun t => succeeds_pure _
  · exact (registers_typeSymbol entry).check_bind fun s => ((appends_list ..).succeeds _).registers
  · exact (registers_typeSymbol entry).check_bind fun s => ((appends_tuple ..).succeeds _).registers

theorem registers_variableOf (v : Pattern.Variable) : Registers v.needsRule (variableOf v) := by
  obtain ⟨name, type, quantifier⟩ := v
  rcases type with _ | type | pattern | entry | ⟨entry, names⟩
  -- the quantifier of a list is used up by the list
  case some.list =>
    change Registers (true || false) _
    exact (registers_typeOf ⟨name, some (.list entry), quantifier⟩).bind fun s => succeeds_pure _
  all_goals
    refine (registers_typeOf _).bind fun s => ?_
    rcases quantifier with _ | count
    · exact succeeds_pure _
    · exact (appends_quantified ..).succeeds _

/-- **An item that is refused changes nothing**, and an item that is not registers rules just if it
needs some. -/
theorem registers_itemOf (item : Pattern.Item) : Registers item.needsRule (itemOf item) := by
  cases item with
  | literal text => exact (succeeds_pure _).registers
  | blanks => exact (succeeds_pure _).registers
  | slot v => exact registers_variableOf v

/-! ## Definitions -/

/-- The items that a grammar takes in before the first one that it refuses. -/
def takenItems (G : Grammar) : List Pattern.Item → List Pattern.Item
  | [] => []
  | item :: items => match (itemOf item).run.run G with
    | (.ok _, G') => item :: G'.takenItems items
    | (.error _, _) => []

/-- The items of a pattern that a grammar takes in before the first one that it refuses. -/
def taken (G : Grammar) (pattern : String) : List Pattern.Item :=
  match Pattern.read pattern with
  | .ok items => G.takenItems items
  | .error _ => []

/-- **Items taken in before a refusal** leave the rules that they need. -/
theorem follows_of_mapM_refused {items : List Pattern.Item} {G G' : Grammar} {e : GrammarError}
    (h : (items.mapM itemOf).run.run G = (.error e, G')) :
    Follows ((G.takenItems items).any (·.needsRule)) G G' := by
  induction items generalizing G with
  | nil => cases h
  | cons item items ih =>
    rw [List.mapM_cons, GrammarM.run_bind] at h
    rcases registers_itemOf item G with ⟨e', hrun⟩ | ⟨s, G₁, hrun, hfollows⟩
    · rw [hrun] at h
      cases h
      simp only [takenItems, hrun, List.any_nil]
      rfl
    · rw [hrun] at h
      simp only [takenItems, hrun, List.any_cons]
      refine hfollows.trans (ih ?_)
      -- the sequence of the items is put together only if none of them is refused
      dsimp only at h
      rw [GrammarM.run_bind] at h
      split at h
      next => cases h
      next hrest =>
        cases h
        exact hrest

theorem run_defineType (name pattern : String) (G : Grammar) :
    (defineType name pattern).run.run G = match Pattern.read pattern with
      | .error e => (.error e, G)
      | .ok items => match (items.mapM itemOf).run.run G with
        | (.error e, G') => (.error e, G')
        | (.ok children, G') =>
          (.ok ((sequence (some name) children).run G').1,
            ((sequence (some name) children).run G').2) := by
  rw [defineType, GrammarM.run_bind, GrammarM.run_ofExcept]
  rcases Pattern.read pattern with e | items
  · rfl
  · dsimp only
    rw [GrammarM.run_bind]
    split <;> simp only [GrammarM.run_lift, *]

theorem follows_of_defineType_refused {name pattern : String} {G G' : Grammar} {e : GrammarError}
    (h : (defineType name pattern).run.run G = (.error e, G')) :
    Follows ((G.taken pattern).any (·.needsRule)) G G' := by
  rw [run_defineType] at h
  rw [taken]
  rcases hread : Pattern.read pattern with e' | items <;> rw [hread] at h
  · cases h
    rfl
  · dsimp only at h ⊢
    split at h
    next hmap =>
      cases h
      exact follows_of_mapM_refused hmap
    next => cases h

theorem exists_refused_of_takenItems {items : List Pattern.Item} {G : Grammar}
    (h : G.takenItems items ≠ items) : ∃ e G', (items.mapM itemOf).run.run G = (.error e, G') := by
  induction items generalizing G with
  | nil => exact absurd rfl h
  | cons item items ih =>
    rw [List.mapM_cons, GrammarM.run_bind]
    rw [takenItems] at h
    rcases hrun : (itemOf item).run.run G with ⟨e | s, G₁⟩ <;> rw [hrun] at h
    · exact ⟨e, G₁, rfl⟩
    · obtain ⟨e, G', hrest⟩ := ih fun heq => h (congrArg (item :: ·) heq)
      exact ⟨e, G', by dsimp only; rw [GrammarM.run_bind, hrest]⟩

/-- A definition is refused if not all of its items are taken in, and its rules stay. -/
theorem exists_grown_of_taken (name : String) {pattern : String} {items : List Pattern.Item}
    {G : Grammar} (hread : Pattern.read pattern = .ok items) (hrefused : G.takenItems items ≠ items)
    (hneeds : (G.takenItems items).any (·.needsRule) = true) :
    ∃ e G', (defineType name pattern).run.run G = (.error e, G') ∧ G.Grown G' := by
  obtain ⟨e, G', hitems⟩ := exists_refused_of_takenItems hrefused
  have hrun : (defineType name pattern).run.run G = (.error e, G') := by
    rw [run_defineType, hread]
    simp only [hitems]
  have hfollows := follows_of_defineType_refused hrun
  simp only [taken, hread, hneeds] at hfollows
  exact ⟨e, G', hrun, hfollows⟩

end Grammar

namespace Language

theorem run_edit {α : Type} (change : GrammarM α) (l : Language) :
    (edit change).run.run l =
      ((change.run.run l.grammar).1, { l with grammar := (change.run.run l.grammar).2 }) := rfl

/-- **A refused definition leaves behind the rules of the items before the refused one.**  The rules
and whether they are compiled are as before just if none of these items needed a rule; then the
whole language is as before.  Otherwise the new rules stand behind the old ones, and the language
waits for a compile. -/
theorem defineType_refused_iff {l l' : Language} {name pattern : String} {e : GrammarError}
    (h : (edit (Grammar.defineType name pattern)).run.run l = (.error e, l')) :
    (l'.grammar.rules = l.grammar.rules ∧ l'.grammar.compiled = l.grammar.compiled ↔
      ∀ item ∈ l.grammar.taken pattern, item.needsRule = false) ∧
    ((∀ item ∈ l.grammar.taken pattern, item.needsRule = false) → l' = l) ∧
    ((∃ item ∈ l.grammar.taken pattern, item.needsRule = true) → l.grammar.Grown l'.grammar) := by
  rw [run_edit, Prod.mk.injEq] at h
  obtain ⟨herror, rfl⟩ := h
  have hfollows := Grammar.follows_of_defineType_refused (Prod.ext herror rfl)
  rcases hneeds : (l.grammar.taken pattern).any (·.needsRule) <;> rw [hneeds] at hfollows
  · have hnone : ∀ item ∈ l.grammar.taken pattern, item.needsRule = false := by
      simpa using hneeds
    have hsame : ((Grammar.defineType name pattern).run.run l.grammar).2 = l.grammar := hfollows
    rw [hsame]
    refine ⟨iff_of_true ⟨rfl, rfl⟩ hnone, fun _ => rfl, ?_⟩
    rintro ⟨item, hitem, hrule⟩
    rw [hnone item hitem] at hrule
    cases hrule
  · obtain ⟨item, hitem, hrule⟩ := List.any_eq_true.1 hneeds
    have hnot : ¬∀ item ∈ l.grammar.taken pattern, item.needsRule = false := by
      intro hnone
      rw [hnone item hitem] at hrule
      cases hrule
    have hgrown : l.grammar.Grown ((Grammar.defineType name pattern).run.run l.grammar).2 :=
      hfollows
    refine ⟨iff_of_false ?_ hnot, fun hnone => absurd hnone hnot, fun _ => hgrown⟩
    rintro ⟨hrules, -⟩
    exact hgrown.rules_ne hrules

/-- A definition that is refused at its first variable leaves the language as it was. -/
theorem defineType_refused_iff_literal :
    ∃ l', (edit (Grammar.defineType "order" "Use \x7bx:nothing\x7d.")).run.run {} =
        (.error (.unknownType "nothing"), l') ∧
      l'.grammar.rules = #[] ∧ l'.grammar.compiled = false := by
  have hread : Pattern.read "Use \x7bx:nothing\x7d." =
      .ok [.literal "Use", .blanks, .slot ⟨"x", some (.named "nothing"), none⟩, .literal "."] := by
    cbv
  have hrun : (edit (Grammar.defineType "order" "Use \x7bx:nothing\x7d.")).run.run {} =
      (.error (.unknownType "nothing"), {}) := by
    rw [run_edit, Grammar.run_defineType, hread]
    rfl
  have htaken : ({} : Grammar).taken "Use \x7bx:nothing\x7d." = [.literal "Use", .blanks] := by
    rw [Grammar.taken, hread]
    rfl
  refine ⟨_, hrun, (defineType_refused_iff hrun).1.2 ?_⟩
  rw [htaken]
  decide

theorem initial_takenItems :
    (initial {}).grammar.takenItems [.slot ⟨"d", some (.named "digit"), some ⟨3, 1⟩⟩,
        .slot ⟨"x", some (.named "nothing"), none⟩] =
      [.slot ⟨"d", some (.named "digit"), some ⟨3, 1⟩⟩] := by
  decide +kernel

/-- **Not every refused definition leaves the rules as they were.**  The repetition before the
unknown type stays. -/
theorem defineType_refused_adds_repetition :
    ∃ e l', (edit (Grammar.defineType "t" "\x7bd:digit:3-1\x7d\x7bx:nothing\x7d")).run.run
        (initial {}) = (.error e, l') ∧
      l'.grammar.rules ≠ (initial {}).grammar.rules := by
  have hread : Pattern.read "\x7bd:digit:3-1\x7d\x7bx:nothing\x7d" =
      .ok [.slot ⟨"d", some (.named "digit"), some ⟨3, 1⟩⟩,
        .slot ⟨"x", some (.named "nothing"), none⟩] := by cbv
  obtain ⟨e, G, hrun, hgrown⟩ := Grammar.exists_grown_of_taken "t" hread
    (by rw [initial_takenItems]; simp) (by rw [initial_takenItems]; rfl)
  exact ⟨e, { initial {} with grammar := G }, by rw [run_edit, hrun], hgrown.rules_ne⟩

end Language

end Typeahead
