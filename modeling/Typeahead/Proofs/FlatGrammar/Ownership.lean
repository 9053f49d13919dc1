import Typeahead.Proofs.FlatGrammar.Lowering

/-!
# Proofs/FlatGrammar/Ownership — which rule a production belongs to

Every production names the rule it was made from.  Lowering a rule leaves the productions that are
there with their rules (`FlatGrammar.Puts`); the new ones belong to the rule itself, except for the
tail of a join, which has a rule of its own (`Auxiliaries.Shares`).

`lower_puts` says this for every kind of rule, by what the rule's drafts are
(`Rule.shares_of_mem_drafts`).
-/

namespace Typeahead

/-- Two productions with the same sides and the same rule. -/
def Production.Like (p q : Production) : Prop :=
  p.left = q.left ∧ p.right = q.right ∧ p.rule = q.rule

namespace FlatGrammar

/-- **`g'` is `g` with the rules `added`**, and with productions whose rules and sides satisfy
`new`. -/
structure Puts (g g' : FlatGrammar) (added : List Rule) (new : Nat → Sides → Prop) : Prop where
  rules : g'.rules.toList = g.rules.toList ++ added
  productions : ∀ q ∈ g'.productions, (∃ p ∈ g.productions, p.Like q) ∨
    ∃ i < g'.rules.size, q.rule = some i ∧ new i ⟨q.left, q.right⟩

theorem Puts.size {g g' : FlatGrammar} {added : List Rule} {new : Nat → Sides → Prop}
    (h : Puts g g' added new) : g'.rules.size = g.rules.size + added.length := by
  simpa using congrArg List.length h.rules

/-- If the rules of all productions are there before, they are there afterwards. -/
theorem Puts.bounded {g g' : FlatGrammar} {added : List Rule} {new : Nat → Sides → Prop}
    (h : Puts g g' added new)
    (hg : ∀ p ∈ g.productions, ∀ i, p.rule = some i → i < g.rules.size) :
    ∀ p ∈ g'.productions, ∀ i, p.rule = some i → i < g'.rules.size := by
  intro p hp i hi
  rcases h.productions p hp with ⟨q, hq, -, -, hrule⟩ | ⟨k, hk, hrule, -⟩
  · rw [h.size]
    exact Nat.lt_add_right _ (hg q hq i (hrule.trans hi))
  · rw [hi, Option.some.injEq] at hrule
    exact hrule ▸ hk

end FlatGrammar

/-! ## The kinds of rules -/

/-- A production of the rule `i` for `target`, whose right side is made of `symbols`. -/
def Sides.BelongsTo (i : Nat) (target : String) (symbols : List Symbol) (k : Nat) (s : Sides) :
    Prop :=
  k = i ∧ s.left = target ∧ s.right ⊆ symbols

/-- **How the productions of a join are shared**: the tail belongs to the rule `k`, everything else
to the join's own rule `i`. -/
inductive Auxiliaries.Shares (a : Auxiliaries) (target : String) (symbols : List Symbol)
    (i k : Nat) : Nat → Sides → Prop
  | next {s : Sides} (hleft : s.left = a.next) (hright : s.right ⊆ symbols) :
    Shares a target symbols i k i s
  | whole {s : Sides} (hleft : s.left = target)
    (hright : s.right ⊆ .nonterminal a.repetition :: symbols) : Shares a target symbols i k i s
  | repetition {s : Sides} (hleft : s.left = a.repetition)
    (hright : s.right ⊆ .nonterminal a.tail :: .nonterminal a.rest :: symbols) :
    Shares a target symbols i k i s
  | rest {s : Sides} (hleft : s.left = a.rest)
    (hright : s.right ⊆ [.nonterminal a.next, .nonterminal a.tail]) :
    Shares a target symbols i k i s
  | tail {s : Sides} (hleft : s.left = a.tail)
    (hright : s.right ⊆ [.nonterminal a.next, .nonterminal a.tail]) :
    Shares a target symbols i k k s

/-- A rule made up for the tail of a join: it behaves in no way of its own. -/
structure Rule.IsHelper (r : Rule) : Prop where
  kind : ∀ j, r.kind ≠ .join j
  completer : r.completer = none

/-- Which rule the productions of a rule belong to, if it is the rule `i`. -/
def Rule.Shares (r : Rule) (a : Auxiliaries) (i k : Nat) (s : Sides) : Prop :=
  match r.kind with
  | .join _ => a.Shares r.target r.symbols i (i + 1) k s
  | _ => s.BelongsTo i r.target (.nonterminal r.target :: r.children) k

theorem Rule.shares_iff_of_join {r : Rule} {j : Join} (hj : r.kind = .join j) {a : Auxiliaries}
    {i k : Nat} {s : Sides} :
    r.Shares a i k s ↔ a.Shares r.target r.symbols i (i + 1) k s := by
  rw [Shares, hj]

theorem Rule.shares_iff_of_ne_join {r : Rule} (hkind : ∀ j, r.kind ≠ .join j) {a : Auxiliaries}
    {i k : Nat} {s : Sides} :
    r.Shares a i k s ↔ s.BelongsTo i r.target (.nonterminal r.target :: r.children) k := by
  unfold Shares
  split
  next j hj => exact absurd hj (hkind j)
  next => rfl

/-! ## The rules of drafts -/

theorem Auxiliaries.Shares.bare {a : Auxiliaries} {target : String} {symbols : List Symbol}
    {i k l : Nat} {s : Sides} (h : a.Shares target symbols i k l s) :
    a.Shares target symbols i k l s.bare := by
  cases h with
  | next hleft hright => exact .next hleft (Sides.bare_subset hright)
  | whole hleft hright => exact .whole hleft (Sides.bare_subset hright)
  | repetition hleft hright => exact .repetition hleft (Sides.bare_subset hright)
  | rest hleft hright => exact .rest hleft (Sides.bare_subset hright)
  | tail hleft hright => exact .tail hleft (Sides.bare_subset hright)

theorem Rule.Shares.bare {r : Rule} {a : Auxiliaries} {i k : Nat} {s : Sides}
    (h : r.Shares a i k s) : r.Shares a i k s.bare := by
  by_cases hj : ∃ j, r.kind = .join j
  · obtain ⟨j, hj⟩ := hj
    rw [Rule.shares_iff_of_join hj] at h ⊢
    exact h.bare
  · rw [Rule.shares_iff_of_ne_join (not_exists.1 hj)] at h ⊢
    exact ⟨h.1, h.2.1, Sides.bare_subset h.2.2⟩

section

variable {a : Auxiliaries} {i : Nat} {target : String} {entry : Symbol} {names : ChildNames}
  {symbols : List Symbol} {d : Draft}

/-- All but the tail belong to the rule of the join. -/
theorem Auxiliaries.shares_of_mem_entryDrafts (hentry : entry ∈ symbols) {helper : Nat}
    {count : Count} :
    ∀ d ∈ a.entryDrafts i entry names helper count, a.Shares target symbols i helper d.rule d.sides
    := by
  intro d hd
  cases asks_of_mem_entryDrafts d hd with
  | nothing => exact .repetition rfl (List.nil_subset _)
  | alone => exact .repetition rfl (by simp [Draft.alone, hentry])
  | star _ hd =>
    simp only [starDrafts, List.mem_cons, List.not_mem_nil, or_false] at hd
    rcases hd with rfl | rfl
    · exact .tail rfl (List.Subset.refl _)
    · exact .tail rfl (List.nil_subset _)
  | copies =>
    refine .tail rfl fun s hs => ?_
    rw [List.eq_of_mem_replicate hs]
    exact List.mem_cons_self ..
  | tail | rest => exact .repetition rfl (by simp [Draft.headed, hentry])
  | spread =>
    refine .rest rfl (List.append_subset.2 ⟨fun s hs => ?_, by simp⟩)
    rw [List.eq_of_mem_replicate hs]
    exact List.mem_cons_self ..

theorem Join.shares_of_mem_drafts {j : Join} (hentry : entry ∈ symbols)
    (hjoints : j.joints ⊆ symbols) (hd : d ∈ j.drafts i target entry names a) :
    a.Shares target symbols i (i + 1) d.rule d.sides := by
  rw [drafts, List.mem_cons, List.mem_append, List.mem_singleton] at hd
  rcases hd with rfl | hd | rfl
  · rw [nextDraft]
    split
    next delimiter hdelimiter =>
      have hsub : delimiter ∈ symbols := hjoints (by simp [joints, hdelimiter])
      exact .next rfl (by simp [hsub, hentry])
    next => exact .next rfl (by simp [hentry])
  · exact Auxiliaries.shares_of_mem_entryDrafts hentry d hd
  · rw [wholeDraft]
    split
    next opening closing hopening hclosing =>
      have hsub : opening ∈ symbols ∧ closing ∈ symbols :=
        ⟨hjoints (by simp [joints, hopening]), hjoints (by simp [joints, hclosing])⟩
      exact .whole rfl (by simp [hsub])
    next => exact .whole rfl (by simp)

end

/-- **A rule's drafts are shared** between the rule and its helper. -/
theorem Rule.shares_of_mem_drafts {r : Rule} {a : Auxiliaries} {i : Nat} {d : Draft}
    (hd : d ∈ r.drafts i a) : r.Shares a i d.rule d.sides := by
  obtain ⟨⟨kind, target, children, names⟩, evaluator, completer, listener⟩ := r
  cases kind with
  | sequence =>
    obtain rfl := List.mem_singleton.1 hd
    exact ⟨rfl, rfl, List.subset_cons_self ..⟩
  | choice =>
    obtain ⟨o, ho, rfl⟩ := List.mem_map.1 hd
    have hoption : o.1 ∈ children := List.fst_mem_of_mem_zipIdx ho
    exact ⟨rfl, rfl, by simp [hoption]⟩
  | join j =>
    rcases children with _ | ⟨entry, more⟩
    · cases hd
    · exact Join.shares_of_mem_drafts (List.mem_append_left j.joints (List.mem_cons_self ..))
        (List.subset_append_right (entry :: more) j.joints) hd
  | optional | star | plus =>
    rcases children with _ | ⟨s, _⟩
    · cases hd
    · rcases List.mem_cons.1 hd with rfl | hd
      · exact ⟨rfl, rfl, by simp [Draft.alone, Draft.more]⟩
      · obtain rfl := List.mem_singleton.1 hd
        exact ⟨rfl, rfl, by simp [Draft.nothing]⟩
  | repetition least most =>
    rcases children with _ | ⟨s, _⟩
    · cases hd
    · obtain ⟨n, -, rfl⟩ := List.mem_map.1 hd
      refine ⟨rfl, rfl, fun t ht => ?_⟩
      rw [List.eq_of_mem_replicate ht]
      simp

/-- The rules made up for a rule are helpers. -/
theorem Rule.isHelper_of_mem_helpers {r r' : Rule} {a : Auxiliaries} (h : r' ∈ r.helpers a) :
    r'.IsHelper := by
  rw [helpers] at h
  split at h
  next j hj =>
    rw [Auxiliaries.helpers] at h
    split_ifs at h
    · cases h
    · obtain rfl := List.mem_singleton.1 h
      exact ⟨by simp [Auxiliaries.tailRule, ofChildren], rfl⟩
    · obtain rfl := List.mem_singleton.1 h
      exact ⟨by simp [Auxiliaries.tailRule, ofChildren], rfl⟩
  · cases h

/-- The tail has a rule only if there may be more than one entry. -/
theorem Auxiliaries.rule_of_mem_entryDrafts {a : Auxiliaries} {i helper : Nat} {entry : Symbol}
    {names : ChildNames} {count : Count} : ∀ d ∈ a.entryDrafts i entry names helper count,
      d.rule = i ∨ d.rule = helper ∧ 1 < count.upper := by
  intro d hd
  cases asks_of_mem_entryDrafts d hd with
  | star hlimit hd =>
    have hupper : 1 < count.upper := by rw [hlimit]; decide
    simp only [starDrafts, List.mem_cons, List.not_mem_nil, or_false] at hd
    rcases hd with rfl | rfl <;> exact .inr ⟨rfl, hupper⟩
  | copies hupper => exact .inr ⟨rfl, hupper⟩
  | _ => exact .inl rfl

/-- The rule of a draft is there. -/
theorem Rule.rule_of_mem_drafts {r : Rule} {a : Auxiliaries} {i : Nat} {d : Draft}
    (hd : d ∈ r.drafts i a) : d.rule < i + (r :: r.helpers a).length := by
  have hrule : d.rule = i → d.rule < i + (r :: r.helpers a).length := by
    rintro rfl
    exact Nat.lt_add_of_pos_right (Nat.succ_pos _)
  by_cases hj : ∃ j, r.kind = .join j
  · obtain ⟨⟨kind, target, children, names⟩, evaluator, completer, listener⟩ := r
    obtain ⟨j, rfl⟩ := hj
    rcases children with _ | ⟨entry, _⟩
    · cases hd
    have hd : d ∈ j.drafts i target entry names a := hd
    rw [Join.drafts, List.mem_cons, List.mem_append, List.mem_singleton] at hd
    rcases hd with rfl | hd | rfl
    · refine hrule ?_
      rw [Join.nextDraft]
      split <;> rfl
    · rcases Auxiliaries.rule_of_mem_entryDrafts d hd with hi | ⟨hi, hupper⟩
      · exact hrule hi
      · rw [hi, helpers]
        dsimp only
        rw [Auxiliaries.helpers, if_neg (Nat.not_le.2 hupper)]
        split <;> exact Nat.lt_succ_self _
    · refine hrule ?_
      rw [Join.wholeDraft]
      split <;> rfl
  · exact hrule ((Rule.shares_iff_of_ne_join (not_exists.1 hj)).1 (shares_of_mem_drafts hd)).1

/-! ## Lowering a rule -/

namespace FlatGrammar

variable {g g' : FlatGrammar}

/-- **A production that is there keeps its rule**, also if it is added again. -/
theorem like_or_of_mem_draw {d : Draft} {q : Production} (hq : q ∈ (g.draw d).productions) :
    (∃ p ∈ g.productions, p.Like q) ∨ q.rule = some d.rule ∧ ⟨q.left, q.right⟩ = d.sides.bare := by
  rcases mem_draw hq with hq | ⟨p, hp, -, rfl⟩ | rfl
  · exact .inl ⟨q, hq, rfl, rfl, rfl⟩
  · exact .inl ⟨p, hp, rfl, rfl, rfl⟩
  · exact .inr ⟨rfl, rfl⟩

theorem like_or_of_mem_foldl_draw {ds : List Draft} {q : Production}
    (hq : q ∈ (ds.foldl draw g).productions) : (∃ p ∈ g.productions, p.Like q) ∨
      ∃ d ∈ ds, q.rule = some d.rule ∧ ⟨q.left, q.right⟩ = d.sides.bare := by
  induction ds generalizing g with
  | nil => exact .inl ⟨q, hq, rfl, rfl, rfl⟩
  | cons d ds ih =>
    rcases ih hq with ⟨p, hp, hleft, hright, hrule⟩ | ⟨d', hd', h⟩
    · rcases like_or_of_mem_draw hp with ⟨o, ho, hleft', hright', hrule'⟩ | ⟨hrule', hsides⟩
      · exact .inl ⟨o, ho, hleft'.trans hleft, hright'.trans hright, hrule'.trans hrule⟩
      · refine .inr ⟨d, List.mem_cons_self .., hrule ▸ hrule', ?_⟩
        rw [← hleft, ← hright, hsides]
    · exact .inr ⟨d', List.mem_cons_of_mem _ hd', h⟩

/-- **Lowering a rule** keeps that rule, and helpers of it, for the new productions. -/
theorem lower_puts {r : Rule} (h : g.lower r = .ok g') :
    ∃ a : Auxiliaries, a.Fresh g.symbols ∧ ∃ added, (∀ r ∈ added, r.IsHelper) ∧
      Puts g g' (r :: added) (r.Shares a g.rules.size) := by
  obtain ⟨a, ha, hmakes⟩ := lower_makes h
  refine ⟨a, ha, r.helpers a, fun r' => Rule.isHelper_of_mem_helpers, hmakes.rules, fun q hq => ?_⟩
  rw [hmakes.productions] at hq
  refine (like_or_of_mem_foldl_draw hq).imp_right fun ⟨d, hd, hrule, hsides⟩ => ?_
  refine ⟨d.rule, ?_, hrule, hsides ▸ (Rule.shares_of_mem_drafts hd).bare⟩
  rw [hmakes.size]
  exact Rule.rule_of_mem_drafts hd

end FlatGrammar

end Typeahead
