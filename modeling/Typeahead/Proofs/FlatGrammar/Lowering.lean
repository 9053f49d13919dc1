import Typeahead.Proofs.FlatGrammar.Drafts

/-!
# Proofs/FlatGrammar/Lowering — the sides of a rule's productions

`Rule.sides` lists the sides that a rule stands for, given names for the nonterminals it makes up.
`productions_draw` says what asking for one production does, and `lower_adds` that lowering a rule
adds its sides and nothing else, under names that were not known before.
-/

namespace Typeahead

/-- The sides of any number of children: one more, or none. -/
def starSides (x : String) (child : Symbol) : List Sides :=
  [⟨x, [child, .nonterminal x]⟩, ⟨x, []⟩]

/-- The sides of between `least` and `most` children, the longest first. -/
def repetitionSides (x : String) (child : Symbol) (least most : Nat) : List Sides :=
  (List.range (most + 1 - least)).map fun i => ⟨x, List.replicate (most - i) child⟩

/-- The sides of the entries of a join: nothing if there need not be any, and a first entry followed
by as many more as the count admits. -/
def Auxiliaries.entrySides (a : Auxiliaries) (entry : Symbol) (count : Count) : List Sides :=
  (if count.lower = 0 then [⟨a.repetition, []⟩] else []) ++
  if count.upper = 0 then []
  else if count.upper = 1 then [⟨a.repetition, [entry]⟩]
  else if count.upper = Count.limit then
    starSides a.tail (.nonterminal a.next) ++
    if count.lower ≤ 1 then [⟨a.repetition, [entry, .nonterminal a.tail]⟩]
    else [⟨a.rest, List.replicate (count.lower - 1) (.nonterminal a.next) ++ [.nonterminal a.tail]⟩,
      ⟨a.repetition, [entry, .nonterminal a.rest]⟩]
  else repetitionSides a.tail (.nonterminal a.next) (count.lower - 1) (count.upper - 1) ++
    [⟨a.repetition, [entry, .nonterminal a.tail]⟩]

/-- The sides of a join. -/
def Join.sides (j : Join) (target : String) (entry : Symbol) (a : Auxiliaries) : List Sides :=
  ⟨a.next, j.delimiter.toList ++ [entry]⟩ :: (a.entrySides entry j.count ++
    [⟨target, j.opening.toList ++ [.nonterminal a.repetition] ++ j.closing.toList⟩])

/-- **The sides of a rule.** -/
def Rule.sides (r : Rule) (a : Auxiliaries) : List Sides :=
  match r.kind, r.children with
  | .sequence, children => [⟨r.target, children⟩]
  | .choice, children => children.map fun s => ⟨r.target, [s]⟩
  | .optional, s :: _ => [⟨r.target, [s]⟩, ⟨r.target, []⟩]
  | .star, s :: _ => starSides r.target s
  | .plus, s :: _ => [⟨r.target, [s, .nonterminal r.target]⟩, ⟨r.target, [s]⟩]
  | .repetition least most, s :: _ => repetitionSides r.target s least most
  | .join j, s :: _ => j.sides r.target s a
  | _, [] => []

/-! ## The sides of drafts -/

section

variable (a : Auxiliaries) (rule : Nat) (entry : Symbol) (names : ChildNames)

theorem sides_starDrafts (x : String) :
    (starDrafts rule x entry names).map Draft.sides = starSides x entry := rfl

theorem sides_repetitionDrafts (x : String) (least most : Nat) :
    (repetitionDrafts rule x entry names least most).map Draft.sides =
      repetitionSides x entry least most :=
  List.map_map

theorem Auxiliaries.sides_entryDrafts (helper : Nat) (count : Count) :
    ((a.entryDrafts rule entry names helper count).map Draft.sides).Perm
      (a.entrySides entry count) := by
  rw [entryDrafts, entrySides, List.map_append]
  refine List.perm_append_comm.trans (.of_eq ?_)
  congr 1
  · split <;> rfl
  · split_ifs <;> simp [sides_starDrafts, sides_repetitionDrafts, Draft.alone, Draft.headed,
      spreadDraft]

theorem Join.sides_drafts {j : Join} (hj : j.opening.isSome = j.closing.isSome) (target : String) :
    ((j.drafts rule target entry names a).map Draft.sides).Perm (j.sides target entry a) := by
  have hnext : (j.nextDraft rule entry names a.next).sides
      = ⟨a.next, j.delimiter.toList ++ [entry]⟩ := by
    rw [nextDraft]
    rcases j.delimiter with _ | delimiter <;> rfl
  -- the brackets come together or not at all
  have hwhole : (j.wholeDraft rule target a.repetition).sides
      = ⟨target, j.opening.toList ++ [.nonterminal a.repetition] ++ j.closing.toList⟩ := by
    rw [wholeDraft]
    rcases hopening : j.opening with _ | opening <;>
      rcases hclosing : j.closing with _ | closing <;> simp_all
  rw [drafts, sides, List.map_cons, List.map_append, List.map_singleton, hnext, hwhole]
  exact ((a.sides_entryDrafts ..).append_right _).cons _

/-- **The sides of a rule's drafts**, up to their order. -/
theorem Rule.sides_drafts {r : Rule}
    (hr : ∀ j, r.kind = .join j → j.opening.isSome = j.closing.isSome) :
    ((r.drafts rule a).map Draft.sides).Perm (r.sides a) := by
  obtain ⟨⟨kind, target, children, names⟩, evaluator, completer, listener⟩ := r
  cases kind with
  | sequence => exact .refl _
  | choice =>
    have hmap : children.map (fun s => (⟨target, [s]⟩ : Sides))
        = children.zipIdx.map fun o => ⟨target, [o.1]⟩ := by
      conv_lhs => rw [← List.zipIdx_map_fst 0 children, List.map_map]
      rfl
    exact .of_eq (List.map_map.trans hmap.symm)
  | repetition least most =>
    rcases children with _ | ⟨s, _⟩
    · exact .refl _
    · exact .of_eq (sides_repetitionDrafts ..)
  | join j =>
    rcases children with _ | ⟨s, _⟩
    · exact .refl _
    · exact Join.sides_drafts _ _ _ _ (hr j rfl) _
  | _ => rcases children with _ | ⟨s, _⟩ <;> exact .refl _

end

/-! ## Asking for a production -/

/-- The production that a draft asks for. -/
def Draft.production (d : Draft) : Production :=
  ⟨d.sides.left, d.sides.bare.right, some d.rule, d.naming, d.shaping⟩

/-- A production that is asked for again. -/
def Production.redrawn (p : Production) (d : Draft) : Production :=
  { p with
    naming := if d.naming = .anonymous then p.naming else d.naming
    shaping := if d.shaping = .keep then p.shaping else d.shaping }

namespace FlatGrammar

variable {g g' : FlatGrammar}

theorem not_mem_sides_of_find? {s : Sides} (h : g.find? s.left s.right = none) : s ∉ g.sides := by
  intro hmem
  obtain ⟨p, hp, hsides⟩ := mem_sides.1 hmem
  have hnot := List.findIdx?_eq_none_iff.1 h p hp
  rw [decide_eq_false_iff_not] at hnot
  exact hnot hsides

/-- **What asking for a production does**: one with the same sides is named and shaped anew, and if
there is none, one is added. -/
theorem productions_draw (g : FlatGrammar) (d : Draft) :
    (∃ i, ∃ hi : i < g.productions.length,
      (⟨g.productions[i].left, g.productions[i].right⟩ : Sides) = d.sides.bare ∧
        (g.draw d).productions = g.productions.modify i (·.redrawn d)) ∨
    d.sides.bare ∉ g.sides ∧ (g.draw d).productions = g.productions ++ [d.production] := by
  rw [draw, extend, merge]
  split
  next i hfind =>
    obtain ⟨hi, hsame, -⟩ := List.findIdx?_eq_some_iff_getElem.1 hfind
    obtain ⟨hleft, hright⟩ := of_decide_eq_true hsame
    refine .inl ⟨i, hi, ?_, rfl⟩
    rw [hleft, hright]
    rfl
  next hfind => exact .inr ⟨not_mem_sides_of_find? hfind, rfl⟩

theorem mem_draw {d : Draft} {q : Production} (hq : q ∈ (g.draw d).productions) :
    q ∈ g.productions ∨
    (∃ p ∈ g.productions, ⟨p.left, p.right⟩ = d.sides.bare ∧ q = p.redrawn d) ∨
    q = d.production := by
  rcases g.productions_draw d with ⟨i, hi, hsides, hmodify⟩ | ⟨-, happend⟩
  · rw [hmodify] at hq
    obtain ⟨k, hk, rfl⟩ := List.mem_iff_getElem.1 hq
    rw [List.getElem_modify]
    split
    next hik =>
      subst hik
      exact .inr (.inl ⟨_, List.getElem_mem hi, hsides, rfl⟩)
    next => exact .inl (List.getElem_mem _)
  · rw [happend] at hq
    exact (List.mem_append.1 hq).imp_right fun hq => .inr (List.mem_singleton.1 hq)

theorem mem_sides_draw {d : Draft} {s : Sides} :
    s ∈ (g.draw d).sides ↔ s ∈ g.sides ∨ s = d.sides.bare := mem_sides_merge

theorem mem_sides_foldl_draw {ds : List Draft} {s : Sides} :
    s ∈ (ds.foldl draw g).sides ↔ s ∈ g.sides ∨ ∃ n ∈ ds.map Draft.sides, s = n.bare := by
  induction ds generalizing g with
  | nil => simp
  | cons d ds ih =>
    rw [List.foldl_cons, ih, mem_sides_draw, List.map_cons, or_assoc]
    simp only [List.mem_cons, or_and_right, exists_or, exists_eq_left]

/-- **Lowering a rule adds its sides**, and the names it makes up. -/
theorem lower_adds {r : Rule} (h : g.lower r = .ok g') :
    ∃ a : Auxiliaries, a.Fresh g.symbols ∧ Adds g g' (r.sides a) (r.auxiliaries a) := by
  obtain ⟨a, ha, hmakes⟩ := lower_makes h
  have hsides := r.sides_drafts a g.rules.size fun j hj => (lower_join h hj).1
  refine ⟨a, ha, fun s => ?_, hmakes.knows, hmakes.unknown, hmakes.nodup⟩
  have hadded : g'.sides = ((r.drafts g.rules.size a).foldl draw g).sides :=
    congrArg (List.map _) hmakes.productions
  rw [hadded, mem_sides_foldl_draw]
  simp only [hsides.mem_iff]

end FlatGrammar

/-- The symbols around and between the entries of a join. -/
def Join.joints (j : Join) : List Symbol :=
  j.opening.toList ++ j.closing.toList ++ j.delimiter.toList

/-- The symbols that a rule is written with. -/
def Rule.symbols (r : Rule) : List Symbol :=
  match r.kind with
  | .join j => r.children ++ j.joints
  | _ => r.children

/-- The left side is one of `names`, and the right side is made of `symbols` and `names`. -/
def Sides.Within (names : List String) (symbols : List Symbol) (s : Sides) : Prop :=
  s.left ∈ names ∧ s.right ⊆ symbols ++ names.map .nonterminal

theorem Sides.Within.mentions {names : List String} {symbols : List Symbol} {s : Sides} {x : String}
    (h : s.Within names symbols) (hx : s.Mentions x) : x ∈ names ∨ .nonterminal x ∈ symbols := by
  obtain ⟨hleft, hright⟩ := h
  rcases hx with rfl | hx
  · exact .inl hleft
  · simpa [or_comm] using hright hx

theorem starSides_within {x : String} {child : Symbol} {names : List String} {symbols : List Symbol}
    (hx : x ∈ names) (hchild : child ∈ symbols ++ names.map .nonterminal) :
    ∀ s ∈ starSides x child, s.Within names symbols := by
  simp_all [starSides, Sides.Within]

theorem repetitionSides_within {x : String} {child : Symbol} {least most : Nat}
    {names : List String} {symbols : List Symbol} (hx : x ∈ names)
    (hchild : child ∈ symbols ++ names.map .nonterminal) :
    ∀ s ∈ repetitionSides x child least most, s.Within names symbols := by
  intro s hs
  obtain ⟨i, -, rfl⟩ := List.mem_map.1 hs
  refine ⟨hx, fun t ht => ?_⟩
  rwa [List.eq_of_mem_replicate ht]

theorem tail_mem_entryNames {a : Auxiliaries} {count : Count} (h : 1 < count.upper) :
    a.tail ∈ a.entryNames count := by
  rw [Auxiliaries.entryNames, if_neg (Nat.not_le.2 h)]
  split <;> simp

theorem rest_mem_entryNames {a : Auxiliaries} {count : Count} (h : count.upper = Count.limit)
    (hlower : 1 < count.lower) : a.rest ∈ a.entryNames count := by
  rw [Auxiliaries.entryNames, if_neg (by rw [h]; decide), if_pos ⟨h, hlower⟩]
  simp

theorem entrySides_within {a : Auxiliaries} {entry : Symbol} {count : Count} {names : List String}
    {symbols : List Symbol} (hnext : a.next ∈ names) (hrepetition : a.repetition ∈ names)
    (hnames : a.entryNames count ⊆ names) (hentry : entry ∈ symbols) :
    ∀ s ∈ a.entrySides entry count, s.Within names symbols := by
  unfold Auxiliaries.entrySides
  intro s hs
  rcases List.mem_append.1 hs with hs | hs
  · split at hs
    · obtain rfl := List.mem_singleton.1 hs
      simp [Sides.Within, hrepetition]
    · cases hs
  · split_ifs at hs with hnone hone hlimit hlower
    · cases hs
    · obtain rfl := List.mem_singleton.1 hs
      simp [Sides.Within, hrepetition, hentry]
    all_goals
      have htail : a.tail ∈ names := hnames (tail_mem_entryNames (by omega))
      have hnext' : .nonterminal a.next ∈ symbols ++ names.map .nonterminal := by simp [hnext]
      rcases List.mem_append.1 hs with hs | hs
    · exact starSides_within htail hnext' s hs
    · obtain rfl := List.mem_singleton.1 hs
      simp [Sides.Within, hrepetition, hentry, htail]
    · exact starSides_within htail hnext' s hs
    · have hrest : a.rest ∈ names := hnames (rest_mem_entryNames hlimit (by omega))
      simp only [List.mem_cons, List.not_mem_nil, or_false] at hs
      rcases hs with rfl | rfl
      · refine ⟨hrest, List.append_subset.2 ⟨fun t ht => ?_, by simp [htail]⟩⟩
        rwa [List.eq_of_mem_replicate ht]
      · simp [Sides.Within, hrepetition, hentry, hrest]
    · exact repetitionSides_within htail hnext' s hs
    · obtain rfl := List.mem_singleton.1 hs
      simp [Sides.Within, hrepetition, hentry, htail]

theorem Join.within_of_mem_sides {j : Join} {target : String} {entry : Symbol} {a : Auxiliaries}
    {symbols : List Symbol} {s : Sides} (hentry : entry ∈ symbols) (hjoints : j.joints ⊆ symbols)
    (h : s ∈ j.sides target entry a) :
    s.Within (target :: a.next :: a.repetition :: a.entryNames j.count) symbols := by
  simp only [sides, List.mem_cons, List.mem_append, List.not_mem_nil, or_false] at h
  rcases h with rfl | h | rfl
  · refine ⟨by simp, fun t ht => List.mem_append_left _ ?_⟩
    rcases List.mem_append.1 ht with ht | ht
    · exact hjoints (by simp [joints, ht])
    · exact List.mem_singleton.1 ht ▸ hentry
  · refine entrySides_within (by simp) (by simp) (fun x hx => ?_) hentry s h
    simp [hx]
  · refine ⟨by simp, fun t ht => ?_⟩
    simp only [List.mem_append, List.mem_singleton] at ht
    rcases ht with (ht | rfl) | ht
    · exact List.mem_append_left _ (hjoints (by simp [joints, ht]))
    · simp
    · exact List.mem_append_left _ (hjoints (by simp [joints, ht]))

/-- **Where the names of a rule's sides come from.** -/
theorem Rule.within_of_mem_sides {r : Rule} {a : Auxiliaries} {s : Sides} (h : s ∈ r.sides a) :
    s.Within (r.target :: r.auxiliaries a) r.symbols := by
  obtain ⟨⟨kind, target, children, names⟩, evaluator, completer, listener⟩ := r
  cases kind with
  | sequence =>
    obtain rfl := List.mem_singleton.1 h
    simp [Sides.Within, symbols]
  | choice =>
    obtain ⟨option, hoption, rfl⟩ := List.mem_map.1 h
    simp [Sides.Within, symbols, hoption]
  | optional | plus =>
    rcases children with _ | ⟨child, _⟩
    · cases h
    · simp only [sides, List.mem_cons, List.not_mem_nil, or_false] at h
      rcases h with rfl | rfl <;> simp [Sides.Within, symbols]
  | star =>
    rcases children with _ | ⟨child, _⟩
    · cases h
    · exact starSides_within (by simp) (by simp [symbols]) s h
  | repetition least most =>
    rcases children with _ | ⟨child, _⟩
    · cases h
    · exact repetitionSides_within (by simp) (by simp [symbols]) s h
  | join j =>
    rcases children with _ | ⟨entry, more⟩
    · cases h
    · exact Join.within_of_mem_sides (by simp [symbols]) (by simp [symbols]) h

end Typeahead
