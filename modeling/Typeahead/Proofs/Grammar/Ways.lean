import Typeahead.Proofs.Grammar.Joins
import Typeahead.Proofs.Grammar.Lots

/-!
# Proofs/Grammar/Ways — how the rules of a grammar ask for a production

Several rules may ask for the same production, and a choice may ask for it several times.
`Rule.ways` lists how a rule does, and `Grammar.ways` how all rules do, in the order of their
registration.  Joins do not take part in this if no made-up names are involved.

So for a sequence or choice it can be read off the rules what became of its productions: they belong
to the first rule that asks for them (`Allots.rule_eq`), and are named and shaped in the last way
there is (`Allots.ways_eq`).
-/

namespace Typeahead

/-- How a draft wants nodes to be named and shaped. -/
def Draft.way (d : Draft) : Naming × Shaping := (d.naming, d.shaping)

/-- **How a rule asks for a production** with the given sides, each time it does so.  A join asks for
none that has no made-up names in it. -/
def Rule.ways (r : Rule) (s : Sides) : List (Naming × Shaping) :=
  match r.kind with
  | .join _ => []
  | _ => (asking (r.drafts 0 ⟨"", "", "", ""⟩) s).map Draft.way

/-- How all rules ask for a production. -/
def Grammar.ways (G : Grammar) (s : Sides) : List (Naming × Shaping) :=
  G.rules.toList.flatMap (·.ways s)

/-- What a sequence or a choice stands for: all children, or one of them. -/
def Rule.StandsFor (r : Rule) (body : List Symbol) : Prop :=
  match r.kind with
  | .sequence => body = r.children
  | .choice => ∃ c ∈ r.children, body = [c]
  | _ => False

/-! ## Drafts -/

section

variable {r r' : Rule} {a : Auxiliaries} {i k : Nat} {s : Sides} {d : Draft} {body : List Symbol}

theorem Rule.standsFor_iff : r.StandsFor body ↔ r.kind = .sequence ∧ body = r.children ∨
    r.kind = .choice ∧ ∃ c ∈ r.children, body = [c] := by
  rw [StandsFor]
  split <;> simp_all

/-- A sequence or a choice asks for what it stands for. -/
theorem Rule.exists_standsFor (hkind : r.kind = .sequence ∨ r.kind = .choice)
    (hd : d ∈ r.drafts i a) : ∃ body, r.StandsFor body ∧ d.sides = ⟨r.target, body⟩ := by
  simp only [standsFor_iff]
  rcases hkind with hkind | hkind <;> rw [drafts, hkind] at hd
  · obtain rfl := List.mem_singleton.1 hd
    exact ⟨_, .inl ⟨hkind, rfl⟩, rfl⟩
  · obtain ⟨⟨c, n⟩, hc, rfl⟩ := List.mem_map.1 hd
    exact ⟨[c], .inr ⟨hkind, c, List.fst_mem_of_mem_zipIdx hc, rfl⟩, rfl⟩

theorem Rule.StandsFor.subset (h : r.StandsFor body) : body ⊆ r.children := by
  rcases standsFor_iff.1 h with ⟨-, rfl⟩ | ⟨-, c, hc, rfl⟩
  · exact List.Subset.refl _
  · simpa using hc

theorem Rule.ways_of_ne_join (hj : ∀ j, r.kind ≠ .join j) :
    r.ways s = (asking (r.drafts 0 ⟨"", "", "", ""⟩) s).map Draft.way := by
  unfold ways
  split
  next j hj' => exact absurd hj' (hj j)
  next => rfl

/-- Only a join depends on the names that are made up for it. -/
theorem Rule.drafts_eq_map (hj : ∀ j, r.kind ≠ .join j) (i : Nat) (a b : Auxiliaries) :
    r.drafts i a = (r.drafts 0 b).map fun d => { d with rule := i } := by
  obtain ⟨⟨kind, target, children, names⟩, evaluator, completer, listener⟩ := r
  cases kind with
  | sequence => rfl
  | choice =>
    simp only [drafts, List.map_map]
    rfl
  | repetition least most =>
    rcases children with _ | ⟨s, _⟩
    · rfl
    · simp only [drafts, repetitionDrafts, List.map_map]
      rfl
  | join j => exact absurd rfl (hj j)
  | _ => rcases children with _ | ⟨s, _⟩ <;> rfl

theorem Rule.ways_eq (hj : ∀ j, r.kind ≠ .join j) (i : Nat) (a : Auxiliaries) :
    (asking (r.drafts i a) s).map Draft.way = r.ways s := by
  rw [ways_of_ne_join hj, drafts_eq_map hj i a ⟨"", "", "", ""⟩, asking, asking, List.filter_map,
    List.map_map]
  rfl

/-- A join asks for no production without a name that was made up for it. -/
theorem Join.exists_mentions {j : Join} {target : String} {entry : Symbol} {names : ChildNames}
    (hd : d ∈ j.drafts i target entry names a) : ∃ x ∈ a.names, d.sides.Mentions x := by
  rcases mem_drafts.1 hd with rfl | hd | rfl
  · exact ⟨a.next, by simp, .inl (by simp)⟩
  · have hleft := (Auxiliaries.asks_of_mem_entryDrafts d hd).left
    refine ⟨d.sides.left, ?_, .inl rfl⟩
    simp only [List.mem_cons, List.not_mem_nil, or_false] at hleft
    rcases hleft with hleft | hleft | hleft <;> simp [hleft]
  · refine ⟨a.repetition, by simp, .inr ?_⟩
    rw [wholeDraft]
    split <;> simp

/-- Rules that are made up are no sequences and no choices. -/
theorem Rule.kind_of_mem_helpers (h : r' ∈ r.helpers a) :
    r'.kind ≠ .sequence ∧ r'.kind ≠ .choice := by
  rw [helpers] at h
  split at h
  · rw [Auxiliaries.helpers] at h
    split_ifs at h
    · cases h
    all_goals
      obtain rfl := List.mem_singleton.1 h
      simp [Auxiliaries.tailRule, ofChildren]
  · cases h

end

/-! ## Lots -/

namespace FlatGrammar

variable {g : FlatGrammar} {table : SymbolTable} {lots : List Lot} {l : Lot} {r : Rule} {d : Draft}
  {s : Sides}

/-- **The rule of a production** is the one that asked for it, or made up for that one. -/
theorem Allots.rule_eq_or_mem_helpers (h : g.Allots table lots) (hl : l ∈ lots) (hd : d ∈ l.drafts)
    (hr : g.rules[d.rule]? = some r) : r = l.rule ∨ r ∈ l.rule.helpers l.names := by
  obtain ⟨k, hk⟩ := Nat.exists_eq_add_of_le (Rule.shares_of_mem_drafts hd).le
  have hlt : k < l.kept.length := Nat.lt_of_add_lt_add_left (hk ▸ Rule.rule_of_mem_drafts hd)
  have hkept := h.rules l hl k _ (List.getElem?_eq_getElem hlt)
  rw [← hk, hr] at hkept
  cases k with
  | zero => exact .inl (Option.some.inj hkept)
  | succ k =>
    exact .inr (Option.some.inj hkept ▸ List.getElem_mem (Nat.lt_of_succ_lt_succ hlt))

/-- The rule of a production that belongs to a sequence or a choice is the one that asked for it. -/
theorem Allots.rule_eq (h : g.Allots table lots) (hl : l ∈ lots) (hd : d ∈ l.drafts)
    (hr : g.rules[d.rule]? = some r) (hkind : r.kind = .sequence ∨ r.kind = .choice) :
    r = l.rule := by
  refine (h.rule_eq_or_mem_helpers hl hd hr).resolve_right fun hmem => ?_
  obtain ⟨hsequence, hchoice⟩ := Rule.kind_of_mem_helpers hmem
  exact hkind.elim hsequence hchoice

/-- **Who asks for a production of known names**, and in which ways. -/
theorem Allots.ways_eq (h : g.Allots table lots) (hs : ∀ x, s.Mentions x → table.knows x = true) :
    (asking (lots.flatMap (·.drafts)) s).map Draft.way = lots.flatMap (·.rule.ways s) := by
  rw [asking, List.filter_flatMap, List.map_flatMap]
  refine List.flatMap_congr fun l hl => ?_
  change (asking l.drafts s).map Draft.way = _
  by_cases hj : ∃ j, l.rule.kind = .join j
  · obtain ⟨j, hj⟩ := hj
    have hnone : asking l.drafts s = [] := by
      refine List.eq_nil_iff_forall_not_mem.2 fun d hd => ?_
      obtain ⟨hdraft, rfl⟩ := mem_asking.1 hd
      obtain ⟨x, hx, hmentions⟩ : ∃ x ∈ l.names.names, d.sides.Mentions x := by
        rw [Lot.drafts, Rule.drafts, hj] at hdraft
        rcases hchildren : l.rule.children with _ | ⟨entry, more⟩ <;> rw [hchildren] at hdraft
        · cases hdraft
        · exact Join.exists_mentions hdraft
      have hknows := hs x (Sides.mentions_bare.2 hmentions)
      rw [(h.fresh l hl).unknown x hx] at hknows
      cases hknows
    rw [hnone, Rule.ways, hj]
    rfl
  · exact Rule.ways_eq (not_exists.1 hj) _ _

/-- **What becomes of a production of a sequence or choice.** -/
theorem Allots.exists_standsFor (h : g.Allots table lots) (hknown : ∀ l ∈ lots, l.rule.Known table)
    {q : Production} (hq : q ∈ g.productions) (hr : g.ruleOf q = some r)
    (hkind : r.kind = .sequence ∨ r.kind = .choice) :
    ∃ body, r.StandsFor body ∧ ⟨q.left, q.right⟩ = Sides.bare ⟨r.target, body⟩ ∧
      q.naming = .last ((lots.flatMap (·.rule.ways ⟨q.left, q.right⟩)).map Prod.fst) ∧
      q.shaping = .last ((lots.flatMap (·.rule.ways ⟨q.left, q.right⟩)).map Prod.snd) := by
  obtain ⟨first, more, hasking, hrule, hnaming, hshaping⟩ := h.merged.of_mem hq
  obtain ⟨hfirst, hsides⟩ := mem_asking.1 (hasking ▸ List.mem_cons_self ..)
  obtain ⟨l, hl, hfirst⟩ := List.mem_flatMap.1 hfirst
  rw [ruleOf, hrule] at hr
  obtain rfl := h.rule_eq hl hfirst hr hkind
  obtain ⟨body, hbody, heq⟩ := Rule.exists_standsFor hkind hfirst
  rw [heq] at hsides
  refine ⟨body, hbody, hsides.symm, ?_⟩
  rw [← h.ways_eq, hasking, hnaming, hshaping, List.map_map, List.map_map]
  · exact ⟨rfl, rfl⟩
  · -- the production is written with the names of the rule
    intro x hx
    rw [← hsides, Sides.mentions_bare] at hx
    rcases hx with rfl | hx
    · exact (hknown l hl).target
    · exact (hknown l hl).symbols x (l.rule.children_subset_symbols (hbody.subset hx))

end FlatGrammar

/-- **In a compiled grammar** the productions of sequences and choices are named and shaped in the
last way that rules ask for them. -/
theorem Grammar.exists_standsFor_of_compile {G G' : Grammar} {top : Symbol} (hG : G.Reachable)
    (h : (Grammar.compile top).run.run G = (.ok (), G')) {q : Production}
    (hq : q ∈ G'.flat.productions) {r : Rule} (hr : G'.flat.ruleOf q = some r)
    (hkind : r.kind = .sequence ∨ r.kind = .choice) :
    ∃ body, r.StandsFor body ∧ ⟨q.left, q.right⟩ = Sides.bare ⟨r.target, body⟩ ∧
      q.naming = .last ((G'.ways ⟨q.left, q.right⟩).map Prod.fst) ∧
      q.shaping = .last ((G'.ways ⟨q.left, q.right⟩).map Prod.snd) := by
  obtain ⟨lots, hrules, hallots⟩ := Grammar.exists_allots_of_compile h
  rw [ways, ← hrules, List.flatMap_map]
  exact hallots.exists_standsFor (Grammar.known_of_lots hG h hrules) hq hr hkind

/-! ## A rule that is the only one of its target -/

section

variable {G : Grammar} {r : Rule} {s : Sides}

/-- A rule asks for productions of its target only. -/
theorem Rule.ways_eq_nil (hleft : s.left ≠ r.target) : r.ways s = [] := by
  by_cases hj : ∃ j, r.kind = .join j
  · obtain ⟨j, hj⟩ := hj
    rw [ways, hj]
  · have hj := not_exists.1 hj
    rw [ways_of_ne_join hj, List.map_eq_nil_iff]
    refine List.filter_eq_nil_iff.2 fun d hd hsides => hleft ?_
    have hleft' := ((Rule.shares_iff_of_ne_join hj).1 (Rule.shares_of_mem_drafts hd)).2.1
    rw [← hleft', ← of_decide_eq_true hsides]
    rfl

theorem Grammar.ways_of_only (honly : G.rulesFor r.target = [r]) (hleft : s.left = r.target) :
    G.ways s = r.ways s := by
  obtain ⟨before, after, hsplit, hbefore, -, hafter⟩ := List.filter_eq_cons_iff.1 honly
  have hnone : ∀ r' : Rule, r'.target ≠ r.target → r'.ways s = [] :=
    fun r' hne => Rule.ways_eq_nil (hleft ▸ hne.symm)
  rw [ways, hsplit, List.flatMap_append, List.flatMap_cons,
    List.flatMap_eq_nil_iff.2 fun r' hr' => hnone r' (by simpa using hbefore r' hr'),
    List.flatMap_eq_nil_iff.2 fun r' hr' => hnone r' ?_, List.append_nil, List.nil_append]
  simpa using List.filter_eq_nil_iff.1 hafter r' hr'

/-- A sequence asks once for its production. -/
theorem Rule.ways_of_sequence (hkind : r.kind = .sequence)
    (hvisible : .terminal .epsilon ∉ r.children) :
    r.ways ⟨r.target, r.children⟩ = [(.positional r.names, .keep)] := by
  have hbare := Sides.bare_eq (s := ⟨r.target, r.children⟩) hvisible
  rw [ways_of_ne_join (by simp [hkind]), drafts, hkind]
  simp [asking, hbare, Draft.way]

theorem filter_zipIdx_of_nodup {α : Type} [DecidableEq α] {as : List α} {a : α} (has : as.Nodup)
    (ha : a ∈ as) (n : Nat) : (as.zipIdx n).filter (·.1 = a) = [(a, n + as.idxOf a)] := by
  induction as generalizing n with
  | nil => cases ha
  | cons b as ih =>
    obtain ⟨hb, has⟩ := List.nodup_cons.1 has
    rw [List.zipIdx_cons, List.filter_cons]
    split
    next hba =>
      obtain rfl : b = a := of_decide_eq_true hba
      have hnone : (as.zipIdx (n + 1)).filter (·.1 = b) = [] :=
        List.filter_eq_nil_iff.2 fun x hx hxb =>
          hb (of_decide_eq_true hxb ▸ List.fst_mem_of_mem_zipIdx hx)
      rw [hnone, List.idxOf_cons_self, Nat.add_zero]
    next hba =>
      have hne : b ≠ a := fun hab => hba (decide_eq_true hab)
      have ha' : a ∈ as := (List.mem_cons.1 ha).resolve_left hne.symm
      rw [ih has ha', List.idxOf_cons_ne as hne, Nat.add_assoc, Nat.add_comm 1]

/-- A choice asks once for each of its alternatives if these differ. -/
theorem Rule.ways_of_choice (hkind : r.kind = .choice) (hvisible : .terminal .epsilon ∉ r.children)
    (hnodup : r.children.Nodup) {c : Symbol} (hc : c ∈ r.children) :
    r.ways ⟨r.target, [c]⟩ = [(.alternative (r.children.idxOf c) r.names, .keep)] := by
  have hsame : ∀ x ∈ r.children.zipIdx,
      decide ((⟨r.target, [x.1]⟩ : Sides).bare = ⟨r.target, [c]⟩) = decide (x.1 = c) := by
    intro x hx
    have hx' : x.1 ≠ .terminal .epsilon :=
      fun heq => hvisible (heq ▸ List.fst_mem_of_mem_zipIdx hx)
    rw [Sides.bare_eq (by simpa using hx'.symm)]
    simp
  rw [ways_of_ne_join (by simp [hkind]), drafts, hkind, asking, List.filter_map, List.map_map]
  have hfilter := (List.filter_congr hsame).trans (filter_zipIdx_of_nodup hnodup hc 0)
  rw [Nat.zero_add] at hfilter
  exact congrArg (List.map _) hfilter

end

end Typeahead
