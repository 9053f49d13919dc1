import Typeahead.Parse
import Typeahead.Proofs.Derivation.Leftmost
import Typeahead.Proofs.Grammar.Joins
import Typeahead.Proofs.ParseTree.Nodes
import Typeahead.Proofs.ParseTree.Visits

/-!
# Proofs/Parse/Joins — which nodes speak for a join

A node is announced to the listener of its rule, and asked for the offer of its rule's completer,
unless the node above it has the same rule.  For a join this leaves its target and the name `next`
for an entry with its delimiter: the other names that the join makes up are enclosed by its rule.

So a join is announced once for each node of its target just if no such node stands directly below
its own rule, and no entry is repeated by the tail, which has the rule after that of the join
(`announcements_join_iff`).
-/

namespace Typeahead

/-! ## Nodes by their rule -/

variable {g : FlatGrammar} {cfg : Config} {input : List Char} {d : Derivation} {i : Nat} {v : Visit}

theorem Visit.continues_eq_false_iff (h : v.label.ruleIndex = some i) :
    v.continues = false ↔ v.parentRule ≠ some i := by
  simp [continues, Label.continues, h, eq_comm]

/-- **The nodes of the rule of a join**, and what is above them. -/
theorem FlatGrammar.Governs.of_mem_postorder {table : SymbolTable} {target next : String}
    (h : g.Governs table i target next) (hstart : table.knows SymbolTable.start = true)
    (hd : d ∈ (Branch.initial input).ends g cfg) (hv : v ∈ d.tree.postorder none)
    (hi : v.label.ruleIndex = some i) :
    v.label.symbol = .nonterminal target ∨
      v.label.symbol = .nonterminal next ∧ (v.parentRule = some i ∨ v.parentRule = some (i + 1)) ∨
      v.parentRule = some i := by
  have hpart := Derivation.part_tree hd
  obtain ⟨p, hp, hrule⟩ := Option.bind_eq_some_iff.1 hi
  obtain ⟨hmem, hsymbol⟩ := hpart.symbol_of_mem_postorder hv hp
  -- an enclosed name is not at the root, so a production that uses it is above
  have habove : ∀ rules, g.Encloses table rules p.left → ∃ k ∈ rules, v.parentRule = some k := by
    intro rules hencloses
    rcases hpart.mem_postorder hv with rfl | ⟨q, hq, hparent, hright⟩
    · have hroot := Derivation.symbol_tree hd
      have hunknown := hencloses.unknown
      rw [hsymbol, Symbol.nonterminal.injEq] at hroot
      rw [hroot, hstart] at hunknown
      cases hunknown
    · rw [hparent]
      exact hencloses.users q hq (hsymbol ▸ hright)
  rw [hsymbol]
  rcases h p hmem hrule with hleft | ⟨hleft, hencloses⟩ | hencloses
  · exact .inl (congrArg _ hleft)
  · exact .inr (.inl ⟨congrArg _ hleft, by simpa using habove _ hencloses⟩)
  · exact .inr (.inr (by simpa using habove _ hencloses))

/-! ## Announcements -/

/-- A node was parsed, at least up to the end of the input. -/
def Visit.parsed (v : Visit) : Prop :=
  v.label.result.outcome = .successful ∨ v.label.result.outcome = .endOfInput

instance (v : Visit) : Decidable v.parsed := inferInstanceAs (Decidable (_ ∨ _))

namespace ParseTree

/-- What is announced for nodes of the rule `i`. -/
def announcementsOf (t : ParseTree) (g : FlatGrammar) (i : Nat) : List (String × Label) :=
  (t.announcements g).filter (·.2.ruleIndex = some i)

/-- The parsed nodes of `x` that the rule `i` governs. -/
def parsedNodes (t : ParseTree) (i : Nat) (x : String) : List Visit :=
  (t.postorder none).filter fun v =>
    v.parsed ∧ v.label.ruleIndex = some i ∧ v.label.symbol = .nonterminal x

theorem mem_parsedNodes {t : ParseTree} {x : String} : v ∈ t.parsedNodes i x ↔
    v ∈ t.postorder none ∧ v.parsed ∧ v.label.ruleIndex = some i ∧
      v.label.symbol = .nonterminal x := by
  simp [parsedNodes]

/-- The parsed nodes of the rule `i` that do not continue it. -/
def announcedNodes (t : ParseTree) (i : Nat) : List Visit :=
  (t.postorder none).filter fun v =>
    v.parsed ∧ v.label.ruleIndex = some i ∧ v.continues = false

theorem mem_announcedNodes {t : ParseTree} : v ∈ t.announcedNodes i ↔
    v ∈ t.postorder none ∧ v.parsed ∧ v.label.ruleIndex = some i ∧ v.continues = false := by
  simp [announcedNodes]

/-- A label tells its symbol, so if announced are just the nodes of `x`, they are nodes of `x`. -/
theorem symbol_of_mem_announcedNodes {t : ParseTree} {x s : String}
    (h : (t.announcedNodes i).map (fun v => (s, v.label)) =
      (t.parsedNodes i x).map fun v => (s, v.label)) :
    ∀ v ∈ t.announcedNodes i, v.label.symbol = .nonterminal x := by
  intro v hv
  have hmem : (s, v.label) ∈ (t.parsedNodes i x).map fun v => (s, v.label) := by
    rw [← h]
    exact List.mem_map_of_mem hv
  obtain ⟨u, hu, hlabel⟩ := List.mem_map.1 hmem
  rw [← (Prod.mk.inj hlabel).2]
  exact (mem_parsedNodes.1 hu).2.2.2

/-- A listening rule is told of its parsed nodes that do not continue it. -/
theorem announcementsOf_eq {t : ParseTree} {r : Rule} {s : String}
    (hrule : g.rules[i]? = some r) (hs : r.listener = some s) :
    t.announcementsOf g i = (t.announcedNodes i).map fun v => (s, v.label) := by
  rw [announcementsOf, announcements, announcedNodes, List.filter_filterMap,
    ← List.filterMap_eq_map, List.filterMap_filter]
  refine List.filterMap_congr fun v _ => ?_
  by_cases hi : v.label.ruleIndex = some i
  · rw [Label.rule_eq hrule hi, Option.bind_some, hs]
    by_cases hparsed : v.parsed <;> by_cases hcontinues : v.continues <;>
      simp_all [Visit.parsed]
  · rcases (v.label.rule g).bind (·.listener) with _ | s' <;> simp [hi]

end ParseTree

/-! ## Offers -/

/-- The offer on a way is made by one of its nodes. -/
theorem exists_offer_of_firstOffer {iso : Isolate} {path : List Node} {ctx : Context} {l : Label}
    {offers : List Completion} (h : ((firstOffer iso g path).run ctx).1 = some (l, offers)) :
    ∃ n ∈ path, n.label = l ∧ ∃ ctx', ((n.offer iso g false).run ctx').1 = some offers := by
  induction path generalizing ctx with
  | nil => cases h
  | cons n ns ih =>
    have hlater : ∀ {ctx}, ((firstOffer iso g ns).run ctx).1 = some (l, offers) →
        ∃ m ∈ n :: ns, m.label = l ∧ ∃ ctx', ((m.offer iso g false).run ctx').1 = some offers := by
      intro ctx h
      obtain ⟨m, hm, hoffer⟩ := ih h
      exact ⟨m, List.mem_cons_of_mem _ hm, hoffer⟩
    rw [firstOffer, StateT.run_bind] at h
    rcases hclaims : (n.offers iso g).run ctx with ⟨_ | _, ctx₁⟩ <;> rw [hclaims] at h
    · exact hlater h
    · change (StateT.run (n.offer iso g false >>= fun x => _) ctx₁).1 = _ at h
      rw [StateT.run_bind] at h
      rcases hoffer : (n.offer iso g false).run ctx₁ with ⟨_ | offers', ctx₂⟩ <;> rw [hoffer] at h
      · exact hlater h
      · obtain ⟨rfl, rfl⟩ := Prod.mk.inj (Option.some.inj h)
        exact ⟨n, List.mem_cons_self .., rfl, ctx₁, by rw [hoffer]⟩

/-- A nonterminal that continues its rule offers nothing. -/
theorem Node.parentRule_of_offer {t : ParseTree} {n : Node} {r : Rule} {iso : Isolate}
    {ctx : Context} {offers : List Completion} (hrule : g.rules[i]? = some r)
    (hi : n.label.ruleIndex = some i) (ht : d.Part g t) (hn : n.toVisit ∈ t.postorder none)
    (h : ((n.offer iso g false).run ctx).1 = some offers) : n.parentRule ≠ some i := by
  rw [← Visit.continues_eq_false_iff hi, Bool.eq_false_iff]
  intro hcontinues
  obtain ⟨p, hp, -⟩ := Option.bind_eq_some_iff.1 hi
  have hplain : n.label.plainOffer = none := by
    rw [Label.plainOffer, (ht.symbol_of_mem_postorder hn hp).2]
  rw [offer, Visit.offer, Label.rule_eq hrule hi] at h
  dsimp only at h
  split at h
  · rw [if_pos hcontinues, hplain] at h
    cases h
  · rw [hplain] at h
    cases h

/-! ## The rule of a join -/

theorem filter_eq_true_of_map_eq {α β : Type} {p q : α → Bool} {f : α → β} {as : List α}
    (h : (as.filter p).map f = (as.filter q).map f) (hpq : ∀ a ∈ as, p a → q a) :
    ∀ a ∈ as, q a → p a := by
  have hfilter : (as.filter q).filter p = as.filter p := by
    rw [List.filter_filter]
    refine List.filter_congr fun a ha => ?_
    cases hp : p a
    · rfl
    · exact hpq a ha hp
  have hlength : ((as.filter q).filter p).length = (as.filter q).length := by
    rw [hfilter]
    simpa using congrArg List.length h
  intro a ha hq
  exact List.length_filter_eq_length_iff.1 hlength a (List.mem_filter.2 ⟨ha, hq⟩)

section

variable {table : SymbolTable} {target next : String} {r : Rule}
  (h : g.Governs table i target next) (hstart : table.knows SymbolTable.start = true)
  (hd : d ∈ (Branch.initial input).ends g cfg) (hrule : g.rules[i]? = some r)

include h hstart hd hrule

/-- **What a listening rule is told of**: the nodes of its target, unless one of these stands below
a node of the rule, or an entry is repeated by the tail. -/
theorem announcementsOf_eq_iff (hne : next ≠ target) {s : String} (hs : r.listener = some s) :
    d.tree.announcementsOf g i = (d.tree.parsedNodes i target).map (fun v => (s, v.label)) ↔
      (∀ v ∈ d.tree.parsedNodes i target, v.parentRule ≠ some i) ∧
        ∀ v ∈ d.tree.parsedNodes i next, v.parentRule ≠ some (i + 1) := by
  rw [ParseTree.announcementsOf_eq hrule hs]
  constructor
  · intro heq
    have htold := ParseTree.symbol_of_mem_announcedNodes heq
    refine ⟨fun v hv hparent => ?_, fun v hv hparent => ?_⟩
    · obtain ⟨hv, hparsed, hi, hsymbol⟩ := ParseTree.mem_parsedNodes.1 hv
      have hannounced := filter_eq_true_of_map_eq heq (fun u hu hannounced => ?_) v hv
        (decide_eq_true ⟨hparsed, hi, hsymbol⟩)
      · exact (Visit.continues_eq_false_iff hi).1 (of_decide_eq_true hannounced).2.2 hparent
      · obtain ⟨hparsed, hi, -⟩ := of_decide_eq_true hannounced
        exact decide_eq_true ⟨hparsed, hi, htold u (List.mem_filter.2 ⟨hu, hannounced⟩)⟩
    · obtain ⟨hv, hparsed, hi, hsymbol⟩ := ParseTree.mem_parsedNodes.1 hv
      have hcontinues : v.continues = false := by
        rw [Visit.continues_eq_false_iff hi, hparent]
        simp
      have htarget := htold v (ParseTree.mem_announcedNodes.2 ⟨hv, hparsed, hi, hcontinues⟩)
      exact hne (Symbol.nonterminal.inj (hsymbol.symm.trans htarget))
  · rintro ⟨htargets, hnexts⟩
    refine congrArg _ (List.filter_congr fun v hv => decide_eq_decide.2 ?_)
    refine and_congr_right fun hparsed => and_congr_right fun hi => ?_
    rw [Visit.continues_eq_false_iff hi]
    refine ⟨fun hparent => ?_, fun hsymbol => ?_⟩
    · rcases h.of_mem_postorder hstart hd hv hi with hsymbol | ⟨hsymbol, hparent'⟩ | hparent'
      · exact hsymbol
      · have hmem := ParseTree.mem_parsedNodes.2 ⟨hv, hparsed, hi, hsymbol⟩
        exact absurd (hparent'.resolve_left hparent) (hnexts v hmem)
      · exact absurd hparent' hparent
    · exact htargets v (ParseTree.mem_parsedNodes.2 ⟨hv, hparsed, hi, hsymbol⟩)

/-- **The offer of a join's completer** comes from a node of the target, or from an entry that the
tail repeats. -/
theorem symbol_of_firstOffer {iso : Isolate} {ctx : Context} {l : Label} {offers : List Completion}
    (hoffer : ((firstOffer iso g (ParseTree.stuckNodes [d.tree])).run ctx).1 = some (l, offers))
    (hi : l.ruleIndex = some i) :
    l.symbol = .nonterminal target ∨ l.symbol = .nonterminal next ∧
      ∃ v ∈ d.tree.postorder none, v.label = l ∧ v.parentRule = some (i + 1) := by
  obtain ⟨n, hn, rfl, ctx', hoffer⟩ := exists_offer_of_firstOffer hoffer
  obtain ⟨path, hpath, hn⟩ := ParseTree.exists_stuckPath_of_mem_stuckNodes hn
  have hn := ParseTree.mem_postorder_of_mem_stuckPath hpath hn
  have hparent := Node.parentRule_of_offer hrule hi (Derivation.part_tree hd) hn hoffer
  rcases h.of_mem_postorder hstart hd hn hi with hsymbol | ⟨hsymbol, hparent'⟩ | hparent'
  · exact .inl hsymbol
  · exact .inr ⟨hsymbol, n.toVisit, hn, rfl, hparent'.resolve_left hparent⟩
  · exact absurd hparent' hparent

end

/-! ### An instance with two entries -/

namespace Grammar

/-- Digits separated by commas. -/
def digits : Grammar :=
  ((join (some "l") (Symbol.terminal .digit).unnamed { delimiter := some (.literal ",") }).run {}).2

/-- Digits separated by commas, with a listener. -/
def digitList : Grammar :=
  ((modifyRule ⟨0, "l"⟩ fun rule => { rule with listener := some "l" }).run digits).2

/-- The grammar after its compile. -/
def digitListCompiled : Grammar := ((compile (.nonterminal "l")).run.run digitList).2

theorem compile_digitList :
    (compile (.nonterminal "l")).run.run digitList = (.ok (), digitListCompiled) := rfl

theorem reachable_digitList : digitList.Reachable := by
  have hdigits : digits.Reachable := Relation.ReflTransGen.single (.join ..)
  exact hdigits.tail (.modifyRule _ _ (fun _ => rfl) fun _ => rfl)

/-- The rule of the join. -/
def digitListRule : Rule :=
  { Rule.ofChildren (.join { delimiter := some (.literal ",") }) "l"
      [(Symbol.terminal .digit).unnamed] with listener := some "l" }

theorem rules_digitList : digitListCompiled.flat.rules[0]? = some digitListRule := rfl

/-- A derivation of two digits. -/
def digitListSteps : List Step :=
  [.expand ⟨"S'", [.nonterminal "l", .terminal .endOfInput], some 2, .positional [none, none],
      .keep⟩ 0,
    .expand ⟨"l", [.nonterminal "l_repetition_0"], some 0, .wrapped, .wrapped⟩ 0,
    .expand ⟨"l_repetition_0", [.terminal .digit, .nonterminal "l_star_0"], some 0,
      .headed [none] "star", .headed⟩ 0,
    .accept .digit ⟨.successful, 0, "1"⟩,
    .expand ⟨"l_star_0", [.nonterminal "l_next_0", .nonterminal "l_star_0"], some 1,
      .entryAndTail [some "next"], .entryAndTail⟩ 1,
    .expand ⟨"l_next_0", [.literal ",", .terminal .digit], some 0, .delimited [none], .second⟩ 1,
    .accept (.literal ",") ⟨.successful, 1, ","⟩, .accept .digit ⟨.successful, 2, "2"⟩,
    .expand ⟨"l_star_0", [], some 1, .anonymous, .keep⟩ 3,
    .accept .endOfInput ⟨.successful, 3, ""⟩]

theorem leftmost_digitList :
    Leftmost digitListCompiled.flat [.nonterminal SymbolTable.start] digitListSteps ∧
      Reads "1,2".toList 0 digitListSteps ∧ Paced 4096 digitListSteps := by
  refine ⟨?_, ?_, ?_⟩
  · refine .expand ?_ (.expand ?_ (.expand ?_ (.accept (.expand ?_ (.expand ?_ (.accept (.accept
      (.expand ?_ (.accept .nil)))))))))
    all_goals decide +kernel
  · exact .expand (.expand (.expand (.accept rfl rfl (.expand (.expand (.accept rfl rfl
      (.accept rfl rfl (.expand (.accept rfl rfl .nil)))))))))
  · rw [paced_iff]
    simp [PacedFrom, digitListSteps]

/-- The tree of that derivation. -/
def digitListTree : ParseTree := Derivation.tree ⟨digitListSteps.reverse, [], none, 0⟩

end Grammar

/-- **When a join is announced as one rule.**  A join is announced once for each parsed node of its
target, and for no other node, just if no such node stands directly below the rule of the join and
no entry `next` is repeated by the tail, which has the rule after it.  The completer of a join makes
its offer for the target, or for such an entry. -/
theorem announcements_join_iff {G G' : Grammar} {top : Symbol} (hG : G.Reachable)
    (hcompile : (Grammar.compile top).run.run G = (.ok (), G')) {i : Nat} {r : Rule} {j : Join}
    (hrule : G'.flat.rules[i]? = some r) (hjoin : r.kind = .join j) :
    ∃ next, next ≠ r.target ∧ G'.symbols.knows next = false ∧
      ∀ cfg input, ∀ d ∈ (Branch.initial input).ends G'.flat cfg,
        (∀ s, r.listener = some s →
          (d.tree.announcementsOf G'.flat i =
              (d.tree.parsedNodes i r.target).map (fun v => (s, v.label)) ↔
            (∀ v ∈ d.tree.parsedNodes i r.target, v.parentRule ≠ some i) ∧
              ∀ v ∈ d.tree.parsedNodes i next, v.parentRule ≠ some (i + 1))) ∧
        ∀ iso ctx l offers,
          ((firstOffer iso G'.flat (ParseTree.stuckNodes [d.tree])).run ctx).1
            = some (l, offers) → l.ruleIndex = some i →
          l.symbol = .nonterminal r.target ∨ l.symbol = .nonterminal next ∧
            ∃ v ∈ d.tree.postorder none, v.label = l ∧ v.parentRule = some (i + 1) := by
  obtain ⟨htarget, next, hnext, hgoverns⟩ :=
    (Grammar.attributed_of_compile hG hcompile).joins i r j hrule hjoin
  have hstart : G'.symbols.knows SymbolTable.start = true := by
    rw [(Grammar.compile_ok hcompile).2.2]
    exact Grammar.knows_start_withStart
  have hne : next ≠ r.target := by
    rintro rfl
    rw [htarget] at hnext
    cases hnext
  refine ⟨next, hne, hnext, fun cfg input d hd => ⟨fun s hs => ?_, fun iso ctx l offers => ?_⟩⟩
  · exact announcementsOf_eq_iff hgoverns hstart hd hrule hne hs
  · exact symbol_of_firstOffer hgoverns hstart hd hrule

/-- The listener of the digits on `1,2`. -/
theorem announcements_join_iff_digitList :
    Grammar.digitList.Reachable ∧
    (Grammar.compile (.nonterminal "l")).run.run Grammar.digitList
      = (.ok (), Grammar.digitListCompiled) ∧
    Grammar.digitListCompiled.flat.rules[0]? = some Grammar.digitListRule ∧
    Grammar.digitListRule.kind = .join { delimiter := some (.literal ",") } ∧
    ∃ next, next ≠ "l" ∧ Grammar.digitListCompiled.symbols.knows next = false ∧
      ∀ d ∈ (Branch.initial "1,2".toList).ends Grammar.digitListCompiled.flat {},
        d.tree.announcementsOf Grammar.digitListCompiled.flat 0 =
            (d.tree.parsedNodes 0 "l").map (fun v => ("l", v.label)) ↔
          (∀ v ∈ d.tree.parsedNodes 0 "l", v.parentRule ≠ some 0) ∧
            ∀ v ∈ d.tree.parsedNodes 0 next, v.parentRule ≠ some 1 := by
  refine ⟨Grammar.reachable_digitList, rfl, Grammar.rules_digitList, rfl, ?_⟩
  obtain ⟨next, hne, hnext, hends⟩ := announcements_join_iff Grammar.reachable_digitList
    Grammar.compile_digitList Grammar.rules_digitList rfl
  exact ⟨next, hne, hnext, fun d hd => (hends {} "1,2".toList d hd).1 "l" rfl⟩

/-- **A join is not announced as one rule**: on `1,2` its listener is told of the second entry with
its comma, and then of the whole. -/
theorem announcements_join_next :
    (Grammar.compile (.nonterminal "l")).run.run Grammar.digitList
      = (.ok (), Grammar.digitListCompiled) ∧
    ∃ d ∈ (Branch.initial "1,2".toList).ends Grammar.digitListCompiled.flat {}, d.isComplete ∧
      (d.tree.announcementsOf Grammar.digitListCompiled.flat 0).map
          (fun e => (e.1, e.2.symbol, e.2.text)) =
        [("l", .nonterminal "l_next_0", ",2"), ("l", .nonterminal "l", "1,2")] ∧
      d.tree.announcementsOf Grammar.digitListCompiled.flat 0 ≠
        (d.tree.parsedNodes 0 "l").map fun v => ("l", v.label) := by
  obtain ⟨d, hd, hc, htrace⟩ := (@mem_ends_iff_leftmost _ {} _ _).2 Grammar.leftmost_digitList
  refine ⟨Grammar.compile_digitList, d, hd, hc, ?_⟩
  have htree : d.tree = Grammar.digitListTree := by
    obtain ⟨trace, pending, stuck, stop⟩ := d
    obtain rfl : pending = [] := List.isEmpty_iff.1 hc
    obtain rfl : trace = Grammar.digitListSteps.reverse := htrace
    cases stuck <;> rfl
  rw [htree]
  refine ⟨by decide +kernel, fun heq => ?_⟩
  have hlength := congrArg List.length heq
  revert hlength
  rw [List.length_map]
  decide +kernel

end Typeahead
