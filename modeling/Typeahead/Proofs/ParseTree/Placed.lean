import Typeahead.Proofs.ParseTree.Leaves
import Typeahead.Proofs.Search.Reach

/-!
# Proofs/ParseTree/Placed — where the nodes of a tree lie in the input

The matches of consecutive trees tile a text (`Match.Tiles`): each starts where the one before it
ends, up to the one the derivation is stuck on, and those after it were not tried.  To put a node
over the first of them leaves a tiling of the same text (`Tiles.gather`), so the trees of the symbols
that a branch has pending tile what the derivation goes on to read (`laid_of_mem_ends`).

So every node holds the text that stands in the input where it starts (`Match.PlacedIn`), and its
children tile it (`ParseTree.Laid`).  The outcome of a node is that of its leaves taken together
(`Part.outcome_eq`).
-/

namespace Typeahead

/-! ## Consecutive matches -/

namespace Match

/-- **A match is placed in an input**: its text is what stands there from its offset on. -/
def PlacedIn (input : List Char) (m : Match) : Prop :=
  ∃ before after, input = before ++ (m.text.toList ++ after) ∧ m.pos = Text.byteLength before

/-- The text of consecutive matches taken together. -/
def textOf (ms : List Match) : String := (combine ms).2

/-- **Matches that tile a text** from an offset on: each starts where the one before it ends.  After
one that is stuck the others were not tried, and count from `stop`. -/
inductive Tiles (stop : Nat) : Nat → String → List Match → Prop
  | nil {pos : Nat} : Tiles stop pos "" []
  | cons {m : Match} {text : String} {ms : List Match} (hm : m.outcome.isStuck = false)
    (h : Tiles stop m.stop text ms) : Tiles stop m.pos (m.text ++ text) (m :: ms)
  | stuck {m : Match} {ms : List Match} (hm : m.outcome.isStuck = true)
    (hms : ∀ n ∈ ms, n = .notParsed stop) : Tiles stop m.pos m.text (m :: ms)

variable {stop pos : Nat} {text : String} {as bs : List Match}

@[simp] theorem textOf_nil : textOf [] = "" := rfl

theorem textOf_cons (m : Match) (ms : List Match) :
    textOf (m :: ms) = if m.outcome.isStuck then m.text else m.text ++ textOf ms := by
  rw [textOf, combine]
  split <;> rfl

theorem isStuck_outcomeOf_cons (m : Match) (ms : List Match) :
    (outcomeOf (m :: ms)).isStuck = (m.outcome.isStuck || (outcomeOf ms).isStuck) := by
  rw [outcomeOf_cons]
  cases m.outcome <;> cases outcomeOf ms <;> rfl

/-- **A tiling can be cut**: what comes first tiles its own text, and the others go on from there,
or were not tried. -/
theorem Tiles.cut (h : Tiles stop pos text (as ++ bs)) : Tiles stop pos (textOf as) as ∧
    ((outcomeOf as).isStuck = true ∧ text = textOf as ∧ (∀ n ∈ bs, n = .notParsed stop) ∨
      (outcomeOf as).isStuck = false ∧ ∃ more, text = textOf as ++ more ∧
        Tiles stop (pos + (textOf as).utf8ByteSize) more bs) := by
  induction as generalizing pos text with
  | nil => exact ⟨.nil, .inr ⟨rfl, text, String.empty_append.symm, h⟩⟩
  | cons a as ih =>
    rw [isStuck_outcomeOf_cons, textOf_cons]
    cases h with
    | @cons _ text _ ha h =>
      rw [ha, if_neg Bool.false_ne_true, Bool.false_or]
      obtain ⟨has, hbs⟩ := ih h
      refine ⟨.cons ha has, hbs.imp ?_ ?_⟩
      · rintro ⟨hstuck, rfl, hnone⟩
        exact ⟨hstuck, rfl, hnone⟩
      · rintro ⟨hstuck, more, rfl, hbs⟩
        refine ⟨hstuck, more, String.append_assoc.symm, ?_⟩
        rwa [String.utf8ByteSize_append, ← Nat.add_assoc]
    | stuck ha hms =>
      rw [ha, if_pos rfl, Bool.true_or]
      obtain ⟨has, hbs⟩ := List.forall_mem_append.1 hms
      exact ⟨.stuck ha has, .inl ⟨rfl, rfl, hbs⟩⟩

/-- **Some first matches taken together** tile as before. -/
theorem Tiles.gather (h : Tiles stop pos text (as ++ bs)) :
    Tiles stop pos text (⟨outcomeOf as, pos, textOf as⟩ :: bs) := by
  obtain ⟨-, ⟨hstuck, rfl, hbs⟩ | ⟨hstuck, more, rfl, hbs⟩⟩ := h.cut
  · exact .stuck (m := ⟨outcomeOf as, pos, textOf as⟩) hstuck hbs
  · exact .cons (m := ⟨outcomeOf as, pos, textOf as⟩) hstuck hbs

/-- The first matches cover the beginning of the text. -/
theorem Tiles.prefix (h : Tiles stop pos text (as ++ bs)) :
    (textOf as).toList <+: text.toList := by
  obtain ⟨-, ⟨-, rfl, -⟩ | ⟨-, more, rfl, -⟩⟩ := h.cut
  · exact List.prefix_rfl
  · rw [String.toList_append]
    exact List.prefix_append ..

theorem Tiles.text_nil (h : Tiles stop pos text []) : text = "" := by
  cases h
  rfl

/-- A single match tiles its own text. -/
theorem Tiles.text_singleton {m : Match} (h : Tiles stop pos text [m]) : text = m.text := by
  cases h with
  | cons _ h => rw [h.text_nil, String.append_empty]
  | stuck => rfl

end Match

open Match (Tiles PlacedIn textOf)

theorem Branch.Within.placedIn {input : List Char} {b : Branch} (h : b.Within input)
    {text : List Char} (htext : text <+: b.rest) (outcome : Outcome) :
    (⟨outcome, b.pos, String.ofList text⟩ : Match).PlacedIn input := by
  obtain ⟨before, hinput, hpos⟩ := h
  obtain ⟨after, hafter⟩ := htext
  refine ⟨before, after, ?_, hpos⟩
  rw [hinput, ← hafter, String.toList_ofList]

/-! ## The nodes of a tree -/

open ParseTree (Occurs)

/-- **A node lies where it belongs**: its text stands in the input where it starts, and its children
tile that text. -/
structure ParseTree.Laid (input : List Char) (stop : Nat) (s : ParseTree) : Prop where
  placed : s.label.result.PlacedIn input
  tiled : s.label.production ≠ none →
    Tiles stop s.label.result.pos s.label.text (s.children.map (·.label.result))

/-- All nodes of some trees lie where they belong. -/
def ParseTree.AllLaid (input : List Char) (stop : Nat) (ts : List ParseTree) : Prop :=
  ∀ t ∈ ts, ∀ s, Occurs s t → s.Laid input stop

/-- The start symbol is expanded into something with the end of input. -/
def FlatGrammar.Terminated (g : FlatGrammar) : Prop :=
  ∀ p ∈ g.alternatives SymbolTable.start, .terminal .endOfInput ∈ p.right

/-- **Some trees cover what a branch goes on to read**: they tile the text with which the rest of
the input begins.  It is all of the rest if the derivation ran out of it, or matched its end. -/
def Branch.CoveredBy (g : FlatGrammar) (b : Branch) (d : Derivation) (forest : List ParseTree) :
    Prop :=
  ∃ text beyond, b.rest = text ++ beyond ∧
    Tiles d.stop b.pos (String.ofList text) (forest.map (·.label.result)) ∧
    (d.ranOut ∨ d.isComplete ∧ g.Terminated ∧ (∃ s ∈ b.pending, s.Closes) → beyond = [])

open ParseTree (AllLaid)

section

variable {g : FlatGrammar} {cfg : Config} {input : List Char} {stop : Nat} {b : Branch}
  {d : Derivation} {forest : List ParseTree}

theorem laid_leaf {s : Symbol} {m : Match} (hm : m.PlacedIn input) :
    ∀ u, Occurs u (.leaf s m) → u.Laid input stop := by
  intro u hu
  cases hu with
  | root => exact ⟨hm, fun h => absurd rfl h⟩
  | child ht => cases ht

theorem allLaid_stick (hb : b.Within input) {outcome : Outcome} {seen : List Char}
    (hseen : seen <+: b.rest) :
    AllLaid input b.pos (b.stick ⟨outcome, b.pos, String.ofList seen⟩).openLeaves := by
  have hopen : (Match.notParsed b.pos).PlacedIn input :=
    hb.placedIn (List.nil_prefix : [] <+: b.rest) .notParsed
  have hmatch : (⟨outcome, b.pos, String.ofList seen⟩ : Match).PlacedIn input :=
    hb.placedIn hseen outcome
  intro t ht
  unfold Derivation.openLeaves at ht
  split at ht
  next m s pending hm _ =>
    obtain rfl := Option.some.inj hm
    rcases List.mem_cons.1 ht with rfl | ht
    · exact laid_leaf hmatch
    · obtain ⟨s', -, rfl⟩ := List.mem_map.1 ht
      exact laid_leaf hopen
  next =>
    obtain ⟨s', -, rfl⟩ := List.mem_map.1 ht
    exact laid_leaf hopen

theorem covered_stick {s : Symbol} {pending : List Symbol} (hp : b.pending = s :: pending)
    {outcome : Outcome} (hstuck : outcome.isStuck = true) {seen : List Char}
    (hseen : seen <+: b.rest) (hend : outcome = .endOfInput → seen = b.rest) :
    b.CoveredBy g (b.stick ⟨outcome, b.pos, String.ofList seen⟩)
      (b.stick ⟨outcome, b.pos, String.ofList seen⟩).openLeaves := by
  obtain ⟨beyond, hbeyond⟩ := hseen
  refine ⟨seen, beyond, hbeyond.symm, ?_, fun h => ?_⟩
  · rw [Derivation.openLeaves_of_stuck (m := ⟨outcome, b.pos, String.ofList seen⟩) rfl hp]
    refine .stuck (m := ⟨outcome, b.pos, String.ofList seen⟩) hstuck fun n hn => ?_
    obtain ⟨t, ht, rfl⟩ := List.mem_map.1 hn
    obtain ⟨s', -, rfl⟩ := List.mem_map.1 ht
    rfl
  · have hran : outcome = .endOfInput := by
      rcases h with h | ⟨h, -⟩
      · simpa [Derivation.ranOut, Branch.stick] using h
      · rw [Derivation.isComplete, Branch.stick, hp] at h
        cases h
    rw [hend hran] at hbeyond
    exact List.append_right_eq_self.1 hbeyond

/-- A terminal that matches adds its leaf to the trees after it. -/
theorem Branch.CoveredBy.accept {t : Terminal} {pending : List Symbol} {seen : List Char}
    (hp : b.pending = .terminal t :: pending)
    (hm : t.scan b.rest b.rest.isEmpty = (.successful, seen))
    (h : (b.accept t seen).CoveredBy g d forest) :
    b.CoveredBy g d
      (Derivation.undo forest (.accept t ⟨.successful, b.pos, String.ofList seen⟩)) := by
  obtain ⟨text, beyond, hrest, htiles, hend⟩ := h
  obtain ⟨more, hmore⟩ := Terminal.scan_successful hm
  have hrest' : more = text ++ beyond := by
    rw [← hrest, Branch.accept, ← hmore, List.drop_left]
  refine ⟨seen ++ text, beyond, by rw [← hmore, hrest', List.append_assoc], ?_, fun h => ?_⟩
  · rw [String.ofList_append]
    refine .cons (m := ⟨.successful, b.pos, String.ofList seen⟩) rfl ?_
    rwa [Match.stop, Text.utf8ByteSize_ofList]
  · by_cases ht : t = .endOfInput
    · subst ht
      rw [Terminal.scan_endOfInput_successful hm, List.append_eq_nil_iff] at hmore
      exact (List.append_eq_nil_iff.1 (hrest'.symm.trans hmore.2)).2
    · refine hend (h.imp_right ?_)
      rintro ⟨hc, hg, s, hs, hcloses⟩
      refine ⟨hc, hg, s, ?_, hcloses⟩
      rw [accept_pending hp]
      rw [hp] at hs
      refine (List.mem_cons.1 hs).resolve_left ?_
      rintro rfl
      rcases hcloses with hcloses | hcloses
      · exact ht (Symbol.terminal.inj hcloses)
      · cases hcloses

/-- A production gathers the trees of its right side. -/
theorem Branch.CoveredBy.expand {p : Production} {x : String} {pending : List Symbol}
    (hp : b.pending = .nonterminal x :: pending) (hx : p ∈ g.alternatives x)
    (h : (b.expand p).CoveredBy g d forest) :
    b.CoveredBy g d (Derivation.undo forest (.expand p b.pos)) := by
  obtain ⟨text, beyond, hrest, htiles, hend⟩ := h
  refine ⟨text, beyond, hrest, ?_, fun h => hend (h.imp_right ?_)⟩
  · rw [← List.take_append_drop p.right.length forest, List.map_append] at htiles
    exact htiles.gather
  · rintro ⟨hc, hg, s, hs, hcloses⟩
    refine ⟨hc, hg, ?_⟩
    rw [expand_pending hp]
    rw [hp, List.mem_cons] at hs
    rcases hs with rfl | hs
    · rcases hcloses with hcloses | hcloses
      · cases hcloses
      · obtain rfl : x = SymbolTable.start := Symbol.nonterminal.inj hcloses
        exact ⟨_, List.mem_append_left _ (hg p hx), .inl rfl⟩
    · exact ⟨s, List.mem_append_right _ hs, hcloses⟩

theorem Branch.CoveredBy.allLaid_expand {p : Production} (hb : b.Within input)
    (h : (b.expand p).CoveredBy g d forest) (hlaid : AllLaid input d.stop forest) :
    AllLaid input d.stop (Derivation.undo forest (.expand p b.pos)) := by
  obtain ⟨text, beyond, hrest, htiles, -⟩ := h
  rw [← List.take_append_drop p.right.length forest, List.map_append] at htiles
  refine List.forall_mem_cons.2 ⟨fun s hs => ?_, fun t ht => hlaid t (List.mem_of_mem_drop ht)⟩
  cases hs with
  | root =>
    refine ⟨?_, fun _ => htiles.cut.1⟩
    obtain ⟨more, hmore⟩ := htiles.prefix
    rw [String.toList_ofList] at hmore
    have hstarts : (textOf ((forest.take p.right.length).map (·.label.result))).toList <+: b.rest :=
      ⟨more ++ beyond, by rw [← List.append_assoc, hmore]; exact hrest.symm⟩
    have hplaced := hb.placedIn hstarts (Match.outcomeOf ((forest.take p.right.length).map
      (·.label.result)))
    rwa [String.ofList_toList] at hplaced
  | child ht hs => exact hlaid _ (List.mem_of_mem_take ht) s hs

/-- **The trees of the symbols that a branch has pending** lie where they belong, and cover what the
derivation goes on to read. -/
theorem laid_of_mem_ends (hb : b.Within input) (hd : d ∈ b.ends g cfg) :
    ∃ forest, d.forest = b.trace.foldl Derivation.undo forest ∧ AllLaid input d.stop forest ∧
      b.CoveredBy g d forest := by
  fun_induction Branch.ends g cfg b with
  | case1 b hp =>
    obtain rfl := List.mem_singleton.1 hd
    refine ⟨[], ?_, fun t ht => absurd ht List.not_mem_nil, [], b.rest, rfl, .nil, fun h => ?_⟩
    · exact congrArg (b.trace.foldl _) (Derivation.openLeaves_of_pending_eq_nil hp)
    · rcases h with h | ⟨-, -, s, hs, -⟩
      · cases h
      · rw [hp] at hs
        cases hs
  | case2 b t pending hp seen hm ih =>
    obtain ⟨forest, hforest, hlaid, hcovered⟩ := ih (hb.accept hm) hd
    refine ⟨_, hforest, List.forall_mem_cons.2 ⟨?_, hlaid⟩, hcovered.accept hp hm⟩
    exact laid_leaf (hb.placedIn (Terminal.scan_successful hm) .successful)
  | case3 b t pending hp outcome seen hne hm =>
    obtain rfl := List.mem_singleton.1 hd
    have hseen := Terminal.prefix_of_scan hm
    refine ⟨_, rfl, allLaid_stick hb hseen,
      covered_stick hp (Terminal.scan_isStuck hm hne) hseen ?_⟩
    rintro rfl
    exact Terminal.scan_endOfInput hm
  | case4 b x pending hp | case6 b x pending hp =>
    obtain rfl := List.mem_singleton.1 hd
    refine ⟨_, rfl, allLaid_stick hb List.nil_prefix, covered_stick hp rfl List.nil_prefix ?_⟩
    rintro ⟨⟩
  | case5 b x pending hp hidle halt ih =>
    obtain ⟨p, hx, hdp⟩ := List.mem_flatMap.1 hd
    obtain ⟨forest, hforest, hlaid, hcovered⟩ := ih p hb.expand hdp
    exact ⟨_, hforest, hcovered.allLaid_expand hb hlaid, hcovered.expand hp hx⟩

end

/-! ## Outcomes by the leaves -/

theorem Outcome.eq_successful_iff {o : Outcome} :
    o = .successful ↔ o.isStuck = false ∧ o ≠ .notParsed := by
  cases o <;> simp [isStuck]

namespace Match

theorem isStuck_outcomeOf_iff {ms : List Match} :
    (outcomeOf ms).isStuck = true ↔ ∃ m ∈ ms, m.outcome.isStuck = true := by
  induction ms with
  | nil => simp [Outcome.isStuck]
  | cons m ms ih => simp [isStuck_outcomeOf_cons, ih]

theorem outcomeOf_eq_notParsed_iff {ms : List Match} :
    outcomeOf ms = .notParsed ↔ ∀ m ∈ ms, m.outcome = .notParsed := by
  induction ms with
  | nil => simp
  | cons m ms ih =>
    rw [List.forall_mem_cons, ← ih, outcomeOf_cons]
    cases m.outcome <;> cases outcomeOf ms <;> simp [Outcome.isStuck]

theorem outcomeOf_eq_successful_iff {ms : List Match} : outcomeOf ms = .successful ↔
    (∀ m ∈ ms, m.outcome.isStuck = false) ∧ ∃ m ∈ ms, m.outcome = .successful := by
  rw [Outcome.eq_successful_iff, Bool.eq_false_iff, ne_eq, isStuck_outcomeOf_iff, ne_eq,
    outcomeOf_eq_notParsed_iff]
  push Not
  simp only [Bool.not_eq_true]
  refine and_congr_right fun hfree => exists_congr fun m => and_congr_right fun hm => ?_
  rw [Outcome.eq_successful_iff, and_iff_right (hfree m hm)]

/-- Matches taken together have the outcome of one of them, unless none was tried. -/
theorem exists_of_outcomeOf {ms : List Match} (h : outcomeOf ms ≠ .notParsed) :
    ∃ m ∈ ms, m.outcome = outcomeOf ms := by
  induction ms with
  | nil => exact absurd rfl h
  | cons m ms ih =>
    by_cases hm : m.outcome.isStuck = true ∨ outcomeOf ms = .notParsed
    · exact ⟨m, List.mem_cons_self .., by rw [outcomeOf_cons, if_pos hm]⟩
    · obtain ⟨n, hn, hout⟩ := ih (not_or.1 hm).2
      exact ⟨n, List.mem_cons_of_mem _ hn, by rw [outcomeOf_cons, if_neg hm, hout]⟩

end Match

open ParseTree (leavesAll outcomeAll)
open Match (outcomeOf)

theorem outcomeOf_leavesAll {ts : List ParseTree}
    (h : ∀ t ∈ ts, outcomeOf (t.leaves.map (·.result)) = t.outcome) :
    outcomeOf ((leavesAll ts).map (·.result)) = outcomeAll ts := by
  induction ts with
  | nil => rfl
  | cons t ts ih =>
    obtain ⟨ht, hts⟩ := List.forall_mem_cons.1 h
    rw [ParseTree.leavesAll_cons, List.map_append, Match.outcomeOf_append, ht, ih hts,
      ParseTree.outcomeAll_cons]

namespace Derivation

variable {g : FlatGrammar} {cfg : Config} {input : List Char} {d : Derivation} {t : ParseTree}

/-- **The outcome of a node** is that of its leaves taken together. -/
theorem Part.outcome_eq (h : d.Part g t) : outcomeOf (t.leaves.map (·.result)) = t.outcome := by
  induction h with
  | @leaf l hproduction _ =>
    have hleaves : (ParseTree.node l []).leaves = [l] := by
      rw [ParseTree.leaves, if_pos (by rw [hproduction]; rfl), leavesAll]
    rw [hleaves]
    exact ParseTree.outcomeAll_singleton (.node l [])
  | node _ hproduction _ _ houtcome _ ih =>
    rw [ParseTree.leaves_node (by rw [hproduction]; exact Option.some_ne_none _),
      outcomeOf_leavesAll ih]
    exact houtcome.symm

theorem Part.stuckOn_of_mem_leaves (h : d.Part g t) {l : Label} (hl : l ∈ t.leaves)
    (hstuck : l.result.outcome.isStuck = true) : d.StuckOn l.symbol l.result := by
  obtain ⟨hholds, hnone⟩ := ParseTree.holds_of_mem_leaves hl
  exact h.stuckOn_of_holds hholds (by rw [Label.isStuckLeaf, hnone, hstuck]; rfl)

/-- The leaf that a derivation is stuck on decides the outcome of the nodes above it. -/
theorem Part.outcome_eq_iff_of_isStuck (h : d.Part g t) {o : Outcome} (ho : o.isStuck = true) :
    t.outcome = o ↔ ∃ l ∈ t.leaves, l.result.outcome = o := by
  rw [← h.outcome_eq]
  constructor
  · rintro rfl
    have htried : outcomeOf (t.leaves.map (·.result)) ≠ .notParsed := fun hnone => by
      rw [hnone] at ho
      cases ho
    obtain ⟨m, hm, hout⟩ := Match.exists_of_outcomeOf htried
    obtain ⟨l, hl, rfl⟩ := List.mem_map.1 hm
    exact ⟨l, hl, hout⟩
  · rintro ⟨l, hl, rfl⟩
    have hstuck := Match.isStuck_outcomeOf_iff.2 ⟨_, List.mem_map_of_mem hl, ho⟩
    have htried : outcomeOf (t.leaves.map (·.result)) ≠ .notParsed := fun hnone => by
      rw [hnone] at hstuck
      cases hstuck
    obtain ⟨m, hm, hout⟩ := Match.exists_of_outcomeOf htried
    obtain ⟨l', hl', rfl⟩ := List.mem_map.1 hm
    -- both leaves are the one the derivation is stuck on
    have hsame : l'.result = l.result := Option.some.inj
      ((h.stuckOn_of_mem_leaves hl' (hout ▸ hstuck)).2.symm.trans
        (h.stuckOn_of_mem_leaves hl ho).2)
    rw [← hout, hsame]

theorem Part.outcome_eq_notParsed_iff (h : d.Part g t) :
    t.outcome = .notParsed ↔ ∀ l ∈ t.leaves, l.result.outcome = .notParsed := by
  rw [← h.outcome_eq, Match.outcomeOf_eq_notParsed_iff, List.forall_mem_map]

theorem Part.outcome_eq_successful_iff (h : d.Part g t) : t.outcome = .successful ↔
    (∀ l ∈ t.leaves, l.result.outcome.isStuck = false) ∧
      ∃ l ∈ t.leaves, l.result.outcome = .successful := by
  rw [← h.outcome_eq, Match.outcomeOf_eq_successful_iff, List.forall_mem_map]
  simp only [List.mem_map, exists_exists_and_eq_and]

theorem outcome_of_mem_openLeaves (h : d.Ended) : ∀ t ∈ d.openLeaves, t.outcome ≠ .successful := by
  rcases h with ⟨hp, -⟩ | ⟨hne, m, hm, hstuck⟩
  · rw [openLeaves_of_pending_eq_nil hp]
    exact fun t ht => absurd ht List.not_mem_nil
  · obtain ⟨s, pending, hp⟩ := List.exists_cons_of_ne_nil hne
    rw [openLeaves_of_stuck hm hp]
    refine List.forall_mem_cons.2 ⟨fun hout => ?_, List.forall_mem_map.2 fun _ _ => nofun⟩
    have hout : m.outcome = .successful := hout
    rw [hout] at hstuck
    cases hstuck

/-- A successful leaf is a terminal that the derivation matched. -/
theorem scanned_mem_matched (hd : d ∈ (Branch.initial input).ends g cfg) {l : Label}
    (hl : l ∈ d.tree.leaves) (hout : l.result.outcome = .successful) :
    l.scanned ∈ Step.matched d.trace := by
  have hmem : l.scanned ∈ d.tree.leaves.map Label.scanned := List.mem_map_of_mem hl
  rw [leaves_tree hd, List.mem_append] at hmem
  refine hmem.resolve_right fun hopen => ?_
  obtain ⟨t, ht, hscanned⟩ := List.mem_map.1 hopen
  refine outcome_of_mem_openLeaves (Branch.ended_of_mem_ends hd) t ht ?_
  rw [← hout]
  exact congrArg (·.2.outcome) hscanned

end Derivation

/-! ## Exact nodes -/

theorem ParseTree.Laid.withTag {input : List Char} {stop : Nat} {s : ParseTree}
    (h : s.Laid input stop) (tag : Tag) (parentRule : Option Nat) :
    (s.withTag tag parentRule).Laid input stop := by
  obtain ⟨l, children⟩ := s
  have hchildren : ∀ tags, (withTags tags l.ruleIndex children).map (·.label.result)
      = children.map (·.label.result) :=
    fun tags => withTags_map (fun _ _ t => by rw [label_withTag]) _ _ _
  rw [ParseTree.withTag]
  refine ⟨h.placed, fun hproduction => ?_⟩
  change Tiles stop l.result.pos l.text ((withTags _ l.ruleIndex children).map _)
  rw [hchildren]
  exact h.tiled hproduction

/-- **Position, text and outcome of a node are exact.** -/
structure ParseTree.Exact (input : List Char) (d : Derivation) (s : ParseTree) : Prop extends
    s.Laid input d.stop where
  stuck : ∀ o : Outcome, o.isStuck = true →
    (s.outcome = o ↔ ∃ l ∈ s.leaves, d.StuckOn l.symbol l.result ∧ l.result.outcome = o)
  successful : s.outcome = .successful ↔ (∀ l ∈ s.leaves, l.result.outcome.isStuck = false) ∧
    ∃ l ∈ s.leaves, l.result.outcome = .successful ∧ l.scanned ∈ Step.matched d.trace
  notParsed : s.outcome = .notParsed ↔ ∀ l ∈ s.leaves, l.result.outcome = .notParsed

section

variable {g : FlatGrammar} {cfg : Config} {input : List Char} {d : Derivation}

/-- **Every node of a derivation's tree is exact.** -/
theorem exact_of_mem_ends (hd : d ∈ (Branch.initial input).ends g cfg) {s : ParseTree}
    (hs : Occurs s d.tree) : s.Exact input d := by
  have hpart := (Derivation.part_tree hd).of_occurs hs
  obtain ⟨forest, hforest, hlaid, -⟩ := laid_of_mem_ends (Branch.within_initial input) hd
  have hroot : forest = [d.rawTree] := hforest.symm.trans (Derivation.forest_eq_singleton hd)
  obtain ⟨u, hu, tag, parentRule, rfl⟩ := hs.of_withTag
  have hu := (hlaid d.rawTree (by rw [hroot]; exact List.mem_singleton_self _) u hu).withTag tag
    parentRule
  refine ⟨hu, fun o ho => ?_, ?_, hpart.outcome_eq_notParsed_iff⟩
  · rw [hpart.outcome_eq_iff_of_isStuck ho]
    refine exists_congr fun l => and_congr_right fun hl => ?_
    exact (and_iff_right_of_imp fun hout => hpart.stuckOn_of_mem_leaves hl
      (by rwa [hout])).symm
  · rw [hpart.outcome_eq_successful_iff]
    refine and_congr_right fun _ => exists_congr fun l => and_congr_right fun hl => ?_
    exact (and_iff_left_of_imp fun hout => Derivation.scanned_mem_matched hd (hs.leaves_subset hl)
      hout).symm

/-- **The root of a derivation's tree** covers all of the input, unless the derivation failed. -/
theorem root_of_mem_ends (hg : g.Terminated) (hd : d ∈ (Branch.initial input).ends g cfg) :
    (d.tree.outcome = .successful ∨ d.tree.outcome = .endOfInput ∨ d.tree.outcome = .failed) ∧
    (d.tree.outcome ≠ .failed → d.tree.label.text = String.ofList input) := by
  obtain ⟨forest, hforest, -, text, beyond, hinput, htiles, hend⟩ :=
    laid_of_mem_ends (Branch.within_initial input) hd
  have hroot : forest = [d.rawTree] := hforest.symm.trans (Derivation.forest_eq_singleton hd)
  have htext : d.tree.label.text = String.ofList text := by
    rw [hroot] at htiles
    rw [Derivation.tree, ParseTree.named, Label.text, ParseTree.label_withTag]
    exact htiles.text_singleton.symm
  have hterminal : ∀ p ∈ g.alternatives SymbolTable.start, ∃ t, .terminal t ∈ p.right :=
    fun p hp => ⟨_, hg p hp⟩
  by_cases hc : d.isComplete
  · have hbeyond := hend (.inr ⟨hc, hg, _, List.mem_singleton_self _, .inr rfl⟩)
    have hout := outcome_of_isComplete hterminal hd hc
    rw [ParseTree.outcome_shape] at hout
    rw [hbeyond, List.append_nil] at hinput
    exact ⟨.inl hout, fun _ => htext.trans (congrArg String.ofList hinput.symm)⟩
  · obtain ⟨m, hm, hstuck⟩ := (Branch.ended_of_mem_ends hd).stuck_of_not_isComplete hc
    have hout := Derivation.outcome_tree hd hm
    cases ho : m.outcome with
    | endOfInput =>
      have hbeyond := hend (.inl (by rw [Derivation.ranOut, hm, Option.any_some, ho]; rfl))
      rw [hbeyond, List.append_nil] at hinput
      exact ⟨.inr (.inl (hout.trans ho)), fun _ => htext.trans (congrArg String.ofList hinput.symm)⟩
    | failed => exact ⟨.inr (.inr (hout.trans ho)), fun hne => absurd (hout.trans ho) hne⟩
    | successful | notParsed =>
      rw [ho] at hstuck
      cases hstuck

end

end Typeahead
