import Typeahead.Proofs.Search.Enumeration
import Typeahead.Proofs.Text.Offset

/-!
# Proofs/Derivation/Leftmost — leftmost derivations of a text

A list of steps is a derivation of a text when three things hold, each said without the others and
without a search:

* `Leftmost`: the steps rewrite the leading symbol of a form until nothing is left of it;
* `Reads`: the terminals match, each where the text of the one before it ends;
* `Paced`: no stretch of steps that reads nothing has more than a number of expansions.

`mem_ends_iff_leftmost` says that the complete ends of a branch are just these derivations.
-/

namespace Typeahead

namespace Step

/-- Whether a step matches some text. -/
def consumes : Step → Bool
  | expand _ _ => false
  | accept _ m => m.text ≠ ""

/-- Whether a step expands a nonterminal. -/
def isExpansion : Step → Bool
  | expand _ _ => true
  | accept _ _ => false

/-- The number of expansions among some steps. -/
def expansions (steps : List Step) : Nat := steps.countP isExpansion

@[simp] theorem expansions_nil : expansions [] = 0 := rfl

@[simp] theorem expansions_expand (p : Production) (pos : Nat) (steps : List Step) :
    expansions (.expand p pos :: steps) = expansions steps + 1 := List.countP_cons_of_pos rfl

@[simp] theorem expansions_accept (t : Terminal) (m : Match) (steps : List Step) :
    expansions (.accept t m :: steps) = expansions steps :=
  List.countP_cons_of_neg Bool.false_ne_true

/-- Some steps match no text. -/
def Quiet (steps : List Step) : Prop := ∀ s ∈ steps, s.consumes = false

@[simp] theorem quiet_nil : Quiet [] := by simp [Quiet]

@[simp] theorem quiet_cons {s : Step} {steps : List Step} :
    Quiet (s :: steps) ↔ s.consumes = false ∧ Quiet steps := by simp [Quiet]

end Step

/-- **A leftmost derivation**: steps that rewrite the leading symbol of a form by a production, or
match it if it is a terminal, until the form is used up. -/
inductive Leftmost (g : FlatGrammar) : List Symbol → List Step → Prop
  | nil : Leftmost g [] []
  | expand {x : String} {p : Production} {pos : Nat} {pending : List Symbol} {steps : List Step}
    (hp : p ∈ g.alternatives x) (h : Leftmost g (p.right ++ pending) steps) :
    Leftmost g (.nonterminal x :: pending) (.expand p pos :: steps)
  | accept {t : Terminal} {m : Match} {pending : List Symbol} {steps : List Step}
    (h : Leftmost g pending steps) : Leftmost g (.terminal t :: pending) (.accept t m :: steps)

/-- **The terminals match one after the other** from the byte offset `pos` on, each starting where
the text of the one before it ends. -/
inductive Reads (input : List Char) : Nat → List Step → Prop
  | nil {pos : Nat} : Reads input pos []
  | expand {p : Production} {pos : Nat} {steps : List Step} (h : Reads input pos steps) :
    Reads input pos (.expand p pos :: steps)
  | accept {t : Terminal} {pos : Nat} {m : Match} {steps : List Step}
    (hm : t.matchCursor ⟨input, pos⟩ = m) (hs : m.outcome = .successful)
    (h : Reads input m.stop steps) : Reads input pos (.accept t m :: steps)

/-- **No more than `limit` expansions in a row** happen without text being matched in between. -/
def Paced (limit : Nat) (steps : List Step) : Prop :=
  ∀ stretch, stretch <:+: steps → Step.Quiet stretch → Step.expansions stretch ≤ limit

/-! ## Counting expansions along a derivation -/

/-- `Paced` by counting: `idle` expansions have happened since text was matched. -/
def PacedFrom (limit : Nat) : Nat → List Step → Prop
  | _, [] => True
  | idle, .expand _ _ :: steps => idle < limit ∧ PacedFrom limit (idle + 1) steps
  | idle, .accept _ m :: steps => PacedFrom limit (if m.text = "" then idle else 0) steps

/-- The first stretch without text stays within the limit when `idle` expansions precede it. -/
def StartsPaced (limit idle : Nat) (steps : List Step) : Prop :=
  ∀ start, start <+: steps → Step.Quiet start → idle + Step.expansions start ≤ limit

section Pace

variable {limit idle : Nat} {steps : List Step}

theorem StartsPaced.le (h : StartsPaced limit idle steps) : idle ≤ limit :=
  h [] List.nil_prefix Step.quiet_nil

theorem StartsPaced.mono {idle' : Nat} (h : StartsPaced limit idle steps) (hle : idle' ≤ idle) :
    StartsPaced limit idle' steps := by
  intro start hl hq
  have := h start hl hq
  omega

theorem startsPaced_expand {p : Production} {pos : Nat} :
    StartsPaced limit idle (.expand p pos :: steps) ↔ StartsPaced limit (idle + 1) steps := by
  constructor
  · intro h start hl hq
    have := h (.expand p pos :: start) (List.cons_prefix_cons.2 ⟨rfl, hl⟩)
      (by simpa [Step.consumes] using hq)
    rw [Step.expansions_expand] at this
    omega
  · intro h start hl hq
    rcases List.prefix_cons_iff.1 hl with hnil | ⟨l, rfl, htail⟩
    · have := h.le
      rw [hnil, Step.expansions_nil]
      omega
    · have := h l htail (Step.quiet_cons.1 hq).2
      rw [Step.expansions_expand]
      omega

theorem startsPaced_accept {t : Terminal} {m : Match} (hm : m.text = "") :
    StartsPaced limit idle (.accept t m :: steps) ↔ StartsPaced limit idle steps := by
  constructor
  · intro h start hl hq
    have := h (.accept t m :: start) (List.cons_prefix_cons.2 ⟨rfl, hl⟩)
      (by simpa [Step.consumes, hm] using hq)
    rwa [Step.expansions_accept] at this
  · intro h start hl hq
    rcases List.prefix_cons_iff.1 hl with hnil | ⟨l, rfl, htail⟩
    · rw [hnil]
      exact h.le
    · rw [Step.expansions_accept]
      exact h l htail (Step.quiet_cons.1 hq).2

theorem startsPaced_consume {t : Terminal} {m : Match} (hm : m.text ≠ "") :
    StartsPaced limit idle (.accept t m :: steps) ↔ idle ≤ limit := by
  refine ⟨StartsPaced.le, fun h start hl hq => ?_⟩
  rcases List.prefix_cons_iff.1 hl with hnil | ⟨l, rfl, htail⟩
  · rwa [hnil]
  · simp [Step.consumes, hm] at hq

/-- A stretch of steps is a first one, or does not touch the first step. -/
theorem paced_cons {s : Step} :
    Paced limit (s :: steps) ↔ StartsPaced limit 0 (s :: steps) ∧ Paced limit steps := by
  constructor
  · intro h
    refine ⟨fun l hl hq => ?_, fun l hl hq => ?_⟩
    · rw [Nat.zero_add]
      exact h l hl.isInfix hq
    · exact h l (hl.trans (List.suffix_cons _ _).isInfix) hq
  · rintro ⟨hstart, htail⟩ l hl hq
    rcases List.infix_cons_iff.1 hl with hl | hl
    · simpa using hstart l hl hq
    · exact htail l hl hq

/-- **Counting on is right**: it bounds the stretch that is under way and all later ones. -/
theorem pacedFrom_iff (hidle : idle ≤ limit) :
    PacedFrom limit idle steps ↔ StartsPaced limit idle steps ∧ Paced limit steps := by
  induction steps generalizing idle with
  | nil => simp [PacedFrom, Paced, StartsPaced, hidle]
  | cons s steps ih =>
    rw [paced_cons]
    cases s with
    | expand p pos =>
      rw [PacedFrom, startsPaced_expand, startsPaced_expand]
      constructor
      · rintro ⟨hlt, h⟩
        obtain ⟨hstart, hpaced⟩ := (ih hlt).1 h
        exact ⟨hstart, hstart.mono (by omega), hpaced⟩
      · rintro ⟨hstart, -, hpaced⟩
        exact ⟨hstart.le, (ih hstart.le).2 ⟨hstart, hpaced⟩⟩
    | accept t m =>
      by_cases hm : m.text = ""
      · rw [PacedFrom, if_pos hm, startsPaced_accept hm, startsPaced_accept hm, ih hidle]
        exact ⟨fun h => ⟨h.1, h.1.mono (Nat.zero_le _), h.2⟩, fun h => ⟨h.1, h.2.2⟩⟩
      · rw [PacedFrom, if_neg hm, startsPaced_consume hm, startsPaced_consume hm,
          ih (Nat.zero_le _)]
        refine ⟨fun h => ⟨hidle, Nat.zero_le _, h.2⟩, fun h => ⟨fun l hl hq => ?_, h.2.2⟩⟩
        simpa using h.2.2 l hl.isInfix hq

theorem paced_iff : Paced limit steps ↔ PacedFrom limit 0 steps := by
  rw [pacedFrom_iff (Nat.zero_le _)]
  refine ⟨fun h => ⟨fun l hl hq => ?_, h⟩, And.right⟩
  simpa using h l hl.isInfix hq

end Pace

/-! ## Branches follow leftmost derivations -/

namespace Branch

/-- A branch stands between what it has read of the input and what it has not. -/
def Within (input : List Char) (b : Branch) : Prop :=
  ∃ before, input = before ++ b.rest ∧ b.pos = Text.byteLength before

variable {g : FlatGrammar} {cfg : Config} {input : List Char} {b : Branch}

theorem within_initial (input : List Char) : (initial input).Within input := ⟨[], rfl, rfl⟩

theorem Within.accept {t : Terminal} {seen : List Char} {atEnd : Bool} (h : b.Within input)
    (hm : t.scan b.rest atEnd = (.successful, seen)) : (b.accept t seen).Within input := by
  obtain ⟨before, hinput, hpos⟩ := h
  obtain ⟨rest, hrest⟩ := Terminal.scan_successful hm
  refine ⟨before ++ seen, ?_, ?_⟩
  · rw [hinput, Branch.accept, ← hrest, List.drop_left, List.append_assoc]
  · rw [Branch.accept, hpos, Text.byteLength_append]

theorem Within.expand {p : Production} (h : b.Within input) : (b.expand p).Within input := h

/-- What a terminal finds where a branch stands is what it finds in the rest. -/
theorem Within.matchCursor {t : Terminal} {outcome : Outcome} {seen : List Char}
    (h : b.Within input) (hm : t.scan b.rest b.rest.isEmpty = (outcome, seen)) :
    t.matchCursor ⟨input, b.pos⟩ = ⟨outcome, b.pos, String.ofList seen⟩ := by
  obtain ⟨before, hinput, hpos⟩ := h
  rw [Terminal.matchCursor, Terminal.matchAt, hinput, hpos, Cursor.remaining_append,
    Cursor.atEnd_append, hm]

theorem leftmost_of_mem_ends {d : Derivation} (hd : d ∈ b.ends g cfg) (hc : d.isComplete)
    (hb : b.Within input) : ∃ steps, d.trace = steps.reverse ++ b.trace ∧
      Leftmost g b.pending steps ∧ Reads input b.pos steps ∧
      PacedFrom cfg.maxDepth b.idle steps := by
  fun_induction ends g cfg b with
  | case1 b hp =>
    obtain rfl := List.mem_singleton.1 hd
    exact ⟨[], rfl, hp ▸ .nil, .nil, trivial⟩
  | case2 b t pending hp seen hm ih =>
    obtain ⟨steps, htrace, hleft, hreads, hpaced⟩ := ih hd (hb.accept hm)
    refine ⟨.accept t ⟨.successful, b.pos, String.ofList seen⟩ :: steps, ?_, ?_, ?_, ?_⟩
    · simp [htrace, accept]
    · rw [accept, hp] at hleft
      rw [hp]
      exact .accept hleft
    · refine .accept (hb.matchCursor hm) rfl ?_
      simpa [Match.stop, accept] using hreads
    · simpa [PacedFrom, accept] using hpaced
  | case3 b t pending hp outcome seen hne hm =>
    obtain rfl := List.mem_singleton.1 hd
    simp [Derivation.isComplete, stick, hp] at hc
  | case4 b x pending hp | case6 b x pending hp =>
    obtain rfl := List.mem_singleton.1 hd
    simp [Derivation.isComplete, stick, hp] at hc
  | case5 b x pending hp hidle halt ih =>
    obtain ⟨p, hmem, hdp⟩ := List.mem_flatMap.1 hd
    obtain ⟨steps, htrace, hleft, hreads, hpaced⟩ := ih p hdp hb.expand
    refine ⟨.expand p b.pos :: steps, ?_, ?_, .expand hreads, hidle, hpaced⟩
    · simp [htrace, expand]
    · rw [expand, hp] at hleft
      rw [hp]
      exact .expand hmem hleft

theorem mem_ends_of_leftmost {pending : List Symbol} {steps : List Step}
    (hleft : Leftmost g pending steps) (hp : b.pending = pending) (hb : b.Within input)
    (hreads : Reads input b.pos steps) (hpaced : PacedFrom cfg.maxDepth b.idle steps) :
    ∃ d ∈ b.ends g cfg, d.isComplete ∧ d.trace = steps.reverse ++ b.trace := by
  induction hleft generalizing b with
  | nil =>
    rw [ends_nil hp]
    exact ⟨b.leave, List.mem_singleton_self _, by simp [Derivation.isComplete, leave, hp], rfl⟩
  | @expand x p pos pending steps hmem _ ih =>
    cases hreads with
    | expand hreads =>
      obtain ⟨hidle, hpaced⟩ := hpaced
      obtain ⟨d, hd, hc, htrace⟩ := ih (b := b.expand p) (by simp [Branch.expand, hp]) hb.expand
        hreads hpaced
      rw [ends_expand hp hidle (List.ne_nil_of_mem hmem)]
      refine ⟨d, List.mem_flatMap.2 ⟨p, hmem, hd⟩, hc, ?_⟩
      simp [htrace, Branch.expand]
  | @accept t m pending steps _ ih =>
    cases hreads with
    | accept hm hs hreads =>
      rcases hscan : t.scan b.rest b.rest.isEmpty with ⟨outcome, seen⟩
      obtain rfl : ⟨outcome, b.pos, String.ofList seen⟩ = m :=
        (hb.matchCursor hscan).symm.trans hm
      obtain rfl : outcome = .successful := hs
      obtain ⟨d, hd, hc, htrace⟩ := ih (b := b.accept t seen) (by simp [Branch.accept, hp])
        (hb.accept hscan) (by simpa [Branch.accept, Match.stop] using hreads)
        (by simpa [Branch.accept, PacedFrom] using hpaced)
      rw [ends_accept hp hscan]
      refine ⟨d, hd, hc, ?_⟩
      simp [htrace, Branch.accept]

end Branch

/-- **The complete derivations a search can end in** are the leftmost derivations of the input that
keep the pace. -/
theorem mem_ends_iff_leftmost {g : FlatGrammar} {cfg : Config} {input : List Char}
    {steps : List Step} :
    (∃ d ∈ (Branch.initial input).ends g cfg, d.isComplete ∧ d.trace = steps.reverse) ↔
      Leftmost g [.nonterminal SymbolTable.start] steps ∧ Reads input 0 steps ∧
        Paced cfg.maxDepth steps := by
  rw [paced_iff]
  constructor
  · rintro ⟨d, hd, hc, htrace⟩
    obtain ⟨steps', htrace', h⟩ := Branch.leftmost_of_mem_ends hd hc (Branch.within_initial input)
    obtain rfl : steps' = steps := by simpa [Branch.initial, htrace] using htrace'.symm
    exact h
  · rintro ⟨hleft, hreads, hpaced⟩
    obtain ⟨d, hd, hc, htrace⟩ :=
      Branch.mem_ends_of_leftmost hleft rfl (Branch.within_initial input) hreads hpaced
    exact ⟨d, hd, hc, by simpa [Branch.initial] using htrace⟩

theorem exists_isComplete_iff_leftmost {g : FlatGrammar} {cfg : Config} {input : List Char} :
    (∃ d ∈ (Branch.initial input).ends g cfg, d.isComplete) ↔
      ∃ steps, Leftmost g [.nonterminal SymbolTable.start] steps ∧ Reads input 0 steps ∧
        Paced cfg.maxDepth steps := by
  simp only [← mem_ends_iff_leftmost]
  constructor
  · rintro ⟨d, hd, hc⟩
    exact ⟨d.trace.reverse, d, hd, hc, (List.reverse_reverse _).symm⟩
  · rintro ⟨_, d, hd, hc, -⟩
    exact ⟨d, hd, hc⟩

end Typeahead
