import Typeahead.Parse.Failure
import Typeahead.Proofs.Derivation.Leftmost
import Typeahead.Proofs.ParseTree.Parts

/-!
# Proofs/Search/Reach — how far failed derivations get

A failed derivation reaches up to the character that does not fit (`Derivation.Stumbles`).  Up to
there the input is the beginning of something: cut off at that point, the same derivation is
complete or runs out of input (`exists_reach`).  Conversely, if the input is no more than the
beginning of something up to some point, one of its derivations reaches that point
(`exists_reach_of_viable`).

Both need the end of input to stand at the end of what is derived only, which is what
`FlatGrammar.Closing` says.
-/

namespace Typeahead

/-! ## Where a match went wrong -/

namespace Failure

theorem lastOffset_nil (outcome : Outcome) (pos : Nat) : lastOffset ⟨outcome, pos, ""⟩ = pos := rfl

theorem lastOffset_concat (outcome : Outcome) (pos : Nat) (common : List Char) (c : Char) :
    lastOffset ⟨outcome, pos, String.ofList (common ++ [c])⟩ = pos + Text.byteLength common := by
  have hlength : Text.byteLength [c] = c.utf8Size := rfl
  simp only [lastOffset, Match.stop, Text.utf8ByteSize_ofList, Text.byteLength_append,
    String.toList_ofList, List.getLast?_concat, hlength]
  omega

theorem pos_le_lastOffset (m : Match) : m.pos ≤ lastOffset m := by
  obtain ⟨outcome, pos, text⟩ := m
  obtain ⟨cs, rfl⟩ : ∃ cs, text = String.ofList cs := ⟨text.toList, String.ofList_toList.symm⟩
  rcases List.eq_nil_or_concat' cs with rfl | ⟨common, c, rfl⟩
  · exact Nat.le_of_eq (lastOffset_nil outcome pos).symm
  · rw [lastOffset_concat]
    exact Nat.le_add_right ..

end Failure

/-- **A derivation that failed over a text** from the offset `pos` on: the part `reach` fits, and
`last`, if there is a character, is the one that does not. -/
structure Derivation.Stumbles (d : Derivation) (pos : Nat) (reach last : List Char) : Prop where
  stuck : ∃ m, d.stuck = some m ∧ m.outcome = .failed ∧
    Failure.lastOffset m = pos + Text.byteLength reach ∧
    m.stop = pos + Text.byteLength (reach ++ last) ∧ (m.text = "" ↔ last = [])
  last : last.length ≤ 1

/-- What was matched before is part of what fits. -/
theorem Derivation.Stumbles.shift {d : Derivation} {pos : Nat} {seen reach last : List Char}
    (h : d.Stumbles (pos + Text.byteLength seen) reach last) :
    d.Stumbles pos (seen ++ reach) last := by
  obtain ⟨⟨m, hstuck, hout, hoffset, hstop, htext⟩, hlast⟩ := h
  refine ⟨⟨m, hstuck, hout, ?_, ?_, htext⟩, hlast⟩
  · rw [hoffset, Text.byteLength_append, Nat.add_assoc]
  · rw [hstop, List.append_assoc, Text.byteLength_append seen, Nat.add_assoc]

/-- A derivation that was given up at a nonterminal. -/
def Derivation.IsCut (d : Derivation) : Prop := ∃ x, d.pending.head? = some (.nonterminal x)

/-! ## The end of input at the end -/

/-- The symbols that stand for the end of input, or have it at their end. -/
def Symbol.Closes (s : Symbol) : Prop :=
  s = .terminal .endOfInput ∨ s = .nonterminal SymbolTable.start

/-- After the end of input there is nothing but more of it. -/
def Closing (pending : List Symbol) : Prop :=
  pending.Pairwise fun s t => s.Closes → t = .terminal .endOfInput

/-- **The end of input is derived at the end only**, from the start symbol. -/
def FlatGrammar.Closing (g : FlatGrammar) : Prop :=
  ∀ p ∈ g.productions, Typeahead.Closing p.right ∧
    (p.left = SymbolTable.start ∨ ∀ s ∈ p.right, ¬ s.Closes)

theorem FlatGrammar.Closing.expand {g : FlatGrammar} (hg : g.Closing) {x : String}
    {pending : List Symbol} (h : Typeahead.Closing (.nonterminal x :: pending)) {p : Production}
    (hp : p ∈ g.alternatives x) : Typeahead.Closing (p.right ++ pending) := by
  obtain ⟨hmem, hleft⟩ := List.mem_filter.1 hp
  obtain rfl : p.left = x := by simpa using hleft
  obtain ⟨hafter, hpending⟩ := List.pairwise_cons.1 h
  obtain ⟨hright, hstart⟩ := hg p hmem
  refine List.pairwise_append.2 ⟨hright, hpending, fun s hs t ht hcloses => ?_⟩
  rcases hstart with hstart | hopen
  · exact hafter t ht (.inr (congrArg Symbol.nonterminal hstart))
  · exact absurd hcloses (hopen s hs)

theorem FlatGrammar.Closing.expand_pending {g : FlatGrammar} (hg : g.Closing) {b : Branch}
    (hclosing : Typeahead.Closing b.pending) {x : String} {pending : List Symbol}
    (hp : b.pending = .nonterminal x :: pending) {p : Production} (hmem : p ∈ g.alternatives x) :
    Typeahead.Closing (b.expand p).pending := by
  rw [Branch.expand_pending hp]
  rw [hp] at hclosing
  exact hg.expand hclosing hmem

namespace Branch

variable {g : FlatGrammar} {cfg : Config} {b : Branch}

/-- At the end of the input, any number of ends of input can be matched. -/
theorem exists_isComplete_of_closed (hrest : b.rest = [])
    (hpending : ∀ s ∈ b.pending, s = .terminal .endOfInput) :
    ∃ e ∈ b.ends g cfg, e.isComplete := by
  generalize hp : b.pending = pending at hpending
  induction pending generalizing b with
  | nil =>
    rw [ends_nil hp]
    exact ⟨_, List.mem_singleton_self _, by rw [Derivation.isComplete, leave, hp]; rfl⟩
  | cons s pending ih =>
    obtain ⟨rfl, hmore⟩ := List.forall_mem_cons.1 hpending
    have hscan : Terminal.endOfInput.scan b.rest b.rest.isEmpty = (.successful, []) := by
      rw [hrest]
      rfl
    rw [ends_accept hp hscan]
    exact ih (by rw [accept, hrest]; rfl) (accept_pending hp _ _) hmore

/-- A match that succeeds on the input succeeds on a part of the input that holds it. -/
theorem ends_accept_of_append {t : Terminal} {pending : List Symbol}
    {seen reach beyond : List Char} (hp : b.pending = .terminal t :: pending)
    (hrest : b.rest = seen ++ (reach ++ beyond))
    (hm : t.scan b.rest b.rest.isEmpty = (.successful, seen)) :
    ({ b with rest := seen ++ reach } : Branch).ends g cfg =
      ({ b.accept t seen with rest := reach } : Branch).ends g cfg := by
  have hscan : t.scan (seen ++ reach) (seen ++ reach).isEmpty = (.successful, seen) := by
    refine Terminal.scan_of_prefix (v := beyond) ?_ (List.prefix_append ..)
    rwa [hrest, ← List.append_assoc] at hm
  rw [ends_accept (b := { b with rest := seen ++ reach }) hp hscan]
  simp only [accept, List.drop_left]

/-- A branch whose leading terminal fails stumbles over it. -/
theorem exists_reach_of_stuck {t : Terminal} {pending : List Symbol} {seen : List Char}
    (hp : b.pending = .terminal t :: pending) (hclosing : Closing b.pending)
    (hm : t.scan b.rest b.rest.isEmpty = (.failed, seen)) :
    ∃ reach last, reach ++ last <+: b.rest ∧
      (b.stick ⟨.failed, b.pos, String.ofList seen⟩).Stumbles b.pos reach last ∧
      ∃ e ∈ ({ b with rest := reach } : Branch).ends g cfg,
        (e.isComplete ∨ e.ranOut) ∧ (last = [] → e.isComplete) := by
  rcases Terminal.scan_failed hm with ⟨rfl, rfl⟩ | ⟨common, c, rfl, hstarts, hend⟩
  · refine ⟨[], [], List.nil_prefix, ⟨⟨_, rfl, rfl, rfl, rfl, by simp⟩, by simp⟩, ?_⟩
    have hpending : ∀ s ∈ b.pending, s = .terminal .endOfInput := by
      rw [hp] at hclosing ⊢
      obtain ⟨hafter, -⟩ := List.pairwise_cons.1 hclosing
      exact List.forall_mem_cons.2 ⟨rfl, fun s hs => hafter s hs (.inl rfl)⟩
    obtain ⟨e, he, hc⟩ := exists_isComplete_of_closed (b := { b with rest := [] }) rfl hpending
    exact ⟨e, he, .inl hc, fun _ => hc⟩
  · refine ⟨common, [c], hstarts, ⟨⟨_, rfl, rfl, ?_, ?_, by simp⟩, by simp⟩, ?_⟩
    · exact Failure.lastOffset_concat ..
    · rw [Match.stop, Text.utf8ByteSize_ofList]
    · rcases hscan : t.scan common common.isEmpty with ⟨outcome, seen⟩
      obtain rfl : outcome = .endOfInput := by rwa [hscan] at hend
      rw [ends_stuck (b := { b with rest := common }) hp hscan (by simp)]
      exact ⟨_, List.mem_singleton_self _, .inr rfl, by simp⟩

/-- **A failed derivation, cut off where it fails**, is complete or runs out of input; it is
complete if what it fails on is the end of input. -/
theorem exists_reach (hg : g.Closing) {d : Derivation} (hd : d ∈ b.ends g cfg)
    (hfailed : ¬ d.isComplete ∧ ¬ d.ranOut ∧ ¬ d.IsCut) (hclosing : Closing b.pending) :
    ∃ reach last, reach ++ last <+: b.rest ∧ d.Stumbles b.pos reach last ∧
      ∃ e ∈ ({ b with rest := reach } : Branch).ends g cfg,
        (e.isComplete ∨ e.ranOut) ∧ (last = [] → e.isComplete) := by
  obtain ⟨hcomplete, hran, hcut⟩ := hfailed
  fun_induction ends g cfg b with
  | case1 b hp =>
    obtain rfl := List.mem_singleton.1 hd
    simp [Derivation.isComplete, leave, hp] at hcomplete
  | case2 b t pending hp seen hm ih =>
    have hclosing' : Closing (b.accept t seen).pending := by
      rw [accept_pending hp]
      rw [hp] at hclosing
      exact (List.pairwise_cons.1 hclosing).2
    obtain ⟨reach, last, ⟨beyond, hbeyond⟩, hstumbles, e, he, hend⟩ := ih hd hclosing'
    obtain ⟨more, hmore⟩ := Terminal.scan_successful hm
    have hrest : b.rest = seen ++ (reach ++ (last ++ beyond)) := by
      rw [← hmore, ← List.append_assoc reach, hbeyond, accept, ← hmore, List.drop_left]
    refine ⟨seen ++ reach, last, ⟨beyond, ?_⟩, hstumbles.shift, e, ?_, hend⟩
    · simp only [hrest, List.append_assoc]
    · rwa [ends_accept_of_append hp hrest hm]
  | case3 b t pending hp outcome seen hne hm =>
    obtain rfl := List.mem_singleton.1 hd
    have hstuck := Terminal.scan_isStuck hm hne
    obtain rfl : outcome = .failed := by
      cases outcome <;> simp_all [Derivation.ranOut, stick, Outcome.isStuck]
    exact exists_reach_of_stuck hp hclosing hm
  | case4 b x pending hp | case6 b x pending hp =>
    obtain rfl := List.mem_singleton.1 hd
    exact absurd ⟨x, by rw [stick, hp]; rfl⟩ hcut
  | case5 b x pending hp hidle halt ih =>
    obtain ⟨p, hmem, hdp⟩ := List.mem_flatMap.1 hd
    obtain ⟨reach, last, hstarts, hstumbles, e, he, hend⟩ :=
      ih p hdp (hg.expand_pending hclosing hp hmem)
    refine ⟨reach, last, hstarts, hstumbles, e, ?_, hend⟩
    rw [ends_expand (b := { b with rest := reach }) hp hidle halt]
    exact List.mem_flatMap.2 ⟨p, hmem, he⟩

theorem pos_le_of_mem_ends {d : Derivation} (hd : d ∈ b.ends g cfg) {m : Match}
    (hm : d.stuck = some m) : b.pos ≤ Failure.lastOffset m := by
  fun_induction ends g cfg b with
  | case1 b hp =>
    obtain rfl := List.mem_singleton.1 hd
    cases hm
  | case2 b t pending hp seen hscan ih => exact Nat.le_trans (Nat.le_add_right ..) (ih hd)
  | case3 b | case4 b | case6 b =>
    obtain rfl := List.mem_singleton.1 hd
    obtain rfl := Option.some.inj hm
    exact Failure.pos_le_lastOffset ⟨_, b.pos, _⟩
  | case5 b x pending hp hidle halt ih =>
    obtain ⟨p, -, hdp⟩ := List.mem_flatMap.1 hd
    exact ih p hdp

section

variable {v : List Char} (hfailed : ∀ d ∈ ({ b with rest := b.rest ++ v } : Branch).ends g cfg,
  ¬ d.isComplete ∧ ¬ d.ranOut)

include hfailed

/-- The end of input is not reached if more follows. -/
theorem exists_reach_of_endOfInput {pending : List Symbol} {seen : List Char} {e : Derivation}
    (hp : b.pending = .terminal .endOfInput :: pending)
    (he : e ∈ (b.accept .endOfInput seen).ends g cfg)
    (hm : Terminal.endOfInput.scan b.rest b.rest.isEmpty = (.successful, seen))
    (hviable : e.isComplete ∨ e.ranOut) :
    ∃ d ∈ ({ b with rest := b.rest ++ v } : Branch).ends g cfg, ∃ m, d.stuck = some m ∧
      b.pos + Text.byteLength b.rest ≤ Failure.lastOffset m := by
  have hrest : b.rest = [] := by
    cases hcs : b.rest with
    | nil => rfl
    | cons c cs =>
      rw [hcs] at hm
      cases hm
  rcases v with _ | ⟨c, v⟩
  · -- nothing was cut off, so `e` would be an end of the whole
    rw [List.append_nil] at hfailed
    rw [ends_accept (b := b) hp hm] at hfailed
    exact absurd (hfailed e he) (by tauto)
  · have hscan : Terminal.endOfInput.scan (b.rest ++ c :: v) (b.rest ++ c :: v).isEmpty =
        (.failed, []) := by
      rw [hrest]
      rfl
    rw [ends_stuck (b := { b with rest := b.rest ++ c :: v }) hp hscan (by simp)]
    refine ⟨_, List.mem_singleton_self _, _, rfl, ?_⟩
    rw [hrest]
    exact Failure.pos_le_lastOffset ⟨_, b.pos, _⟩

/-- Where a terminal ran out of input, it goes on, or it fails later. -/
theorem exists_reach_of_ranOut {t : Terminal} {pending : List Symbol}
    (hp : b.pending = .terminal t :: pending)
    (hran : (t.scan b.rest b.rest.isEmpty).1 = .endOfInput) :
    ∃ d ∈ ({ b with rest := b.rest ++ v } : Branch).ends g cfg, ∃ m, d.stuck = some m ∧
      b.pos + Text.byteLength b.rest ≤ Failure.lastOffset m := by
  rcases hscan : t.scan (b.rest ++ v) (b.rest ++ v).isEmpty with ⟨outcome, seen⟩
  rcases Terminal.scan_beyond hran hscan with
    rfl | ⟨rfl, hstarts⟩ | ⟨rfl, common, c, rfl, hstarts⟩
  · rw [ends_stuck (b := { b with rest := b.rest ++ v }) hp hscan (by simp)] at hfailed
    exact absurd rfl (hfailed _ (List.mem_singleton_self _)).2
  · -- any end of what follows is beyond the part that ran out
    rw [ends_accept (b := { b with rest := b.rest ++ v }) hp hscan] at hfailed ⊢
    have hne : (({ b with rest := b.rest ++ v } : Branch).accept t seen).ends g cfg ≠ [] :=
      ends_ne_nil
    obtain ⟨d, hd⟩ := List.exists_mem_of_ne_nil _ hne
    obtain ⟨m, hstuck, -⟩ := (ended_of_mem_ends hd).stuck_of_not_isComplete (hfailed d hd).1
    refine ⟨d, hd, m, hstuck, Nat.le_trans ?_ (pos_le_of_mem_ends hd hstuck)⟩
    exact Nat.add_le_add_left (Text.byteLength_le_of_prefix hstarts) _
  · rw [ends_stuck (b := { b with rest := b.rest ++ v }) hp hscan (by simp)]
    refine ⟨_, List.mem_singleton_self _, _, rfl, ?_⟩
    rw [Failure.lastOffset_concat]
    exact Nat.add_le_add_left (Text.byteLength_le_of_prefix hstarts) _

/-- **A derivation of the input reaches every point** up to which the input is the beginning of
something, if the input as a whole is not. -/
theorem exists_reach_of_viable {e : Derivation} (he : e ∈ b.ends g cfg)
    (hviable : e.isComplete ∨ e.ranOut) :
    ∃ d ∈ ({ b with rest := b.rest ++ v } : Branch).ends g cfg, ∃ m, d.stuck = some m ∧
      b.pos + Text.byteLength b.rest ≤ Failure.lastOffset m := by
  fun_induction ends g cfg b with
  | case1 b hp =>
    rw [ends_nil (b := { b with rest := b.rest ++ v }) hp] at hfailed
    have hleave := (hfailed _ (List.mem_singleton_self _)).1
    simp [Derivation.isComplete, leave, hp] at hleave
  | case2 b t pending hp seen hm ih =>
    by_cases ht : t = .endOfInput
    · subst ht
      exact exists_reach_of_endOfInput hfailed hp he hm hviable
    · have hscan := Terminal.scan_append_right hm ht v
      obtain ⟨more, hmore⟩ := Terminal.scan_successful hm
      rw [ends_accept (b := { b with rest := b.rest ++ v }) hp hscan] at hfailed ⊢
      have hdrop : (b.rest ++ v).drop seen.length = (b.accept t seen).rest ++ v := by
        rw [accept, ← hmore, List.append_assoc, List.drop_left, List.drop_left]
      simp only [accept, hdrop] at hfailed ⊢
      obtain ⟨d, hd, m, hstuck, hreach⟩ := ih hfailed he
      refine ⟨d, hd, m, hstuck, Nat.le_trans (Nat.le_of_eq ?_) hreach⟩
      rw [accept, ← hmore, List.drop_left, Text.byteLength_append, Nat.add_assoc]
  | case3 b t pending hp outcome seen hne hm =>
    obtain rfl := List.mem_singleton.1 he
    obtain rfl : outcome = .endOfInput := by
      simpa [Derivation.isComplete, Derivation.ranOut, stick, hp] using hviable
    exact exists_reach_of_ranOut hfailed hp (by rw [hm])
  | case4 b x pending hp | case6 b x pending hp =>
    obtain rfl := List.mem_singleton.1 he
    simp [Derivation.isComplete, Derivation.ranOut, stick, hp] at hviable
  | case5 b x pending hp hidle halt ih =>
    rw [ends_expand (b := { b with rest := b.rest ++ v }) hp hidle halt] at hfailed ⊢
    obtain ⟨p, hmem, hep⟩ := List.mem_flatMap.1 he
    obtain ⟨d, hd, hreach⟩ := ih p (fun d hd => hfailed d (List.mem_flatMap.2 ⟨p, hmem, hd⟩)) hep
    exact ⟨d, List.mem_flatMap.2 ⟨p, hmem, hd⟩, hreach⟩

end

end Branch

end Typeahead
