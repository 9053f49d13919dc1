import Typeahead.Proofs.Search.Reach

/-!
# Proofs/Search/Cutoff — the input in front of a terminal that does not match

A derivation that is stuck on a terminal came to it by a branch (`Branch.Stops`), and everything it
matched on the way lies in front of that terminal.  So the input cut off there takes a branch the
same way, and what is pending meets the end of the input (`exists_stops`).  No terminal fails there,
and the derivation that failed on the whole input is complete or runs out of the part in front
(`exists_end_of_cutoff`).
-/

namespace Typeahead

namespace Branch

variable {g : FlatGrammar} {cfg : Config} {b : Branch} {d : Derivation} {t : Terminal} {m : Match}

/-- **The branch `c` is where `b` stops** on the way to `d`, in front of a terminal `t` that matches
with `m`; `before` is what it has read. -/
structure Stops (g : FlatGrammar) (cfg : Config) (b : Branch) (d : Derivation) (t : Terminal)
    (m : Match) (before : List Char) (c : Branch) : Prop where
  rest : b.rest = before ++ c.rest
  pos : m.pos = b.pos + Text.byteLength before
  pending : c.pending = d.pending
  scan : t.scan c.rest c.rest.isEmpty = (m.outcome, m.text.toList)
  stuck : m.outcome.isStuck = true
  closing : g.Closing → Closing b.pending → Closing c.pending
  ends : ∀ e ∈ ({ c with rest := [] } : Branch).ends g cfg,
    e ∈ ({ b with rest := before } : Branch).ends g cfg

/-- A terminal that does not match stops its branch. -/
theorem stops_stick {outcome : Outcome} {seen : List Char}
    (hm : t.scan b.rest b.rest.isEmpty = (outcome, seen)) (hne : outcome ≠ .successful) :
    b.Stops g cfg (b.stick ⟨outcome, b.pos, String.ofList seen⟩) t
      ⟨outcome, b.pos, String.ofList seen⟩ [] b where
  rest := rfl
  pos := rfl
  pending := rfl
  scan := by rw [hm, String.toList_ofList]
  stuck := Terminal.scan_isStuck hm hne
  closing _ h := h
  ends _ he := he

/-- What is matched on the way is read before the stop. -/
theorem Stops.accept {u : Terminal} {pending : List Symbol} {seen before : List Char} {c : Branch}
    (hp : b.pending = .terminal u :: pending)
    (hm : u.scan b.rest b.rest.isEmpty = (.successful, seen))
    (h : (b.accept u seen).Stops g cfg d t m before c) : b.Stops g cfg d t m (seen ++ before) c := by
  obtain ⟨more, hmore⟩ := Terminal.scan_successful hm
  have hrest : b.rest = seen ++ (before ++ c.rest) := by
    rw [← h.rest, Branch.accept, ← hmore, List.drop_left]
  refine { h with rest := ?_, pos := ?_, closing := fun hg hb => h.closing hg ?_, ends := ?_ }
  · rw [hrest, List.append_assoc]
  · rw [h.pos, Branch.accept, Text.byteLength_append, Nat.add_assoc]
  · rw [hp] at hb
    rw [accept_pending hp]
    exact (List.pairwise_cons.1 hb).2
  · intro e he
    rw [ends_accept_of_append hp hrest hm]
    exact h.ends e he

/-- An expansion reads nothing. -/
theorem Stops.expand {x : String} {p : Production} {pending : List Symbol} {before : List Char}
    {c : Branch} (hp : b.pending = .nonterminal x :: pending) (hidle : b.idle < cfg.maxDepth)
    (hmem : p ∈ g.alternatives x) (h : (b.expand p).Stops g cfg d t m before c) :
    b.Stops g cfg d t m before c := by
  refine { h with closing := fun hg hb => h.closing hg ?_, ends := fun e he => ?_ }
  · rw [hp] at hb
    rw [expand_pending hp]
    exact hg.expand hb hmem
  · rw [ends_expand (b := { b with rest := before }) hp hidle (List.ne_nil_of_mem hmem)]
    exact List.mem_flatMap.2 ⟨p, hmem, h.ends e he⟩

/-- **A derivation that is stuck on a terminal** came to it by a branch. -/
theorem exists_stops (hd : d ∈ b.ends g cfg) (hstuck : d.StuckOn (.terminal t) m) :
    ∃ before c, b.Stops g cfg d t m before c := by
  fun_induction ends g cfg b with
  | case1 b hp =>
    obtain rfl := List.mem_singleton.1 hd
    cases hstuck.2
  | case2 b u pending hp seen hm ih =>
    obtain ⟨before, c, h⟩ := ih hd
    exact ⟨seen ++ before, c, h.accept hp hm⟩
  | case3 b u pending hp outcome seen hne hm =>
    obtain rfl := List.mem_singleton.1 hd
    obtain ⟨hhead, hresult⟩ := hstuck
    obtain rfl := Option.some.inj hresult
    rw [stick, hp] at hhead
    obtain rfl := Symbol.terminal.inj (Option.some.inj hhead)
    exact ⟨[], b, stops_stick hm hne⟩
  | case4 b x pending hp | case6 b x pending hp =>
    obtain rfl := List.mem_singleton.1 hd
    obtain ⟨hhead, -⟩ := hstuck
    rw [stick, hp] at hhead
    cases hhead
  | case5 b x pending hp hidle halt ih =>
    obtain ⟨p, hmem, hdp⟩ := List.mem_flatMap.1 hd
    obtain ⟨before, c, h⟩ := ih p hdp
    exact ⟨before, c, h.expand hp hidle hmem⟩

/-- **At the end of the input no terminal fails**: the end of input is followed by more of it, and
any other terminal that would match nothing has matched nothing before. -/
theorem exists_end_of_terminal {pending : List Symbol} {seen : List Char}
    (hp : b.pending = .terminal t :: pending) (hclosing : Closing b.pending)
    (hm : t.scan b.rest b.rest.isEmpty = (.failed, seen)) :
    ∃ e ∈ ({ b with rest := [] } : Branch).ends g cfg, e.isComplete ∨ e.ranOut := by
  rcases hscan : t.scan [] true with ⟨outcome, nothing⟩
  have hout := t.scan_nil
  rw [hscan] at hout
  rcases hout with rfl | rfl
  · by_cases ht : t = .endOfInput
    · subst ht
      rw [hp] at hclosing
      have hpending : ∀ s ∈ b.pending, s = .terminal .endOfInput := by
        rw [hp]
        exact List.forall_mem_cons.2
          ⟨rfl, fun s hs => (List.pairwise_cons.1 hclosing).1 s hs (.inl rfl)⟩
      obtain ⟨e, he, hc⟩ := exists_isComplete_of_closed (b := { b with rest := [] }) rfl hpending
      exact ⟨e, he, .inl hc⟩
    · have hall := Terminal.scan_append_right hscan ht b.rest
      rw [List.nil_append, hm] at hall
      cases hall
  · rw [ends_stuck (b := { b with rest := [] }) hp hscan (by simp)]
    exact ⟨_, List.mem_singleton_self _, .inr rfl⟩

/-- **The input in front of a terminal that failed** does not fail. -/
theorem exists_end_of_cutoff (hg : g.Closing) (hclosing : Closing b.pending)
    (hd : d ∈ b.ends g cfg) (hstuck : d.StuckOn (.terminal t) m) (hout : m.outcome = .failed) :
    ∃ before, before <+: b.rest ∧ m.pos = b.pos + Text.byteLength before ∧
      ∃ e ∈ ({ b with rest := before } : Branch).ends g cfg, e.isComplete ∨ e.ranOut := by
  obtain ⟨before, c, h⟩ := exists_stops hd hstuck
  obtain ⟨pending, hp⟩ : ∃ pending, c.pending = .terminal t :: pending := by
    rw [h.pending]
    exact List.head?_eq_some_iff.1 hstuck.1
  have hscan : t.scan c.rest c.rest.isEmpty = (.failed, m.text.toList) := hout ▸ h.scan
  obtain ⟨e, he, hend⟩ := exists_end_of_terminal hp (h.closing hg hclosing) hscan
  exact ⟨before, h.rest ▸ List.prefix_append .., h.pos, e, h.ends e he, hend⟩

end Branch

end Typeahead
