import Typeahead.Proofs.Rule.Meaning

/-!
# Proofs/FlatGrammar/Forms — the forms of a rule's productions, and how each is shaped

The productions of a repetition come in two forms: one more child in front of the nonterminal
itself, or a number of children side by side (`Sides.Iterates`).  A join has such a nonterminal for
its tail, and others around it (`Join.Form`).  With each form goes the way its nodes are shaped.

`lower_shapes` says that lowering a rule adds productions of its forms only.  A rule that is the
only one of its target shares none of its nonterminals with other rules, so in a compiled grammar
all of their productions have the forms of the rule (`Grammar.exists_lowered_of_compile`).
-/

namespace Typeahead

/-! ## Numbers of entries -/

/-- **How many entries a kind of rule admits.**  Sequences and choices have no entries. -/
def RuleKind.Admits : RuleKind → Nat → Prop
  | .optional, n => n ≤ 1
  | .star, _ => True
  | .plus, n => 1 ≤ n
  | .repetition least most, n => least ≤ n ∧ n ≤ most
  | .join j, n => j.count.Admits n
  | .sequence, _ | .choice, _ => False

/-- How many entries of a join may follow the first one, if they all come from its tail. -/
def Join.TailAdmits (j : Join) (n : Nat) : Prop :=
  j.count.upper = Count.limit ∨ j.count.Admits (n + 1)

theorem Join.TailAdmits.admits {j : Join} {n : Nat} (h : j.TailAdmits n)
    (hlower : j.count.upper = Count.limit → j.count.lower ≤ 1) : j.count.Admits (n + 1) := by
  rcases h with hlimit | h
  · exact ⟨(hlower hlimit).trans (Nat.le_add_left 1 n), .inl hlimit⟩
  · exact h

/-! ## Forms -/

/-- **The productions of a repetition** of `child` by the nonterminal `x`. -/
inductive Sides.Iterates (x : String) (child : Symbol) (admits : Nat → Prop) :
    Sides → Shaping → Prop
  | more (h : ∀ n, admits n → admits (n + 1)) :
    Iterates x child admits ⟨x, [child, .nonterminal x]⟩ .entryAndTail
  | exactly (n : Nat) (h : admits n) : Iterates x child admits ⟨x, List.replicate n child⟩ .keep

/-- **The productions of a join.** -/
inductive Join.Form (j : Join) (a : Auxiliaries) (target : String) (entry : Symbol) :
    Sides → Shaping → Prop
  | delimited {delimiter : Symbol} (h : j.delimiter = some delimiter) :
    Form j a target entry ⟨a.next, [delimiter, entry]⟩ (if j.entriesOnly then .second else .keep)
  | following (h : j.delimiter = none) : Form j a target entry ⟨a.next, [entry]⟩ .keep
  | nothing (h : j.count.Admits 0) : Form j a target entry ⟨a.repetition, []⟩ .keep
  | alone (h : j.count.Admits 1) : Form j a target entry ⟨a.repetition, [entry]⟩ .keep
  | tail (h : j.count.upper = Count.limit → j.count.lower ≤ 1) :
    Form j a target entry ⟨a.repetition, [entry, .nonterminal a.tail]⟩ .headed
  | rest (h : j.count.upper = Count.limit) :
    Form j a target entry ⟨a.repetition, [entry, .nonterminal a.rest]⟩ .headed
  | spread : Form j a target entry ⟨a.rest,
      List.replicate (j.count.lower - 1) (.nonterminal a.next) ++ [.nonterminal a.tail]⟩ .spreadLast
  | iterated {s : Sides} {shaping : Shaping}
    (h : s.Iterates a.tail (.nonterminal a.next) j.TailAdmits shaping) :
    Form j a target entry s shaping
  | bracketed {opening closing : Symbol} (hopening : j.opening = some opening)
    (hclosing : j.closing = some closing) :
    Form j a target entry ⟨target, [opening, .nonterminal a.repetition, closing]⟩
      (.bracketed (!j.entriesOnly))
  | wrapped (hopening : j.opening = none) (hclosing : j.closing = none) :
    Form j a target entry ⟨target, [.nonterminal a.repetition]⟩ .wrapped

/-- **The productions of a rule.**  Sequences and choices only have their target in common. -/
def Rule.Form (r : Rule) (a : Auxiliaries) (s : Sides) (shaping : Shaping) : Prop :=
  match r.kind, r.children.head? with
  | .sequence, _ | .choice, _ => s.left = r.target
  | .join j, some entry => j.Form a r.target entry s shaping
  | kind, some child => s.Iterates r.target child kind.Admits shaping
  | _, none => False

/-- A kind of rule that leaves nothing but entries below its nodes. -/
def RuleKind.Flattens : RuleKind → Prop
  | .sequence | .choice => False
  | .join j => j.entriesOnly = true
  | .optional | .star | .plus | .repetition _ _ => True

section

variable {r : Rule} {a : Auxiliaries} {s : Sides} {shaping : Shaping}

theorem Rule.form_of_join {j : Join} (hj : r.kind = .join j) : r.Form a s shaping ↔
    ∃ entry, r.children.head? = some entry ∧ j.Form a r.target entry s shaping := by
  rcases hhead : r.children.head? with _ | entry <;> simp [Form, hj, hhead]

theorem Rule.form_of_ne_join (hj : ∀ j, r.kind ≠ .join j) (hkind : r.kind.Flattens) :
    r.Form a s shaping ↔
      ∃ child, r.children.head? = some child ∧ s.Iterates r.target child r.kind.Admits shaping := by
  rcases hkind' : r.kind with _ | _ | _ | _ | _ | _ | j
  · rw [hkind'] at hkind
    exact hkind.elim
  · rw [hkind'] at hkind
    exact hkind.elim
  · rcases hhead : r.children.head? with _ | child <;> simp [Form, hkind', hhead]
  · rcases hhead : r.children.head? with _ | child <;> simp [Form, hkind', hhead]
  · rcases hhead : r.children.head? with _ | child <;> simp [Form, hkind', hhead]
  · rcases hhead : r.children.head? with _ | child <;> simp [Form, hkind', hhead]
  · exact absurd hkind' (hj j)

/-- What a rule has productions for. -/
theorem Rule.Form.left (h : r.Form a s shaping) : s.left = r.target ∨ s.left ∈ a.names := by
  unfold Form at h
  split at h
  · exact .inl h
  · exact .inl h
  · cases h with
    | iterated h => cases h <;> simp
    | _ => simp
  · cases h <;> exact .inl rfl
  · exact h.elim

end

/-! ### By the left side -/

theorem Sides.Iterates.elim {s : Sides} {x : String} {child : Symbol} {admits : Nat → Prop}
    {shaping : Shaping} (h : s.Iterates x child admits shaping) :
    (s.right = [child, .nonterminal x] ∧ shaping = .entryAndTail ∧
      ∀ n, admits n → admits (n + 1)) ∨
    ∃ n, s.right = List.replicate n child ∧ shaping = .keep ∧ admits n := by
  cases h with
  | more h => exact .inl ⟨rfl, rfl, h⟩
  | exactly n h => exact .inr ⟨n, rfl, rfl, h⟩

section

variable {j : Join} {a : Auxiliaries} {target : String} {entry : Symbol} {s : Sides}
  {shaping : Shaping}

theorem Join.Form.of_next (h : j.Form a target entry s shaping)
    (hnodup : (target :: a.names).Nodup) (hleft : s.left = a.next) :
    (∃ delimiter, j.delimiter = some delimiter ∧ s.right = [delimiter, entry] ∧
      shaping = if j.entriesOnly then .second else .keep) ∨
    j.delimiter = none ∧ s.right = [entry] ∧ shaping = .keep := by
  simp only [List.nodup_cons, List.mem_cons, not_or, List.not_mem_nil, or_false] at hnodup
  cases h with
  | delimited h => exact .inl ⟨_, h, rfl, rfl⟩
  | following h => exact .inr ⟨h, rfl, rfl⟩
  | iterated h => cases h <;> simp_all
  | _ => simp_all

theorem Join.Form.of_tail (h : j.Form a target entry s shaping)
    (hnodup : (target :: a.names).Nodup) (hleft : s.left = a.tail) :
    s.Iterates a.tail (.nonterminal a.next) j.TailAdmits shaping := by
  simp only [List.nodup_cons, List.mem_cons, not_or, List.not_mem_nil, or_false] at hnodup
  cases h with
  | iterated h => exact h
  | _ => simp_all

theorem Join.Form.of_rest (h : j.Form a target entry s shaping)
    (hnodup : (target :: a.names).Nodup) (hleft : s.left = a.rest) :
    s.right = List.replicate (j.count.lower - 1) (.nonterminal a.next) ++ [.nonterminal a.tail] ∧
      shaping = .spreadLast := by
  simp only [List.nodup_cons, List.mem_cons, not_or, List.not_mem_nil, or_false] at hnodup
  cases h with
  | spread => exact ⟨rfl, rfl⟩
  | iterated h => cases h <;> simp_all
  | _ => simp_all

theorem Join.Form.of_repetition (h : j.Form a target entry s shaping)
    (hnodup : (target :: a.names).Nodup) (hleft : s.left = a.repetition) :
    (s.right = [] ∧ shaping = .keep ∧ j.count.Admits 0) ∨
    (s.right = [entry] ∧ shaping = .keep ∧ j.count.Admits 1) ∨
    (s.right = [entry, .nonterminal a.tail] ∧ shaping = .headed ∧
      (j.count.upper = Count.limit → j.count.lower ≤ 1)) ∨
    s.right = [entry, .nonterminal a.rest] ∧ shaping = .headed ∧ j.count.upper = Count.limit := by
  simp only [List.nodup_cons, List.mem_cons, not_or, List.not_mem_nil, or_false] at hnodup
  cases h with
  | nothing h => exact .inl ⟨rfl, rfl, h⟩
  | alone h => exact .inr (.inl ⟨rfl, rfl, h⟩)
  | tail h => exact .inr (.inr (.inl ⟨rfl, rfl, h⟩))
  | rest h => exact .inr (.inr (.inr ⟨rfl, rfl, h⟩))
  | iterated h => cases h <;> simp_all
  | _ => simp_all

theorem Join.Form.of_target (h : j.Form a target entry s shaping)
    (hnodup : (target :: a.names).Nodup) (hleft : s.left = target) :
    (∃ opening closing, j.opening = some opening ∧ j.closing = some closing ∧
      s.right = [opening, .nonterminal a.repetition, closing] ∧
      shaping = .bracketed (!j.entriesOnly)) ∨
    j.opening = none ∧ j.closing = none ∧ s.right = [.nonterminal a.repetition] ∧
      shaping = .wrapped := by
  simp only [List.nodup_cons, List.mem_cons, not_or, List.not_mem_nil, or_false] at hnodup
  cases h with
  | bracketed hopening hclosing => exact .inl ⟨_, _, hopening, hclosing, rfl, rfl⟩
  | wrapped hopening hclosing => exact .inr ⟨hopening, hclosing, rfl, rfl⟩
  | iterated h => cases h <;> simp_all
  | _ => simp_all

end

/-! ## The forms of drafts -/

section

variable {a : Auxiliaries} {target : String} {entry : Symbol} {names : ChildNames} {d : Draft}

theorem iterates_of_mem_starDrafts {rule : Nat} {x : String} {admits : Nat → Prop}
    (hadmits : ∀ n, admits n) :
    ∀ d ∈ starDrafts rule x entry names, d.sides.Iterates x entry admits d.shaping :=
  List.forall_mem_cons.2 ⟨.more fun n _ => hadmits (n + 1),
    List.forall_mem_singleton.2 (.exactly 0 (hadmits 0))⟩

theorem Join.form_of_mem_entryDrafts {j : Join} (hcount : j.count.lower ≤ j.count.upper)
    {rule helper : Nat} : ∀ d ∈ a.entryDrafts rule entry names helper j.count,
      j.Form a target entry d.sides d.shaping := by
  intro d hd
  cases Auxiliaries.asks_of_mem_entryDrafts d hd with
  | nothing hlower => exact .nothing ⟨Nat.le_of_eq hlower, .inr (Nat.zero_le _)⟩
  | alone hupper => exact .alone ⟨hupper ▸ hcount, .inr (Nat.le_of_eq hupper.symm)⟩
  | star hlimit hd => exact .iterated (iterates_of_mem_starDrafts (fun _ => .inl hlimit) d hd)
  | copies hupper hlimit hleast hmost =>
    refine .iterated (.exactly _ (.inr ⟨Nat.sub_le_iff_le_add.1 hleast, .inr ?_⟩))
    omega
  | tail hupper hlower => exact .tail hlower
  | spread hlimit hlower => exact .spread
  | rest hlimit hlower => exact .rest hlimit

theorem Join.form_of_mem_drafts {j : Join} (hcount : j.count.lower ≤ j.count.upper)
    (hj : j.opening.isSome = j.closing.isSome) {rule : Nat}
    (hd : d ∈ j.drafts rule target entry names a) : j.Form a target entry d.sides d.shaping := by
  rw [drafts, List.mem_cons, List.mem_append, List.mem_singleton] at hd
  rcases hd with rfl | hd | rfl
  · rw [nextDraft]
    split
    next hdelimiter => exact .delimited hdelimiter
    next hdelimiter => exact .following hdelimiter
  · exact form_of_mem_entryDrafts hcount d hd
  · -- the brackets come together or not at all
    rw [wholeDraft]
    rcases hopening : j.opening with _ | opening
    · exact .wrapped hopening (by simpa [hopening] using hj)
    · obtain ⟨closing, hclosing⟩ : ∃ closing, j.closing = some closing := by
        simpa [hopening, Option.isSome_iff_exists] using hj.symm
      rw [hclosing]
      exact .bracketed hopening hclosing

/-- **The drafts of a rule** have its forms. -/
theorem Rule.form_of_mem_drafts {r : Rule} {i : Nat}
    (hr : ∀ j, r.kind = .join j →
      j.opening.isSome = j.closing.isSome ∧ j.count.lower ≤ j.count.upper)
    (hd : d ∈ r.drafts i a) : r.Form a d.sides d.shaping := by
  obtain ⟨⟨kind, target, children, names⟩, evaluator, completer, listener⟩ := r
  cases kind with
  | sequence =>
    obtain rfl := List.mem_singleton.1 hd
    exact rfl
  | choice =>
    obtain ⟨o, -, rfl⟩ := List.mem_map.1 hd
    exact rfl
  | optional =>
    rcases children with _ | ⟨s, _⟩
    · cases hd
    · rcases List.mem_cons.1 hd with rfl | hd
      · exact .exactly 1 (Nat.le_refl 1)
      · obtain rfl := List.mem_singleton.1 hd
        exact .exactly 0 (Nat.zero_le 1)
  | star =>
    rcases children with _ | ⟨s, _⟩
    · cases hd
    · exact iterates_of_mem_starDrafts (fun _ => trivial) d hd
  | plus =>
    rcases children with _ | ⟨s, _⟩
    · cases hd
    · rcases List.mem_cons.1 hd with rfl | hd
      · exact .more fun n hn => Nat.le_succ_of_le hn
      · obtain rfl := List.mem_singleton.1 hd
        exact .exactly 1 (Nat.le_refl 1)
  | repetition least most =>
    rcases children with _ | ⟨s, _⟩
    · cases hd
    · exact forall_mem_repetitionDrafts (P := fun d => d.sides.Iterates target s _ d.shaping)
        (fun n hleast hmost => .exactly n ⟨hleast, hmost⟩) d hd
  | join j =>
    rcases children with _ | ⟨entry, _⟩
    · cases hd
    · obtain ⟨hbalanced, hcount⟩ := hr j rfl
      exact Join.form_of_mem_drafts hcount hbalanced hd

end

/-! ## Lowering a rule -/

namespace FlatGrammar

/-- The sides and the shaping of every production satisfy `P`. -/
def Shapes (g : FlatGrammar) (P : Sides → Shaping → Prop) : Prop :=
  ∀ q ∈ g.productions, P ⟨q.left, q.right⟩ q.shaping

variable {g g' : FlatGrammar} {P : Sides → Shaping → Prop}

/-- **A production that is added again** is shaped as before or as the new one. -/
theorem Shapes.draw (h : g.Shapes P) {d : Draft} (hP : P d.sides.bare d.shaping) :
    (g.draw d).Shapes P := by
  intro q hq
  rcases mem_draw hq with hq | ⟨p, hp, hsides, rfl⟩ | rfl
  · exact h q hq
  · -- asking once more changes the shaping only where there is one to give
    dsimp only [Production.redrawn]
    split
    · exact h p hp
    · rwa [hsides]
  · exact hP

theorem Shapes.foldl_draw (h : g.Shapes P) {ds : List Draft}
    (hP : ∀ d ∈ ds, P d.sides.bare d.shaping) : (ds.foldl FlatGrammar.draw g).Shapes P := by
  induction ds generalizing g with
  | nil => exact h
  | cons d ds ih =>
    obtain ⟨hd, hds⟩ := List.forall_mem_cons.1 hP
    exact ih (h.draw hd) hds

/-- **Lowering a rule** adds productions of its forms. -/
theorem lower_shapes {r : Rule} (h : g.lower r = .ok g') :
    ∃ a : Auxiliaries, a.Fresh g.symbols ∧ ∀ P, g.Shapes P →
      (∀ s shaping, r.Form a s shaping → P s.bare shaping) → g'.Shapes P := by
  obtain ⟨a, ha, hmakes⟩ := lower_makes h
  refine ⟨a, ha, fun P hg hP q hq => ?_⟩
  rw [hmakes.productions] at hq
  exact hg.foldl_draw (fun d hd => hP _ _ (Rule.form_of_mem_drafts (fun _ => lower_join h) hd)) q hq

end FlatGrammar

end Typeahead
