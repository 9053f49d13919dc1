import Typeahead.Proofs.Grammar.Lowered

/-!
# Proofs/Grammar/Dropped — which nodes a production drops

The rule of a join may want its entries only.  Then the brackets and delimiters are left out of the
finished tree; `Rule.jointPlaces` says where they stand below a node.  Everything else that a shaping
leaves out is a node of a nonterminal whose children stay (`FlatGrammar.Drops`).  What is below the
tail of a join is gathered across two levels, which is why nothing but nonterminals may be among the
children of such a tail (`FlatGrammar.Folds`).

The productions that a join asks for drop its joints only (`Join.Form.drops`).  Rules of other kinds
ask for shapings that drop no terminal at all (`Rule.isPlain_of_mem_drafts`).
-/

namespace Typeahead

/-! ## What is dropped -/

/-- **The places of brackets and delimiters** that a rule leaves out, below a node of a production
with these sides. -/
def Rule.jointPlaces (r : Rule) (s : Sides) : List Nat :=
  match r.kind with
  | .join j =>
    if !j.entriesOnly then []
    else if s.left = r.target then
      if j.opening.isSome then [0, 2] else []
    else match j.delimiter, r.children.head? with
      | some delimiter, some entry => if s.right = [delimiter, entry] then [0] else []
      | _, _ => []
  | _ => []

theorem Rule.jointPlaces_of_ne_join {r : Rule} (hr : ∀ j, r.kind ≠ .join j) (s : Sides) :
    r.jointPlaces s = [] := by
  unfold jointPlaces
  split
  next j hj => exact absurd hj (hr j)
  next => rfl

theorem Rule.jointPlaces_of_join {r : Rule} {j : Join} {entry : Symbol} (hj : r.kind = .join j)
    (hhead : r.children.head? = some entry) (s : Sides) :
    r.jointPlaces s = if !j.entriesOnly then [] else if s.left = r.target then
      if j.opening.isSome then [0, 2] else []
      else match j.delimiter with
        | some delimiter => if s.right = [delimiter, entry] then [0] else []
        | none => [] := by
  rw [jointPlaces, hj, hhead]
  dsimp only
  cases j.delimiter <;> rfl

/-- There are no joints where there is neither the target nor a delimiter before the entry. -/
theorem Rule.jointPlaces_eq_nil {r : Rule} {j : Join} {entry : Symbol} {s : Sides}
    (hj : r.kind = .join j) (hhead : r.children.head? = some entry) (hleft : s.left ≠ r.target)
    (hright : ∀ delimiter, j.delimiter = some delimiter → s.right ≠ [delimiter, entry]) :
    r.jointPlaces s = [] := by
  rw [r.jointPlaces_of_join hj hhead, if_neg hleft]
  rcases hdelimiter : j.delimiter with _ | delimiter
  · simp
  · simp [hright delimiter hdelimiter]

/-- The same, with no joints below the tail of a join, which has a rule of its own. -/
theorem Rule.ownPlaces_eq_nil {r : Rule} {j : Join} {entry : Symbol} {s : Sides}
    (hj : r.kind = .join j) (hhead : r.children.head? = some entry) (hleft : s.left ≠ r.target)
    (tail : String)
    (hright : ∀ delimiter, j.delimiter = some delimiter → s.right ≠ [delimiter, entry]) :
    (if s.left = tail then [] else r.jointPlaces s) = [] := by
  split
  · rfl
  · exact jointPlaces_eq_nil hj hhead hleft hright

theorem concat_ne_pair {right : List Symbol} {entry : Symbol} {x : String}
    (h : entry ≠ .nonterminal x) (delimiter : Symbol) :
    right ++ [.nonterminal x] ≠ [delimiter, entry] := by
  intro heq
  have hlast := congrArg List.getLast? heq
  rw [List.getLast?_concat] at hlast
  exact h (Option.some.inj hlast).symm

/-- A kind of rule whose nodes lose some of the nodes below them. -/
def RuleKind.Rebuilds : RuleKind → Prop
  | .star | .plus | .join _ => True
  | .sequence | .choice | .optional | .repetition _ _ => False

/-- A shaping that keeps all children, or an entry and the children of the tail behind it. -/
def Shaping.IsPlain (shaping : Shaping) (right : List Symbol) : Prop :=
  shaping = .keep ∨ shaping = .entryAndTail ∧ ∃ entry x, right = [entry, .nonterminal x]

/-- A node with this right side has children of nonterminals only, also when it is finished, if this
holds of the nodes of the nonterminals in `T`. -/
inductive Folded (T : String → Prop) : List Symbol → Shaping → Prop
  | keep {right : List Symbol} (h : ∀ s ∈ right, ∃ x, s = .nonterminal x) : Folded T right .keep
  | entryAndTail {x y : String} (hy : T y) :
    Folded T [.nonterminal x, .nonterminal y] .entryAndTail
  | spreadLast {right : List Symbol} {y : String} (h : ∀ s ∈ right, ∃ x, s = .nonterminal x)
    (hy : T y) : Folded T (right ++ [.nonterminal y]) .spreadLast

namespace FlatGrammar

/-- The places of brackets and delimiters that are left out below a node of a production. -/
def jointPlaces (g : FlatGrammar) (p : Production) : List Nat :=
  match g.ruleOf p with
  | some r => r.jointPlaces ⟨p.left, p.right⟩
  | none => []

/-- **The children of finished nodes for these nonterminals** are all of nonterminals.  Such names are
not in `table`. -/
structure Folds (g : FlatGrammar) (table : SymbolTable) (T : String → Prop) : Prop where
  unknown : ∀ x, T x → table.knows x = false
  knows : ∀ x, T x → g.symbols.knows x = true
  folded : ∀ p ∈ g.productions, T p.left → Folded T p.right p.shaping

/-- **A shaping drops no terminals** below a node with this right side, except at some places. -/
inductive Drops (g : FlatGrammar) (table : SymbolTable) :
    List Symbol → Shaping → List Nat → Prop
  | keep (right : List Symbol) : Drops g table right .keep []
  | entryAndTail (entry : Symbol) (x : String) :
    Drops g table [entry, .nonterminal x] .entryAndTail []
  | second (delimiter entry : Symbol) : Drops g table [delimiter, entry] .second [0]
  | headed (entry : Symbol) {x : String} {T : String → Prop} (hT : g.Folds table T) (hx : T x) :
    Drops g table [entry, .nonterminal x] .headed []
  | spreadLast (right : List Symbol) (x : String) :
    Drops g table (right ++ [.nonterminal x]) .spreadLast []
  | brackets (opening : Symbol) (x : String) (closing : Symbol) :
    Drops g table [opening, .nonterminal x, closing] (.bracketed true) []
  | noBrackets (opening : Symbol) (x : String) (closing : Symbol) :
    Drops g table [opening, .nonterminal x, closing] (.bracketed false) [0, 2]
  | wrapped (x : String) : Drops g table [.nonterminal x] .wrapped []

variable {g g' : FlatGrammar} {table : SymbolTable} {shaping : Shaping} {right : List Symbol}
  {places : List Nat}

theorem Drops.of_isPlain (h : shaping.IsPlain right) : g.Drops table right shaping [] := by
  obtain rfl | ⟨rfl, entry, x, rfl⟩ := h
  · exact .keep right
  · exact .entryAndTail entry x

theorem Drops.mono (h : g.Drops table right shaping places)
    (hfolds : ∀ T, g.Folds table T → g'.Folds table T) : g'.Drops table right shaping places := by
  cases h with
  | keep => exact .keep _
  | entryAndTail => exact .entryAndTail _ _
  | second => exact .second _ _
  | headed entry hT hx => exact .headed entry (hfolds _ hT) hx
  | spreadLast => exact .spreadLast _ _
  | brackets => exact .brackets _ _ _
  | noBrackets => exact .noBrackets _ _ _
  | wrapped => exact .wrapped _

end FlatGrammar

/-! ## The productions of a join -/

namespace Join.Form

variable {g : FlatGrammar} {table : SymbolTable} {r : Rule} {j : Join} {a : Auxiliaries}
  {entry : Symbol} {s : Sides} {shaping : Shaping}

/-- **A production of a join mentions a name of its own.** -/
theorem exists_mentions {target : String} (h : j.Form a target entry s shaping) :
    ∃ x ∈ a.names, s.Mentions x := by
  cases h with
  | delimited | following => exact ⟨a.next, by simp, .inl rfl⟩
  | nothing | alone | tail | rest => exact ⟨a.repetition, by simp, .inl rfl⟩
  | spread => exact ⟨a.rest, by simp, .inl rfl⟩
  | iterated h => cases h <;> exact ⟨a.tail, by simp, .inl rfl⟩
  | bracketed | wrapped => exact ⟨a.repetition, by simp, .inr (by simp)⟩

/-- The tail of a join and what holds it have nonterminals only below them. -/
theorem folded {target : String} {T : String → Prop} (h : j.Form a target entry s shaping)
    (hnodup : (target :: a.names).Nodup) (hleft : s.left = a.tail ∨ s.left = a.rest)
    (hT : .nonterminal a.tail ∈ s.right → T a.tail) : Folded T s.right shaping := by
  rcases hleft with hleft | hleft
  · rcases (h.of_tail hnodup hleft).elim with ⟨hright, rfl, -⟩ | ⟨n, hright, rfl, -⟩
    · rw [hright] at hT ⊢
      exact .entryAndTail (hT (by simp))
    · rw [hright]
      exact .keep fun t ht => ⟨a.next, List.eq_of_mem_replicate ht⟩
  · obtain ⟨hright, rfl⟩ := h.of_rest hnodup hleft
    rw [hright] at hT ⊢
    exact .spreadLast (fun t ht => ⟨a.next, List.eq_of_mem_replicate ht⟩) (hT (by simp))

/-- **What is dropped below a production of a join.**  Its tail has a rule of its own. -/
theorem drops (h : j.Form a r.target entry s shaping) (hj : r.kind = .join j)
    (hhead : r.children.head? = some entry) (hnodup : (r.target :: a.names).Nodup)
    (hentry : ∀ x ∈ a.names, entry ≠ .nonterminal x)
    (hfolds : ∀ x, x = a.tail ∨ x = a.rest → .nonterminal x ∈ s.right →
      ∃ T, g.Folds table T ∧ T x) :
    g.Drops table s.right shaping (if s.left = a.tail then [] else r.jointPlaces s) := by
  obtain ⟨hmem, hown⟩ := List.nodup_cons.1 hnodup
  have hne : ∀ x ∈ a.names, x ≠ r.target := fun x hx => ne_of_mem_of_not_mem hx hmem
  have htarget : r.target ≠ a.tail := (hne a.tail (by simp)).symm
  have hnext : a.next ≠ a.tail :=
    (ne_of_mem_of_not_mem (by simp) (List.nodup_cons.1 hown).1).symm
  have hnone := fun hleft => Rule.ownPlaces_eq_nil (s := s) hj hhead (hne s.left hleft) a.tail
  have htail : ∀ right delimiter, right ++ [.nonterminal a.tail] ≠ [delimiter, entry] :=
    fun _ => concat_ne_pair (hentry a.tail (by simp))
  have hrest : ∀ delimiter, [entry] ++ [.nonterminal a.rest] ≠ [delimiter, entry] :=
    concat_ne_pair (hentry a.rest (by simp))
  cases h with
  | delimited h =>
    rw [if_neg hnext, r.jointPlaces_of_join hj hhead, if_neg (hne _ (by simp)), h]
    cases j.entriesOnly
    · exact .keep _
    · simpa using .second ..
  | following h =>
    rw [hnone (by simp) (by simp [h])]
    exact .keep _
  | nothing | alone =>
    rw [hnone (by simp) (by simp)]
    exact .keep _
  | tail =>
    rw [hnone (by simp) fun delimiter _ => htail [entry] delimiter]
    obtain ⟨T, hT, hx⟩ := hfolds a.tail (.inl rfl) (by simp)
    exact .headed entry hT hx
  | rest =>
    rw [hnone (by simp) fun delimiter _ => hrest delimiter]
    obtain ⟨T, hT, hx⟩ := hfolds a.rest (.inr rfl) (by simp)
    exact .headed entry hT hx
  | spread =>
    rw [hnone (by simp) fun delimiter _ => htail _ delimiter]
    exact .spreadLast _ _
  | iterated h =>
    cases h with
    | more =>
      rw [if_pos rfl]
      exact .entryAndTail _ _
    | exactly =>
      rw [if_pos rfl]
      exact .keep _
  | bracketed hopening =>
    rw [if_neg htarget, r.jointPlaces_of_join hj hhead, if_pos rfl, hopening]
    cases j.entriesOnly
    · exact .brackets ..
    · exact .noBrackets ..
  | wrapped hopening =>
    rw [if_neg htarget, r.jointPlaces_of_join hj hhead, if_pos rfl, hopening]
    cases j.entriesOnly <;> exact .wrapped _

end Join.Form

/-- Only the productions of the tail have the other rule. -/
theorem Auxiliaries.Shares.index {a : Auxiliaries} {target : String} {symbols : List Symbol}
    {i k l : Nat} {s : Sides} (h : a.Shares target symbols i k l s)
    (hnodup : (target :: a.names).Nodup) : l = if s.left = a.tail then k else i := by
  simp only [List.nodup_cons, List.mem_cons, not_or, List.not_mem_nil, or_false] at hnodup
  cases h with
  | next hleft | whole hleft | repetition hleft | rest hleft | tail hleft =>
    rw [hleft]
    simp_all [eq_comm]

/-! ## The productions of other rules -/

/-- **A rule that is no join** asks for plain shapings. -/
theorem Rule.isPlain_of_mem_drafts {r : Rule} {i : Nat} {a : Auxiliaries} {d : Draft}
    (hjoin : ∀ j, r.kind ≠ .join j) (hvisible : r.kind.Rebuilds → .terminal .epsilon ∉ r.symbols)
    (hd : d ∈ r.drafts i a) : d.shaping.IsPlain d.sides.bare.right := by
  obtain ⟨⟨kind, target, children, names⟩, evaluator, completer, listener⟩ := r
  have hmore : ∀ s ∈ children, kind.Rebuilds →
      Shaping.entryAndTail.IsPlain (Sides.bare ⟨target, [s, .nonterminal target]⟩).right := by
    intro s hs hkind
    have hs : .terminal .epsilon ≠ s := fun heq =>
      hvisible hkind (Rule.children_subset_symbols _ (heq ▸ hs))
    rw [Sides.bare_eq (by simp [hs])]
    exact .inr ⟨rfl, s, target, rfl⟩
  cases kind with
  | sequence =>
    obtain rfl := List.mem_singleton.1 hd
    exact .inl rfl
  | choice =>
    obtain ⟨o, -, rfl⟩ := List.mem_map.1 hd
    exact .inl rfl
  | join j => exact absurd rfl (hjoin j)
  | repetition least most =>
    rcases children with _ | ⟨s, _⟩
    · cases hd
    · obtain ⟨n, -, rfl⟩ := List.mem_map.1 hd
      exact .inl rfl
  | optional =>
    rcases children with _ | ⟨s, _⟩
    · cases hd
    · rcases List.mem_cons.1 hd with rfl | hd
      · exact .inl rfl
      · obtain rfl := List.mem_singleton.1 hd
        exact .inl rfl
  | star | plus =>
    rcases children with _ | ⟨s, _⟩
    · cases hd
    · rcases List.mem_cons.1 hd with rfl | hd
      · exact hmore s (List.mem_cons_self ..) trivial
      · obtain rfl := List.mem_singleton.1 hd
        exact .inl rfl

end Typeahead
