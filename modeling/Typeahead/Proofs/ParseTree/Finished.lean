import Typeahead.Proofs.ParseTree.Leaves

/-!
# Proofs/ParseTree/Finished — the finished tree, node by node

The tree of a complete derivation is a derivation tree: its leaves are terminals, and the children of
any other node are what its production expands it into (`ParseTree.Full`).  It is finished from the
bottom up, and a node that is shaped only rearranges finished trees from below it.  So every tree
that occurs in the finished tree is the finished form of one that occurred in the original
(`Occurs.of_shape`).
-/

namespace Typeahead

namespace ParseTree

/-! ## Symbols in a row -/

variable {ts : List ParseTree}

theorem symbols_eq_cons {s : Symbol} {ss : List Symbol} :
    symbols ts = s :: ss ↔ ∃ t us, ts = t :: us ∧ t.label.symbol = s ∧ symbols us = ss :=
  List.map_eq_cons_iff

theorem symbols_eq_nil : symbols ts = [] ↔ ts = [] := List.map_eq_nil_iff

theorem symbols_eq_singleton {s : Symbol} :
    symbols ts = [s] ↔ ∃ t, ts = [t] ∧ t.label.symbol = s :=
  List.map_eq_singleton_iff

theorem symbols_eq_pair {s s' : Symbol} : symbols ts = [s, s'] ↔
    ∃ t t', ts = [t, t'] ∧ t.label.symbol = s ∧ t'.label.symbol = s' := by
  rw [symbols_eq_cons]
  simp only [symbols_eq_singleton]
  grind

/-! ## Shaping -/

theorem shapeAll_fst (ts : List ParseTree) : (shapeAll ts).1 = ts.map (·.shape.1) := by
  induction ts with
  | nil => rfl
  | cons t ts ih =>
    rw [shapeAll, List.map_cons, ← ih]

end ParseTree

open ParseTree (Occurs symbols occurs_child)

/-- How the nodes below a node are shaped: as its production says. -/
def Label.shaping (l : Label) : Shaping := (l.production.map (·.shaping)).getD .keep

theorem ParseTree.shape_node (l : Label) (children : List ParseTree) :
    (node l children).shape.1 = .node l (l.shaping.split (children.map (·.shape.1))).1 := by
  rw [shape, ← shapeAll_fst, Label.shaping]
  rcases l.production with _ | p <;> rfl

/-- What a node of a production is finished to. -/
theorem ParseTree.children_shape {t : ParseTree} {p : Production} (h : t.label.production = some p) :
    t.shape.1.children = (p.shaping.split (t.children.map (·.shape.1))).1 := by
  obtain ⟨l, children⟩ := t
  have hl : l.production = some p := h
  rw [shape_node, Label.shaping, hl]
  rfl

theorem ParseTree.label_shape (t : ParseTree) : t.shape.1.label = t.label := by
  obtain ⟨l, children⟩ := t
  rw [shape_node]
  rfl

/-- **What a split keeps** occurs in the trees that it is given. -/
theorem Shaping.exists_occurs_of_mem_split {shaping : Shaping} {ts : List ParseTree} {u : ParseTree}
    (h : u ∈ (shaping.split ts).1) : ∃ t ∈ ts, Occurs u t := by
  have hroot : ∀ {ts : List ParseTree}, u ∈ ts → ∃ t ∈ ts, Occurs u t := fun hu => ⟨u, hu, .root⟩
  unfold split at h
  dsimp only at h
  split at h
  case h_1 => exact hroot h
  case h_2 entry tail =>
    rcases List.mem_cons.1 h with rfl | hu
    · exact hroot (by simp)
    · exact ⟨tail, by simp, occurs_child hu⟩
  case h_3 => exact hroot (by simp_all)
  case h_4 entry rest =>
    rcases List.mem_cons.1 h with rfl | hu
    · exact hroot (by simp)
    · obtain ⟨t, ht, hu⟩ := List.mem_flatMap.1 hu
      exact ⟨rest, by simp, (occurs_child hu).trans (occurs_child ht)⟩
  case h_5 =>
    split at h
    next last hlast =>
      rcases List.mem_append.1 h with hu | hu
      · exact hroot ((List.dropLast_sublist _).subset hu)
      · exact ⟨last, List.mem_of_getLast? hlast, occurs_child hu⟩
    next => cases h
  case h_6 opening middle closing =>
    simp only [List.mem_append, List.mem_cons, List.not_mem_nil, or_false] at h
    rcases h with (rfl | hu) | rfl
    · exact hroot (by simp)
    · exact ⟨middle, by simp, occurs_child hu⟩
    · exact hroot (by simp)
  case h_7 opening middle closing => exact ⟨middle, by simp, occurs_child h⟩
  case h_8 first more => exact ⟨first, by simp, occurs_child h⟩
  case h_9 => cases h

/-- **A tree of the finished tree** is the finished form of a tree that occurred before. -/
theorem ParseTree.Occurs.of_shape {t u : ParseTree} (h : Occurs u t.shape.1) :
    ∃ s, Occurs s t ∧ u = s.shape.1 := by
  induction t using induction_on_children generalizing u with
  | h l children ih =>
    generalize hv : (node l children).shape.1 = v at h
    cases h with
    | root => exact ⟨_, .root, hv.symm⟩
    | child hmem hu =>
      rw [shape_node] at hv
      obtain ⟨rfl, rfl⟩ := ParseTree.node.inj hv
      obtain ⟨w, hw, hocc⟩ := Shaping.exists_occurs_of_mem_split hmem
      obtain ⟨t, ht, rfl⟩ := List.mem_map.1 hw
      obtain ⟨s, hs, rfl⟩ := ih t ht (hu.trans hocc)
      exact ⟨s, .child ht hs, rfl⟩

/-! ## Derivation trees -/

/-- **A derivation tree** of the grammar, all of whose leaves are terminals. -/
inductive ParseTree.Full (g : FlatGrammar) : ParseTree → Prop
  | leaf {l : Label} {t : Terminal} (hproduction : l.production = none)
    (hsymbol : l.symbol = .terminal t) : Full g (.node l [])
  | node {l : Label} {p : Production} {children : List ParseTree} (hp : p ∈ g.productions)
    (hproduction : l.production = some p) (hsymbol : l.symbol = .nonterminal p.left)
    (hchildren : symbols children = p.right) (hfull : ∀ t ∈ children, Full g t) :
    Full g (.node l children)

namespace ParseTree.Full

variable {g : FlatGrammar} {s t : ParseTree} {x : String}

/-- A tree of a nonterminal is made by one of its productions. -/
theorem of_nonterminal (h : t.Full g) (hsymbol : t.label.symbol = .nonterminal x) :
    ∃ p ∈ g.productions, t.label.production = some p ∧ p.left = x ∧
      symbols t.children = p.right ∧ ∀ u ∈ t.children, u.Full g := by
  cases h with
  | leaf _ hterminal => cases hterminal.symm.trans hsymbol
  | @node l p children hp hproduction hleft hchildren hfull =>
    have hx : p.left = x := Symbol.nonterminal.inj (hleft.symm.trans hsymbol)
    exact ⟨p, hp, hproduction, hx, hchildren, hfull⟩

theorem of_occurs (h : t.Full g) (hs : Occurs s t) : s.Full g := by
  induction hs with
  | root => exact h
  | child hmem _ ih =>
    cases h with
    | leaf => cases hmem
    | node _ _ _ _ hfull => exact ih (hfull _ hmem)

end ParseTree.Full

namespace Derivation

variable {g : FlatGrammar} {cfg : Config} {input : List Char} {d : Derivation} {t : ParseTree}

theorem Part.full (h : d.Part g t) (hleaves : ∀ l ∈ t.leaves, ∃ x, l.symbol = .terminal x) :
    t.Full g := by
  induction h with
  | leaf hproduction _ =>
    obtain ⟨x, hx⟩ := hleaves _ (ParseTree.mem_leaves_node.2 (.inl ⟨hproduction, rfl⟩))
    exact .leaf hproduction hx
  | node hp hproduction hsymbol hchildren _ _ ih =>
    refine .node hp hproduction hsymbol hchildren fun t ht => ih t ht fun l hl => ?_
    exact hleaves l (ParseTree.mem_leaves_node.2 (.inr ⟨t, ht, hl⟩))

/-- **The tree of a complete derivation** is a derivation tree. -/
theorem full_tree (hd : d ∈ (Branch.initial input).ends g cfg) (hc : d.isComplete) :
    d.tree.Full g := by
  refine (part_tree hd).full fun l hl => ?_
  have hopen : d.openLeaves = [] := openLeaves_of_pending_eq_nil (List.isEmpty_iff.1 hc)
  have hscanned : l.scanned ∈ d.tree.leaves.map Label.scanned := List.mem_map_of_mem hl
  rw [leaves_tree hd, hopen, List.map_nil, List.append_nil, Step.matched, List.mem_reverse]
    at hscanned
  obtain ⟨step, -, hstep⟩ := List.mem_filterMap.1 hscanned
  cases step with
  | expand p pos => cases hstep
  | accept x m => exact ⟨x, congrArg Prod.fst (Option.some.inj hstep).symm⟩

/-- A derivation whose tree is a success is complete. -/
theorem isComplete_of_outcome (hd : d ∈ (Branch.initial input).ends g cfg)
    (h : d.tree.shape.1.outcome = .successful) : d.isComplete := by
  by_contra hc
  obtain ⟨m, hm, hstuck⟩ := (Branch.ended_of_mem_ends hd).stuck_of_not_isComplete hc
  rw [← outcome_of_stuck hd hm, h] at hstuck
  cases hstuck

end Derivation

end Typeahead
