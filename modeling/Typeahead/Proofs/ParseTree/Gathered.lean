import Typeahead.Proofs.ParseTree.Leaves

/-!
# Proofs/ParseTree/Gathered — the tree of a derivation, gathered in one row

The tree of a derivation can be built in one row of trees.  At first the row holds the leaves.  Then
the expansions are undone from the last to the first: each takes the trees of its right side out of
the row, at the index that counts the terminals matched before it, and puts a node in their place
(`ParseTree.gather`).  Index and end are cut down to the length of the row.

`gatherAll_eq` says that this is the tree that comes of undoing the steps one by one.  The trees
before the index are the leaves of the terminals matched before, so what follows them is the forest
of the symbols pending (`Derivation.Fits`).  Nothing is ever cut down (`unclamped_of_fits`), and
nothing but the root is left in the end (`materialized_of_mem_ends`).
-/

namespace Typeahead

namespace ParseTree

/-- The offset where the first tree of a row starts, or else `stop`. -/
def startOf (stop : Nat) (row : List ParseTree) : Nat :=
  (row.head?.map (·.label.result.pos)).getD stop

@[simp] theorem startOf_nil (stop : Nat) : startOf stop [] = stop := rfl

@[simp] theorem startOf_cons (stop : Nat) (t : ParseTree) (row : List ParseTree) :
    startOf stop (t :: row) = t.label.result.pos := rfl

/-- **Gathers the children of a production** from the row, at an index.  A node without children
starts where the tree after it does. -/
def gather (stop : Nat) (p : Production) (index : Nat) (row : List ParseTree) : List ParseTree :=
  let first := min index row.length
  let last := min (first + p.right.length) row.length
  let children := (row.take last).drop first
  let rest := row.drop last
  let (outcome, text) := Match.combine (children.map (·.label.result))
  row.take first ++ .node ⟨.nonterminal p.left, some p,
    ⟨outcome, startOf (startOf stop rest) children, text⟩, {}⟩ children :: rest

/-- Gathers the children of all expansions, the latest step first. -/
def gatherAll (stop : Nat) : List Step → List ParseTree → List ParseTree
  | [], row => row
  | .accept _ _ :: trace, row => gatherAll stop trace row
  | .expand p _ :: trace, row =>
    gatherAll stop trace (gather stop p (Step.matched trace).length row)

/-- **Every right side is found in the row as a whole.** -/
def Unclamped (stop : Nat) : List Step → List ParseTree → Prop
  | [], _ => True
  | .accept _ _ :: trace, row => Unclamped stop trace row
  | .expand p _ :: trace, row => (Step.matched trace).length + p.right.length ≤ row.length ∧
    Unclamped stop trace (gather stop p (Step.matched trace).length row)

end ParseTree

open ParseTree (startOf gather gatherAll Unclamped symbols leaf Occurs)

/-- The leaves of the terminals that some steps matched. -/
def Step.matchedLeaves (trace : List Step) : List ParseTree :=
  (Step.matched trace).map fun (s, m) => leaf s m

namespace Derivation

/-- **The leaves of a derivation in one row**: the terminals it matched, then the symbols it did
not. -/
def row (d : Derivation) : List ParseTree := Step.matchedLeaves d.trace ++ d.openLeaves

/-- The last leaf that was looked at: the one the derivation is stuck on, or else the last terminal
it matched. -/
def lastLeaf? (d : Derivation) : Option ParseTree :=
  match (Step.matched d.trace).length + d.stuck.isSome.toNat with
  | 0 => none
  | i + 1 => d.row[i]?

/-! ## Undoing steps in the row -/

/-- **The steps fit a forest**: undoing them one by one, every production finds enough trees, and
they start where it was expanded. -/
def Fits (stop : Nat) : List Step → List ParseTree → Prop
  | [], _ => True
  | .accept t m :: trace, forest => Fits stop trace (undo forest (.accept t m))
  | .expand p pos :: trace, forest => p.right.length ≤ forest.length ∧
    startOf stop forest = pos ∧ Fits stop trace (undo forest (.expand p pos))

variable {stop : Nat}

theorem startOf_take_drop (n : Nat) (forest : List ParseTree) :
    startOf (startOf stop (forest.drop n)) (forest.take n) = startOf stop forest := by
  match n, forest with
  | 0, _ => rfl
  | _ + 1, [] => rfl
  | _ + 1, _ :: _ => rfl

/-- **Gathering behind the matched leaves** is undoing the expansion on the forest after them. -/
theorem gather_append {p : Production} {before forest : List ParseTree}
    (hlength : p.right.length ≤ forest.length) :
    gather stop p before.length (before ++ forest)
      = before ++ undo forest (.expand p (startOf stop forest)) := by
  have hfirst : min before.length (before ++ forest).length = before.length := by
    rw [List.length_append]
    omega
  have hlast : min (before.length + p.right.length) (before ++ forest).length
      = before.length + p.right.length := by
    rw [List.length_append]
    omega
  have hchildren : ((before ++ forest).take (before.length + p.right.length)).drop before.length
      = forest.take p.right.length := by
    rw [List.take_length_add_append, List.drop_left]
  rw [gather]
  dsimp only
  rw [hfirst, hlast, hchildren, List.drop_length_add_append, List.take_left, startOf_take_drop]
  rfl

theorem length_matchedLeaves (trace : List Step) :
    (Step.matched trace).length = (Step.matchedLeaves trace).length := (List.length_map _).symm

theorem matchedLeaves_accept (t : Terminal) (m : Match) (trace : List Step)
    (forest : List ParseTree) : Step.matchedLeaves (.accept t m :: trace) ++ forest
      = Step.matchedLeaves trace ++ undo forest (.accept t m) := by
  rw [Step.matchedLeaves, Step.matched_accept, List.map_append, List.append_assoc]
  rfl

/-- **To gather in the row is to undo the steps** one by one. -/
theorem gatherAll_eq (trace : List Step) (forest : List ParseTree) (h : Fits stop trace forest) :
    gatherAll stop trace (Step.matchedLeaves trace ++ forest) = trace.foldl undo forest := by
  induction trace generalizing forest with
  | nil => rfl
  | cons step trace ih =>
    cases step with
    | accept t m =>
      rw [matchedLeaves_accept, gatherAll, List.foldl_cons]
      exact ih _ h
    | expand p pos =>
      obtain ⟨hlength, rfl, hfits⟩ := h
      rw [gatherAll, length_matchedLeaves, List.foldl_cons, ← ih _ hfits]
      exact congrArg (gatherAll stop trace) (gather_append hlength)

/-- No range is cut down. -/
theorem unclamped_of_fits (trace : List Step) (forest : List ParseTree)
    (h : Fits stop trace forest) :
    Unclamped stop trace (Step.matchedLeaves trace ++ forest) := by
  induction trace generalizing forest with
  | nil => trivial
  | cons step trace ih =>
    cases step with
    | accept t m =>
      rw [matchedLeaves_accept, Unclamped]
      exact ih _ h
    | expand p pos =>
      obtain ⟨hlength, rfl, hfits⟩ := h
      have hrow : Step.matchedLeaves (.expand p (startOf stop forest) :: trace)
          = Step.matchedLeaves trace := rfl
      rw [hrow, Unclamped, length_matchedLeaves, gather_append hlength, List.length_append]
      exact ⟨Nat.add_le_add_left hlength _, ih _ hfits⟩

/-! ## The steps of a derivation -/

theorem startOf_openLeaves {d : Derivation} {s : Symbol} {m : Match} (h : d.StuckOn s m) :
    startOf d.stop d.openLeaves = m.pos := by
  obtain ⟨hhead, hm⟩ := h
  obtain ⟨pending, hp⟩ := List.head?_eq_some_iff.1 hhead
  rw [openLeaves_of_stuck hm hp]
  rfl

end Derivation

open Typeahead.Derivation (Fits undo)

theorem fits_of_stick {b : Branch} {s : Symbol} {pending : List Symbol} {m : Match}
    (hp : b.pending = s :: pending) (hm : m.pos = b.pos) :
    symbols (b.stick m).openLeaves = b.pending ∧
      startOf (b.stick m).stop (b.stick m).openLeaves = b.pos := by
  refine ⟨Derivation.symbols_openLeaves _, ?_⟩
  rw [← hm]
  exact Derivation.startOf_openLeaves (s := s) ⟨by rw [Branch.stick, hp]; rfl, rfl⟩

/-- **The steps of a derivation fit its open leaves**, if those of a branch that it ends fit the
forest of the symbols that the branch has pending. -/
theorem fits_of_mem_ends {g : FlatGrammar} {cfg : Config} {b : Branch} {d : Derivation}
    (hd : d ∈ b.ends g cfg) : ∃ forest, symbols forest = b.pending ∧
      startOf d.stop forest = b.pos ∧
      (Fits d.stop b.trace forest → Fits d.stop d.trace d.openLeaves) := by
  fun_induction Branch.ends g cfg b with
  | case1 b hp =>
    obtain rfl := List.mem_singleton.1 hd
    refine ⟨b.leave.openLeaves, Derivation.symbols_openLeaves _, ?_, id⟩
    rw [Derivation.openLeaves_of_pending_eq_nil hp]
    rfl
  | case2 b t pending hp seen hm ih =>
    obtain ⟨forest, hsym, -, hfits⟩ := ih hd
    rw [Branch.accept_pending hp] at hsym
    refine ⟨undo forest (.accept t ⟨.successful, b.pos, String.ofList seen⟩), ?_, rfl, hfits⟩
    rw [hp, ← hsym]
    rfl
  | case3 b t pending hp | case4 b x pending hp | case6 b x pending hp =>
    obtain rfl := List.mem_singleton.1 hd
    obtain ⟨hsym, hstart⟩ := fits_of_stick hp (m := ⟨_, b.pos, _⟩) rfl
    exact ⟨_, hsym, hstart, id⟩
  | case5 b x pending hp hidle halt ih =>
    obtain ⟨p, hp', hdp⟩ := List.mem_flatMap.1 hd
    obtain rfl : p.left = x := by simpa using (List.mem_filter.1 hp').2
    obtain ⟨forest, hsym, hstart, hfits⟩ := ih p hdp
    rw [Branch.expand_pending hp] at hsym
    refine ⟨undo forest (.expand p b.pos), ?_, rfl, fun h => hfits ⟨?_, hstart, h⟩⟩
    · rw [hp]
      exact Derivation.symbols_undo_expand hsym
    · have hlength := congrArg List.length hsym
      rw [ParseTree.symbols, List.length_map, List.length_append] at hlength
      omega

/-! ## The materialized tree -/

namespace Derivation

variable {g : FlatGrammar} {cfg : Config} {input : List Char} {d : Derivation}

theorem fits_openLeaves (hd : d ∈ (Branch.initial input).ends g cfg) :
    Fits d.stop d.trace d.openLeaves := by
  obtain ⟨forest, -, -, hfits⟩ := fits_of_mem_ends hd
  exact hfits trivial

theorem lastLeaf?_of_stuck {s : Symbol} {m : Match} (h : d.StuckOn s m) :
    d.lastLeaf? = some (leaf s m) := by
  obtain ⟨hhead, hm⟩ := h
  obtain ⟨pending, hp⟩ := List.head?_eq_some_iff.1 hhead
  rw [lastLeaf?, hm]
  change d.row[(Step.matched d.trace).length]? = _
  rw [row, openLeaves_of_stuck hm hp, length_matchedLeaves,
    List.getElem?_append_right (Nat.le_refl _), Nat.sub_self]
  rfl

theorem lastLeaf?_of_complete (hp : d.pending = []) (hm : d.stuck = none) :
    d.lastLeaf? = (Step.matched d.trace).getLast?.map fun (s, m) => leaf s m := by
  have hrow : d.row = Step.matchedLeaves d.trace := by
    rw [row, openLeaves_of_pending_eq_nil hp, List.append_nil]
  rw [lastLeaf?, hm, hrow, Step.matchedLeaves, List.getLast?_eq_getElem?]
  rcases Step.matched d.trace with _ | ⟨sm, more⟩
  · rfl
  · exact List.getElem?_map

/-- **The materialized tree of a derivation** is a derivation tree of its steps. -/
structure Materialized (g : FlatGrammar) (d : Derivation) : Prop where
  /-- Nothing but the root is left in the row. -/
  gathered : gatherAll d.stop d.trace d.row = [d.rawTree]
  unclamped : Unclamped d.stop d.trace d.row
  root : d.tree.label.symbol = .nonterminal SymbolTable.start
  node : ∀ s p, Occurs s d.tree → s.label.production = some p →
    p ∈ g.productions ∧ s.label.symbol = .nonterminal p.left ∧ symbols s.children = p.right
  leaf : ∀ s, Occurs s d.tree → s.label.production = none → s.children = []
  /-- The leaves of a stuck derivation, and the last of those it looked at. -/
  stuck : ∀ m, d.stuck = some m → ∃ s pending, d.pending = s :: pending ∧
    d.tree.leaves.map Label.scanned
      = Step.matched d.trace ++ (s, m) :: pending.map (·, .notParsed d.stop) ∧
    d.lastLeaf? = some (.leaf s m) ∧ ∃ path v, d.tree.stuckPath? none = some path ∧
      path.getLast? = some v ∧ v.label.production = none ∧ v.label.scanned = (s, m)
  /-- The leaves of a complete derivation, and the last of them. -/
  complete : d.stuck = none → d.pending = [] ∧
    d.tree.leaves.map Label.scanned = Step.matched d.trace ∧
    d.lastLeaf? = (Step.matched d.trace).getLast?.map fun (s, m) => .leaf s m

theorem materialized_of_mem_ends (hd : d ∈ (Branch.initial input).ends g cfg) :
    d.Materialized g := by
  have hpart := part_tree hd
  have hended := Branch.ended_of_mem_ends hd
  refine ⟨?_, unclamped_of_fits _ _ (fits_openLeaves hd), symbol_tree hd, fun s p hs hproduction =>
    ?_, fun s hs hproduction => ?_, fun m hm => ?_, fun hm => ?_⟩
  · rw [row, gatherAll_eq _ _ (fits_openLeaves hd), ← forest_eq_singleton hd]
    rfl
  · cases hpart.of_occurs hs with
    | leaf hnone => cases hnone.symm.trans hproduction
    | node hp hsome hsymbol hchildren _ _ =>
      obtain rfl := Option.some.inj (hsome.symm.trans hproduction)
      exact ⟨hp, hsymbol, hchildren⟩
  · cases hpart.of_occurs hs with
    | leaf => rfl
    | node _ hsome _ _ _ _ => cases hsome.symm.trans hproduction
  · obtain ⟨hne, m', hm', hstuck⟩ := hended.resolve_left fun h => by rw [h.2] at hm; cases hm
    obtain rfl := Option.some.inj (hm'.symm.trans hm)
    obtain ⟨s, pending, hp⟩ := List.exists_cons_of_ne_nil hne
    have hon : d.StuckOn s m' := ⟨by rw [hp]; rfl, hm⟩
    have houtcome : d.tree.outcome.isStuck = true := by rwa [outcome_tree hd hm]
    obtain ⟨path, hpath⟩ := hpart.exists_stuckPath houtcome none
    obtain ⟨before, v, rfl, -, hproduction, hhead, hresult⟩ := hpart.stuckPath hpath
    refine ⟨s, pending, hp, ?_, lastLeaf?_of_stuck hon, _, v, hpath, List.getLast?_concat,
      hproduction, Prod.ext ?_ ?_⟩
    · rw [leaves_tree hd, openLeaves_of_stuck hm hp, List.map_cons, List.map_map]
      rfl
    · exact Option.some.inj (hhead.symm.trans hon.1)
    · exact Option.some.inj (hresult.symm.trans hm)
  · obtain ⟨hp, -⟩ := hended.resolve_right fun ⟨_, m, hm', _⟩ => by rw [hm] at hm'; cases hm'
    refine ⟨hp, ?_, lastLeaf?_of_complete hp hm⟩
    rw [leaves_tree hd, openLeaves_of_pending_eq_nil hp, List.map_nil, List.append_nil]

end Derivation

end Typeahead
