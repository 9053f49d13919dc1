import Typeahead.Parse.Context
import Typeahead.ParseTree.Listening
import Typeahead.Proofs.ParseTree.Order

/-!
# Proofs/ParseTree/Listening — the walk from the top names the tree

While productions are told about their nodes, they give tags to the children of these, so the tree
changes under the walk.  But a listener changes the labels of nodes that are still to be visited, and
no children: the walk goes through the nodes of the tree as it was, and leaves the named tree
(`Arena.Holds.walked`).
-/

namespace Typeahead

open StoredTree (idsAll)

theorem ParseTree.postorderAll_eq_flatMap (parentRule : Option Nat) (ts : List ParseTree) :
    postorderAll parentRule ts = ts.flatMap (postorder parentRule) := by
  induction ts with
  | nil => rw [postorderAll]; rfl
  | cons t ts ih => rw [postorderAll, List.flatMap_cons, ih]

/-! ## Tags in a stored tree -/

namespace StoredTree

/-- The tree with another tag at its root. -/
def retag (tag : Tag) : StoredTree → StoredTree
  | node x l children => node x { l with tag := tag } children

/-- Several trees with other tags at their roots, in order. -/
def retagAll : List Tag → List StoredTree → List StoredTree
  | _, [] => []
  | tags, t :: ts => t.retag (tags.headD {}) :: retagAll tags.tail ts

mutual

/-- Gives the root a tag and names all nodes below it. -/
def withTag (tag : Tag) (parentRule : Option Nat) : StoredTree → StoredTree
  | node x l children =>
    let l := { l with tag := tag }
    node x l (withTags (l.childTags parentRule children.length) l.ruleIndex children)

/-- Gives the roots their tags, in order, and names all nodes below them. -/
def withTags (tags : List Tag) (parentRule : Option Nat) : List StoredTree → List StoredTree
  | [] => []
  | t :: ts => withTag (tags.headD {}) parentRule t :: withTags tags.tail parentRule ts

end

mutual

/-- What the productions of the nodes are told, a node before its children. -/
def calls : StoredTree → List Call
  | node x l children =>
    (if l.listens then [⟨x, children.map id⟩] else []) ++ callsAll children

/-- What the productions of the nodes of several trees are told. -/
def callsAll : List StoredTree → List Call
  | [] => []
  | t :: ts => calls t ++ callsAll ts

end

/-- No node has a tag yet. -/
def Untagged (t : StoredTree) : Prop := ∀ u : StoredTree, u.Occurs t → u.label.tag = {}

variable {t : StoredTree} {x : Nat} {l : Label} {children : List StoredTree}

theorem Untagged.of_mem (h : (node x l children).Untagged) (ht : t ∈ children) : t.Untagged :=
  fun u hu => h u (.child ht hu)

@[simp] theorem ids_retag (tag : Tag) (t : StoredTree) : (t.retag tag).ids = t.ids := by
  obtain ⟨x, l, children⟩ := t
  rw [retag, ids_node, ids_node]

theorem retag_eq_self {tag : Tag} (h : t.label.tag = tag) : t.retag tag = t := by
  obtain ⟨x, l, children⟩ := t
  subst h
  rfl

theorem idsAll_retagAll (tags : List Tag) (ts : List StoredTree) :
    idsAll (retagAll tags ts) = idsAll ts := by
  induction ts generalizing tags with
  | nil => rfl
  | cons t ts ih => rw [retagAll, idsAll_cons, idsAll_cons, ih, ids_retag]

theorem retagAll_nil {ts : List StoredTree} (h : ∀ t ∈ ts, t.label.tag = {}) :
    retagAll [] ts = ts := by
  induction ts with
  | nil => rfl
  | cons t ts ih =>
    obtain ⟨ht, hts⟩ := List.forall_mem_cons.1 h
    rw [retagAll, List.tail_nil, ih hts, List.headD_nil, retag_eq_self ht]

theorem callsAll_eq_flatMap (ts : List StoredTree) : callsAll ts = ts.flatMap calls := by
  induction ts with
  | nil => rw [callsAll]; rfl
  | cons t ts ih => rw [callsAll, List.flatMap_cons, ih]

/-- Without numbers, it is the named tree. -/
theorem tree_withTag (t : StoredTree) (tag : Tag) (parentRule : Option Nat) :
    (t.withTag tag parentRule).tree = t.tree.withTag tag parentRule := by
  induction t using induction_on_children generalizing tag parentRule with
  | h x l children ih =>
    have hall : ∀ ts ⊆ children, ∀ tags rule,
        (withTags tags rule ts).map tree = ParseTree.withTags tags rule (ts.map tree) := by
      intro ts hts
      induction ts with
      | nil => intro tags rule; rw [withTags, List.map_nil, ParseTree.withTags]
      | cons t ts ihs =>
        intro tags rule
        obtain ⟨ht, hts⟩ := List.cons_subset.1 hts
        rw [withTags, List.map_cons, List.map_cons, ParseTree.withTags, ih t ht, ihs hts]
    rw [withTag, tree_node, tree_node, ParseTree.withTag, hall _ (List.Subset.refl _),
      List.length_map]

@[simp] theorem id_withTag (t : StoredTree) (tag : Tag) (parentRule : Option Nat) :
    (t.withTag tag parentRule).id = t.id := by
  obtain ⟨x, l, children⟩ := t
  rw [withTag]
  rfl

theorem map_id_withTags (tags : List Tag) (parentRule : Option Nat) (ts : List StoredTree) :
    (withTags tags parentRule ts).map id = ts.map id := by
  induction ts generalizing tags with
  | nil => rw [withTags]
  | cons t ts ih => rw [withTags, List.map_cons, List.map_cons, ih, id_withTag]

/-- Naming leaves the nodes in their order. -/
theorem ids_withTag (t : StoredTree) (tag : Tag) (parentRule : Option Nat) :
    (t.withTag tag parentRule).ids = t.ids := by
  induction t using induction_on_children generalizing tag parentRule with
  | h x l children ih =>
    have hall : ∀ ts ⊆ children, ∀ tags rule, idsAll (withTags tags rule ts) = idsAll ts := by
      intro ts hts
      induction ts with
      | nil => intro tags rule; rw [withTags]
      | cons t ts ihs =>
        intro tags rule
        obtain ⟨ht, hts⟩ := List.cons_subset.1 hts
        rw [withTags, idsAll_cons, idsAll_cons, ih t ht, ihs hts]
    rw [withTag, ids_node, ids_node, hall _ (List.Subset.refl _)]

end StoredTree

namespace Arena

variable {a : Arena} {p q : Option Nat} {t : StoredTree} {tag : Tag}

theorem cells_setTag (a : Arena) (x : Nat) (tag : Tag) (i : Nat) : (a.setTag x tag).cells[i]? =
    if x = i then a.cells[i]?.map fun c => { c with label := { c.label with tag := tag } }
    else a.cells[i]? := cells_modify a x _ i

/-- A tag for a node goes to the root of the tree below it. -/
theorem Holds.setTag (h : a.Holds p t) (hnodup : t.ids.Nodup) (tag : Tag) :
    (a.setTag t.id tag).Holds p (t.retag tag) := by
  cases h with
  | @node _ x l children hcell hchildren =>
    rw [StoredTree.ids_node, List.nodup_cons] at hnodup
    refine .node ?_ fun t ht => (hchildren t ht).congr fun i hi => ?_
    · rw [StoredTree.id, cells_setTag, if_pos rfl, hcell]
      rfl
    · have hne : x ≠ i := by
        rintro rfl
        exact hnodup.1 (StoredTree.mem_idsAll.2 ⟨t, ht, hi⟩)
      rw [StoredTree.id, cells_setTag, if_neg hne]

/-- Tags for several nodes go to the roots of the trees below them. -/
theorem holds_setTags {ts : List StoredTree} (h : ∀ t ∈ ts, a.Holds p t)
    (hnodup : (idsAll ts).Nodup) (huntagged : ∀ t ∈ ts, t.label.tag = {}) (tags : List Tag) :
    (∀ t ∈ StoredTree.retagAll tags ts, (a.setTags (ts.map (·.id)) tags).Holds p t) ∧
      ∀ i ∉ ts.map (·.id), (a.setTags (ts.map (·.id)) tags).cells[i]? = a.cells[i]? := by
  induction ts generalizing a tags with
  | nil => exact ⟨List.forall_mem_nil _, fun _ _ => rfl⟩
  | cons t ts ih =>
    cases tags with
    | nil =>
      rw [StoredTree.retagAll_nil huntagged, setTags, List.zip_nil_right]
      exact ⟨h, fun _ _ => rfl⟩
    | cons tag tags =>
      obtain ⟨ht, hts⟩ := List.forall_mem_cons.1 h
      rw [StoredTree.idsAll_cons] at hnodup
      obtain ⟨htnodup, hsnodup, hdisjoint⟩ := List.nodup_append'.1 hnodup
      have hother : ∀ u ∈ ts, (a.setTag t.id tag).Holds p u := by
        intro u hu
        refine (hts u hu).congr fun i hi => ?_
        have hne : t.id ≠ i := by
          rintro rfl
          exact hdisjoint t.id_mem_ids (StoredTree.mem_idsAll.2 ⟨u, hu, hi⟩)
        rw [cells_setTag, if_neg hne]
      obtain ⟨hall, hsame⟩ := ih hother hsnodup (List.forall_mem_cons.1 huntagged).2 tags
      have hsetTags : a.setTags ((t :: ts).map (·.id)) (tag :: tags)
          = (a.setTag t.id tag).setTags (ts.map (·.id)) tags := rfl
      rw [hsetTags, StoredTree.retagAll, List.headD_cons, List.tail_cons]
      refine ⟨List.forall_mem_cons.2 ⟨?_, hall⟩, fun i hi => ?_⟩
      · refine (ht.setTag htnodup tag).congr fun i hi => hsame i fun hmem => ?_
        rw [StoredTree.ids_retag] at hi
        exact hdisjoint hi ((StoredTree.map_id_sublist_idsAll ts).subset hmem)
      · rw [List.map_cons, List.mem_cons, not_or] at hi
        rw [hsame i hi.2, cells_setTag, if_neg (Ne.symm hi.1)]

/-! ## The walk -/

/-- A production that does not listen has no tags to give. -/
theorem childTags_of_not_listens {l : Label} (h : l.listens = false) (parentRule : Option Nat)
    (arity : Nat) : l.childTags parentRule arity = [] := by
  rw [Label.childTags]
  split
  next production hproduction =>
    have hnaming : production.naming = .anonymous := by
      simpa [Label.listens, hproduction] using h
    rw [hnaming]
    rfl
  next => rfl

/-- **Visiting a node** tags its children, and pushes them on the stack. -/
theorem Holds.tell_node {x : Nat} {l : Label} {children : List StoredTree}
    (h : a.Holds p (.node x l children)) (hnodup : (x :: idsAll children).Nodup)
    (huntagged : ∀ t ∈ children, t.label.tag = {}) (n : Nat) (stack : List Nat)
    (calls : List Call) : ∃ a', tell (n + 1) (x :: stack) calls a
        = tell n (children.map (·.id) ++ stack)
          (calls ++ if l.listens then [⟨x, children.map (·.id)⟩] else []) a' ∧
      (∀ t ∈ StoredTree.retagAll (l.childTags (a.parentRule? x) children.length) children,
        a'.Holds (some x) t) ∧
      ∀ i ∉ children.map (·.id), a'.cells[i]? = a.cells[i]? := by
  obtain ⟨hcell, hchildren⟩ := holds_node.1 h
  have hlabel : a.label? x = some l := by rw [label?, hcell, Option.map_some]
  have hids : a.children x = children.map (·.id) := h.children
  have hlistens : a.listens x = l.listens := by rw [listens, hlabel, Option.any_some]
  rw [tell, hids, hlistens]
  cases hl : l.listens with
  | true =>
    refine ⟨_, rfl, ?_⟩
    rw [nameChildren, hlabel, List.length_map]
    exact holds_setTags hchildren (List.nodup_cons.1 hnodup).2 huntagged _
  | false =>
    refine ⟨a, by simp, ?_, fun _ _ => rfl⟩
    rw [childTags_of_not_listens hl, StoredTree.retagAll_nil huntagged]
    exact hchildren

/-- **A tree was walked through**: its productions were told, and it is named. -/
structure Walked (n : Nat) (stack : List Nat) (calls : List Call) (a : Arena) (p : Option Nat)
    (t named : StoredTree) (a' : Arena) : Prop where
  tell : tell (t.ids.length + n) (t.id :: stack) calls a = tell n stack (calls ++ t.calls) a'
  holds : a'.Holds p named
  same : ∀ i ∉ idsAll t.children, a'.cells[i]? = a.cells[i]?

theorem idsAll_children_subset (t : StoredTree) : idsAll t.children ⊆ t.ids := by
  obtain ⟨x, l, children⟩ := t
  rw [StoredTree.ids_node]
  exact List.subset_cons_self ..

/-- The walk through a tree changes no cell of trees that share no number with it. -/
theorem Walked.holds_all {a a' : Arena} {n : Nat} {stack : List Nat} {calls : List Call}
    {p p' : Option Nat} {t named : StoredTree} {ts : List StoredTree}
    (h : Walked n stack calls a p t named a') (hts : ∀ u ∈ ts, a.Holds p' u)
    (hdisjoint : t.ids.Disjoint (idsAll ts)) : ∀ u ∈ ts, a'.Holds p' u := by
  intro u hu
  refine (hts u hu).congr fun i hi => h.same i fun hmem => ?_
  exact hdisjoint (idsAll_children_subset t hmem) (StoredTree.mem_idsAll.2 ⟨u, hu, hi⟩)

/-- If the walk goes through each of several trees, it goes through them one after the other. -/
theorem tell_all {x : Nat} {rule : Option Nat} {ts : List StoredTree} (hnodup : (idsAll ts).Nodup)
    (hx : x ∉ idsAll ts)
    (hwalk : ∀ t ∈ ts, ∀ tag n stack calls (a : Arena), a.Holds (some x) (t.retag tag) →
      t.ids.Nodup → (a.label? x).bind (·.ruleIndex) = rule →
      ∃ a', Walked n stack calls a (some x) t (t.withTag tag rule) a')
    {tags : List Tag} (hholds : ∀ t ∈ StoredTree.retagAll tags ts, a.Holds (some x) t)
    (hrule : (a.label? x).bind (·.ruleIndex) = rule) (n : Nat) (stack : List Nat)
    (calls : List Call) :
    ∃ a', tell ((idsAll ts).length + n) (ts.map (·.id) ++ stack) calls a
        = tell n stack (calls ++ StoredTree.callsAll ts) a' ∧
      (∀ t ∈ StoredTree.withTags tags rule ts, a'.Holds (some x) t) ∧
      ∀ i ∉ idsAll ts, a'.cells[i]? = a.cells[i]? := by
  induction ts generalizing tags calls a with
  | nil =>
    refine ⟨a, ?_, ?_, fun _ _ => rfl⟩
    · simp [StoredTree.callsAll]
    · rw [StoredTree.withTags]
      exact List.forall_mem_nil _
  | cons t ts ih =>
    rw [StoredTree.retagAll] at hholds
    obtain ⟨hfirst, hrest⟩ := List.forall_mem_cons.1 hholds
    obtain ⟨hwalk, hwalks⟩ := List.forall_mem_cons.1 hwalk
    rw [StoredTree.idsAll_cons] at hnodup hx
    obtain ⟨htnodup, hsnodup, hdisjoint⟩ := List.nodup_append'.1 hnodup
    obtain ⟨hxt, hxts⟩ := not_or.1 (mt List.mem_append.2 hx)
    obtain ⟨a₁, hwalked⟩ := hwalk (tags.headD {}) ((idsAll ts).length + n)
      (ts.map (·.id) ++ stack) calls a hfirst htnodup hrule
    -- the walk through the first tree changes neither the others nor their parent
    have hrest₁ := hwalked.holds_all hrest (by rwa [StoredTree.idsAll_retagAll])
    obtain ⟨htell, hholds₁, hsame₁⟩ := hwalked
    have hrule₁ : (a₁.label? x).bind (·.ruleIndex) = rule := by
      rw [label?, hsame₁ x fun hmem => hxt (idsAll_children_subset t hmem)]
      exact hrule
    obtain ⟨a₂, htell₂, hholds₂, hsame₂⟩ :=
      ih hsnodup hxts hwalks hrest₁ hrule₁ (calls ++ t.calls)
    refine ⟨a₂, ?_, ?_, fun i hi => ?_⟩
    · rw [StoredTree.idsAll_cons, List.length_append, Nat.add_assoc, List.map_cons,
        List.cons_append, htell, htell₂, StoredTree.callsAll, List.append_assoc]
    · rw [StoredTree.withTags]
      refine List.forall_mem_cons.2 ⟨hholds₁.congr fun i hi => hsame₂ i fun hmem => ?_, hholds₂⟩
      rw [StoredTree.ids_withTag] at hi
      exact hdisjoint hi hmem
    · rw [StoredTree.idsAll_cons, List.mem_append, not_or] at hi
      rw [hsame₂ i hi.2, hsame₁ i fun hmem => hi.1 (idsAll_children_subset t hmem)]

/-- **The walk goes through a stored tree** as it is, and leaves it named. -/
theorem Holds.walked (h : a.Holds p (t.retag tag)) (hnodup : t.ids.Nodup) (huntagged : t.Untagged)
    {parentRule : Option Nat} (hrule : (p.bind a.label?).bind (·.ruleIndex) = parentRule)
    (n : Nat) (stack : List Nat) (calls : List Call) :
    ∃ a', Walked n stack calls a p t (t.withTag tag parentRule) a' := by
  induction t using StoredTree.induction_on_children generalizing a p tag parentRule n stack calls with
  | h x l children ih =>
    change a.Holds p (.node x { l with tag := tag } children) at h
    rw [StoredTree.ids_node] at hnodup
    obtain ⟨hx, hsnodup⟩ := List.nodup_cons.1 hnodup
    have hbelow : ∀ t ∈ children, t.label.tag = {} := fun t ht => huntagged t (.child ht .root)
    have hids := StoredTree.map_id_sublist_idsAll children
    obtain ⟨a₁, htell, hholds, hsame⟩ :=
      h.tell_node hnodup hbelow ((idsAll children).length + n) stack calls
    have hparent : a.parentRule? x = parentRule := by
      rw [parentRule?, show a.parent? x = p from h.parent?]
      exact hrule
    rw [hparent] at hholds
    have hcell : a₁.cells[x]? = some ⟨{ l with tag := tag }, children.map (·.id), p⟩ :=
      (hsame x fun hmem => hx (hids.subset hmem)).trans h.cell
    have hrule₁ : (a₁.label? x).bind (·.ruleIndex) = l.ruleIndex := by
      rw [label?, hcell]
      rfl
    obtain ⟨a₂, htell₂, hholds₂, hsame₂⟩ := tell_all hsnodup hx
      (fun t ht tag n stack calls a hholds htnodup hrule =>
        ih t ht hholds htnodup (huntagged.of_mem ht) hrule n stack calls) hholds hrule₁ n stack
      (calls ++ if l.listens then [⟨x, children.map (·.id)⟩] else [])
    refine ⟨a₂, ?_, ?_, fun i hi => ?_⟩
    · rw [StoredTree.ids_node, List.length_cons, Nat.add_right_comm, StoredTree.calls,
        ← List.append_assoc, ← htell₂]
      exact htell
    · rw [StoredTree.withTag]
      refine .node ?_ hholds₂
      rw [StoredTree.map_id_withTags, hsame₂ x hx, hcell]
    · rw [hsame₂ i hi, hsame i fun hmem => hi (hids.subset hmem)]

/-- What is told in a stored tree: each node that is listened to, and its children. -/
theorem Holds.calls_eq (h : a.Holds p t) :
    t.calls = (t.ids.filter a.listens).map fun i => ⟨i, a.children i⟩ := by
  induction h with
  | @node parent x l children hcell hchildren ih =>
    have hlistens : a.listens x = l.listens := by
      rw [listens, label?, hcell, Option.map_some, Option.any_some]
    have hids : a.children x = children.map (·.id) := (Holds.node hcell hchildren).children
    have hall : StoredTree.callsAll children
        = ((idsAll children).filter a.listens).map fun i => ⟨i, a.children i⟩ := by
      rw [StoredTree.callsAll_eq_flatMap, List.flatMap_congr ih, StoredTree.idsAll_eq_flatMap,
        List.filter_flatMap, List.map_flatMap]
    rw [StoredTree.calls, StoredTree.ids_node, hall, List.filter_cons, hlistens]
    split
    · rw [List.map_cons, hids]
      rfl
    · rfl

/-! ## What the walk leaves as it was -/

theorem children_setTag (a : Arena) (x : Nat) (tag : Tag) (i : Nat) :
    (a.setTag x tag).children i = a.children i := by
  rw [children, cells_setTag, children]
  split
  · rw [Option.map_map]
    rfl
  · rfl

theorem children_setTags (a : Arena) (ids : List Nat) (tags : List Tag) (i : Nat) :
    (a.setTags ids tags).children i = a.children i := by
  rw [setTags]
  induction ids.zip tags generalizing a with
  | nil => rfl
  | cons entry tagged ih => rw [List.foldl_cons, ih, children_setTag]

/-- **Listeners change no children.** -/
theorem children_tell {n : Nat} {stack : List Nat} {calls calls' : List Call} {a' : Arena}
    (h : tell n stack calls a = some (calls', a')) (i : Nat) : a'.children i = a.children i := by
  fun_induction tell n stack calls a with
  | case1 =>
    cases h
    rfl
  | case2 => cases h
  | case3 n a calls id stack children _ ih =>
    rw [ih h, nameChildren]
    split
    · exact children_setTags ..
    · rfl
  | case4 n a calls id stack children _ ih => exact ih h

/-! ## Both walks over a stored tree -/

/-- **Telling the productions** goes through the nodes of a tree with every node before its children,
and leaves the named tree. -/
theorem Represents.tell {tree : ParseTree} {s : StoredTree} (h : a.Represents tree s)
    (huntagged : s.Untagged) :
    ∃ a', a.tell? s.id = some ((s.ids.filter a.listens).map fun i => ⟨i, a.children i⟩, a') ∧
      a'.Represents tree.named (s.withTag {} none) := by
  have hretag : a.Holds none (s.retag {}) := by
    rw [StoredTree.retag_eq_self (huntagged s .root)]
    exact h.holds
  obtain ⟨n, hn⟩ := Nat.exists_eq_add_of_le (h.holds.length_ids_le h.nodup)
  obtain ⟨a', hwalked⟩ := hretag.walked h.nodup huntagged rfl n [] []
  refine ⟨a', ?_, hwalked.holds, ?_, ?_⟩
  · rw [tell?, hn, hwalked.tell, List.nil_append, h.holds.calls_eq]
    cases n <;> rfl
  · rw [StoredTree.ids_withTag]
    exact h.nodup
  · rw [StoredTree.tree_withTag, h.tree]
    rfl

/-- The visits of a stored tree, children before parents. -/
theorem Holds.filterMap_visit? (h : a.Holds p t) {parentRule : Option Nat}
    (hrule : (p.bind a.label?).bind (·.ruleIndex) = parentRule) :
    t.postorder.filterMap a.visit? = t.tree.postorder parentRule := by
  induction h generalizing parentRule with
  | @node parent x l children hcell hchildren ih =>
    have hlabel : a.label? x = some l := by rw [label?, hcell, Option.map_some]
    have hvisit : a.visit? x = some ⟨l, parentRule⟩ := by
      have hparent : a.parent? x = parent := (Holds.node hcell hchildren).parent?
      rw [visit?, hlabel, Option.map_some, parentRule?, hparent, hrule]
    have hbelow : ((some x).bind a.label?).bind (·.ruleIndex) = l.ruleIndex := by
      rw [Option.bind_some, hlabel, Option.bind_some]
    have hall : (children.flatMap StoredTree.postorder).filterMap a.visit?
        = ParseTree.postorderAll l.ruleIndex (children.map StoredTree.tree) := by
      rw [List.filterMap_flatMap, List.flatMap_congr fun t ht => ih t ht hbelow,
        ParseTree.postorderAll_eq_flatMap, List.flatMap_map]
    rw [StoredTree.postorder_node, List.filterMap_append, hall, StoredTree.tree_node,
      ParseTree.postorder, List.filterMap_cons, hvisit]
    rfl

/-- **Telling the rules** goes through the nodes of a tree with children before parents, and says what
the tree announces. -/
theorem Represents.announce {tree : ParseTree} {s : StoredTree} (h : a.Represents tree s)
    (g : FlatGrammar) : ∃ told, a.announce? g s.id = some told ∧
      told.map (·.1) = s.postorder.filter (fun i => (a.announcement? g i).isSome) ∧
      told.map (·.2) = tree.announcements g := by
  refine ⟨_, by rw [announce?, h.holds.postOrder?_eq h.nodup, Option.map_some], ?_, ?_⟩
  · rw [List.map_filterMap, ← List.filterMap_eq_filter]
    refine List.filterMap_congr fun i _ => ?_
    cases htold : a.announcement? g i <;> simp [Option.guard, htold]
  · have hvisits : s.postorder.filterMap a.visit? = s.tree.postorder none :=
      h.holds.filterMap_visit? rfl
    rw [h.tree] at hvisits
    rw [List.map_filterMap, ParseTree.announcements, ← hvisits, List.filterMap_filterMap]
    refine List.filterMap_congr fun i _ => ?_
    rw [Option.map_map, announcement?]
    exact congrFun Option.map_id _

end Arena

end Typeahead
