import Typeahead.Proofs.Grammar.Ways
import Typeahead.Proofs.Parse.Trees
import Typeahead.Proofs.ParseTree.Finished
import Typeahead.Proofs.ParseTree.Tagged

/-!
# Proofs/Parse/ChildNames — the names of the children of sequences and choices

A node that is governed by a sequence or a choice stands for all children of the rule, or for one of
them.  Rules that have the same production share its nodes: these are governed by the first of the
rules but named as the last one says (`childNames_of_parse`).  The names are given by the position
below the node, where the empty symbol has no place.

If nobody else has the production, or everybody asks for the same, the children carry the names that
their rule declares (`Rule.NamesChildren`).  Two alternatives of one symbol are an example to the
contrary: the node is named as the last of them, so it has no child for the first
(`childNames_overwritten`).
-/

namespace Typeahead

open ParseTree (Occurs symbols tags)

/-! ## What a rule declares -/

/-- **The naming that a rule declares** for a node that stands for `body`. -/
def Rule.declared (r : Rule) (body : List Symbol) : Naming :=
  match r.kind, body with
  | .choice, [c] => .alternative (r.children.idxOf c) r.names
  | _, _ => .positional r.names

/-- **The children carry the names that the rule declares.**  A sequence has a child for each of its
symbols, named by the position of the symbol; a choice has one that is named and numbered by the
first position of its symbol. -/
def Rule.NamesChildren (r : Rule) (ts : List ParseTree) : Prop :=
  match r.kind with
  | .sequence => ∀ i c, r.children[i]? = some c → c ≠ .terminal .epsilon →
    ∃ t ∈ ts, t.label.symbol = c ∧ t.label.tag.name = r.names.nameAt i
  | .choice => ∃ t ∈ ts, t.label.symbol ∈ r.children ∧
    t.label.tag.nth = r.children.idxOf t.label.symbol ∧
    t.label.tag.name = r.names.nameAt t.label.tag.nth
  | _ => True

/-- **A node is named and shaped in the last of several ways.**  The node `s` stands for `body`, and
`children` are what is finally below it. -/
structure ParseTree.Follows (s : ParseTree) (body : List Symbol) (ways : List (Naming × Shaping))
    (children : List ParseTree) : Prop where
  symbols : symbols s.children = body.filter (· ≠ .terminal .epsilon)
  tags : ∃ parentRule, tags s.children = ((Naming.last (ways.map Prod.fst)).tags s.label.tag
    (s.label.entryIndex parentRule) s.children.length).takeD s.children.length {}
  children : children =
    ((Shaping.last (ways.map Prod.snd)).split (s.children.map (·.shape.1))).1

section

variable {r : Rule} {body : List Symbol} {ways : List (Naming × Shaping)} {s : ParseTree}
  {ts : List ParseTree}

theorem Rule.declared_of_sequence (hkind : r.kind = .sequence) :
    r.declared body = .positional r.names := by
  simp [declared, hkind]

theorem Rule.declared_of_choice (hkind : r.kind = .choice) (c : Symbol) :
    r.declared [c] = .alternative (r.children.idxOf c) r.names := by
  simp [declared, hkind]

theorem Rule.namesChildren_of_sequence (hkind : r.kind = .sequence)
    (hbody : ParseTree.symbols ts = r.children)
    (htags : tags ts = (List.range ts.length).map fun i => ⟨r.names.nameAt i, i⟩) :
    r.NamesChildren ts := by
  rw [NamesChildren, hkind]
  intro i c hc _
  rw [← hbody, ParseTree.symbols, List.getElem?_map, Option.map_eq_some_iff] at hc
  obtain ⟨t, ht, rfl⟩ := hc
  obtain ⟨hi, -⟩ := List.getElem?_eq_some_iff.1 ht
  have htag := congrArg (·[i]?) htags
  simp only [tags, List.getElem?_map, ht, List.getElem?_range hi, Option.map_some,
    Option.some.injEq] at htag
  exact ⟨t, List.mem_of_getElem? ht, rfl, by rw [htag]⟩

theorem Rule.namesChildren_of_choice (hkind : r.kind = .choice) {c : Symbol} (hc : c ∈ r.children)
    (hbody : ParseTree.symbols ts = [c])
    (htags : tags ts = [⟨r.names.nameAt (r.children.idxOf c), r.children.idxOf c⟩]) :
    r.NamesChildren ts := by
  rw [NamesChildren, hkind]
  obtain ⟨t, rfl, rfl⟩ := ParseTree.symbols_eq_singleton.1 hbody
  have htag : t.label.tag = _ := List.singleton_inj.1 htags
  exact ⟨t, by simp, hc, by rw [htag], by rw [htag]⟩

/-- **If the last way is the one that the rule declares**, the children carry its names. -/
theorem ParseTree.Follows.namesChildren (h : s.Follows body ways ts) (hr : r.StandsFor body)
    (hnaming : Naming.last (ways.map Prod.fst) = r.declared body)
    (hshaping : Shaping.last (ways.map Prod.snd) = .keep) (hvisible : .terminal .epsilon ∉ body) :
    r.NamesChildren ts := by
  obtain ⟨hsymbols, ⟨parentRule, htags⟩, hchildren⟩ := h
  have hbare : body.filter (· ≠ .terminal .epsilon) = body :=
    List.filter_eq_self.2 fun c hc => decide_eq_true fun heq => hvisible (heq ▸ hc)
  rw [hbare] at hsymbols
  rw [hnaming] at htags
  -- finishing the children changes neither their symbols nor their tags
  have hkept : ts = s.children.map (·.shape.1) := by rw [hchildren, hshaping]; rfl
  have hlabels : ∀ {β : Type} (f : Label → β),
      ts.map (fun t => f t.label) = s.children.map fun t => f t.label := by
    intro β f
    simp [hkept, ParseTree.label_shape]
  have hsymbols' : ParseTree.symbols ts = body := (hlabels (·.symbol)).trans hsymbols
  have htags' : ParseTree.tags ts = ParseTree.tags s.children := hlabels (·.tag)
  have hlength : s.children.length = ts.length := by rw [hkept, List.length_map]
  rw [← htags', hlength] at htags
  rcases Rule.standsFor_iff.1 hr with ⟨hkind, rfl⟩ | ⟨hkind, c, hc, rfl⟩
  · refine Rule.namesChildren_of_sequence hkind hsymbols' ?_
    rw [htags, Rule.declared_of_sequence hkind, List.takeD_eq_take _ (by simp [Naming.tags]),
      List.take_of_length_le (by simp [Naming.tags])]
    rfl
  · refine Rule.namesChildren_of_choice hkind hc hsymbols' ?_
    obtain ⟨t, rfl, -⟩ := ParseTree.symbols_eq_singleton.1 hsymbols'
    rw [htags, Rule.declared_of_choice hkind]
    rfl

end

/-! ## Parses -/

/-- **Every node of a sequence or choice** stands for children of its rule, and is named and shaped
in the last way that any rule asks for this. -/
theorem exists_follows_of_parse {G G' : Grammar} {top : Symbol} (hG : G.Reachable)
    (hcompile : (Grammar.compile top).run.run G = (.ok (), G')) {cfg : Config} {input : List Char}
    {d : Derivation} (hd : d ∈ (Branch.initial input).ends G'.flat cfg) {u : ParseTree}
    (hu : Occurs u d.tree.shape.1) {r : Rule} (hrule : u.label.rule G'.flat = some r)
    (hkind : r.kind = .sequence ∨ r.kind = .choice) :
    ∃ s body, Occurs s d.tree ∧ u = s.shape.1 ∧ r.StandsFor body ∧
      s.Follows body (G'.ways (Sides.bare ⟨r.target, body⟩)) u.children := by
  obtain ⟨s, hs, rfl⟩ := hu.of_shape
  obtain ⟨parentRule, htagged⟩ := d.tagged_tree.of_occurs hs
  rw [ParseTree.label_shape] at hrule
  obtain ⟨q, hproduction, hrule⟩ := Option.bind_eq_some_iff.1 hrule
  obtain ⟨hq, hsymbols⟩ : q ∈ G'.flat.productions ∧ symbols s.children = q.right := by
    cases (Derivation.part_tree hd).of_occurs hs with
    | leaf hnone => cases hnone.symm.trans hproduction
    | node hp hproduction' _ hchildren =>
      obtain rfl := Option.some.inj (hproduction'.symm.trans hproduction)
      exact ⟨hp, hchildren⟩
  obtain ⟨body, hbody, hsides, hnaming, hshaping⟩ :=
    Grammar.exists_standsFor_of_compile hG hcompile hq hrule hkind
  rw [hsides] at hnaming hshaping
  refine ⟨s, body, hs, rfl, hbody,
    ⟨hsymbols.trans (congrArg Sides.right hsides), ⟨parentRule, ?_⟩, ?_⟩⟩
  · rw [htagged.tags_children, Label.childTags, hproduction, ← hnaming]
  · rw [ParseTree.children_shape hproduction, hshaping]

/-- A rule that is the only one of its target, and asks for nothing twice, has its own way. -/
theorem Grammar.ways_eq_declared {G : Grammar} {r : Rule} {body : List Symbol}
    (honly : G.rulesFor r.target = [r]) (hbody : r.StandsFor body)
    (hvisible : .terminal .epsilon ∉ r.children) (hnodup : r.kind = .choice → r.children.Nodup) :
    G.ways (Sides.bare ⟨r.target, body⟩) = [(r.declared body, .keep)] := by
  have hbare : Sides.bare ⟨r.target, body⟩ = ⟨r.target, body⟩ :=
    Sides.bare_eq fun hmem => hvisible (hbody.subset hmem)
  rw [hbare, ways_of_only honly rfl]
  rcases Rule.standsFor_iff.1 hbody with ⟨hkind, rfl⟩ | ⟨hkind, c, hc, rfl⟩
  · rw [Rule.ways_of_sequence hkind hvisible, Rule.declared_of_sequence hkind]
  · rw [Rule.ways_of_choice hkind hvisible (hnodup hkind) hc, Rule.declared_of_choice hkind]

namespace Grammar

/-- A digit by two names. -/
def digitTwice : Grammar :=
  ((choice (some "top") [(Symbol.terminal .digit).called "a",
    (Symbol.terminal .digit).called "b"]).run {}).2

/-- The grammar after its compile. -/
def digitTwiceCompiled : Grammar := ((compile (.nonterminal "top")).run.run digitTwice).2

theorem compile_digitTwice :
    (compile (.nonterminal "top")).run.run digitTwice = (.ok (), digitTwiceCompiled) := rfl

theorem reachable_digitTwice : digitTwice.Reachable :=
  Relation.ReflTransGen.single (.insert {} (by simp) ..)

/-- The rule of the digit. -/
def digitTwiceRule : Rule :=
  Rule.ofChildren .choice "top" [(Symbol.terminal .digit).called "a",
    (Symbol.terminal .digit).called "b"]

/-- The digit is called as the second alternative says. -/
theorem occurs_digitTwice :
    ∃ u, Occurs u ((parse digitTwiceCompiled.flat 0 "1" none).run {}).1.tree ∧
      u.label.rule digitTwiceCompiled.flat = some digitTwiceRule ∧
      ParseTree.tags u.children = [⟨some "b", 1⟩] := by
  rw [parse_tree]
  have hchildren :
      (search digitTwiceCompiled.flat {} "1".toList).derivation.tree.shape.1.children.map
        (fun u => (u.label.ruleIndex, ParseTree.tags u.children)) =
          [(some 0, [⟨some "b", 1⟩]), (none, [])] := by
    cbv
  obtain ⟨u, us, heq, hu, -⟩ := List.map_eq_cons_iff.1 hchildren
  obtain ⟨hindex, htags⟩ := Prod.mk.inj hu
  exact ⟨u, ParseTree.occurs_child (heq ▸ List.mem_cons_self ..), Label.rule_eq rfl hindex, htags⟩

end Grammar

/-- **The names of the children of sequences and choices.**  A node that is governed by such a rule
stands for children of the rule, but is named and shaped in the last way that any rule asks for
these.  It carries the names that its own rule declares if this is the last way and no symbol is
empty, in particular if the rule is the only one of its target and has no alternative twice. -/
theorem childNames_of_parse {G G' : Grammar} {top : Symbol} (hG : G.Reachable)
    (hcompile : (Grammar.compile top).run.run G = (.ok (), G')) {listeners : Nat} {input : String}
    {found : Option (List Completion)} {ctx : Context} {u : ParseTree}
    (hu : Occurs u ((parse G'.flat listeners input found).run ctx).1.tree) {r : Rule}
    (hrule : u.label.rule G'.flat = some r) (hkind : r.kind = .sequence ∨ r.kind = .choice) :
    ∃ s body, Occurs s (search G'.flat ctx.config input.toList).derivation.tree ∧ u = s.shape.1 ∧
      r.StandsFor body ∧
      let ways := G'.ways (Sides.bare ⟨r.target, body⟩)
      s.Follows body ways u.children ∧
      (Naming.last (ways.map Prod.fst) = r.declared body →
        Shaping.last (ways.map Prod.snd) = .keep → .terminal .epsilon ∉ body →
        r.NamesChildren u.children) ∧
      (G'.rulesFor r.target = [r] → .terminal .epsilon ∉ r.children →
        (r.kind = .choice → r.children.Nodup) → r.NamesChildren u.children) := by
  rw [parse_tree] at hu
  have hd := (search_mem_ends G'.flat ctx.config input.toList).1
  obtain ⟨s, body, hs, hshape, hbody, hfollows⟩ :=
    exists_follows_of_parse hG hcompile hd hu hrule hkind
  refine ⟨s, body, hs, hshape, hbody, hfollows, hfollows.namesChildren hbody,
    fun honly hvisible hnodup => ?_⟩
  rw [Grammar.ways_eq_declared honly hbody hvisible hnodup] at hfollows
  refine hfollows.namesChildren hbody ?_ rfl fun hmem => hvisible (hbody.subset hmem)
  exact Naming.last_singleton _

/-- The digit of `1`. -/
theorem childNames_of_parse_digitTwice :
    Grammar.digitTwice.Reachable ∧
    (Grammar.compile (.nonterminal "top")).run.run Grammar.digitTwice
      = (.ok (), Grammar.digitTwiceCompiled) ∧
    ∃ u s : ParseTree, ∃ body,
      Occurs u ((parse Grammar.digitTwiceCompiled.flat 0 "1" none).run {}).1.tree ∧
      u.label.rule Grammar.digitTwiceCompiled.flat = some Grammar.digitTwiceRule ∧
      u = s.shape.1 ∧ Grammar.digitTwiceRule.StandsFor body ∧
      s.Follows body (Grammar.digitTwiceCompiled.ways (Sides.bare ⟨"top", body⟩)) u.children := by
  obtain ⟨u, hu, hrule, -⟩ := Grammar.occurs_digitTwice
  obtain ⟨s, body, -, hshape, hbody, hfollows, -⟩ := childNames_of_parse
    Grammar.reachable_digitTwice Grammar.compile_digitTwice hu hrule (.inr rfl)
  exact ⟨Grammar.reachable_digitTwice, rfl, u, s, body, hu, hrule, hshape, hbody, hfollows⟩

/-- **A name is overwritten**: a digit that is offered by two names has the second of them, as if the
second alternative had been taken. -/
theorem childNames_overwritten :
    (Grammar.compile (.nonterminal "top")).run.run Grammar.digitTwice
      = (.ok (), Grammar.digitTwiceCompiled) ∧
    ∃ u, Occurs u ((parse Grammar.digitTwiceCompiled.flat 0 "1" none).run {}).1.tree ∧
      u.label.rule Grammar.digitTwiceCompiled.flat = some Grammar.digitTwiceRule ∧
      ParseTree.tags u.children = [⟨some "b", 1⟩] ∧
      ¬ Grammar.digitTwiceRule.NamesChildren u.children := by
  obtain ⟨u, hu, hrule, htags⟩ := Grammar.occurs_digitTwice
  refine ⟨rfl, u, hu, hrule, htags, fun h => ?_⟩
  obtain ⟨t, ht, hsymbol, hnth, -⟩ := h
  have htag : t.label.tag ∈ ParseTree.tags u.children := List.mem_map_of_mem ht
  rw [htags, List.mem_singleton] at htag
  -- both alternatives are the digit, so the first one has its number
  have hdigit : t.label.symbol = .terminal .digit := by
    simpa [Grammar.digitTwiceRule, Rule.ofChildren, Symbol.called] using hsymbol
  rw [htag, hdigit] at hnth
  revert hnth
  decide

end Typeahead
