import Typeahead.Proofs.Grammar.Dropped

/-!
# Proofs/Grammar/Tidy — what the productions of a grammar drop

Productions are merged if two rules ask for the same sides.  This does no harm to what they drop: the
productions of a join mention names of its own, so they are shared with no other rule, and all others
drop nothing (`FlatGrammar.Unjoined`).  `FlatGrammar.Tidy` is what lowering keeps of this, rule by
rule.

A part that is isolated adds two productions which keep everything.  So all grammars that a parse
searches are clean (`Grammar.clean_of_searched`): their productions drop no terminals other than the
joints of joins that want their entries only.
-/

namespace Typeahead

namespace FlatGrammar

variable {g g' : FlatGrammar} {table : SymbolTable}

/-- A production made by no join. -/
structure Unjoined (g : FlatGrammar) (p : Production) : Prop where
  shaping : p.shaping.IsPlain p.right
  rule : ∀ r, g.ruleOf p = some r → ∀ j, r.kind ≠ .join j

theorem Unjoined.drops {p : Production} (h : g.Unjoined p) :
    g.Drops table p.right p.shaping (g.jointPlaces p) := by
  have hplaces : g.jointPlaces p = [] := by
    rw [jointPlaces]
    split
    next r hr => exact Rule.jointPlaces_of_ne_join (h.rule r hr) _
    next => rfl
  rw [hplaces]
  exact .of_isPlain h.shaping

/-- **A grammar is tidy**: no production drops terminals other than joints, and those that joins have
made mention names that are not in `table`. -/
structure Tidy (g : FlatGrammar) (table : SymbolTable) : Prop where
  knows : ∀ x, table.knows x = true → g.symbols.knows x = true
  closed : ∀ s ∈ g.sides, ∀ x, s.Mentions x → g.symbols.knows x = true
  bounded : ∀ p ∈ g.productions, ∀ i, p.rule = some i → i < g.rules.size
  unjoined : ∀ p ∈ g.productions,
    (∀ x, Sides.Mentions ⟨p.left, p.right⟩ x → table.knows x = true) → g.Unjoined p
  drops : ∀ p ∈ g.productions, g.Drops table p.right p.shaping (g.jointPlaces p)

theorem tidy_ofSymbols (table : SymbolTable) : (ofSymbols table).Tidy table where
  knows _ hx := hx
  closed := by simp [sides, ofSymbols]
  bounded := by simp [ofSymbols]
  unjoined := by simp [ofSymbols]
  drops := by simp [ofSymbols]

/-! ## Lowering one rule -/

/-- A production is as it was if no other with its sides was added. -/
theorem mem_or_drawn_of_mem_draw {d : Draft} {q : Production} (hq : q ∈ (g.draw d).productions) :
    q ∈ g.productions ∨ ⟨q.left, q.right⟩ = d.sides.bare := by
  rcases mem_draw hq with hq | ⟨p, -, hsides, rfl⟩ | rfl
  · exact .inl hq
  · exact .inr hsides
  · exact .inr rfl

theorem mem_or_drawn_of_mem_foldl_draw {ds : List Draft} {q : Production}
    (hq : q ∈ (ds.foldl draw g).productions) :
    q ∈ g.productions ∨ ∃ d ∈ ds, ⟨q.left, q.right⟩ = d.sides.bare := by
  induction ds generalizing g with
  | nil => exact .inl hq
  | cons d ds ih =>
    rcases ih hq with hq | ⟨d', hd', hsides⟩
    · refine (mem_or_drawn_of_mem_draw hq).imp_right fun hsides => ?_
      exact ⟨d, List.mem_cons_self .., hsides⟩
    · exact .inr ⟨d', List.mem_cons_of_mem _ hd', hsides⟩

theorem ruleOf_eq {added : List Rule} (hrules : g'.rules.toList = g.rules.toList ++ added)
    {p : Production} (hp : ∀ i, p.rule = some i → i < g.rules.size) : g'.ruleOf p = g.ruleOf p := by
  rw [ruleOf, ruleOf]
  rcases hrule : p.rule with _ | i
  · rfl
  · rw [Option.bind_some, Option.bind_some, ← Array.getElem?_toList, hrules,
      List.getElem?_append_left (hp i hrule), Array.getElem?_toList]

theorem jointPlaces_eq {added : List Rule} (hrules : g'.rules.toList = g.rules.toList ++ added)
    {p : Production} (hp : ∀ i, p.rule = some i → i < g.rules.size) :
    g'.jointPlaces p = g.jointPlaces p := by
  rw [jointPlaces, jointPlaces, ruleOf_eq hrules hp]

theorem Unjoined.mono {added : List Rule} {p : Production} (h : g.Unjoined p)
    (hrules : g'.rules.toList = g.rules.toList ++ added)
    (hp : ∀ i, p.rule = some i → i < g.rules.size) : g'.Unjoined p :=
  ⟨h.shaping, fun r hr => h.rule r (by rwa [ruleOf_eq hrules hp] at hr)⟩

/-- **A rule is lowered** onto a tidy grammar, under the names `a`. -/
structure Lowers (g g' : FlatGrammar) (table : SymbolTable) (r : Rule) (a : Auxiliaries) : Prop where
  tidy : g.Tidy table
  known : r.Known table
  visible : r.kind.Rebuilds → .terminal .epsilon ∉ r.symbols
  lower : g.lower r = .ok g'
  fresh : a.Fresh g.symbols
  makes : Makes g g' (r :: r.helpers a) (r.drafts g.rules.size a) (r.auxiliaries a)

namespace Lowers

variable {r : Rule} {a : Auxiliaries} {j : Join} {q : Production}

theorem mem_or_drawn (h : Lowers g g' table r a) (hq : q ∈ g'.productions) : q ∈ g.productions ∨
    ∃ d ∈ r.drafts g.rules.size a, ⟨q.left, q.right⟩ = d.sides.bare := by
  have hproductions := h.makes.productions
  rw [hproductions] at hq
  exact mem_or_drawn_of_mem_foldl_draw hq

theorem closed (h : Lowers g g' table r a) :
    ∀ s ∈ g'.sides, ∀ x, s.Mentions x → g'.symbols.knows x = true :=
  knows_of_lower (h.known.mono h.tidy.knows) h.tidy.closed h.lower

/-- A name that was made up is not in the table. -/
theorem unknown (h : Lowers g g' table r a) {x : String} (hx : x ∈ a.names) :
    table.knows x = false := by
  have hx := h.fresh.unknown x hx
  rw [Bool.eq_false_iff] at hx ⊢
  exact mt (h.tidy.knows x) hx

theorem nodup (h : Lowers g g' table r a) : (r.target :: a.names).Nodup := by
  refine List.nodup_cons.2 ⟨fun hmem => ?_, h.fresh.nodup⟩
  have hunknown := h.unknown hmem
  rw [h.known.target] at hunknown
  cases hunknown

/-- Nothing is added to the productions of names that were made up before. -/
theorem folds (h : Lowers g g' table r a) {T : String → Prop} (hT : g.Folds table T) :
    g'.Folds table T where
  unknown := hT.unknown
  knows x hx := (h.makes.knows x).2 (.inl (hT.knows x hx))
  folded q hq hleft := by
    rcases h.mem_or_drawn hq with hq | ⟨d, hd, hsides⟩
    · exact hT.folded q hq hleft
    · have hdleft : q.left = d.sides.left := congrArg Sides.left hsides
      have hunknown := hT.unknown _ hleft
      have hknows := hT.knows _ hleft
      rcases (Rule.shares_of_mem_drafts hd).left with htarget | hname
      · rw [hdleft, htarget, h.known.target] at hunknown
        cases hunknown
      · rw [hdleft, h.fresh.unknown _ hname] at hknows
        cases hknows

/-! ### A rule that is no join -/

/-- **What a rule adds that is no join** is plain, also where it merges with what is there. -/
theorem unjoined_of_ne_join (h : Lowers g g' table r a) (hjoin : ∀ j, r.kind ≠ .join j)
    (hq : q ∈ g'.productions)
    (hnames : ∀ x, Sides.Mentions ⟨q.left, q.right⟩ x → table.knows x = true) : g'.Unjoined q := by
  have hproductions := h.makes.productions
  rw [hproductions] at hq
  constructor
  · have hplain : g.Shapes fun s shaping =>
        (∀ x, s.Mentions x → table.knows x = true) → shaping.IsPlain s.right :=
      fun p hp hnames => (h.tidy.unjoined p hp hnames).shaping
    exact hplain.foldl_draw (fun d hd _ => Rule.isPlain_of_mem_drafts hjoin h.visible hd) q hq hnames
  · intro r' hr'
    rcases like_or_of_mem_foldl_draw hq with ⟨p, hp, hleft, hright, hrule⟩ | ⟨d, hd, hrule, -⟩
    · rw [ruleOf, ← hrule, ← ruleOf, ruleOf_eq h.makes.rules (h.tidy.bounded p hp)] at hr'
      exact (h.tidy.unjoined p hp (by rwa [hleft, hright])).rule r' hr'
    · have hd : d.rule = g.rules.size :=
        ((Rule.shares_iff_of_ne_join hjoin).1 (Rule.shares_of_mem_drafts hd)).1
      rw [ruleOf, hrule, hd, Option.bind_some, getElem?_size_of_rules h.makes.rules] at hr'
      exact Option.some.inj hr' ▸ hjoin

/-- It is written with names of the table. -/
theorem names_of_ne_join (h : Lowers g g' table r a) (hjoin : ∀ j, r.kind ≠ .join j) {d : Draft}
    (hd : d ∈ r.drafts g.rules.size a) {x : String} (hx : d.sides.Mentions x) :
    table.knows x = true := by
  obtain ⟨-, hleft, hright⟩ := (Rule.shares_iff_of_ne_join hjoin).1 (Rule.shares_of_mem_drafts hd)
  rcases hx with rfl | hx
  · rw [hleft]
    exact h.known.target
  · rcases List.mem_cons.1 (hright hx) with hx | hx
    · rw [Symbol.nonterminal.inj hx]
      exact h.known.target
    · exact h.known.symbols x (r.children_subset_symbols hx)

/-! ### A join -/

/-- A draft of a join has no empty symbols. -/
theorem form_of_mem_drafts (h : Lowers g g' table r a) (hj : r.kind = .join j) {d : Draft}
    (hd : d ∈ r.drafts g.rules.size a) : ∃ entry, r.children.head? = some entry ∧
      j.Form a r.target entry d.sides.bare d.shaping := by
  obtain ⟨entry, hhead, hform⟩ := (Rule.form_of_join hj).1
    (Rule.form_of_mem_drafts (fun j hj => lower_join h.lower hj) hd)
  refine ⟨entry, hhead, ?_⟩
  have hvisible : .terminal .epsilon ∉ r.symbols := h.visible (by rw [hj]; trivial)
  rw [Sides.bare_eq (hform.visible ?_ ?_)]
  · exact hform
  · rintro rfl
    exact hvisible (r.children_subset_symbols (List.mem_of_head? hhead))
  · intro hmem
    rw [Rule.symbols, hj] at hvisible
    exact hvisible (List.mem_append_right _ hmem)

/-- What a join adds mentions a new name. -/
theorem exists_mentions_of_drawn (h : Lowers g g' table r a) (hj : r.kind = .join j) {d : Draft}
    (hd : d ∈ r.drafts g.rules.size a) {s : Sides} (hs : s = d.sides.bare) :
    ∃ x ∈ a.names, s.Mentions x := by
  obtain ⟨entry, -, hform⟩ := h.form_of_mem_drafts hj hd
  rw [hs]
  exact hform.exists_mentions

/-- What is there mentions no name that was made up. -/
theorem not_mentions (h : Lowers g g' table r a) (hq : q ∈ g.productions) {x : String}
    (hx : x ∈ a.names) : ¬ Sides.Mentions ⟨q.left, q.right⟩ x := by
  intro hmentions
  have hknows := h.tidy.closed _ (List.mem_map_of_mem hq) x hmentions
  rw [h.fresh.unknown x hx] at hknows
  cases hknows

/-- A production that mentions a new name has a form of the join. -/
theorem exists_form (h : Lowers g g' table r a) (hj : r.kind = .join j) (hq : q ∈ g'.productions)
    (hnew : ∃ x ∈ a.names, Sides.Mentions ⟨q.left, q.right⟩ x) :
    ∃ entry, r.children.head? = some entry ∧
      j.Form a r.target entry ⟨q.left, q.right⟩ q.shaping := by
  have hforms : g.Shapes fun s shaping => (∃ x ∈ a.names, s.Mentions x) →
      ∃ entry, r.children.head? = some entry ∧ j.Form a r.target entry s shaping :=
    fun p hp ⟨x, hx, hmentions⟩ => absurd hmentions (h.not_mentions hp hx)
  have hproductions := h.makes.productions
  rw [hproductions] at hq
  exact hforms.foldl_draw (fun d hd _ => h.form_of_mem_drafts hj hd) q hq hnew

/-- It belongs to the rule of the join, or to the rule of its tail. -/
theorem exists_shares (h : Lowers g g' table r a) (hj : r.kind = .join j) (hq : q ∈ g'.productions)
    (hnew : ∃ x ∈ a.names, Sides.Mentions ⟨q.left, q.right⟩ x) : ∃ k, q.rule = some k ∧
      a.Shares r.target r.symbols g.rules.size (g.rules.size + 1) k ⟨q.left, q.right⟩ := by
  have hproductions := h.makes.productions
  rw [hproductions] at hq
  rcases like_or_of_mem_foldl_draw hq with ⟨p, hp, hleft, hright, -⟩ | ⟨d, hd, hrule, hsides⟩
  · obtain ⟨x, hx, hmentions⟩ := hnew
    rw [← hleft, ← hright] at hmentions
    exact absurd hmentions (h.not_mentions hp hx)
  · refine ⟨d.rule, hrule, ?_⟩
    rw [hsides]
    exact ((Rule.shares_iff_of_join hj).1 (Rule.shares_of_mem_drafts hd)).bare

/-- **The joints of a new production**: the tail has a rule of its own, which is no join. -/
theorem jointPlaces_of_new (h : Lowers g g' table r a) (hj : r.kind = .join j)
    (hq : q ∈ g'.productions) (hnew : ∃ x ∈ a.names, Sides.Mentions ⟨q.left, q.right⟩ x) :
    g'.jointPlaces q = if q.left = a.tail then [] else r.jointPlaces ⟨q.left, q.right⟩ := by
  obtain ⟨k, hrule, hshares⟩ := h.exists_shares hj hq hnew
  have hk := hshares.index h.nodup
  split_ifs with htail
  · have hhelper : ∀ r', g'.rules[k]? = some r' → ∀ j, r'.kind ≠ .join j := by
      intro r' hr'
      rw [hk, if_pos htail, ← Array.getElem?_toList, h.makes.rules,
        List.getElem?_append_right (by simp)] at hr'
      have hmem : r' ∈ r.helpers a := List.mem_of_getElem? (i := 0) (by simpa using hr')
      exact (Rule.isHelper_of_mem_helpers hmem).kind
    rw [jointPlaces, ruleOf, hrule, Option.bind_some]
    split
    next r' hr' => exact Rule.jointPlaces_of_ne_join (hhelper r' hr') _
    next => rfl
  · rw [jointPlaces, ruleOf, hrule, hk, if_neg htail, Option.bind_some,
      getElem?_size_of_rules h.makes.rules]

/-- **What holds the tail of a join** has children of nonterminals only. -/
theorem folds_new (h : Lowers g g' table r a) (hj : r.kind = .join j) : g'.Folds table fun x =>
    (x = a.tail ∨ x = a.rest) ∧ g'.symbols.knows x = true where
  unknown x hx := h.unknown (by rcases hx.1 with rfl | rfl <;> simp)
  knows x hx := hx.2
  folded q hq := by
    rintro ⟨hleft, -⟩
    have hnew : ∃ x ∈ a.names, Sides.Mentions ⟨q.left, q.right⟩ x :=
      ⟨q.left, by rcases hleft with hleft | hleft <;> simp [hleft], .inl rfl⟩
    obtain ⟨entry, -, hform⟩ := h.exists_form hj hq hnew
    exact hform.folded h.nodup hleft fun hmem =>
      ⟨.inl rfl, h.closed _ (List.mem_map_of_mem hq) a.tail (.inr hmem)⟩

/-- **What a join adds** drops its joints and no other terminals. -/
theorem drops_of_new (h : Lowers g g' table r a) (hj : r.kind = .join j) (hq : q ∈ g'.productions)
    (hnew : ∃ x ∈ a.names, Sides.Mentions ⟨q.left, q.right⟩ x) :
    g'.Drops table q.right q.shaping (g'.jointPlaces q) := by
  obtain ⟨entry, hhead, hform⟩ := h.exists_form hj hq hnew
  rw [h.jointPlaces_of_new hj hq hnew]
  refine hform.drops hj hhead h.nodup ?_ fun x hx hmem => ?_
  · rintro x hx rfl
    have hunknown := h.unknown hx
    rw [h.known.symbols x (r.children_subset_symbols (List.mem_of_head? hhead))] at hunknown
    cases hunknown
  · exact ⟨_, h.folds_new hj, hx, h.closed _ (List.mem_map_of_mem hq) x (.inr hmem)⟩

/-! ### Any rule -/

/-- **The productions after lowering a rule**: those that were there, those that a join has added,
and those that belong to no join. -/
theorem cases (h : Lowers g g' table r a) (hq : q ∈ g'.productions) : q ∈ g.productions ∨
    (∃ j, r.kind = .join j ∧ ∃ x ∈ a.names, Sides.Mentions ⟨q.left, q.right⟩ x) ∨
    g'.Unjoined q := by
  refine (h.mem_or_drawn hq).imp_right ?_
  rintro ⟨d, hd, hsides⟩
  by_cases hj : ∃ j, r.kind = .join j
  · obtain ⟨j, hj⟩ := hj
    exact .inl ⟨j, hj, h.exists_mentions_of_drawn hj hd hsides⟩
  · refine .inr (h.unjoined_of_ne_join (not_exists.1 hj) hq fun x hx => ?_)
    rw [hsides, Sides.mentions_bare] at hx
    exact h.names_of_ne_join (not_exists.1 hj) hd hx

theorem bounded (h : Lowers g g' table r a) :
    ∀ p ∈ g'.productions, ∀ i, p.rule = some i → i < g'.rules.size := by
  obtain ⟨_, -, _, -, hputs⟩ := lower_puts h.lower
  exact hputs.bounded h.tidy.bounded

end Lowers

/-- **Lowering keeps a grammar tidy.** -/
theorem Tidy.lower {r : Rule} (h : g.Tidy table) (hr : r.Known table)
    (hvisible : r.kind.Rebuilds → .terminal .epsilon ∉ r.symbols) (hlower : g.lower r = .ok g') :
    g'.Tidy table := by
  obtain ⟨a, ha, hmakes⟩ := lower_makes hlower
  have hlowers : Lowers g g' table r a := ⟨h, hr, hvisible, hlower, ha, hmakes⟩
  refine ⟨fun x hx => (hmakes.knows x).2 (.inl (h.knows x hx)), hlowers.closed, hlowers.bounded,
    fun p hp hnames => ?_, fun p hp => ?_⟩
  · rcases hlowers.cases hp with hold | ⟨-, -, x, hx, hmentions⟩ | hnew
    · exact (h.unjoined p hold hnames).mono hmakes.rules (h.bounded p hold)
    · have hunknown := hlowers.unknown hx
      rw [hnames x hmentions] at hunknown
      cases hunknown
    · exact hnew
  · rcases hlowers.cases hp with hold | ⟨j, hj, hnew⟩ | hnew
    · rw [jointPlaces_eq hmakes.rules (h.bounded p hold)]
      exact (h.drops p hold).mono fun T => hlowers.folds
    · exact hlowers.drops_of_new hj hp hnew
    · exact hnew.drops

/-! ## The grammars that searches run on -/

/-- **The productions of a grammar are clean**: none of them drops terminals other than joints. -/
structure Clean (g : FlatGrammar) (table : SymbolTable) : Prop where
  knows : ∀ x, table.knows x = true → g.symbols.knows x = true
  lefts : ∀ p ∈ g.productions, g.symbols.knows p.left = true
  bounded : ∀ p ∈ g.productions, ∀ i, p.rule = some i → i < g.rules.size
  drops : ∀ p ∈ g.productions, g.Drops table p.right p.shaping (g.jointPlaces p)

theorem Tidy.clean (h : g.Tidy table) : g.Clean table where
  knows := h.knows
  lefts p hp := h.closed _ (List.mem_map_of_mem hp) p.left (.inl rfl)
  bounded := h.bounded
  drops := h.drops

/-- The production of an isolated part. -/
def isolatedDraft (rule : Nat) (target : String) (s : Symbol) (name : Option String) : Draft :=
  ⟨rule, ⟨target, [s]⟩, .positional [name], .keep⟩

/-- **What isolating a part adds**: a rule with one production, and one for the start symbol. -/
theorem exists_isolating (g : FlatGrammar) (s : Symbol) (name : Option String) :
    ∃ target g₁, Makes g g₁ [.ofChildren .sequence target [⟨s, name⟩]]
        [isolatedDraft g.rules.size target s name] [target] ∧
      (g.isolating s name).rules = g₁.rules ∧ (g.isolating s name).symbols = g₁.symbols ∧
      ∀ p ∈ (g.isolating s name).productions, p ∈ g₁.productions ∨
        p = .ofSymbols SymbolTable.start [.nonterminal target] := by
  rcases hfresh : g.fresh "entire_sequence" with ⟨target, g₀⟩
  refine ⟨target, _, ((makes_of_fresh hfresh).trans (makes_addRule g₀ _)).extend
    g.rules.size target [s] (.positional [name]) .keep, ?_⟩
  have hsize : g₀.rules.size = g.rules.size := (makes_of_fresh hfresh).size
  have heq : g.isolating s name = ((g₀.addRule (.ofChildren .sequence target [⟨s, name⟩])).2.extend
      g.rules.size target [s] (.positional [name]) .keep).removeStart.add
        (.ofSymbols SymbolTable.start [.nonterminal target]) := by
    rw [isolating, hfresh, ← hsize]
    rfl
  rw [heq, add]
  split
  · exact ⟨rfl, rfl, fun p hp => .inl (List.mem_of_mem_filter hp)⟩
  · refine ⟨rfl, rfl, fun p hp => (List.mem_append.1 hp).imp List.mem_of_mem_filter ?_⟩
    exact List.mem_singleton.1

/-- A production that is added for an isolated part: it is for a new name or for the start symbol. -/
structure Isolated (g g' : FlatGrammar) (p : Production) : Prop where
  left : p.left = SymbolTable.start ∨ g.symbols.knows p.left = false
  knows : p.left ≠ SymbolTable.start → g'.symbols.knows p.left = true
  bounded : ∀ i, p.rule = some i → i < g'.rules.size
  unjoined : g'.Unjoined p

/-- The production of the isolated part is as it was asked for, because its name is new. -/
theorem Clean.mem_or_isolated (h : g.Clean table) {target : String} {added : List Rule} {s : Symbol}
    {name : Option String}
    (hmakes : Makes g g' added [isolatedDraft g.rules.size target s name] [target])
    {p : Production} (hp : p ∈ g'.productions) : p ∈ g.productions ∨
      p.left = target ∧ p.rule = some g.rules.size ∧ p.shaping = .keep := by
  have hleft : ∀ p ∈ g.productions, p.left ≠ target := by
    rintro p hp rfl
    have hunknown := hmakes.unknown p.left (List.mem_singleton_self _)
    rw [h.lefts p hp] at hunknown
    cases hunknown
  rw [hmakes.productions] at hp
  refine (mem_or_drawn_of_mem_foldl_draw hp).imp_right ?_
  rintro ⟨d, hd, hsides⟩
  obtain rfl := List.mem_singleton.1 hd
  have htarget : p.left = target := congrArg Sides.left hsides
  refine ⟨htarget, ?_, ?_⟩
  · rcases like_or_of_mem_foldl_draw hp with ⟨q, hq, hleft', -⟩ | ⟨d, hd, hrule, -⟩
    · exact absurd (hleft'.trans htarget) (hleft q hq)
    · obtain rfl := List.mem_singleton.1 hd
      exact hrule
  · have hshapes : g.Shapes fun s shaping => s.left = target → shaping = .keep :=
      fun p hp heq => absurd heq (hleft p hp)
    exact hshapes.foldl_draw (List.forall_mem_singleton.2 fun _ => rfl) p hp htarget

theorem Clean.mem_isolating (h : g.Clean table) (s : Symbol) (name : Option String) :
    ∀ p ∈ (g.isolating s name).productions,
      p ∈ g.productions ∨ g.Isolated (g.isolating s name) p := by
  obtain ⟨target, g₁, hmakes, hrules, hsymbols, hproductions⟩ := g.exists_isolating s name
  intro p hp
  rcases hproductions p hp with hp | rfl
  · refine (h.mem_or_isolated hmakes hp).imp_right ?_
    rintro ⟨rfl, hrule, hshaping⟩
    have hmem : p.left ∈ [p.left] := List.mem_singleton_self _
    refine ⟨.inr (hmakes.unknown _ hmem), fun _ => ?_, fun i hi => ?_, .inl hshaping,
      fun r hr j hj => ?_⟩
    · rw [hsymbols]
      exact (hmakes.knows _).2 (.inr hmem)
    · rw [hrule, Option.some.injEq] at hi
      rw [hrules, hmakes.size, ← hi]
      exact Nat.lt_succ_self _
    · rw [ruleOf, hrule, Option.bind_some, hrules, getElem?_size_of_rules hmakes.rules] at hr
      obtain rfl := Option.some.inj hr
      cases hj
  · have hnone : (Production.ofSymbols SymbolTable.start [.nonterminal target]).rule = none := rfl
    refine .inr ⟨.inl rfl, fun hne => absurd rfl hne, fun i hi => ?_, .inl rfl, fun r hr => ?_⟩
    · rw [hnone] at hi
      cases hi
    · rw [ruleOf, hnone] at hr
      cases hr

/-- **Isolating a part** keeps a grammar clean. -/
theorem Clean.isolating (h : g.Clean table) (hstart : table.knows SymbolTable.start = true)
    (s : Symbol) (name : Option String) : (g.isolating s name).Clean table := by
  obtain ⟨target, g₁, hmakes, hrules, hsymbols, -⟩ := g.exists_isolating s name
  have hknows : ∀ x, g.symbols.knows x = true → (g.isolating s name).symbols.knows x = true := by
    intro x hx
    rw [hsymbols]
    exact (hmakes.knows x).2 (.inl hx)
  have hadded : (g.isolating s name).rules.toList
      = g.rules.toList ++ [.ofChildren .sequence target [⟨s, name⟩]] := by
    rw [hrules, hmakes.rules]
  have hfolds : ∀ T, g.Folds table T → (g.isolating s name).Folds table T := by
    refine fun T hT => ⟨hT.unknown, fun x hx => hknows x (hT.knows x hx), fun p hp hleft => ?_⟩
    rcases h.mem_isolating s name p hp with hp | hp
    · exact hT.folded p hp hleft
    · have hunknown := hT.unknown _ hleft
      have hknown := hT.knows _ hleft
      rcases hp.left with hp | hp <;> simp_all
  refine ⟨fun x hx => hknows x (h.knows x hx), fun p hp => ?_, fun p hp i hi => ?_, fun p hp => ?_⟩
  all_goals rcases h.mem_isolating s name p hp with hold | hnew
  · exact hknows _ (h.lefts p hold)
  · by_cases hleft : p.left = SymbolTable.start
    · rw [hleft]
      exact hknows _ (h.knows _ hstart)
    · exact hnew.knows hleft
  · rw [hrules, hmakes.size]
    exact Nat.lt_succ_of_lt (h.bounded p hold i hi)
  · exact hnew.bounded i hi
  · rw [jointPlaces_eq hadded (h.bounded p hold)]
    exact (h.drops p hold).mono hfolds
  · exact hnew.unjoined.drops

/-- **The grammars that a parse searches**: its own, and those that isolate parts, inside each
other. -/
inductive Searched (g : FlatGrammar) : FlatGrammar → Prop
  | whole : Searched g g
  | isolating {g' : FlatGrammar} (h : Searched g g') (s : Symbol) (name : Option String) :
    Searched g (g'.isolating s name)

theorem Clean.searched (h : g.Clean table) (hstart : table.knows SymbolTable.start = true)
    (hg : g.Searched g') : g'.Clean table := by
  induction hg with
  | whole => exact h
  | isolating _ s name ih => exact ih.isolating hstart s name

end FlatGrammar

namespace Grammar

variable {G G' : Grammar} {top : Symbol}

/-- **A compiled grammar is tidy**, if no empty symbol stands in a rule that rebuilds its nodes. -/
theorem tidy_of_compile (hG : G.Reachable)
    (hvisible : ∀ r ∈ G.rules, r.kind.Rebuilds → .terminal .epsilon ∉ r.symbols)
    (h : (compile top).run.run G = (.ok (), G')) : G'.flat.Tidy G'.symbols := by
  obtain ⟨hlower, -, hsymbols⟩ := compile_ok h
  obtain ⟨hfold, -⟩ := lowerAll_ok hlower
  rw [hsymbols]
  refine lower_induction (P := (·.Tidy (G.withStart top).symbols)) hfold
    (FlatGrammar.tidy_ofSymbols _) fun r hr g g' hg hlower => ?_
  have hr := Array.mem_toList_iff.1 hr
  refine hg.lower (hG.closed.withStart top r hr) ?_ hlower
  rcases mem_rules_withStart.1 hr with ⟨hr, -⟩ | rfl
  · exact hvisible r hr
  · exact False.elim

/-- **No search on a compiled grammar** drops terminals other than joints from its trees. -/
theorem clean_of_searched (hG : G.Reachable)
    (hvisible : ∀ r ∈ G.rules, r.kind.Rebuilds → .terminal .epsilon ∉ r.symbols)
    (h : (compile top).run.run G = (.ok (), G')) {g : FlatGrammar} (hg : G'.flat.Searched g) :
    g.Clean G'.symbols := by
  refine (tidy_of_compile hG hvisible h).clean.searched ?_ hg
  rw [(compile_ok h).2.2]
  exact knows_start_withStart

end Grammar

end Typeahead
