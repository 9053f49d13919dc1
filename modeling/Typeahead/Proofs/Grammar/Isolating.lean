import Typeahead.Proofs.Grammar.Tidy
import Typeahead.Proofs.ParseTree.Relabelled
import Mathlib.Logic.Equiv.Basic

/-!
# Proofs/Grammar/Isolating — parts that are isolated inside each other

To isolate a part, a grammar gets a new name with one production for that part, a rule for it, and
a start symbol that derives this name alone.  Isolated parts pile up: the grammar of a part that is
met while another is completed still has the name and the rule of the other.  Nothing of that is in
the way (`ends_isolating`): a part has the same derivations in every grammar that is searched, up to
the name and the index that isolating it makes up.
-/

namespace Typeahead

namespace FlatGrammar

variable {g h : FlatGrammar} {s : Symbol} {name : Option String} {x : String}

/-- **A grammar is well formed**: all names that its productions and rules are written with are
known, and a production belongs to a rule that is there, or to none. -/
structure WellFormed (g : FlatGrammar) : Prop where
  start : g.symbols.knows SymbolTable.start = true
  closed : ∀ s ∈ g.sides, ∀ x, s.Mentions x → g.symbols.knows x = true
  bounded : ∀ p ∈ g.productions, ∀ i, p.rule = some i → i < g.rules.size
  children : ∀ r ∈ g.rules, ∀ x, .nonterminal x ∈ r.children → g.symbols.knows x = true

theorem WellFormed.lefts (h : g.WellFormed) {p : Production} (hp : p ∈ g.productions) :
    g.symbols.knows p.left = true :=
  h.closed _ (List.mem_map_of_mem hp) p.left (.inl rfl)

theorem WellFormed.rights (h : g.WellFormed) {p : Production} (hp : p ∈ g.productions)
    (hx : .nonterminal x ∈ p.right) : g.symbols.knows x = true :=
  h.closed _ (List.mem_map_of_mem hp) x (.inr hx)

/-! ## What isolating adds -/

/-- The name made up for an isolated part. -/
def isolatedName (g : FlatGrammar) : String := (g.symbols.fresh "entire_sequence").1

/-- The production of an isolated part. -/
def isolatedProduction (g : FlatGrammar) (s : Symbol) (name : Option String) : Production :=
  { Production.ofSymbols g.isolatedName [s] with
    rule := some g.rules.size, naming := .positional [name] }

/-- The rule of an isolated part. -/
def isolatedRule (g : FlatGrammar) (s : Symbol) (name : Option String) : Rule :=
  .ofChildren .sequence g.isolatedName [⟨s, name⟩]

/-- The production that derives nothing but the isolated part. -/
def isolatedStart (g : FlatGrammar) : Production :=
  .ofSymbols SymbolTable.start [.nonterminal g.isolatedName]

theorem mem_right_isolatedProduction {t : Symbol}
    (h : t ∈ (g.isolatedProduction s name).right) : t = s := by
  have h : t ∈ [s].filter (· ≠ .terminal .epsilon) := h
  exact List.mem_singleton.1 (List.mem_of_mem_filter h)

theorem mem_right_isolatedStart {t : Symbol} (h : t ∈ g.isolatedStart.right) :
    t = .nonterminal g.isolatedName := by
  have h : t ∈ [Symbol.nonterminal g.isolatedName].filter (· ≠ .terminal .epsilon) := h
  exact List.mem_singleton.1 (List.mem_of_mem_filter h)

theorem isolatedName_unknown (g : FlatGrammar) : g.symbols.knows g.isolatedName = false :=
  SymbolTable.fresh_unknown g.symbols "entire_sequence"

theorem ne_isolatedName (hx : g.symbols.knows x = true) : x ≠ g.isolatedName := by
  rintro rfl
  rw [isolatedName_unknown] at hx
  cases hx

theorem find?_eq_none {left : String} {right : List Symbol}
    (h : ∀ p ∈ g.productions, p.left ≠ left) : g.find? left right = none :=
  List.findIdx?_eq_none_iff.2 fun p hp => decide_eq_false fun hsides => h p hp hsides.1

theorem add_of_new {p : Production} (h : ∀ q ∈ g.productions, q.left ≠ p.left) :
    g.add p = { g with productions := g.productions ++ [p] } := by
  rw [add, find?_eq_none h]

theorem merge_of_new {p : Production} (h : ∀ q ∈ g.productions, q.left ≠ p.left) :
    g.merge p = { g with productions := g.productions ++ [p] } := by
  rw [merge, find?_eq_none h]

/-- **What isolating a part adds**: a name, a rule, and two productions. -/
theorem isolating_eq (hstart : g.symbols.knows SymbolTable.start = true)
    (hlefts : ∀ p ∈ g.productions, g.symbols.knows p.left = true) (s : Symbol)
    (name : Option String) : g.isolating s name =
      ⟨(g.symbols.fresh "entire_sequence").2,
        g.productions.filter (·.left ≠ SymbolTable.start) ++
          [g.isolatedProduction s name, g.isolatedStart],
        g.rules.push (g.isolatedRule s name)⟩ := by
  let g₁ : FlatGrammar :=
    ⟨(g.symbols.fresh "entire_sequence").2, g.productions, g.rules.push (g.isolatedRule s name)⟩
  have hisolating : g.isolating s name
      = (g₁.merge (g.isolatedProduction s name)).removeStart.add g.isolatedStart := rfl
  have hnew : ∀ p ∈ g₁.productions, p.left ≠ (g.isolatedProduction s name).left :=
    fun p hp => ne_isolatedName (hlefts p hp)
  have hkept : [g.isolatedProduction s name].filter (·.left ≠ SymbolTable.start)
      = [g.isolatedProduction s name] :=
    List.filter_eq_self.2 (List.forall_mem_singleton.2
      (decide_eq_true (ne_isolatedName hstart).symm))
  have hcleared : ∀ g : FlatGrammar, ∀ p ∈ g.removeStart.productions,
      p.left ≠ SymbolTable.start := fun g p hp => of_decide_eq_true (List.mem_filter.1 hp).2
  rw [hisolating, merge_of_new hnew, add_of_new (hcleared _)]
  simp only [removeStart, List.filter_append, hkept, List.append_assoc]
  rfl

section

variable (hstart : g.symbols.knows SymbolTable.start = true)
  (hlefts : ∀ p ∈ g.productions, g.symbols.knows p.left = true)

include hstart hlefts

theorem knows_isolating : (g.isolating s name).symbols.knows x = true ↔
    x = g.isolatedName ∨ g.symbols.knows x = true := by
  rw [isolating_eq hstart hlefts]
  exact SymbolTable.knows_fresh

theorem mem_isolating {p : Production} (hp : p ∈ (g.isolating s name).productions) :
    p ∈ g.productions ∨ p = g.isolatedProduction s name ∨ p = g.isolatedStart := by
  rw [isolating_eq hstart hlefts] at hp
  rcases List.mem_append.1 hp with hp | hp
  · exact .inl (List.mem_of_mem_filter hp)
  · exact .inr (by simpa using hp)

theorem alternatives_isolating_start :
    (g.isolating s name).alternatives SymbolTable.start = [g.isolatedStart] := by
  have hne : g.isolatedName ≠ SymbolTable.start := (ne_isolatedName hstart).symm
  have hold : (g.productions.filter (·.left ≠ SymbolTable.start)).filter
      (·.left = SymbolTable.start) = [] :=
    List.filter_eq_nil_iff.2 fun p hp => by simpa using (List.mem_filter.1 hp).2
  rw [isolating_eq hstart hlefts, alternatives, List.filter_append, hold]
  simp [isolatedProduction, isolatedStart, Production.ofSymbols, hne]

theorem alternatives_isolating_self :
    (g.isolating s name).alternatives g.isolatedName = [g.isolatedProduction s name] := by
  have hne : SymbolTable.start ≠ g.isolatedName := ne_isolatedName hstart
  have hold : (g.productions.filter (·.left ≠ SymbolTable.start)).filter
      (·.left = g.isolatedName) = [] :=
    List.filter_eq_nil_iff.2 fun p hp => by
      simpa using ne_isolatedName (hlefts p (List.mem_of_mem_filter hp))
  rw [isolating_eq hstart hlefts, alternatives, List.filter_append, hold]
  simp [isolatedProduction, isolatedStart, Production.ofSymbols, hne]

theorem alternatives_isolating (hx : g.symbols.knows x = true) (hne : x ≠ SymbolTable.start) :
    (g.isolating s name).alternatives x = g.alternatives x := by
  have hold : (g.productions.filter (·.left ≠ SymbolTable.start)).filter (·.left = x)
      = g.alternatives x := by
    rw [List.filter_filter, alternatives]
    exact List.filter_congr fun p _ => by by_cases hp : p.left = x <;> simp [hp, hne]
  rw [isolating_eq hstart hlefts, alternatives, List.filter_append, hold]
  simp [isolatedProduction, isolatedStart, Production.ofSymbols, hne.symm,
    (ne_isolatedName hx).symm]

end

/-- **A grammar stays well formed** when a part with known names is isolated. -/
theorem WellFormed.isolating (hg : g.WellFormed)
    (hs : ∀ x, s = .nonterminal x → g.symbols.knows x = true) :
    (g.isolating s name).WellFormed where
  start := (knows_isolating hg.start fun _ => hg.lefts).2 (.inr hg.start)
  closed sides hsides x hx := by
    rw [knows_isolating hg.start fun _ => hg.lefts]
    obtain ⟨p, hp, rfl⟩ := List.mem_map.1 hsides
    have hx : x = p.left ∨ .nonterminal x ∈ p.right := hx
    rcases mem_isolating hg.start (fun _ => hg.lefts) hp with hp | rfl | rfl
    · exact .inr (hg.closed _ (List.mem_map_of_mem hp) x hx)
    · rcases hx with rfl | hx
      · exact .inl rfl
      · exact .inr (hs x (mem_right_isolatedProduction hx).symm)
    · rcases hx with rfl | hx
      · exact .inr hg.start
      · exact .inl (Symbol.nonterminal.inj (mem_right_isolatedStart hx))
  bounded p hp i hi := by
    have hsize : (g.isolating s name).rules.size = g.rules.size + 1 := by
      rw [isolating_eq hg.start fun _ => hg.lefts, Array.size_push]
    rw [hsize]
    rcases mem_isolating hg.start (fun _ => hg.lefts) hp with hp | rfl | rfl
    · exact Nat.lt_succ_of_lt (hg.bounded p hp i hi)
    · exact Option.some.inj hi ▸ Nat.lt_succ_self _
    · cases hi
  children r hr x hx := by
    rw [knows_isolating hg.start fun _ => hg.lefts]
    rw [isolating_eq hg.start fun _ => hg.lefts, Array.mem_push] at hr
    rcases hr with hr | rfl
    · exact .inr (hg.children r hr x hx)
    · exact .inr (hs x (List.mem_singleton.1 hx).symm)

/-! ## The grammars that searches run on -/

/-- **A grammar lies over another** whose parts were isolated: it has the same alternatives for all
names of the other, and no more rules with completers. -/
structure Over (g h : FlatGrammar) : Prop where
  knows : ∀ x, g.symbols.knows x = true → h.symbols.knows x = true
  lefts : ∀ p ∈ h.productions, h.symbols.knows p.left = true
  alternatives : ∀ x, g.symbols.knows x = true → x ≠ SymbolTable.start →
    h.alternatives x = g.alternatives x
  rules : ∃ added, h.rules.toList = g.rules.toList ++ added ∧ ∀ r ∈ added, r.completer = none

theorem WellFormed.over (hg : g.WellFormed) : g.Over g where
  knows _ hx := hx
  lefts _ := hg.lefts
  alternatives _ _ _ := rfl
  rules := ⟨[], (List.append_nil _).symm, List.forall_mem_nil _⟩

theorem Over.isolating (hg : g.WellFormed) (hover : g.Over h) (s : Symbol) (name : Option String) :
    g.Over (h.isolating s name) where
  knows x hx := (knows_isolating (hover.knows _ hg.start) hover.lefts).2 (.inr (hover.knows x hx))
  lefts p hp := by
    have hstart := hover.knows _ hg.start
    rw [knows_isolating hstart hover.lefts]
    rcases mem_isolating hstart hover.lefts hp with hp | rfl | rfl
    · exact .inr (hover.lefts p hp)
    · exact .inl rfl
    · exact .inr hstart
  alternatives x hx hne := by
    rw [alternatives_isolating (hover.knows _ hg.start) hover.lefts (hover.knows x hx) hne,
      hover.alternatives x hx hne]
  rules := by
    obtain ⟨added, hrules, hadded⟩ := hover.rules
    refine ⟨added ++ [h.isolatedRule s name], ?_, ?_⟩
    · rw [isolating_eq (hover.knows _ hg.start) hover.lefts, Array.toList_push, hrules,
        List.append_assoc]
    · exact List.forall_mem_append.2 ⟨hadded, List.forall_mem_singleton.2 rfl⟩

/-- The two names made up for a part, swapped. -/
def swapNames (g h : FlatGrammar) : Equiv.Perm String := Equiv.swap g.isolatedName h.isolatedName

/-- The two indices of the rule for a part, swapped. -/
def swapRules (g h : FlatGrammar) : Equiv.Perm Nat := Equiv.swap g.rules.size h.rules.size

section

variable (hg : g.WellFormed) (hover : g.Over h)

include hover

theorem Over.swapNames_eq (hx : g.symbols.knows x = true) : swapNames g h x = x :=
  Equiv.swap_apply_of_ne_of_ne (ne_isolatedName hx) (ne_isolatedName (hover.knows x hx))

theorem Over.swapRules_eq {i : Nat} (hi : i < g.rules.size) : swapRules g h i = i := by
  obtain ⟨added, hrules, -⟩ := hover.rules
  have hsize : h.rules.size = g.rules.size + added.length := by
    simpa using congrArg List.length hrules
  exact Equiv.swap_apply_of_ne_of_ne hi.ne (by omega)

theorem Over.relabel_isolatedProduction
    (hs : ∀ x, s = .nonterminal x → g.symbols.knows x = true) :
    (g.isolatedProduction s name).relabel (swapNames g h) (swapRules g h)
      = h.isolatedProduction s name := by
  have hname : swapNames g h g.isolatedName = h.isolatedName := Equiv.swap_apply_left ..
  have hrule : swapRules g h g.rules.size = h.rules.size := Equiv.swap_apply_left ..
  have hright : ([s].filter (· ≠ .terminal .epsilon)).map (Symbol.rename (swapNames g h))
      = [s].filter (· ≠ .terminal .epsilon) :=
    Symbol.map_rename_eq_self fun x hx => hover.swapNames_eq
      (hs x (List.mem_singleton.1 (List.mem_of_mem_filter hx)).symm)
  simp only [isolatedProduction, Production.ofSymbols, Production.relabel, hname, hright,
    Option.map_some, hrule]

include hg

/-- The productions of the grammar below are what they are. -/
theorem Over.relabel_eq {p : Production} (hp : p ∈ g.productions) :
    p.relabel (swapNames g h) (swapRules g h) = p := by
  have hright : p.right.map (Symbol.rename (swapNames g h)) = p.right :=
    Symbol.map_rename_eq_self fun x hx => hover.swapNames_eq (hg.rights hp hx)
  have hrule : p.rule.map (swapRules g h) = p.rule := by
    rcases hi : p.rule with _ | i
    · rfl
    · rw [Option.map_some, hover.swapRules_eq (hg.bounded p hp i hi)]
  rw [Production.relabel, hover.swapNames_eq (hg.lefts hp), hright, hrule]

theorem Over.relabel_isolatedStart :
    g.isolatedStart.relabel (swapNames g h) (swapRules g h) = h.isolatedStart := by
  have hname : swapNames g h g.isolatedName = h.isolatedName := Equiv.swap_apply_left ..
  simp [isolatedStart, Production.ofSymbols, Production.relabel, hname,
    hover.swapNames_eq hg.start]

variable (hs : ∀ x, s = .nonterminal x → g.symbols.knows x = true)

include hs

/-- **The same alternatives**, up to the name and the index made up for the part. -/
theorem Over.alternatives_isolating (hx : x = g.isolatedName ∨ g.symbols.knows x = true) :
    (h.isolating s name).alternatives (swapNames g h x)
      = ((g.isolating s name).alternatives x).map
        (Production.relabel (swapNames g h) (swapRules g h)) := by
  have hstart := hover.knows _ hg.start
  rcases hx with rfl | hx
  · rw [FlatGrammar.alternatives_isolating_self hg.start fun _ => hg.lefts, List.map_singleton,
      hover.relabel_isolatedProduction hs, swapNames, Equiv.swap_apply_left,
      FlatGrammar.alternatives_isolating_self hstart hover.lefts]
  · rw [hover.swapNames_eq hx]
    by_cases hne : x = SymbolTable.start
    · subst hne
      rw [FlatGrammar.alternatives_isolating_start hg.start fun _ => hg.lefts,
        FlatGrammar.alternatives_isolating_start hstart hover.lefts, List.map_singleton,
        hover.relabel_isolatedStart hg]
    · rw [FlatGrammar.alternatives_isolating hg.start (fun _ => hg.lefts) hx hne,
        FlatGrammar.alternatives_isolating hstart hover.lefts (hover.knows x hx) hne,
        hover.alternatives x hx hne]
      conv_lhs => rw [← List.map_id (g.alternatives x)]
      exact List.map_congr_left fun p hp => (hover.relabel_eq hg (List.mem_of_mem_filter hp)).symm

/-- **A part has the same derivations** in all grammars over one, up to the name and the index made
up for it. -/
theorem Over.ends_isolating (cfg : Config) (input : List Char) :
    (Branch.initial input).ends (h.isolating s name) cfg
      = ((Branch.initial input).ends (g.isolating s name) cfg).map
        (Derivation.relabel (swapNames g h) (swapRules g h)) := by
  have hmet : ∀ p ∈ (g.isolating s name).productions, ∀ x, .nonterminal x ∈ p.right →
      x = g.isolatedName ∨ g.symbols.knows x = true := by
    intro p hp x hx
    rcases mem_isolating hg.start (fun _ => hg.lefts) hp with hp | rfl | rfl
    · exact .inr (hg.rights hp hx)
    · exact .inr (hs x (mem_right_isolatedProduction hx).symm)
    · exact .inl (Symbol.nonterminal.inj (mem_right_isolatedStart hx))
  have hinitial : (Branch.initial input).relabel (swapNames g h) (swapRules g h)
      = Branch.initial input := by
    simp [Branch.initial, Branch.relabel, hover.swapNames_eq hg.start]
  rw [← Branch.ends_relabel (fun x hx => hover.alternatives_isolating hg hs hx) hmet, hinitial]
  intro x hx
  rw [Symbol.nonterminal.inj (List.mem_singleton.1 hx)]
  exact .inr hg.start

end

end FlatGrammar

/-! ## Compiled grammars -/

/-- The rules made up for a rule are written with names made up for it. -/
theorem Rule.mem_auxiliaries_of_mem_helpers {r r' : Rule} {a : Auxiliaries} {x : String}
    (h : r' ∈ r.helpers a) (hx : .nonterminal x ∈ r'.children) : x ∈ r.auxiliaries a := by
  rw [helpers] at h
  split at h
  next j hj =>
    have hchildren : r'.children = [.nonterminal a.next] := by
      rw [Auxiliaries.helpers] at h
      split_ifs at h
      · cases h
      · rw [List.mem_singleton.1 h]
        rfl
      · rw [List.mem_singleton.1 h]
        rfl
    rw [hchildren, List.mem_singleton, Symbol.nonterminal.injEq] at hx
    rw [auxiliaries, hj, hx]
    exact List.mem_cons_self ..
  · cases h

/-- The rules of a compiled grammar have known children. -/
theorem Grammar.knows_children_of_compile {G G' : Grammar} {top : Symbol} (hG : G.Reachable)
    (h : (Grammar.compile top).run.run G = (.ok (), G')) :
    ∀ r ∈ G'.flat.rules, ∀ x, .nonterminal x ∈ r.children → G'.flat.symbols.knows x = true := by
  obtain ⟨hlower, -, -⟩ := Grammar.compile_ok h
  obtain ⟨hfold, -⟩ := Grammar.lowerAll_ok hlower
  refine (Grammar.lower_induction (P := fun g =>
    (∀ x, (G.withStart top).symbols.knows x = true → g.symbols.knows x = true) ∧
    ∀ r ∈ g.rules, ∀ x, .nonterminal x ∈ r.children → g.symbols.knows x = true) hfold ?_ ?_).2
  · exact ⟨fun _ => id, fun r hr => absurd hr (Array.not_mem_empty r)⟩
  · rintro r hr g g' ⟨hknows, hg⟩ hlower
    obtain ⟨a, -, hmakes⟩ := FlatGrammar.lower_makes hlower
    have hr := hG.closed.withStart top r (Array.mem_toList_iff.1 hr)
    refine ⟨fun x hx => (hmakes.knows x).2 (.inl (hknows x hx)), fun r' hr' x hx => ?_⟩
    rw [← Array.mem_toList_iff, hmakes.rules, List.mem_append, List.mem_cons] at hr'
    rw [hmakes.knows]
    rcases hr' with hr' | rfl | hr'
    · exact .inl (hg r' (Array.mem_toList_iff.1 hr') x hx)
    · exact .inl (hknows x (hr.symbols x (r'.children_subset_symbols hx)))
    · exact .inr (Rule.mem_auxiliaries_of_mem_helpers hr' hx)

/-- **A compiled grammar is well formed.** -/
theorem Grammar.wellFormed_of_compile {G G' : Grammar} {top : Symbol} (hG : G.Reachable)
    (h : (Grammar.compile top).run.run G = (.ok (), G')) : G'.flat.WellFormed := by
  have hattributed := Grammar.attributed_of_compile hG h
  obtain ⟨-, -, hsymbols⟩ := Grammar.compile_ok h
  refine ⟨hattributed.knows _ ?_, hattributed.closed, hattributed.bounded,
    Grammar.knows_children_of_compile hG h⟩
  rw [hsymbols]
  exact Grammar.knows_start_withStart

end Typeahead
