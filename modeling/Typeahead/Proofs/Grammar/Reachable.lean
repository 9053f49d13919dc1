import Typeahead.Grammar.Builders
import Typeahead.Proofs.Grammar.Compile
import Mathlib.Logic.Relation

/-!
# Proofs/Grammar/Reachable — grammars made by registering rules

`Grammar.Change` lists what can be done to a grammar; all builders of rules are made of these
changes.  A rule that was registered is written with known names only (`Reachable.closed`): its
target is declared and its symbols are registered along with it, and no change forgets a name.
-/

namespace Typeahead

/-- All names that a rule is written with are known. -/
structure Rule.Known (table : SymbolTable) (r : Rule) : Prop where
  target : table.knows r.target = true
  symbols : ∀ x, .nonterminal x ∈ r.symbols → table.knows x = true

theorem Rule.Known.mono {table table' : SymbolTable} {r : Rule} (h : r.Known table)
    (hknows : ∀ x, table.knows x = true → table'.knows x = true) : r.Known table' :=
  ⟨hknows _ h.target, fun x hx => hknows x (h.symbols x hx)⟩

/-- **Lowering mentions no unknown name**, if the rule is written with known ones. -/
theorem FlatGrammar.knows_of_lower {g g' : FlatGrammar} {r : Rule} (hr : r.Known g.symbols)
    (hg : ∀ s ∈ g.sides, ∀ x, s.Mentions x → g.symbols.knows x = true)
    (hlower : g.lower r = .ok g') :
    ∀ s ∈ g'.sides, ∀ x, s.Mentions x → g'.symbols.knows x = true := by
  obtain ⟨a, -, hadds⟩ := lower_adds hlower
  intro s hs x hx
  rw [hadds.knows]
  rcases (hadds.sides s).1 hs with hs | ⟨n, hn, rfl⟩
  · exact .inl (hg s hs x hx)
  · rcases (Rule.within_of_mem_sides hn).mentions (Sides.mentions_bare.1 hx) with hx | hx
    · rcases List.mem_cons.1 hx with rfl | hx
      · exact .inl hr.target
      · exact .inr hx
    · exact .inl (hr.symbols x hx)

namespace Grammar

/-- **One change of a grammar.**  Changing a rule concerns its behaviour, the names of its children
or its count, never its target or its symbols. -/
inductive Change : Grammar → Grammar → Prop
  | declare (G : Grammar) (name : String) : Change G ((declare name).run G).2
  | register (G : Grammar) (s : Symbol) : Change G ((register s).run G).2
  | insert (G : Grammar) {kind : RuleKind} (hkind : ∀ j, kind ≠ .join j) (name : Option String)
    (children : List Named) : Change G ((insert kind name children).run G).2
  | join (G : Grammar) (name : Option String) (entry : Named) (j : Join) :
    Change G ((join name entry j).run G).2
  | modifyRule (G : Grammar) (r : RuleRef) {change : Rule → Rule}
    (htarget : ∀ r, (change r).target = r.target) (hsymbols : ∀ r, (change r).symbols = r.symbols) :
    Change G ((modifyRule r change).run G).2
  | removeRules (G : Grammar) (target : String) : Change G ((removeRules target).run G).2
  | compile (G : Grammar) (top : Symbol) : Change G ((compile top).run.run G).2

/-- A grammar that is made from the empty one, change by change. -/
def Reachable (G : Grammar) : Prop := Relation.ReflTransGen Change {} G

/-- The rules are written with known names. -/
def Closed (G : Grammar) : Prop := ∀ r ∈ G.rules, r.Known G.symbols

variable {G : Grammar}

theorem Closed.mono {G' : Grammar} (h : G.Closed) (hrules : ∀ r ∈ G'.rules, r ∈ G.rules)
    (hknows : ∀ x, G.symbols.knows x = true → G'.symbols.knows x = true) : G'.Closed :=
  fun r hr => (h r (hrules r hr)).mono hknows

/-! ## Changes -/

theorem run_target (name : Option String) (base : String) (G : Grammar) (x : String) :
    ((target name base).run G).2.symbols.knows x = true ↔
      x = ((target name base).run G).1 ∨ G.symbols.knows x = true := by
  rcases name with _ | name
  · exact SymbolTable.knows_fresh
  · exact SymbolTable.knows_declare

theorem run_join (name : Option String) (entry : Named) (j : Join) (G : Grammar) :
    (join name entry j).run G =
      (insert (.join j) name [entry]).run { G with symbols := G.symbols.registerAll j.joints } := by
  obtain ⟨_ | o, _ | c, _ | d, entriesOnly, count⟩ := j <;> rfl

/-- **A new rule is written with known names**, if the symbols around its entries are known. -/
theorem Closed.insert (h : G.Closed) {kind : RuleKind}
    (hjoints : ∀ j, kind = .join j → ∀ x, .nonterminal x ∈ j.joints → G.symbols.knows x = true)
    (name : Option String) (children : List Named) :
    ((insert kind name children).run G).2.Closed := by
  rw [run_insert]
  have hknows : ∀ x, G.symbols.knows x = true →
      (((target name kind.word).run G).2.symbols.registerAll (children.map (·.symbol))).knows x
        = true :=
    fun x hx => SymbolTable.knows_registerAll_of_knows ((run_target ..).2 (.inr hx)) _
  intro r hr
  rcases Array.mem_push.1 hr with hr | rfl
  · exact (h r hr).mono hknows
  · refine ⟨SymbolTable.knows_registerAll_of_knows ((run_target ..).2 (.inl rfl)) _, ?_⟩
    intro x hx
    have hx : .nonterminal x ∈ children.map (·.symbol) ∨
        ∃ j, kind = .join j ∧ .nonterminal x ∈ j.joints := by
      rcases kind <;> simp_all [Rule.symbols, Rule.ofChildren]
    rcases hx with hx | ⟨j, hj, hx⟩
    · exact SymbolTable.knows_registerAll hx
    · exact hknows x (hjoints j hj x hx)

theorem knows_withStart {top : Symbol} {x : String} (hx : G.symbols.knows x = true) :
    (G.withStart top).symbols.knows x = true :=
  SymbolTable.knows_register_of_knows
    (SymbolTable.knows_register_of_knows (SymbolTable.knows_declare.2 (.inr hx)))

theorem Closed.withStart (h : G.Closed) (top : Symbol) : (G.withStart top).Closed := by
  intro r hr
  rcases mem_rules_withStart.1 hr with ⟨hr, -⟩ | rfl
  · exact (h r hr).mono fun x hx => knows_withStart hx
  · refine ⟨knows_start_withStart, fun x hx => ?_⟩
    obtain rfl : top = .nonterminal x := by
      simpa [startRule, Rule.symbols, Rule.ofChildren, Symbol.unnamed, eq_comm] using hx
    exact SymbolTable.knows_register_of_knows SymbolTable.knows_register_nonterminal

theorem Closed.compile (h : G.Closed) (top : Symbol) : ((compile top).run.run G).2.Closed := by
  rw [compile_eq]
  split <;> exact h.withStart top

/-- Where a rule is changed, the rules are old ones, of which some may have been changed. -/
theorem exists_of_mem_modifyRule {r : RuleRef} {change : Rule → Rule} {rule : Rule}
    (h : rule ∈ ((Grammar.modifyRule r change).run G).2.rules) :
    ∃ old ∈ G.rules, rule = old ∨ rule = change old := by
  change rule ∈ G.rules.modify r.index change at h
  obtain ⟨i, hi, rfl⟩ := Array.mem_iff_getElem.1 h
  have hi' : i < G.rules.size := by simpa using hi
  refine ⟨G.rules[i], Array.getElem_mem hi', ?_⟩
  rw [Array.getElem_modify]
  split
  · exact .inr rfl
  · exact .inl rfl

theorem Closed.modifyRule (h : G.Closed) (r : RuleRef) {change : Rule → Rule}
    (htarget : ∀ r, (change r).target = r.target) (hsymbols : ∀ r, (change r).symbols = r.symbols) :
    ((modifyRule r change).run G).2.Closed := by
  intro rule hrule
  obtain ⟨old, hold, rfl | rfl⟩ := exists_of_mem_modifyRule hrule
  · exact h rule hold
  · obtain ⟨hknown, hnames⟩ := h old hold
    refine ⟨?_, fun x hx => hnames x ?_⟩
    · rwa [htarget]
    · rwa [hsymbols] at hx

/-- **No change leaves a rule with an unknown name.** -/
theorem Closed.change {G' : Grammar} (h : G.Closed) (hchange : G.Change G') : G'.Closed := by
  cases hchange with
  | declare name => exact h.mono (fun _ => id) fun x hx => SymbolTable.knows_declare.2 (.inr hx)
  | register s => exact h.mono (fun _ => id) fun x hx => SymbolTable.knows_register_of_knows hx
  | insert hkind => exact h.insert (fun j hj => absurd hj (hkind j)) _ _
  | join name entry j =>
    rw [run_join]
    refine Closed.insert ?_ ?_ _ _
    · exact h.mono (fun _ => id) fun x hx => SymbolTable.knows_registerAll_of_knows hx _
    · rintro j ⟨⟩ x hx
      exact SymbolTable.knows_registerAll hx
  | modifyRule r htarget hsymbols => exact h.modifyRule r htarget hsymbols
  | removeRules target => exact h.mono (fun r hr => (Array.mem_filter.1 hr).1) fun _ => id
  | compile top => exact h.compile top

/-- **In a reachable grammar all rules are written with known names.** -/
theorem Reachable.closed (h : G.Reachable) : G.Closed := by
  induction h with
  | refl => exact fun r hr => absurd hr (Array.not_mem_empty r)
  | tail _ hchange ih => exact ih.change hchange

end Grammar

end Typeahead
