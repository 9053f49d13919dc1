import Typeahead.Proofs.Language.Programs
import Typeahead.Proofs.Parse.Extending

/-!
# Proofs/Language/Completers — the completers of a language

The builders of the standard types, of lists and of tuples give rules standard completers, and a
definition does nothing but call builders, whether it is refused or not.  So a language has only
standard completers, whatever it was defined by (`standard_defining`).

A standard completer is a template or looks at the rule and the label of its node only, so it keeps
to everything that is asked of completers elsewhere: it is discreet and plain, blind to the copy of
the grammar, and asks for the parts of its rule.  What is proved under these conditions therefore
holds for every language (`completers_of_compile`).
-/

namespace Typeahead

/-! ## Standard completers -/

namespace Completer.IsStandard

variable {c : Completer}

theorem discreet (h : c.IsStandard) : c.Discreet := by
  cases h with
  | template => exact discreet_template
  | placeholder | ifEmpty | tuple | silent => exact discreet_ofNode _

theorem isPlain (h : c.IsStandard) : c.IsPlain := by
  cases h with
  | template => exact .inl rfl
  | placeholder | ifEmpty | tuple | silent => exact .inr (isSettled_ofNode _)

theorem asksParts (h : c.IsStandard) : c.AsksParts := by
  cases h with
  | template => exact asksParts_template
  | placeholder | ifEmpty | tuple | silent => exact (isSettled_ofNode _).asksParts

/-- A standard completer looks at the rule and the label of its node only, not at the grammar. -/
theorem copyBlind (h : c.IsStandard) (g : FlatGrammar) : c.CopyBlind g := by
  cases h <;> exact fun _ _ _ _ _ _ _ _ => rfl

end Completer.IsStandard

namespace Grammar

open Completer (IsStandard)

/-! ## Builders -/

/-- All completers of the rules are standard ones. -/
def AllStandard (G : Grammar) : Prop := ∀ r ∈ G.rules, ∀ c ∈ r.completer, c.IsStandard

/-- **A program keeps the completers standard**: it gives rules no others. -/
structure KeepsStandard {α : Type} (m : StateM Grammar α) : Prop where
  run (G : Grammar) (h : G.AllStandard) : (m.run G).2.AllStandard

section

variable {α β : Type} {G : Grammar} {m : StateM Grammar α} {f : α → StateM Grammar β}

theorem keepsStandard_pure (a : α) : KeepsStandard (pure a) := ⟨fun _ h => h⟩

theorem KeepsStandard.bind (hm : KeepsStandard m) (hf : ∀ a, KeepsStandard (f a)) :
    KeepsStandard (m >>= f) := ⟨fun G h => (hf _).run _ (hm.run G h)⟩

theorem KeepsStandard.discard (hm : KeepsStandard m) : KeepsStandard (discard m) :=
  ⟨hm.run⟩

theorem keepsStandard_mapM (hf : ∀ a, KeepsStandard (f a)) (as : List α) :
    KeepsStandard (as.mapM f) := by
  induction as with
  | nil => exact keepsStandard_pure []
  | cons a as ih =>
    rw [List.mapM_cons]
    exact (hf a).bind fun b => ih.bind fun bs => keepsStandard_pure (b :: bs)

theorem keepsStandard_declare (name : String) : KeepsStandard (declare name) := ⟨fun _ h => h⟩

/-- A new rule has no completer. -/
theorem keepsStandard_insert (kind : RuleKind) (name : Option String) (children : List Named) :
    KeepsStandard (insert kind name children) := by
  refine ⟨fun G h r hr c hc => ?_⟩
  rw [run_insert] at hr
  rcases Array.mem_push.1 hr with hr | rfl
  · exact h r hr c hc
  · cases hc

theorem keepsStandard_join (name : Option String) (entry : Named) (j : Join) :
    KeepsStandard (join name entry j) := by
  refine ⟨fun G h => ?_⟩
  rw [run_join]
  exact (keepsStandard_insert (.join j) name [entry]).run _ h

/-- A rule may be changed if it keeps its completer or gets a standard one. -/
theorem keepsStandard_modifyRule (r : RuleRef) {change : Rule → Rule}
    (hchange : ∀ r, ∀ c ∈ (change r).completer, c ∈ r.completer ∨ c.IsStandard) :
    KeepsStandard (modifyRule r change) := by
  refine ⟨fun G h rule hrule c hc => ?_⟩
  obtain ⟨old, hold, rfl | rfl⟩ := exists_of_mem_modifyRule hrule
  · exact h rule hold c hc
  · exact (hchange old c hc).elim (h old hold c) id

theorem keepsStandard_evaluating (e : Evaluator) (r : RuleRef) :
    KeepsStandard (evaluating e r) := keepsStandard_modifyRule r fun _ _ => .inl

theorem keepsStandard_completing {c : Completer} (hc : c.IsStandard) (r : RuleRef) :
    KeepsStandard (completing c r) :=
  keepsStandard_modifyRule r fun _ _ h => .inr (Option.some.inj h ▸ hc)

theorem keepsStandard_joinNames (name : Option String) (entry : Symbol) (j : Join)
    (names : List String) : KeepsStandard (joinNames name entry j names) :=
  (keepsStandard_join ..).bind fun r => keepsStandard_modifyRule r fun _ _ => .inl

theorem keepsStandard_list (name : Option String) (entry : Named) (count : Count) :
    KeepsStandard (list name entry count) :=
  (keepsStandard_insert ..).bind fun _ => (keepsStandard_insert ..).bind fun _ =>
    (keepsStandard_completing (.ifEmpty ", ") _).bind fun _ => keepsStandard_join ..

theorem keepsStandard_tuple (name : Option String) (entry : Symbol) (names : List String) :
    KeepsStandard (tuple name entry names) := by
  refine (keepsStandard_insert ..).bind fun ws =>
    (keepsStandard_completing .silent ws).bind fun _ =>
    (keepsStandard_insert ..).bind fun opening => (keepsStandard_insert ..).bind fun closing =>
    (keepsStandard_insert ..).bind fun delimiter => ?_
  exact (keepsStandard_joinNames ..).bind fun entries => keepsStandard_completing .tuple entries

theorem keepsStandard_quantified (child : Named) (count : Count) :
    KeepsStandard (quantified child count) := by
  unfold quantified
  split_ifs <;> exact keepsStandard_insert ..

/-- The rule of the start symbol has no completer. -/
theorem AllStandard.compile {G G' : Grammar} {top : Symbol} (h : G.AllStandard)
    (hcompile : (Grammar.compile top).run.run G = (.ok (), G')) : G'.AllStandard := by
  obtain ⟨-, hrules, -⟩ := compile_ok hcompile
  intro r hr c hc
  rw [hrules] at hr
  rcases mem_rules_withStart.1 hr with ⟨hr, -⟩ | rfl
  · exact h r hr c hc
  · cases hc

end

/-! ## Definitions -/

section

variable {α β : Type}

theorem KeepsStandard.lift {m : StateM Grammar α} (h : KeepsStandard m) :
    KeepsStandard (liftM m : GrammarM α).run := ⟨h.run⟩

theorem keepsStandard_succeed (a : α) : KeepsStandard (pure a : GrammarM α).run := ⟨fun _ h => h⟩

/-- What comes first may be refused. -/
theorem KeepsStandard.andThen {m : GrammarM α} {f : α → GrammarM β} (hm : KeepsStandard m.run)
    (hf : ∀ a, KeepsStandard (f a).run) : KeepsStandard (m >>= f).run := by
  refine ⟨fun G h => ?_⟩
  have hm := hm.run G h
  rw [GrammarM.run_bind]
  split
  next hrun => exact (hf _).run _ (by rwa [hrun] at hm)
  next hrun => rwa [hrun] at hm

theorem keepsStandard_ofExcept (x : Except GrammarError α) :
    KeepsStandard (liftM x : GrammarM α).run := by
  refine ⟨fun G h => ?_⟩
  rwa [GrammarM.run_ofExcept]

theorem keepsStandard_typeSymbol (name : String) : KeepsStandard (typeSymbol name).run := by
  refine ⟨fun G h => ?_⟩
  rcases registers_typeSymbol name G with ⟨e, hrun⟩ | ⟨s, G', hrun, hG⟩
  · rwa [hrun]
  · obtain rfl : G' = G := hG
    rwa [hrun]

theorem keepsStandard_typeOf (v : Pattern.Variable) : KeepsStandard (typeOf v).run := by
  rw [typeOf]
  split
  · exact keepsStandard_succeed _
  · exact keepsStandard_typeSymbol _
  · exact (keepsStandard_ofExcept _).andThen fun _ => keepsStandard_succeed _
  · exact (keepsStandard_typeSymbol _).andThen fun _ =>
      (keepsStandard_list ..).lift.andThen fun _ => keepsStandard_succeed _
  · exact (keepsStandard_typeSymbol _).andThen fun _ =>
      (keepsStandard_tuple ..).lift.andThen fun _ => keepsStandard_succeed _

theorem keepsStandard_itemOf (item : Pattern.Item) : KeepsStandard (itemOf item).run := by
  rcases item with text | _ | v
  · exact keepsStandard_succeed _
  · exact keepsStandard_succeed _
  · refine (keepsStandard_typeOf v).andThen fun s => ?_
    split
    · exact keepsStandard_succeed _
    · exact keepsStandard_succeed _
    · exact (keepsStandard_quantified ..).lift.andThen fun _ => keepsStandard_succeed _

theorem keepsStandard_items (items : List Pattern.Item) :
    KeepsStandard (items.mapM itemOf).run := by
  induction items with
  | nil => exact keepsStandard_succeed []
  | cons item items ih =>
    rw [List.mapM_cons]
    exact (keepsStandard_itemOf item).andThen fun _ => ih.andThen fun _ => keepsStandard_succeed _

/-- **A definition keeps the completers standard**, whether it is refused or not. -/
theorem keepsStandard_defineType (name pattern : String) :
    KeepsStandard (defineType name pattern).run :=
  (keepsStandard_ofExcept _).andThen fun items => (keepsStandard_items items).andThen fun _ =>
    (keepsStandard_insert ..).lift

end

/-! ## Standard types -/

theorem keepsStandard_character (name : String) (t : Terminal) :
    KeepsStandard (Standard.character name t) :=
  (keepsStandard_insert ..).bind fun _ => (keepsStandard_evaluating ..).bind fun _ =>
    (keepsStandard_completing .placeholder _).discard

theorem keepsStandard_constant (text : String) (v : Value) :
    KeepsStandard (Standard.constant text v) :=
  (keepsStandard_insert ..).bind fun _ => keepsStandard_evaluating ..

theorem keepsStandard_registerNumbers : KeepsStandard Standard.registerNumbers := by
  refine (keepsStandard_insert ..).bind fun _ => (keepsStandard_insert ..).bind fun _ =>
    (keepsStandard_insert ..).bind fun _ => (keepsStandard_insert ..).bind fun _ =>
    (keepsStandard_evaluating ..).bind fun _ =>
    (keepsStandard_completing .placeholder _).discard.bind fun _ => ?_
  refine (keepsStandard_insert ..).bind fun _ => (keepsStandard_insert ..).bind fun _ =>
    (keepsStandard_insert ..).bind fun _ => (keepsStandard_insert ..).bind fun _ =>
    (keepsStandard_insert ..).bind fun _ => (keepsStandard_insert ..).bind fun _ => ?_
  exact (keepsStandard_evaluating ..).bind fun _ =>
    (keepsStandard_completing .placeholder _).discard.bind fun _ => keepsStandard_pure _

theorem keepsStandard_registerBlanks : KeepsStandard Standard.registerBlanks :=
  (keepsStandard_insert ..).bind fun _ =>
    (keepsStandard_completing (.ifEmpty " ") _).discard.bind fun _ =>
    (keepsStandard_insert ..).bind fun _ =>
    (keepsStandard_completing (.ifEmpty " ") _).discard.bind fun _ => keepsStandard_pure _

theorem keepsStandard_registerRange (int blanks : Symbol) :
    KeepsStandard (Standard.registerRange int blanks) :=
  (keepsStandard_insert ..).bind fun _ => (keepsStandard_joinNames ..).bind fun _ =>
    (keepsStandard_evaluating ..).discard

theorem keepsStandard_registerTime : KeepsStandard Standard.registerTime :=
  (keepsStandard_insert ..).bind fun _ => (keepsStandard_insert ..).bind fun _ =>
    (keepsStandard_evaluating ..).bind fun _ => (keepsStandard_completing (.ifEmpty _) _).discard

theorem keepsStandard_registerMonths : KeepsStandard Standard.registerMonths :=
  (keepsStandard_mapM (fun _ => (keepsStandard_constant ..).bind fun _ => keepsStandard_pure _)
    _).bind fun _ => (keepsStandard_insert ..).discard

theorem keepsStandard_registerColors (int : Symbol) :
    KeepsStandard (Standard.registerColors int) :=
  (keepsStandard_tuple ..).bind fun _ => (keepsStandard_evaluating ..).bind fun _ =>
    (keepsStandard_mapM (fun _ => (keepsStandard_constant ..).bind fun _ => keepsStandard_pure _)
      _).bind fun _ => (keepsStandard_insert ..).discard

/-- **The standard types have standard completers.** -/
theorem keepsStandard_register : KeepsStandard Standard.register :=
  (keepsStandard_character ..).bind fun _ => (keepsStandard_character ..).bind fun _ =>
    keepsStandard_registerNumbers.bind fun _ => keepsStandard_registerBlanks.bind fun _ =>
    (keepsStandard_registerRange ..).bind fun _ => keepsStandard_registerTime.bind fun _ =>
    keepsStandard_registerMonths.bind fun _ => (keepsStandard_registerColors _).bind fun _ =>
    (keepsStandard_insert ..).discard

end Grammar

/-! ## Languages -/

namespace Language

open Grammar (KeepsStandard)

/-- A language after some definitions, each of a type by a pattern; any of them may be refused. -/
def defining (l : Language) (definitions : List (String × String)) : Language :=
  definitions.foldl (fun l d => ((edit (Grammar.defineType d.1 d.2)).run.run l).2) l

theorem keepsStandard_prepare : KeepsStandard prepare := by
  rw [prepare]
  exact Grammar.keepsStandard_register.bind fun _ => (Grammar.keepsStandard_declare _).bind
    fun _ => (Grammar.keepsStandard_declare _).bind fun _ => (Grammar.keepsStandard_join ..).discard

theorem standard_initial (config : Config) : (initial config).grammar.AllStandard := by
  have hnone : ({} : Grammar).AllStandard := fun r hr => absurd hr (Array.not_mem_empty r)
  simpa only [initial] using keepsStandard_prepare.run {} hnone

/-- **A language has only standard completers**, whatever it is defined by. -/
theorem standard_defining {l : Language} (h : l.grammar.AllStandard)
    (definitions : List (String × String)) : (l.defining definitions).grammar.AllStandard := by
  induction definitions generalizing l with
  | nil => exact h
  | cons d ds ih => exact ih ((Grammar.keepsStandard_defineType d.1 d.2).run l.grammar h)

/-- **What a language compiles to has completers that keep to everything**: they are discreet and
plain, blind to the copy of the grammar, and ask for the parts of their rule. -/
theorem completers_of_compile {config : Config} {definitions : List (String × String)}
    {l : Language}
    (hcompile : compile.run.run ((initial config).defining definitions) = (.ok (), l)) :
    l.grammar.AllStandard ∧ l.grammar.flat.AllCompleters fun c =>
      c.Discreet ∧ c.IsPlain ∧ c.CopyBlind l.grammar.flat ∧ c.AsksParts := by
  have hstandard := standard_defining (standard_initial config) definitions
  generalize (initial config).defining definitions = before at hcompile hstandard
  obtain ⟨hresult, rfl⟩ := Prod.mk.inj ((run_compile before).symm.trans hcompile)
  have hrun : (Grammar.compile (.nonterminal program)).run.run before.grammar = (.ok (), _) :=
    Prod.ext hresult rfl
  have hall := hstandard.compile hrun
  exact ⟨hall, fun r hr c hc => have hc := Grammar.standard_of_compile hrun hall r hr c hc
    ⟨hc.discreet, hc.isPlain, hc.copyBlind _, hc.asksParts⟩⟩

end Language

end Typeahead
