import Typeahead.Language.Standard
import Typeahead.Proofs.Grammar.Registry

/-!
# Proofs/Language/Standard — the rules of the standard types

Registering the standard types is followed part by part (`leads_registerNumbers` and the others).
What comes of it are rules that compile, each of them the only one of its target; those of whole
numbers, ranges and colours are spelled out (`Standard.Rules`).
-/

namespace Typeahead.Standard

open Grammar

/-- The grammar of the standard types. -/
def grammar : Grammar := (register.run {}).2

/-- The type of whole numbers. -/
def int : String := "int"

/-- The type of ranges. -/
def integerRange : String := "integer-range"

/-- The type of colours. -/
def color : String := "color"

/-! ## Rules -/

/-- A minus or a plus. -/
def signRule : Rule := .ofChildren .choice "sign" [plain (.literal "-"), plain (.literal "+")]

/-- A sign or nothing. -/
def optionalSignRule (optionalSign : String) : Rule :=
  .ofChildren .optional optionalSign [(Symbol.nonterminal "sign").called "sign"]

/-- At least one digit. -/
def digitsRule (digits : String) : Rule :=
  .ofChildren .plus digits [(Symbol.terminal .digit).called "digit"]

/-- A whole number. -/
def intRule (optionalSign digits : String) : Rule :=
  { Rule.ofChildren .sequence int [(Symbol.nonterminal optionalSign).called "optional",
      (Symbol.nonterminal digits).called "plus"] with
    evaluator := some .integer
    completer := some .placeholder }

/-- Any number of blanks, with some completion. -/
def blanksRule (blanks : String) (c : Completer) : Rule :=
  { Rule.ofChildren .star blanks [plain .whitespace] with completer := some c }

/-- A text with blanks around it. -/
def spacedRule (x blanks text : String) (name : Option String) : Rule :=
  .ofChildren .sequence x [(Symbol.nonterminal blanks).called "ws*", ⟨.literal text, name⟩,
    (Symbol.nonterminal blanks).called "ws*"]

/-- Two whole numbers around a dash. -/
def rangeRule (dash : String) : Rule :=
  { Rule.ofChildren (.join { delimiter := some (.nonterminal dash), count := .exactly 2 })
      integerRange [(Symbol.nonterminal int).unnamed] with
    names := [some "from", some "to"]
    evaluator := some .range }

/-- A bracket with blanks behind it. -/
def openingRule (opening blanks : String) : Rule :=
  .ofChildren .sequence opening [(Symbol.literal "(").called "open",
    (Symbol.nonterminal blanks).called "ws*"]

/-- A bracket with blanks in front of it. -/
def closingRule (closing blanks : String) : Rule :=
  .ofChildren .sequence closing [(Symbol.nonterminal blanks).called "ws*",
    (Symbol.literal ")").called "close"]

/-- A tuple of the parts of a colour. -/
def partsRule (parts opening closing comma : String) : Rule :=
  { Rule.ofChildren (.join
      { opening := some (.nonterminal opening), closing := some (.nonterminal closing),
        delimiter := some (.nonterminal comma), count := .exactly 3 })
      parts [(Symbol.nonterminal int).unnamed] with
    names := [some "red", some "green", some "blue"]
    evaluator := some .color
    completer := some .tuple }

/-- A text with a fixed value. -/
def constantRule (x text : String) (v : Value) : Rule :=
  { Rule.ofChildren .sequence x [plain (.literal text)] with evaluator := some (.const v) }

/-- A colour by its parts, or by its name. -/
def colorRule (parts : String) (named : List Named) : Rule :=
  .ofChildren .choice color ((Symbol.nonterminal parts).unnamed :: named)

/-- What whole numbers are made of, the last rule first. -/
def numberRules (optionalSign digits : String) : List Rule :=
  [intRule optionalSign digits, digitsRule digits, optionalSignRule optionalSign, signRule]

/-- What ranges are made of, besides blanks and whole numbers. -/
def rangeRules (dash : String) : List Rule :=
  [rangeRule dash, spacedRule dash "whitespace-star" "-" none]

/-- What tuples of the parts of a colour are made of, besides whole numbers. -/
def partsRules (blanks opening closing comma parts : String) : List Rule :=
  [partsRule parts opening closing comma, spacedRule comma blanks "," (some "delimiter"),
    closingRule closing blanks, openingRule opening blanks, blanksRule blanks (.fixed [])]

/-- Some occurrences of nonterminals stand for the names of colours. -/
def NamesColors (rs : List Rule) (named : List Named) : Prop :=
  ∀ n ∈ named, ∃ a ∈ colors, ∃ x v, n = (Symbol.nonterminal x).unnamed ∧ constantRule x a.1 v ∈ rs

/-- **Rules of the standard types** are among some rules. -/
structure Rules (rs : List Rule) : Prop where
  numbers : ∃ optionalSign digits, numberRules optionalSign digits ⊆ rs
  blanks : blanksRule "whitespace-star" (.ifEmpty " ") ∈ rs
  ranges : ∃ dash, rangeRules dash ⊆ rs
  colors : ∃ blanks opening closing comma parts named,
    partsRules blanks opening closing comma parts ⊆ rs ∧ colorRule parts named ∈ rs ∧
      NamesColors rs named

/-! ## Registering -/

@[simp] theorem symbol_plain (t : Terminal) : (plain t).symbol = .terminal t := rfl

section

variable {G : Grammar} {given : List String} {rs : List Rule} (h : G.Registry given rs)

include h

theorem leads_character {name : String} {t : Terminal} (hname : SymbolTable.isMade name = false)
    {Q : Unit → Grammar → Prop} (hQ : ∀ r G', G'.Registry (name :: given) (r :: rs) → Q () G') :
    G.Leads (character name t) Q := by
  unfold character
  refine leads_bind (h.leads_insert trivial hname (List.cons_ne_nil _ _) (by simp) fun _ _ h => ?_)
  exact leads_bind (h.leads_evaluating fun _ h => leads_discard (h.leads_completing fun G' h =>
    hQ _ G' h))

theorem leads_constant {text : String} {v : Value} {Q : RuleRef → Grammar → Prop}
    (hQ : ∀ x G', G'.Registry given (constantRule x text v :: rs) → Q ⟨rs.length, x⟩ G') :
    G.Leads (constant text v) Q := by
  unfold constant
  refine leads_bind (h.leads_insert trivial rfl (List.cons_ne_nil _ _) (by simp) fun x _ h => ?_)
  exact h.leads_evaluating (hQ x)

/-- Several constants, each with an occurrence of it. -/
theorem leads_constants {α : Type} (text : α → String) (v : α → Value) (named : α → Symbol → Named)
    {f : α → StateM Grammar Named} (hf : ∀ a, f a = do
      let r ← constant (text a) (v a)
      return named a r.symbol)
    (hnamed : ∀ a s, (named a s).symbol = s) {as : List α} {Q : List Named → Grammar → Prop}
    (hQ : ∀ more ns G', G'.Registry given (more ++ rs) → ns.length = as.length →
      (∀ n ∈ ns, ∃ a ∈ as, ∃ x, n = named a (.nonterminal x) ∧
        constantRule x (text a) (v a) ∈ more) →
      (∀ y, .nonterminal y ∈ ns.map (·.symbol) → y ∈ more.map (·.target)) → Q ns G') :
    G.Leads (as.mapM f) Q := by
  induction as generalizing G rs Q with
  | nil => exact hQ [] [] G h rfl (List.forall_mem_nil _) (fun _ => List.not_mem_nil.elim)
  | cons a as ih =>
    rw [List.mapM_cons, hf]
    refine leads_bind (leads_bind (leads_constant h fun x G' h => ?_))
    refine leads_pure (leads_bind (ih h fun more ns G' h hlength hns hknown => leads_pure ?_))
    refine hQ (more ++ [constantRule x (text a) (v a)]) (named a (.nonterminal x) :: ns) G'
      ?_ ?_ ?_ ?_
    · simpa using h
    · simpa using hlength
    · refine List.forall_mem_cons.2 ⟨⟨a, by simp, x, rfl, by simp⟩, fun n hn => ?_⟩
      obtain ⟨a', ha', x', hn', hmem⟩ := hns n hn
      exact ⟨a', List.mem_cons_of_mem _ ha', x', hn', List.mem_append_left _ hmem⟩
    · intro y hy
      rw [List.map_append, List.mem_append]
      rcases List.mem_cons.1 hy with hy | hy
      · obtain rfl : y = x := Symbol.nonterminal.inj (hy.trans (hnamed a _))
        exact .inr (List.mem_singleton_self _)
      · exact .inl (hknown y hy)

theorem leads_registerNumbers {Q : Symbol → Grammar → Prop}
    (hQ : ∀ more o d G', G'.Registry ("float" :: int :: "sign" :: given) (more ++ rs) →
      numberRules o d ⊆ more → Q (.nonterminal int) G') :
    G.Leads registerNumbers Q := by
  unfold registerNumbers
  refine leads_bind (h.leads_insert trivial rfl (List.cons_ne_nil _ _) (by simp) fun _ _ h => ?_)
  refine leads_bind (h.leads_insert trivial rfl (List.cons_ne_nil _ _) (by simp) fun o _ h => ?_)
  refine leads_bind (h.leads_insert trivial rfl (List.cons_ne_nil _ _) (by simp) fun d _ h => ?_)
  refine leads_bind (h.leads_insert trivial rfl (List.cons_ne_nil _ _) (by simp) fun _ _ h => ?_)
  refine leads_bind (h.leads_evaluating fun _ h => ?_)
  refine leads_bind (leads_discard (h.leads_completing fun G h => ?_))
  replace h : G.Registry (int :: "sign" :: given) (numberRules o d ++ rs) := h
  refine leads_bind (h.leads_insert trivial rfl (List.cons_ne_nil _ _)
    (by simp [numberRules, signRule]) fun _ _ h => ?_)
  refine leads_bind (h.leads_insert trivial rfl (List.cons_ne_nil _ _) (by simp) fun _ _ h => ?_)
  refine leads_bind (h.leads_insert trivial rfl (List.cons_ne_nil _ _) (by simp) fun _ _ h => ?_)
  refine leads_bind (h.leads_insert trivial rfl (List.cons_ne_nil _ _) (by simp) fun _ _ h => ?_)
  refine leads_bind (h.leads_insert trivial rfl (List.cons_ne_nil _ _) (by simp) fun _ _ h => ?_)
  refine leads_bind (h.leads_insert trivial rfl (List.cons_ne_nil _ _) (by simp) fun _ _ h => ?_)
  refine leads_bind (h.leads_evaluating fun _ h => ?_)
  refine leads_bind (leads_discard (h.leads_completing fun _ h => leads_pure ?_))
  exact hQ (_ :: _ :: _ :: _ :: _ :: _ :: numberRules o d) o d _ h
    fun _ hr => List.mem_append_right [_, _, _, _, _, _] hr

theorem leads_registerBlanks {Q : Symbol → Grammar → Prop}
    (hQ : ∀ r G', G'.Registry (blankRun :: "whitespace-star" :: given)
      (r :: blanksRule "whitespace-star" (.ifEmpty " ") :: rs) →
      Q (.nonterminal "whitespace-star") G') :
    G.Leads registerBlanks Q := by
  unfold registerBlanks
  refine leads_bind (h.leads_insert trivial rfl (List.cons_ne_nil _ _) (by simp) fun _ _ h => ?_)
  refine leads_bind (leads_discard (h.leads_completing fun _ h => ?_))
  refine leads_bind (h.leads_insert trivial rfl (List.cons_ne_nil _ _) (by simp) fun _ _ h => ?_)
  exact leads_bind (leads_discard (h.leads_completing fun G' h => leads_pure (hQ _ G' h)))

theorem leads_registerRange (hint : int ∈ rs.map (·.target))
    (hblanks : "whitespace-star" ∈ rs.map (·.target)) {Q : Unit → Grammar → Prop}
    (hQ : ∀ dash G', G'.Registry (integerRange :: given) (rangeRules dash ++ rs) → Q () G') :
    G.Leads (registerRange (.nonterminal int) (.nonterminal "whitespace-star")) Q := by
  unfold registerRange
  refine leads_bind (h.leads_insert trivial rfl (List.cons_ne_nil _ _) (by simpa using hblanks)
    fun dash _ h => ?_)
  refine leads_bind (h.leads_joinNames rfl rfl (by simp [Join.joints, List.mem_map.1 hint])
    fun _ _ h => ?_)
  exact leads_discard (h.leads_evaluating fun G' h => hQ dash G' h)

theorem leads_registerTime {Q : Unit → Grammar → Prop}
    (hQ : ∀ r r' G', G'.Registry ("time" :: given) (r :: r' :: rs) → Q () G') :
    G.Leads registerTime Q := by
  unfold registerTime
  refine leads_bind (h.leads_insert trivial rfl (List.cons_ne_nil _ _) (by simp) fun _ _ h => ?_)
  refine leads_bind (h.leads_insert trivial rfl (List.cons_ne_nil _ _) (by simp) fun _ _ h => ?_)
  refine leads_bind (h.leads_evaluating fun _ h => ?_)
  exact leads_discard (h.leads_completing fun G' h => hQ _ _ G' h)

theorem leads_registerMonths {Q : Unit → Grammar → Prop}
    (hQ : ∀ more G', G'.Registry ("month" :: given) (more ++ rs) → Q () G') :
    G.Leads registerMonths Q := by
  unfold registerMonths
  have hne : months.zipIdx ≠ [] := List.cons_ne_nil _ _
  generalize months.zipIdx = as at hne
  refine leads_bind ?_
  refine leads_constants h (·.1) (fun a => .int a.2)
    (fun a s => s.called (String.ofList (a.1.toList.map Char.toLower))) ?_ (fun _ _ => rfl) ?_
  · rintro ⟨month, i⟩
    rfl
  intro more ns _ h hlength _ hknown
  refine leads_discard (h.leads_insert trivial rfl ?_ ?_ fun _ G' h => hQ (_ :: more) G' h)
  · rintro rfl
    exact hne (List.length_eq_zero_iff.1 hlength.symm)
  · intro y hy
    rw [List.map_append]
    exact List.mem_append_left _ (hknown y hy)

theorem leads_tuple (hint : int ∈ rs.map (·.target)) {Q : RuleRef → Grammar → Prop}
    (hQ : ∀ b o c d p G', G'.Registry given
      ({ Rule.ofChildren (.join
          { opening := some (.nonterminal o), closing := some (.nonterminal c),
            delimiter := some (.nonterminal d), count := .exactly 3 })
          p [(Symbol.nonterminal int).unnamed] with
        names := [some "red", some "green", some "blue"]
        completer := some .tuple } ::
        spacedRule d b "," (some "delimiter") :: closingRule c b :: openingRule o b ::
        blanksRule b (.fixed []) :: rs) → Q ⟨rs.length + 4, p⟩ G') :
    G.Leads (tuple none (.nonterminal int) ["red", "green", "blue"]) Q := by
  unfold tuple blanks
  refine leads_bind (h.leads_insert trivial rfl (List.cons_ne_nil _ _) (by simp) fun b _ h => ?_)
  refine leads_bind (h.leads_completing fun _ h => ?_)
  refine leads_bind (h.leads_insert trivial rfl (List.cons_ne_nil _ _) (by simp [Symbol.literal])
    fun o _ h => ?_)
  refine leads_bind (h.leads_insert trivial rfl (List.cons_ne_nil _ _) (by simp [Symbol.literal])
    fun c _ h => ?_)
  refine leads_bind (h.leads_insert trivial rfl (List.cons_ne_nil _ _) (by simp [Symbol.literal])
    fun d _ h => ?_)
  refine leads_bind (h.leads_joinNames rfl rfl (by simp [Join.joints, List.mem_map.1 hint])
    fun p _ h => ?_)
  exact h.leads_completing fun G' h => hQ b o c d p G' h

theorem leads_registerColors (hint : int ∈ rs.map (·.target)) {Q : Unit → Grammar → Prop}
    (hQ : ∀ more b o c d p named G', G'.Registry (color :: given) (more ++ rs) →
      partsRules b o c d p ⊆ more → colorRule p named ∈ more → NamesColors more named → Q () G') :
    G.Leads (registerColors (.nonterminal int)) Q := by
  unfold registerColors
  refine leads_bind (leads_tuple h hint fun b o c d p G h => ?_)
  refine leads_bind (h.leads_evaluating fun G h => ?_)
  replace h : G.Registry given (partsRules b o c d p ++ rs) := h
  generalize hcolors : colors = as
  refine leads_bind ?_
  refine leads_constants h (·.1) (fun a => .int (Value.opaqueColor a.2.1 a.2.2.1 a.2.2.2))
    (fun _ s => s.unnamed) ?_ (fun _ _ => rfl) ?_
  · rintro ⟨name, red, green, blue⟩
    rfl
  intro more ns _ h _ hns hknown
  refine leads_discard (h.leads_insert trivial rfl (List.cons_ne_nil _ _) ?_ fun _ G' h => ?_)
  · intro y hy
    rw [List.map_append, List.mem_append]
    rcases List.mem_cons.1 hy with hy | hy
    · obtain rfl : y = p := Symbol.nonterminal.inj hy
      exact .inr (List.mem_cons_self ..)
    · exact .inl (hknown y hy)
  replace h : G'.Registry (color :: given)
    (colorRule p ns :: (more ++ (partsRules b o c d p ++ rs))) := h
  refine hQ (colorRule p ns :: (more ++ partsRules b o c d p)) b o c d p ns G' ?_ ?_ ?_ ?_
  · rwa [List.cons_append, List.append_assoc]
  · exact fun r hr => List.mem_cons_of_mem _ (List.mem_append_right _ hr)
  · exact List.mem_cons_self ..
  · intro n hn
    obtain ⟨a, ha, x, hn, hmem⟩ := hns n hn
    exact ⟨a, hcolors ▸ ha, x, _, hn, List.mem_cons_of_mem _ (List.mem_append_left _ hmem)⟩

end

/-- The names of the standard types, the last one first. -/
def names : List String :=
  [lineBreaks, color, "month", "time", integerRange, blankRun, "whitespace-star", "float", int,
    "sign", "letter", "digit"]

/-- **The standard types are registered** under their names, with their rules. -/
theorem exists_registry : ∃ rs, grammar.Registry names rs ∧ Rules rs := by
  have h : Leads {} register fun _ G => ∃ rs, G.Registry names rs ∧ Rules rs := by
    unfold register
    refine leads_bind (leads_character registry_nil rfl fun letter _ h => ?_)
    refine leads_bind (leads_character h rfl fun digit _ h => ?_)
    refine leads_bind (leads_registerNumbers h fun numbers sign digits _ h hnumbers => ?_)
    have hmem : intRule sign digits ∈ numbers := hnumbers (List.mem_cons_self ..)
    have hint : ∀ {rs : List Rule}, intRule sign digits ∈ rs → int ∈ rs.map (·.target) :=
      fun hr => List.mem_map_of_mem (f := (·.target)) hr
    refine leads_bind (leads_registerBlanks h fun plus _ h => ?_)
    refine leads_bind (leads_registerRange h (hint (by simp [hmem])) (by simp [blanksRule])
      fun dash _ h => ?_)
    refine leads_bind (leads_registerTime h fun _ _ _ h => ?_)
    refine leads_bind (leads_registerMonths h fun months _ h => ?_)
    refine leads_bind (leads_registerColors h (hint (by simp [hmem]))
      fun colors b o c d p named _ h hparts hcolor hnamed => ?_)
    refine leads_discard (h.leads_insert trivial rfl (List.cons_ne_nil _ _) (by simp) fun _ _ h =>
      ⟨_, h, ⟨sign, digits, fun r hr => ?_⟩, ?_, ⟨dash, fun r hr => ?_⟩, b, o, c, d, p, named,
        fun r hr => ?_, ?_, fun n hn => ?_⟩)
    · simp [hnumbers hr]
    · simp
    · simp [hr]
    · simp [hparts hr]
    · simp [hcolor]
    · obtain ⟨a, ha, x, v, hn, hmem⟩ := hnamed n hn
      exact ⟨a, ha, x, v, hn, by simp [hmem]⟩
  exact h

theorem reachable_grammar : grammar.Reachable := by
  obtain ⟨rs, h, -⟩ := exists_registry
  exact h.reachable

/-- **The standard types compile** with each of them as the top symbol, and no rule shares its
target with another one. -/
theorem exists_compile {x : String} (hx : x ∈ names) :
    ∃ rs G', Rules rs ∧ (compile (.nonterminal x)).run.run grammar = (.ok (), G') ∧
      ∀ r ∈ startRule (.nonterminal x) :: rs, G'.rulesFor r.target = [r] := by
  obtain ⟨rs, h, hrules⟩ := exists_registry
  have htarget : x ∈ rs.map (·.target) := by
    rw [← h.given] at hx
    exact (List.mem_filter.1 hx).1
  obtain ⟨G', hcompile⟩ := h.exists_compile htarget
  exact ⟨rs, G', hrules, hcompile, fun r hr => h.rulesFor_of_compile (by decide) (by decide)
    hcompile hr⟩

end Typeahead.Standard
