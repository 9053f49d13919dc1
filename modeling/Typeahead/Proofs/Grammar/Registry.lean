import Typeahead.Proofs.Grammar.Complete

/-!
# Proofs/Grammar/Registry — what a program of builders has registered

A program that registers rules is followed builder by builder: `Grammar.Leads` says what it leads
to, and for each builder there is a rule with what is known of the grammar before and after
(`Grammar.Registry`).  Known are all rules in their order, and which of their targets were given;
the others were made up, and those are told from names without an underscore and from each other.

So if no name was given twice, no two rules have the same target, and in a compiled grammar each
rule is the only one of its target (`Registry.rulesFor_of_compile`).
-/

namespace Typeahead

namespace SymbolTable

/-- Whether a name looks as if it was made up, with an underscore in front of a number. -/
def isMade (name : String) : Bool := name.toList.contains '_'

theorem isMade_fresh (table : SymbolTable) (base : String) :
    isMade (table.fresh base).1 = true := by
  simp [isMade, fresh, numbered]

end SymbolTable

@[simp] theorem Symbol.symbol_called (s : Symbol) (name : String) :
    (s.called name).symbol = s := rfl

@[simp] theorem Symbol.symbol_unnamed (s : Symbol) : s.unnamed.symbol = s := rfl

@[simp] theorem RuleRef.symbol_mk (i : Nat) (x : String) :
    (RuleRef.mk i x).symbol = .nonterminal x := rfl

@[simp] theorem Rule.target_ofChildren (kind : RuleKind) (x : String) (children : List Named) :
    (Rule.ofChildren kind x children).target = x := rfl

@[simp] theorem Rule.children_ofChildren (kind : RuleKind) (x : String) (children : List Named) :
    (Rule.ofChildren kind x children).children = children.map (·.symbol) := rfl

/-- A kind of rule that does not bound the number of its entries. -/
def RuleKind.Uncounted : RuleKind → Prop
  | .repetition _ _ | .join _ => False
  | _ => True

/-- A rule of such a kind is written with its children, and can be lowered if there is one. -/
theorem RuleKind.Uncounted.ofChildren {kind : RuleKind} (h : kind.Uncounted) (x : String)
    (children : List Named) :
    (Rule.ofChildren kind x children).symbols = children.map (·.symbol) ∧
      (children ≠ [] → (Rule.ofChildren kind x children).Lowerable) := by
  have hmap : children ≠ [] → children.map (·.symbol) ≠ [] := mt List.map_eq_nil_iff.1
  cases kind with
  | sequence => exact ⟨rfl, fun _ => trivial⟩
  | choice | optional | star | plus => exact ⟨rfl, hmap⟩
  | repetition | join => exact h.elim

namespace Grammar

open SymbolTable (isMade)

/-! ## Programs -/

/-- **A program leads to** a result and a grammar with some property. -/
def Leads {α : Type} (G : Grammar) (m : StateM Grammar α) (Q : α → Grammar → Prop) : Prop :=
  Q (m.run G).1 (m.run G).2

section

variable {α β : Type} {G : Grammar} {m : StateM Grammar α} {f : α → StateM Grammar β}

theorem leads_pure {a : α} {Q : α → Grammar → Prop} (h : Q a G) : G.Leads (pure a) Q := h

theorem leads_bind {Q : β → Grammar → Prop} (h : G.Leads m fun a G' => G'.Leads (f a) Q) :
    G.Leads (m >>= f) Q := h

theorem leads_discard {Q : PUnit → Grammar → Prop} (h : G.Leads m fun _ => Q ⟨⟩) :
    G.Leads (discard m) Q := h

end

/-! ## What is registered -/

/-- **What is known of a grammar** while rules are registered: `rs` are its rules, the last one
first, and `given` those of their targets that were not made up. -/
structure Registry (G : Grammar) (given : List String) (rs : List Rule) : Prop where
  rules : G.rules.toList = rs.reverse
  reachable : G.Reachable
  lowerable : ∀ r ∈ rs, r.Lowerable
  defined : ∀ r ∈ rs, ∀ x, .nonterminal x ∈ r.symbols → x ∈ rs.map (·.target)
  given : (rs.map (·.target)).filter (!isMade ·) = given
  made : ((rs.map (·.target)).filter isMade).Nodup

theorem registry_nil : Registry {} [] [] where
  rules := rfl
  reachable := .refl
  lowerable := List.forall_mem_nil _
  defined := List.forall_mem_nil _
  given := rfl
  made := List.nodup_nil

namespace Registry

variable {G G' : Grammar} {given : List String} {rs : List Rule} {r : Rule} {x : String}
  {name : Option String}

theorem mem_rules (h : G.Registry given rs) : r ∈ G.rules ↔ r ∈ rs := by
  rw [← Array.mem_toList_iff, h.rules, List.mem_reverse]

theorem size_rules (h : G.Registry given rs) : G.rules.size = rs.length := by
  rw [← Array.length_toList, h.rules, List.length_reverse]

theorem knows (h : G.Registry given rs) (hx : x ∈ rs.map (·.target)) :
    G.symbols.knows x = true := by
  obtain ⟨r, hr, rfl⟩ := List.mem_map.1 hx
  exact (h.reachable.closed r (h.mem_rules.2 hr)).target

theorem complete (h : G.Registry given rs) : G.Complete where
  lowerable r hr := h.lowerable r (h.mem_rules.1 hr)
  defined r hr x hx := by
    obtain ⟨r', hr', rfl⟩ := List.mem_map.1 (h.defined r (h.mem_rules.1 hr) x hx)
    exact ⟨r', h.mem_rules.2 hr', rfl⟩

/-! ### More rules -/

/-- Another rule, for a name that is given or else for the name `x` that was not known. -/
theorem push (h : G.Registry given rs) (hreachable : G'.Reachable)
    (hrules : G'.rules = G.rules.push r) (htarget : r.target = name.getD x)
    (hname : name.any isMade = false) (hmade : isMade x = true)
    (hfresh : G.symbols.knows x = false) (hlowerable : r.Lowerable)
    (hsymbols : ∀ y, .nonterminal y ∈ r.symbols → y ∈ rs.map (·.target)) :
    G'.Registry (name.toList ++ given) (r :: rs) where
  rules := by rw [hrules, Array.toList_push, h.rules, List.reverse_cons]
  reachable := hreachable
  lowerable := List.forall_mem_cons.2 ⟨hlowerable, h.lowerable⟩
  defined := List.forall_mem_cons.2 ⟨fun y hy => List.mem_cons_of_mem _ (hsymbols y hy),
    fun r hr y hy => List.mem_cons_of_mem _ (h.defined r hr y hy)⟩
  given := by
    rw [List.map_cons, htarget]
    cases name with
    | none => simp [hmade, h.given]
    | some y =>
      have hy : isMade y = false := hname
      simp [hy, h.given]
  made := by
    rw [List.map_cons, htarget]
    cases name with
    | none =>
      rw [Option.getD_none, List.filter_cons_of_pos hmade, List.nodup_cons]
      refine ⟨fun hmem => ?_, h.made⟩
      rw [h.knows (List.mem_filter.1 hmem).1] at hfresh
      cases hfresh
    | some y =>
      have hy : isMade y = false := hname
      rw [Option.getD_some, List.filter_cons_of_neg (by rw [hy]; nofun)]
      exact h.made

/-- What registering a rule comes to. -/
theorem exists_run_insert (kind : RuleKind) (name : Option String) (children : List Named)
    (G : Grammar) : ∃ x, isMade x = true ∧ G.symbols.knows x = false ∧
      ((insert kind name children).run G).1 = ⟨G.rules.size, name.getD x⟩ ∧
      ((insert kind name children).run G).2.rules
        = G.rules.push (.ofChildren kind (name.getD x) children) := by
  refine ⟨(G.symbols.fresh kind.word).1, SymbolTable.isMade_fresh ..,
    SymbolTable.fresh_unknown .., ?_⟩
  rw [run_insert]
  cases name <;> exact ⟨rfl, rfl⟩

section

variable {Q : RuleRef → Grammar → Prop} (h : G.Registry given rs)

include h

/-- **A new rule** is the last one. -/
theorem leads_insert {kind : RuleKind} {children : List Named} (hkind : kind.Uncounted)
    (hname : name.any isMade = false) (hne : children ≠ [])
    (hchildren : ∀ y, .nonterminal y ∈ children.map (·.symbol) → y ∈ rs.map (·.target))
    (hQ : ∀ x G', G'.Registry (name.toList ++ given)
        (.ofChildren kind (name.getD x) children :: rs) → Q ⟨rs.length, name.getD x⟩ G') :
    G.Leads (insert kind name children) Q := by
  obtain ⟨x, hmade, hfresh, hresult, hrules⟩ := exists_run_insert kind name children G
  obtain ⟨hsymbols, hlowerable⟩ := hkind.ofChildren (name.getD x) children
  have hjoin : ∀ j, kind ≠ .join j := by
    rintro j rfl
    exact hkind
  rw [Leads, hresult, h.size_rules]
  refine hQ x _ (h.push (h.reachable.tail (.insert G hjoin name children)) hrules rfl hname hmade
    hfresh (hlowerable hne) ?_)
  rwa [hsymbols]

/-- **A new join.** -/
theorem leads_join {entry : Named} {j : Join} (hname : name.any isMade = false)
    (hbrackets : j.opening.isSome = j.closing.isSome) (hcount : j.count.lower ≤ j.count.upper)
    (hsymbols : ∀ y, .nonterminal y ∈ entry.symbol :: j.joints → y ∈ rs.map (·.target))
    (hQ : ∀ x G', G'.Registry (name.toList ++ given)
        (.ofChildren (.join j) (name.getD x) [entry] :: rs) → Q ⟨rs.length, name.getD x⟩ G') :
    G.Leads (join name entry j) Q := by
  have hreachable := h.reachable.tail (.join G name entry j)
  rw [run_join] at hreachable
  rw [Leads, run_join]
  obtain ⟨x, hmade, hfresh, hresult, hrules⟩ := exists_run_insert (.join j) name [entry]
    { G with symbols := G.symbols.registerAll j.joints }
  rw [hresult]
  have hunknown : G.symbols.knows x = false := by
    rw [Bool.eq_false_iff] at hfresh ⊢
    exact fun hknows => hfresh (SymbolTable.knows_registerAll_of_knows hknows _)
  have hsize : ({ G with symbols := G.symbols.registerAll j.joints } : Grammar).rules.size
    = rs.length := h.size_rules
  rw [hsize]
  exact hQ x _ (h.push hreachable hrules rfl hname hmade hunknown
    ⟨List.cons_ne_nil _ _, hbrackets, hcount⟩ hsymbols)

end

section

variable {Q : RuleRef → Grammar → Prop} (h : G.Registry given (r :: rs))

include h

/-- **The last rule is changed** in its behaviour or in the names of its children. -/
theorem leads_modifyRule {change : Rule → Rule} (hkind : ∀ r, (change r).kind = r.kind)
    (htarget : ∀ r, (change r).target = r.target)
    (hchildren : ∀ r, (change r).children = r.children)
    (hQ : ∀ G', G'.Registry given (change r :: rs) → Q ⟨rs.length, x⟩ G') :
    G.Leads (modifyRule ⟨rs.length, x⟩ change) Q := by
  have hsymbols : ∀ r, (change r).symbols = r.symbols := fun r => by
    rw [Rule.symbols, Rule.symbols, hkind, hchildren]
  have hlowerable : (change r).Lowerable := by
    rw [Rule.Lowerable, hkind, hchildren]
    exact h.lowerable r (List.mem_cons_self ..)
  have hmap : (change r :: rs).map (·.target) = (r :: rs).map (·.target) := by
    rw [List.map_cons, List.map_cons, htarget]
  have hrules : G.rules = rs.reverse.toArray.push r := by
    rw [← Array.toList_inj, h.rules, Array.toList_push, List.reverse_cons]
  obtain ⟨-, hreachable, hrest, hdefined, hgiven, hmade⟩ := h
  refine hQ _ ⟨?_, hreachable.tail (.modifyRule G _ htarget hsymbols),
    List.forall_mem_cons.2 ⟨hlowerable, (List.forall_mem_cons.1 hrest).2⟩, ?_, ?_, ?_⟩
  · change (G.rules.modify rs.length change).toList = _
    have hmodify := modify_push rs.reverse.toArray r change
    rw [List.size_toArray, List.length_reverse] at hmodify
    rw [hrules, hmodify, Array.toList_push, List.reverse_cons]
  · rw [hmap]
    obtain ⟨hr, hrs⟩ := List.forall_mem_cons.1 hdefined
    refine List.forall_mem_cons.2 ⟨?_, hrs⟩
    rwa [hsymbols]
  · rwa [hmap]
  · rwa [hmap]

theorem leads_evaluating {e : Evaluator}
    (hQ : ∀ G', G'.Registry given ({ r with evaluator := some e } :: rs) → Q ⟨rs.length, x⟩ G') :
    G.Leads (evaluating e ⟨rs.length, x⟩) Q :=
  h.leads_modifyRule (fun _ => rfl) (fun _ => rfl) (fun _ => rfl) hQ

theorem leads_completing {c : Completer}
    (hQ : ∀ G', G'.Registry given ({ r with completer := some c } :: rs) → Q ⟨rs.length, x⟩ G') :
    G.Leads (completing c ⟨rs.length, x⟩) Q :=
  h.leads_modifyRule (fun _ => rfl) (fun _ => rfl) (fun _ => rfl) hQ

end

section

variable {Q : RuleRef → Grammar → Prop} (h : G.Registry given rs)

include h

/-- **A new join with named entries.** -/
theorem leads_joinNames {entry : Symbol} {j : Join} {names : List String}
    (hname : name.any isMade = false) (hbrackets : j.opening.isSome = j.closing.isSome)
    (hsymbols : ∀ y, .nonterminal y ∈ entry :: j.joints → y ∈ rs.map (·.target))
    (hQ : ∀ x G', G'.Registry (name.toList ++ given)
      ({ Rule.ofChildren (.join { j with count := .exactly names.length }) (name.getD x)
        [entry.unnamed] with names := names.map some } :: rs) → Q ⟨rs.length, name.getD x⟩ G') :
    G.Leads (joinNames name entry j names) Q := by
  refine leads_bind
    (h.leads_join hname hbrackets (Nat.le_refl names.length) hsymbols fun x _ h => ?_)
  exact h.leads_modifyRule (fun _ => rfl) (fun _ => rfl) (fun _ => rfl) (hQ x)

end

/-! ### Compiling -/

/-- The rule of a target is its only one, if no two rules have the same target. -/
theorem filter_eq_singleton (hnodup : (rs.map (·.target)).Nodup) (hr : r ∈ rs) :
    rs.filter (·.target = r.target) = [r] := by
  induction rs with
  | nil => cases hr
  | cons r' rs ih =>
    rw [List.map_cons, List.nodup_cons] at hnodup
    obtain ⟨hnew, hnodup⟩ := hnodup
    rcases List.mem_cons.1 hr with rfl | hr
    · rw [List.filter_cons_of_pos (by simp), List.filter_eq_nil_iff.2]
      intro r' hr' heq
      exact hnew (of_decide_eq_true heq ▸ List.mem_map_of_mem hr')
    · have hne : r'.target ≠ r.target := fun heq => hnew (heq ▸ List.mem_map_of_mem hr)
      rw [List.filter_cons_of_neg (by simpa using hne)]
      exact ih hnodup hr

theorem nodup (h : G.Registry given rs) (hgiven : given.Nodup) : (rs.map (·.target)).Nodup := by
  rw [← (List.filter_append_perm isMade (rs.map (·.target))).nodup_iff]
  refine h.made.append (h.given ▸ hgiven) fun x hx hx' => ?_
  have hmade := (List.mem_filter.1 hx).2
  have hnot := (List.mem_filter.1 hx').2
  rw [hmade] at hnot
  cases hnot

theorem start_notMem (h : G.Registry given rs) (hstart : SymbolTable.start ∉ given) :
    SymbolTable.start ∉ rs.map (·.target) := by
  intro hmem
  refine hstart (h.given ▸ List.mem_filter.2 ⟨hmem, ?_⟩)
  rfl

/-- **The registered rules compile** for each of their targets. -/
theorem exists_compile (h : G.Registry given rs) (hx : x ∈ rs.map (·.target)) :
    ∃ G', (compile (.nonterminal x)).run.run G = (.ok (), G') := by
  obtain ⟨r, hr, rfl⟩ := List.mem_map.1 hx
  exact h.complete.exists_compile ⟨r, h.mem_rules.2 hr, rfl⟩

/-- **Each rule of the compiled grammar** is the only one of its target, if no name was given
twice. -/
theorem rulesFor_of_compile (h : G.Registry given rs) (hgiven : given.Nodup)
    (hstart : SymbolTable.start ∉ given) {top : Symbol}
    (hcompile : (compile top).run.run G = (.ok (), G')) (hr : r ∈ startRule top :: rs) :
    G'.rulesFor r.target = [r] := by
  have hnot := h.start_notMem hstart
  have hkept : G.rules.toList.filter (·.target ≠ SymbolTable.start) = rs.reverse := by
    rw [h.rules, List.filter_eq_self]
    intro r hr
    refine decide_eq_true fun heq => hnot ?_
    exact heq ▸ List.mem_map_of_mem (List.mem_reverse.1 hr)
  have hrules : G'.rules.toList = (startRule top :: rs).reverse := by
    rw [(compile_ok hcompile).2.1, withStart, Array.toList_push, Array.toList_filter, hkept,
      List.reverse_cons]
  have hnodup : ((startRule top :: rs).map (·.target)).Nodup :=
    List.nodup_cons.2 ⟨hnot, h.nodup hgiven⟩
  rw [rulesFor, hrules, List.filter_reverse, filter_eq_singleton hnodup hr]
  rfl

end Registry

end Grammar

end Typeahead
