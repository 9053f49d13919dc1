import Typeahead.Proofs.Grammar.Recompiled
import Typeahead.Proofs.Language.Refused

/-!
# Proofs/Grammar/UpToDate — compiles that are still good

A grammar is marked as compiled until a rule is added, changed or removed.  The mark does not say for
which top symbol it was compiled, nor which names were known by then.  Every change keeps the
following (`UpToDate.change`): a grammar that is marked has the productions of a compile of its
present rules, for some top symbol and under names that are still known.
-/

namespace Typeahead.Grammar

/-- **The productions of `G` come from a compile** for `top`, of `B` to `B'`, whose rules are those
of `G`.  Names may have become known since. -/
structure CompiledFrom (G : Grammar) (top : Symbol) (B B' : Grammar) : Prop where
  run : (compile top).run.run B = (.ok (), B')
  rules : G.rules = B'.rules
  flat : G.flat = B'.flat
  knows : ∀ x, B'.symbols.knows x = true → G.symbols.knows x = true

/-- If a grammar is marked as compiled, its productions come from a compile of its rules. -/
def UpToDate (G : Grammar) : Prop := G.compiled = true → ∃ top B B', G.CompiledFrom top B B'

variable {G G' B B' : Grammar} {top : Symbol}

theorem UpToDate.of_not_compiled (h : G.compiled = false) : G.UpToDate := by
  intro hcompiled
  rw [h] at hcompiled
  cases hcompiled

theorem upToDate_compile (G : Grammar) (top : Symbol) :
    ((compile top).run.run G).2.UpToDate := by
  rcases hrun : (compile top).run.run G with ⟨e | _, G'⟩
  · refine .of_not_compiled ?_
    have herror := (flat_of_compile_error (congrArg Prod.fst hrun)).2
    rwa [hrun] at herror
  · exact fun _ => ⟨top, G, G', hrun, rfl, rfl, fun _ => id⟩

theorem compiled_of_compile (h : (compile top).run.run G = (.ok (), G')) : G'.compiled = true := by
  rw [compile_eq] at h
  split at h
  next =>
    cases h
    rfl
  next => cases h

/-- Names that become known leave a compile good. -/
theorem UpToDate.knows (h : G.UpToDate) (hrules : G'.rules = G.rules) (hflat : G'.flat = G.flat)
    (hcompiled : G'.compiled = G.compiled)
    (hknows : ∀ x, G.symbols.knows x = true → G'.symbols.knows x = true) : G'.UpToDate := by
  intro hmarked
  obtain ⟨top, B, B', hfrom⟩ := h (hcompiled ▸ hmarked)
  exact ⟨top, B, B', hfrom.run, hrules.trans hfrom.rules, hflat.trans hfrom.flat,
    fun x hx => hknows x (hfrom.knows x hx)⟩

/-- **No change leaves a mark on productions that are out of date.** -/
theorem UpToDate.change (h : G.UpToDate) (hchange : G.Change G') : G'.UpToDate := by
  cases hchange with
  | declare name =>
    exact h.knows rfl rfl rfl fun x hx => SymbolTable.knows_declare.2 (.inr hx)
  | register s => exact h.knows rfl rfl rfl fun x hx => SymbolTable.knows_register_of_knows hx
  | insert _ name children => exact .of_not_compiled (by rw [run_insert])
  | join name entry j => exact .of_not_compiled (by rw [run_join, run_insert])
  | modifyRule | removeRules => exact .of_not_compiled rfl
  | compile top => exact upToDate_compile G top

/-- Once a compile has made its names known, another for the same symbol makes no further ones
known. -/
theorem symbols_withStart_of_symbols_eq {x : String}
    (h : G.symbols = (B.withStart (.nonterminal x)).symbols) :
    (G.withStart (.nonterminal x)).symbols = G.symbols := by
  have hknows : (B.symbols.declare SymbolTable.start).knows SymbolTable.start = true :=
    SymbolTable.knows_declare.2 (.inl rfl)
  have hstart : ∃ y, G.symbols.get? SymbolTable.start = some (.nonterminal y) := by
    rw [h, withStart, SymbolTable.get?_register_of_knows (SymbolTable.knows_register_of_knows hknows),
      SymbolTable.get?_register_of_knows hknows]
    exact SymbolTable.exists_get?_declare
  have htop : G.symbols.knows x = true := by
    rw [h]
    exact SymbolTable.knows_register_of_knows SymbolTable.knows_register_nonterminal
  have hend : G.symbols.knows (Symbol.terminal .endOfInput).name = true := by
    rw [h]
    exact SymbolTable.knows_register_self (by decide)
  rw [withStart, SymbolTable.declare_eq_self hstart]
  dsimp only
  rw [SymbolTable.register_eq_self (s := .nonterminal x) htop, SymbolTable.register_eq_self hend]

theorem rules_withStart (G : Grammar) (top : Symbol) :
    (G.withStart top).rules = G.ownRules.push (startRule top) := rfl

/-- Compiling depends on the rules and the known names. -/
theorem lowerAll_withStart_congr (hrules : G.ownRules = B.ownRules)
    (hsymbols : (G.withStart top).symbols = (B.withStart top).symbols) :
    (G.withStart top).lowerAll = (B.withStart top).lowerAll := by
  rw [lowerAll, lowerAll, rules_withStart, rules_withStart, hrules, hsymbols]

/-! ## Definitions -/

theorem Follows.eq_or_grown {b : Bool} (h : Follows b G G') : G' = G ∨ G.Grown G' := by
  cases b
  · exact .inl h
  · exact .inr h

/-- Items that are taken in leave the old rules in front. -/
theorem exists_follows_of_mapM {items : List Pattern.Item} {children : List Named}
    (h : (items.mapM itemOf).run.run G = (.ok children, G')) : ∃ b, Follows b G G' := by
  induction items generalizing G children with
  | nil =>
    cases h
    exact ⟨false, rfl⟩
  | cons item items ih =>
    rw [List.mapM_cons, GrammarM.run_bind] at h
    rcases registers_itemOf item G with ⟨e, hrun⟩ | ⟨s, G₁, hrun, hfollows⟩ <;> rw [hrun] at h
    · cases h
    · dsimp only at h
      rw [GrammarM.run_bind] at h
      split at h
      next hrest =>
        cases h
        obtain ⟨b, hrest⟩ := ih hrest
        exact ⟨_, hfollows.trans hrest⟩
      next => cases h

/-- **A definition adds rules behind the old ones.** -/
theorem grown_of_defineType {name pattern : String} {r : RuleRef}
    (h : (defineType name pattern).run.run G = (.ok r, G')) : G.Grown G' := by
  rw [run_defineType] at h
  split at h
  next => cases h
  next items _ =>
    split at h
    next => cases h
    next children G₁ hitems =>
      cases h
      have hlast : G₁.Grown ((sequence (some name) children).run G₁).2 :=
        (appends_insert ..).grown G₁
      obtain ⟨b, hfollows⟩ := exists_follows_of_mapM hitems
      rcases hfollows.eq_or_grown with rfl | hgrown
      · exact hlast
      · exact hgrown.trans hlast

theorem UpToDate.defineType (h : G.UpToDate) (name pattern : String) :
    ((defineType name pattern).run.run G).2.UpToDate := by
  have hcases : ((Grammar.defineType name pattern).run.run G).2 = G ∨
      G.Grown ((Grammar.defineType name pattern).run.run G).2 := by
    rcases hrun : (Grammar.defineType name pattern).run.run G with ⟨e | r, G'⟩
    · exact (follows_of_defineType_refused hrun).eq_or_grown
    · exact .inr (grown_of_defineType hrun)
  rcases hcases with hsame | hgrown
  · rwa [hsame]
  · exact .of_not_compiled hgrown.compiled

end Typeahead.Grammar
