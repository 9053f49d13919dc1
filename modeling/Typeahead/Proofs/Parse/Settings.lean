import Typeahead.Proofs.Parse.Anew

/-!
# Proofs/Parse/Settings — a parse never changes its settings

Asking for offers, completing in isolation and telling listeners leave their records in the context,
but the settings stay what they were (`KeepsConfig`): under any settings, such a computation is
coupled with itself (`keepsConfig_iff_coupled`).  So everything that a parse attempts, the
explanation of a failure included, happens under the settings it started with.
-/

namespace Typeahead

/-- **A computation keeps the settings.** -/
structure KeepsConfig {α : Type} (m : ParseM α) : Prop where
  run_config (ctx : Context) : (m.run ctx).2.config = ctx.config

/-- Equal contexts with the given settings. -/
structure Context.Under (cfg : Config) (ctx ctx' : Context) : Prop where
  eq : ctx = ctx'
  config : ctx.config = cfg

theorem heeds_under (g : FlatGrammar) (cfg : Config) : Heeds g (Context.Under cfg) where
  journal_eq h := congrArg _ h.eq
  journal h _ := ⟨by rw [h.eq], h.config⟩
  reply h _ _ _ _ _ _ := by rw [h.eq]

theorem Context.Under.configs {cfg : Config} {ctx ctx' : Context} (h : ctx.Under cfg ctx') :
    ctx.config = cfg ∧ ctx'.config = cfg := ⟨h.config, h.eq ▸ h.config⟩

/-- **To keep the settings** is to be coupled with oneself under all of them. -/
theorem keepsConfig_iff_coupled {α : Type} {m : ParseM α} :
    KeepsConfig m ↔ ∀ cfg, Coupled (Context.Under cfg) m m := by
  refine ⟨fun h cfg => ⟨?_⟩, fun h => ⟨fun ctx => ((h ctx.config).run ⟨rfl, rfl⟩).2.config⟩⟩
  rintro ctx _ ⟨rfl, hcfg⟩
  exact ⟨rfl, rfl, (h.run_config ctx).trans hcfg⟩

section

variable {iso : Isolate} {g : FlatGrammar} (hiso : ∀ g part, KeepsConfig (iso g part))

include hiso

/-- **An attempt keeps the settings.** -/
theorem keepsConfig_attempt (listeners : Option Nat) (input : List Char)
    (found : Option (List Completion)) : KeepsConfig (attempt iso g listeners input found) :=
  keepsConfig_iff_coupled.2 fun cfg =>
    coupled_attempt (heeds_under g cfg)
      (fun part _ => keepsConfig_iff_coupled.1 (hiso g part) cfg)
      (fun _ _ => Context.Under.configs) listeners found

theorem keepsConfig_ancestor (a : Attempt) : KeepsConfig (a.ancestor iso g) :=
  keepsConfig_iff_coupled.2 fun cfg => coupled_firstOffering (heeds_under g cfg)
    fun _ _ part _ => keepsConfig_iff_coupled.1 (hiso g part) cfg

theorem keepsConfig_isolateWith (part : Part) : KeepsConfig (isolateWith iso g part) := by
  refine keepsConfig_iff_coupled.2 fun cfg => ?_
  refine coupled_isolateWith (fun _ _ h => congrArg _ h.eq) ?_
  have hremember (v : Option Completion) :
      Coupled (Context.Under cfg) (remember part v) (remember part v) :=
    .modify fun _ _ h => ⟨by rw [h.eq], h.config⟩
  exact .bind (hremember none) fun _ => coupled_completeAlone (heeds_under _ cfg)
    (fun _ _ => Context.Under.configs) hremember fun Q _ =>
      keepsConfig_iff_coupled.1 (hiso _ Q) cfg

end

theorem keepsConfig_isolateWithin (depth : Nat) (g : FlatGrammar) (part : Part) :
    KeepsConfig (isolateWithin depth g part) := by
  induction depth generalizing g part with
  | zero => exact ⟨fun _ => rfl⟩
  | succ depth ih => exact keepsConfig_isolateWith ih part

end Typeahead
