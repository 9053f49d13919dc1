import Typeahead.Proofs.Parse.Completing

/-!
# Proofs/Parse/Collection — the completions of a parse

The derivations that ran out of input are asked for offers one after the other.  `offered` lists
what they offer, without sorting anything out; a collection adds each of these offers once, at its
first occurrence (`run_collect_offered`).
-/

namespace Typeahead

/-! ## Each offer once -/

/-- Adds completions to those found, each only once. -/
def addEach (found offers : List Completion) : List Completion :=
  offers.foldl (fun found c => if c ∈ found then found else found ++ [c]) found

theorem addOffers_eq (found : List Completion) (origin : Origin) (offers : List Completion) :
    addOffers found origin offers = addEach found (offers.map (.attach origin)) := by
  rw [addEach, List.foldl_map]
  rfl

theorem addEach_append (found offers offers' : List Completion) :
    addEach found (offers ++ offers') = addEach (addEach found offers) offers' :=
  List.foldl_append

/-- **What is added is what was not there**, each at its first occurrence. -/
theorem addEach_eq (found offers : List Completion) :
    addEach found offers = found ++ (offers.removeAll found).eraseDups := by
  induction offers generalizing found with
  | nil => simp [addEach]
  | cons c offers ih =>
    rw [addEach, List.foldl_cons]
    by_cases hc : c ∈ found
    · rw [if_pos hc, ← addEach, ih]
      simp [List.removeAll, hc]
    · have hremoved : offers.removeAll (found ++ [c])
          = (offers.removeAll found).filter (!· == c) := by
        rw [List.removeAll, List.removeAll, List.filter_filter]
        refine List.filter_congr fun e _ => ?_
        simp [Bool.and_comm, beq_eq_decide]
      rw [if_neg hc, ← addEach, ih, hremoved]
      simp [List.removeAll, hc, List.eraseDups_cons]

theorem mem_addEach {found offers : List Completion} {c : Completion} :
    c ∈ addEach found offers ↔ c ∈ found ∨ c ∈ offers := by
  have hremoved : c ∈ offers.removeAll found ↔ c ∈ offers ∧ c ∉ found := by
    simp [List.removeAll]
  rw [addEach_eq, List.mem_append, List.mem_eraseDups, hremoved]
  tauto

theorem nodup_addEach {found offers : List Completion} (h : found.Nodup) :
    (addEach found offers).Nodup := by
  induction offers generalizing found with
  | nil => exact h
  | cons c offers ih =>
    rw [addEach, List.foldl_cons]
    split
    next => exact ih h
    next hc =>
      refine ih (List.nodup_append.2 ⟨h, List.nodup_singleton c, fun e he e' he' hee' => ?_⟩)
      rw [List.mem_singleton.1 he'] at hee'
      exact hc (hee' ▸ he)

/-! ## Everything that is offered -/

theorem ParseM.run_bind {α β : Type} (x : ParseM α) (f : α → ParseM β) (ctx : Context) :
    (x >>= f).run ctx = (f (x.run ctx).1).run (x.run ctx).2 := rfl

/-- What derivations that ran out of input offer, in order; nothing at all if one of them vetoes. -/
def offered (iso : Isolate) (g : FlatGrammar) (listeners : Option Nat) (input : List Char) :
    List Derivation → ParseM (Option (List Completion))
  | [] => return some []
  | d :: ds => do
    let t ← d.build g listeners
    match ← firstOffer iso g (ParseTree.stuckNodes [t]) with
    | none => offered iso g listeners input ds
    | some (l, offers) =>
      if offers.any Completion.isVeto then return none
      else
        let entered := String.ofList (Text.sliceFrom input l.result.pos)
        let more ← offered iso g listeners input ds
        return more.map (offers.map (.attach ⟨some l.symbol, entered⟩) ++ ·)

/-- **A collection adds each offer once**, and ends with nothing after a veto. -/
theorem run_collect_offered (iso : Isolate) (g : FlatGrammar) (listeners : Option Nat)
    (input : List Char) (ds : List Derivation) (found : List Completion) (ctx : Context) :
    (collect iso g listeners input ds found).run ctx =
      (((offered iso g listeners input ds).run ctx).1.elim [] (addEach found),
        ((offered iso g listeners input ds).run ctx).2) := by
  induction ds generalizing found ctx with
  | nil => rfl
  | cons d ds ih =>
    simp only [collect, offered, ParseM.run_bind]
    rcases (d.build g listeners).run ctx with ⟨t, ctx⟩
    dsimp only
    rcases (firstOffer iso g (ParseTree.stuckNodes [t])).run ctx with ⟨_ | ⟨l, offers⟩, ctx⟩
    · exact ih found ctx
    · dsimp only
      split
      · rfl
      · rw [ih, addOffers_eq, ParseM.run_bind]
        rcases (offered iso g listeners input ds).run ctx with ⟨_ | more, ctx⟩
        · rfl
        · exact Prod.ext (addEach_append ..).symm rfl

/-- **The completions of a parse** that had none before. -/
theorem completions_parse (g : FlatGrammar) (listeners : Nat) (input : String) (ctx : Context) :
    ((parse g listeners input (some [])).run ctx).1.completions =
      addEach [] (((offered isolate g (some listeners) input.toList
        (search g ctx.config input.toList).cut).run ctx).1.getD []) := by
  rw [run_parse, run_attempt_some, run_collect_offered]
  dsimp only
  cases ((offered isolate g (some listeners) input.toList
    (search g ctx.config input.toList).cut).run ctx).1 <;> rfl

end Typeahead
