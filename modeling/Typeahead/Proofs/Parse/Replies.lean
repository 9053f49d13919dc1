import Typeahead.Grammar.Builders
import Typeahead.Proofs.Parse.Collection
import Typeahead.Proofs.ParseTree.Nodes

/-!
# Proofs/Parse/Replies — the replies that decide on completions

A node is asked twice: whether it has an offer, and then for the offer.  Only one that answers both
times has replied, and the first to reply on the way to the end of a derivation replies for that
derivation (`FirstReply`).  Asking may note the completion of a part, and listeners are told of every
tree, so the context is handed on from each question to the next (`Replies`).

The completions of a parse are read off the replies of all derivations that ran out of input: none
if there is a veto among them, and else every candidate at its first occurrence
(`completions_of_replies`).
-/

namespace Typeahead

variable {iso : Isolate} {g : FlatGrammar}

/-! ## A reply -/

/-- A node that replied, by its label, and its candidates. -/
abbrev Reply := Label × List Completion

namespace Reply

/-- A reply vetoes if any of its candidates does. -/
def Vetoes (reply : Reply) : Prop := ∃ c ∈ reply.2, c.isVeto = true

/-- The candidates of a reply, attached to the node and to the input from its start on. -/
def candidates (input : List Char) (reply : Reply) : List Completion :=
  reply.2.map (.attach
    ⟨some reply.1.symbol, String.ofList (Text.sliceFrom input reply.1.result.pos)⟩)

end Reply

/-- A node gives an answer to a question in a context, and what the context is afterwards. -/
def Node.Answers (iso : Isolate) (g : FlatGrammar) (probe : Bool) (n : Node) (ctx : Context)
    (answer : Option (List Completion)) (after : Context) : Prop :=
  (n.offer iso g probe).run ctx = (answer, after)

/-! ## The replies on the ways -/

/-- **The first reply on a way.** -/
inductive FirstReply (iso : Isolate) (g : FlatGrammar) :
    Context → List Node → Option Reply → Context → Prop
  | nobody {ctx : Context} : FirstReply iso g ctx [] none ctx
  | silent {ctx ctx₁ after : Context} {n : Node} {way : List Node} {reply : Option Reply}
    (hprobe : n.Answers iso g true ctx none ctx₁) (hlater : FirstReply iso g ctx₁ way reply after) :
    FirstReply iso g ctx (n :: way) reply after
  | withdrawn {ctx ctx₁ ctx₂ after : Context} {n : Node} {way : List Node}
    {claimed : List Completion} {reply : Option Reply}
    (hprobe : n.Answers iso g true ctx (some claimed) ctx₁)
    (hfull : n.Answers iso g false ctx₁ none ctx₂)
    (hlater : FirstReply iso g ctx₂ way reply after) :
    FirstReply iso g ctx (n :: way) reply after
  | replied {ctx ctx₁ after : Context} {n : Node} {way : List Node}
    {claimed offers : List Completion} (hprobe : n.Answers iso g true ctx (some claimed) ctx₁)
    (hfull : n.Answers iso g false ctx₁ (some offers) after) :
    FirstReply iso g ctx (n :: way) (some (n.label, offers)) after

/-- **The replies for derivations that are stuck**, one derivation after the other. -/
inductive Replies (iso : Isolate) (g : FlatGrammar) (listeners : Option Nat) :
    Context → List Derivation → List Reply → Context → Prop
  | none {ctx : Context} : Replies iso g listeners ctx [] [] ctx
  | next {ctx ctx₁ ctx₂ after : Context} {d : Derivation} {ds : List Derivation} {t : ParseTree}
    {way : List Node} {reply : Option Reply} {more : List Reply}
    (hbuild : (d.build g listeners).run ctx = (t, ctx₁)) (hway : ParseTree.stuckNodes? [t] = some way)
    (hreply : FirstReply iso g ctx₁ way reply ctx₂)
    (hmore : Replies iso g listeners ctx₂ ds more after) :
    Replies iso g listeners ctx (d :: ds) (reply.toList ++ more) after

/-! ## From the replies to what is on offer -/

section

variable {listeners : Option Nat} {input : List Char}

theorem Node.Answers.run_offers {n : Node} {ctx after : Context}
    {answer : Option (List Completion)} (h : n.Answers iso g true ctx answer after) :
    (n.offers iso g).run ctx = (answer.isSome, after) := by
  rw [Node.offers, Visit.offers, ParseM.run_bind, ← Node.offer, h]
  rfl

/-- **The search for an offer finds the first reply.** -/
theorem FirstReply.run_firstOffer {ctx after : Context} {way : List Node} {reply : Option Reply}
    (h : FirstReply iso g ctx way reply after) :
    (firstOffer iso g way).run ctx = (reply, after) := by
  induction h with
  | nobody => rfl
  | silent hprobe _ ih =>
    rw [firstOffer, ParseM.run_bind, hprobe.run_offers]
    exact ih
  | withdrawn hprobe hfull _ ih =>
    rw [firstOffer, ParseM.run_bind, hprobe.run_offers]
    dsimp only [Option.isSome_some]
    rw [if_pos rfl, ParseM.run_bind, hfull]
    exact ih
  | replied hprobe hfull =>
    rw [firstOffer, ParseM.run_bind, hprobe.run_offers]
    dsimp only [Option.isSome_some]
    rw [if_pos rfl, ParseM.run_bind, hfull]
    rfl

/-- On every way somebody is the first to reply, or nobody replies. -/
theorem exists_firstReply (iso : Isolate) (g : FlatGrammar) (way : List Node) (ctx : Context) :
    ∃ reply after, FirstReply iso g ctx way reply after := by
  induction way generalizing ctx with
  | nil => exact ⟨_, _, .nobody⟩
  | cons n way ih =>
    rcases hprobe : (n.offer iso g true).run ctx with ⟨_ | claimed, ctx₁⟩
    · obtain ⟨reply, after, hlater⟩ := ih ctx₁
      exact ⟨reply, after, .silent hprobe hlater⟩
    · rcases hfull : (n.offer iso g false).run ctx₁ with ⟨_ | offers, ctx₂⟩
      · obtain ⟨reply, after, hlater⟩ := ih ctx₂
        exact ⟨reply, after, .withdrawn hprobe hfull hlater⟩
      · exact ⟨_, _, .replied hprobe hfull⟩

/-- Derivations that ran out of input have a way to their end, so each is asked. -/
theorem exists_replies {cfg : Config} {ds : List Derivation}
    (hds : ∀ d ∈ ds, d ∈ (Branch.initial input).ends g cfg ∧ d.ranOut) (ctx : Context) :
    ∃ replies after, Replies iso g listeners ctx ds replies after := by
  induction ds generalizing ctx with
  | nil => exact ⟨[], ctx, .none⟩
  | cons d ds ih =>
    obtain ⟨hd, hran⟩ := hds d (List.mem_cons_self ..)
    obtain ⟨m, hm, hout⟩ := (Option.any_eq_true ..).1 hran
    have hstuck : d.tree.outcome.isStuck = true := by
      rw [Derivation.outcome_tree hd hm, of_decide_eq_true hout]
      rfl
    obtain ⟨path, hpath⟩ := (Derivation.part_tree hd).exists_stuckPath hstuck none
    have hbuild : (d.build g listeners).run ctx = (d.tree, ((d.build g listeners).run ctx).2) :=
      Prod.ext (run_build ..) rfl
    obtain ⟨reply, ctx₂, hreply⟩ := exists_firstReply iso g (ParseTree.nodesOn [d.tree] path)
      ((d.build g listeners).run ctx).2
    obtain ⟨more, after, hmore⟩ := ih (fun e he => hds e (List.mem_cons_of_mem _ he)) ctx₂
    exact ⟨_, after, .next hbuild (ParseTree.stuckNodes?_eq_some hpath) hreply hmore⟩

/-- What is on offer, by the reply for the first derivation. -/
theorem run_offered_cons {ctx ctx₁ ctx₂ : Context} {d : Derivation} {ds : List Derivation}
    {t : ParseTree} {way : List Node} {reply : Option Reply}
    (hbuild : (d.build g listeners).run ctx = (t, ctx₁)) (hway : ParseTree.stuckNodes? [t] = some way)
    (hreply : FirstReply iso g ctx₁ way reply ctx₂) :
    (offered iso g listeners input (d :: ds)).run ctx =
      match reply with
      | none => (offered iso g listeners input ds).run ctx₂
      | some reply =>
        if reply.2.any Completion.isVeto then (none, ctx₂)
        else
          let more := (offered iso g listeners input ds).run ctx₂
          (more.1.map (reply.candidates input ++ ·), more.2) := by
  rw [offered, ParseM.run_bind, hbuild]
  dsimp only
  rw [ParseTree.stuckNodes, hway, Option.getD_some, ParseM.run_bind, hreply.run_firstOffer]
  rcases reply with _ | ⟨l, offers⟩
  · rfl
  · dsimp only
    split <;> rfl

/-- **A veto anywhere leaves nothing on offer.** -/
theorem Replies.offered_eq_none {ctx after : Context} {ds : List Derivation}
    {replies : List Reply} (h : Replies iso g listeners ctx ds replies after)
    (hveto : ∃ reply ∈ replies, reply.Vetoes) :
    ((offered iso g listeners input ds).run ctx).1 = Option.none := by
  induction h with
  | none =>
    obtain ⟨_, hmem, -⟩ := hveto
    cases hmem
  | @next _ _ _ _ _ _ _ _ reply _ hbuild hway hreply _ ih =>
    obtain ⟨vetoing, hmem, hveto⟩ := hveto
    rw [run_offered_cons hbuild hway hreply]
    rcases reply with _ | reply
    · exact ih ⟨vetoing, hmem, hveto⟩
    · dsimp only
      split
      · rfl
      next hany =>
        obtain rfl | hlater := List.mem_cons.1 hmem
        · exact absurd (List.any_eq_true.2 hveto) hany
        · rw [ih ⟨vetoing, hlater, hveto⟩]
          rfl

/-- **Without a veto every candidate is on offer**, derivation by derivation. -/
theorem Replies.offered_eq_some {ctx after : Context} {ds : List Derivation}
    {replies : List Reply} (h : Replies iso g listeners ctx ds replies after)
    (hveto : ∀ reply ∈ replies, ¬ reply.Vetoes) :
    ((offered iso g listeners input ds).run ctx).1
      = some (replies.flatMap (·.candidates input)) := by
  induction h with
  | none => rfl
  | @next _ _ _ _ _ _ _ _ reply _ hbuild hway hreply _ ih =>
    rw [run_offered_cons hbuild hway hreply]
    rcases reply with _ | reply
    · exact ih hveto
    · obtain ⟨hfirst, hlater⟩ := List.forall_mem_cons.1 hveto
      dsimp only
      rw [if_neg fun hany => hfirst (List.any_eq_true.1 hany), ih hlater]
      rfl

end

/-! ## The completions of a parse -/

theorem Completion.isVeto_attach (origin : Origin) (c : Completion) :
    (c.attach origin).isVeto = c.isVeto := by
  cases c <;> rfl

/-- Candidates of a reply that does not veto are no vetoes either. -/
theorem Reply.isVeto_of_mem_candidates {reply : Reply} {input : List Char} {c : Completion}
    (hreply : ¬ reply.Vetoes) (hc : c ∈ reply.candidates input) : ¬ c.isVeto = true := by
  obtain ⟨offer, hoffer, rfl⟩ := List.mem_map.1 hc
  rw [Completion.isVeto_attach]
  exact fun hveto => hreply ⟨offer, hoffer, hveto⟩

/-- **One veto silences a parse, and nothing else is dropped.**  The derivations that ran out of
input are all asked; whatever they reply, a parse that starts without completions ends with none if
there is a veto, and else with every candidate at its first occurrence. -/
theorem completions_of_replies (g : FlatGrammar) (listeners : Nat) (input : String)
    (ctx : Context) :
    let cut := (search g ctx.config input.toList).cut
    let completions := ((parse g listeners input (some [])).run ctx).1.completions
    (∃ replies after, Replies isolate g (some listeners) ctx cut replies after) ∧
    ∀ replies after, Replies isolate g (some listeners) ctx cut replies after →
      ((∃ reply ∈ replies, reply.Vetoes) → completions = []) ∧
      ((∀ reply ∈ replies, ¬ reply.Vetoes) →
        (∀ c ∈ completions, ¬ c.isVeto = true) ∧
        completions = (replies.flatMap (·.candidates input.toList)).eraseDups) := by
  intro cut completions
  refine ⟨exists_replies (search_mem_ends g ctx.config input.toList).2 ctx, ?_⟩
  intro replies after h
  have hcompletions : completions = _ := completions_parse g listeners input ctx
  refine ⟨fun hveto => ?_, fun hveto => ?_⟩
  · rw [hcompletions, h.offered_eq_none hveto]
    rfl
  · have heach : completions = (replies.flatMap (·.candidates input.toList)).eraseDups := by
      rw [hcompletions, h.offered_eq_some hveto, Option.getD_some, addEach_eq]
      simp [List.removeAll]
    refine ⟨fun c hc => ?_, heach⟩
    rw [heach, List.mem_eraseDups] at hc
    obtain ⟨reply, hreply, hc⟩ := List.mem_flatMap.1 hc
    exact Reply.isVeto_of_mem_candidates (hveto reply hreply) hc

/-! ### A veto among other replies -/

namespace Grammar

/-- Three entries that begin with `1`, the second of them a code with a placeholder. -/
def codes : Grammar :=
  ((do
    let code ← sequence (some "code") [(Symbol.literal "1").unnamed, (Symbol.literal "3").unnamed]
    let _ ← completing .placeholder code
    let _ ← sequence (some "top") [(Symbol.literal "12").unnamed]
    let _ ← sequence (some "top") [code.symbol.unnamed]
    sequence (some "top") [(Symbol.literal "1").unnamed, (Symbol.literal "!").unnamed] :
      StateM Grammar RuleRef).run {}).2

/-- The grammar after its compile. -/
def codesCompiled : Grammar := ((compile (.nonterminal "top")).run.run codes).2

/-- The derivations that ran out of input after `1`, one for each entry. -/
def codesCut : List Derivation :=
  let start : Step := .expand
    ⟨"S'", [.nonterminal "top", .terminal .endOfInput], some 4, .positional [none, none], .keep⟩ 0
  let accepted : Step := .accept (.literal "1") ⟨.successful, 0, "1"⟩
  [{ trace := [.expand ⟨"top", [.literal "12"], some 1, .positional [none], .keep⟩ 0, start]
     pending := [.literal "12", .terminal .endOfInput]
     stuck := some ⟨.endOfInput, 0, "1"⟩
     stop := 0 },
   { trace := [accepted,
       .expand ⟨"code", [.literal "1", .literal "3"], some 0, .positional [none, none], .keep⟩ 0,
       .expand ⟨"top", [.nonterminal "code"], some 2, .positional [none], .keep⟩ 0, start]
     pending := [.literal "3", .terminal .endOfInput]
     stuck := some ⟨.endOfInput, 1, ""⟩
     stop := 1 },
   { trace := [accepted,
       .expand ⟨"top", [.literal "1", .literal "!"], some 3, .positional [none, none], .keep⟩ 0,
       start]
     pending := [.literal "!", .terminal .endOfInput]
     stuck := some ⟨.endOfInput, 1, ""⟩
     stop := 1 }]

theorem cut_codes : (search codesCompiled.flat {} "1".toList).cut = codesCut := by
  cbv

/-- Each time the start and the top are silent, and the node below replies. -/
theorem exists_replies_codes : ∃ replies after,
    Replies isolate codesCompiled.flat (some 0) {} codesCut replies after ∧
      replies.map (·.2) = [[.literal {} "12"], [.veto {}], [.literal {} "!"]] :=
  ⟨_, _, .next rfl rfl (.silent rfl (.silent rfl (.replied rfl rfl)))
    (.next rfl rfl (.silent rfl (.silent rfl (.replied rfl rfl)))
      (.next rfl rfl (.silent rfl (.silent rfl (.replied rfl rfl))) .none)), rfl⟩

end Grammar

/-- After `1` the first and the last entry go on with a literal, but the code vetoes, and so nothing
is left. -/
theorem completions_of_replies_codes : ∃ replies after,
    Replies isolate Grammar.codesCompiled.flat (some 0) {}
      (search Grammar.codesCompiled.flat {} "1".toList).cut replies after ∧
    replies.map (·.2) = [[.literal {} "12"], [.veto {}], [.literal {} "!"]] ∧
    ((parse Grammar.codesCompiled.flat 0 "1" (some [])).run {}).1.completions = [] := by
  obtain ⟨replies, after, hreplies, hoffers⟩ := Grammar.exists_replies_codes
  rw [← Grammar.cut_codes] at hreplies
  have hveto : ∃ reply ∈ replies, reply.Vetoes := by
    obtain ⟨reply, hreply, hoffer⟩ : ∃ reply ∈ replies, reply.2 = [.veto {}] :=
      List.mem_map.1 (hoffers ▸ by simp)
    exact ⟨reply, hreply, .veto {}, hoffer ▸ List.mem_singleton_self _, rfl⟩
  exact ⟨replies, after, hreplies, hoffers,
    ((completions_of_replies Grammar.codesCompiled.flat 0 "1" {}).2 replies after hreplies).1 hveto⟩

end Typeahead
