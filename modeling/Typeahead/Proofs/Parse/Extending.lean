import Typeahead.Proofs.Parse.Completions
import Typeahead.Proofs.Parse.Remembered
import Typeahead.Proofs.Parse.Replies
import Typeahead.Proofs.ParseTree.Ending

/-!
# Proofs/Parse/Extending — completions go on from what was entered

The completers that come with the library look at the text of their node (`Completer.IsStandard`).
What they offer begins with this text: a template is offered only if its fixed beginning goes that
far, and the others speak up on an empty node only, or veto.  Without a completer it is a terminal
that makes an offer, a literal that was begun or another terminal that was not.

The node that offers is on the way to where the input ran out, so its text is all of the input from
its start on.  Together: a completion is attached to an end of the input, the text of the node that
offered it, and is shown as a text that begins with it (`extends_of_mem_completions`).
-/

namespace Typeahead

/-! ## What a completion begins with -/

namespace Completion

/-- The fixed beginning of a completion is shown first. -/
theorem leadingText_prefix (c : Completion) : c.leadingText.toList <+: c.render.toList := by
  have hfixed : (c.pieces.takeWhile Piece.isText).map Piece.content
      = (c.pieces.takeWhile Piece.isText).map Piece.render := by
    refine List.map_congr_left fun p hp => ?_
    have hp := List.mem_takeWhile_imp hp
    match p, hp with
    | .text _, _ => rfl
  have hpieces : c.render = c.leadingText
      ++ String.join ((c.pieces.dropWhile Piece.isText).map Piece.render) := by
    rw [render, leadingText, hfixed, ← String.join_append, ← List.map_append,
      List.takeWhile_append_dropWhile]
  rw [hpieces, String.toList_append]
  exact List.prefix_append ..

theorem render_attach (origin : Origin) (c : Completion) : (c.attach origin).render = c.render := by
  cases c <;> simp only [attach, render, pieces]

theorem origin_attach (origin : Origin) (c : Completion) : (c.attach origin).origin = origin := by
  cases c <;> rfl

/-- A completion goes on from a text that it is shown to begin with. -/
def Extends (text : String) (c : Completion) : Prop := text.toList <+: c.render.toList

theorem extends_empty (c : Completion) : c.Extends "" := List.nil_prefix

end Completion

/-! ## Standard completers -/

/-- **The completers that come with the library**: those that rules are given by name, that of a
tuple, and the silent one that a tuple puts on the blanks between its entries. -/
inductive Completer.IsStandard : Completer → Prop
  | placeholder : IsStandard placeholder
  | ifEmpty (text : String) : IsStandard (ifEmpty text)
  | template : IsStandard template
  | tuple : IsStandard tuple
  | silent : IsStandard silent

theorem Grammar.standard_of_compile {G G' : Grammar} {top : Symbol}
    (h : (Grammar.compile top).run.run G = (.ok (), G'))
    (hstandard : ∀ r ∈ G'.rules, ∀ c ∈ r.completer, c.IsStandard) :
    ∀ r ∈ G'.flat.rules, ∀ c ∈ r.completer, c.IsStandard := by
  intro r hr c hc
  obtain ⟨r', hr', hc'⟩ := Grammar.exists_completer_of_compile h hr hc
  exact hstandard r' hr' c hc'

section

variable {iso : Isolate} {g : FlatGrammar} {ctx : Context} {offers : List Completion}
  {offer : Completion}

/-- A template is offered if its fixed beginning goes as far as the text. -/
theorem Completer.run_template (view : View) (around : Circumstances) :
    (((template.reply view around false).run iso g).run ctx).1 =
      let answers := ((view.rule.parts.mapM (iso g)).run ctx).1
      let candidate := .template {} (answers.flatMap Option.toList)
      if view.label.text.toList.isPrefixOf candidate.leadingText.toList then some [candidate]
      else none := by
  simp only [template, Bool.false_eq_true, false_and, if_false, Asking.run_askAll]
  rfl

/-- **What a standard completer offers** goes on from the text of its node. -/
theorem Completer.IsStandard.extends_of_reply {c : Completer} (hc : c.IsStandard) {view : View}
    {around : Circumstances}
    (h : (((c.reply view around false).run iso g).run ctx).1 = some offers) (hmem : offer ∈ offers)
    (hveto : offer.isVeto = false) : offer.Extends view.label.text := by
  by_cases htext : view.label.text = ""
  · rw [htext]
    exact Completion.extends_empty offer
  cases hc with
  | template =>
    rw [Completer.run_template] at h
    dsimp only at h
    split at h
    next hstarts =>
      obtain rfl := Option.some.inj h
      obtain rfl := List.mem_singleton.1 hmem
      exact (List.isPrefixOf_iff_prefix.1 hstarts).trans (Completion.leadingText_prefix _)
    next => cases h
  -- once something was entered the others do not speak up, or they veto
  | placeholder =>
    have h : some [if view.label.text = "" then .placeholder {} view.label.name else .veto {}]
        = some offers := h
    rw [if_neg htext] at h
    obtain rfl := Option.some.inj h
    obtain rfl := List.mem_singleton.1 hmem
    cases hveto
  | ifEmpty text =>
    have h : some (if view.label.text = "" then [.literal {} text] else []) = some offers := h
    rw [if_neg htext] at h
    obtain rfl := Option.some.inj h
    cases hmem
  | tuple =>
    have h : (if view.label.text ≠ "" then none else _) = some offers := h
    rw [if_pos htext] at h
    cases h
  | silent =>
    have h : some [] = some offers := h
    obtain rfl := Option.some.inj h
    cases hmem

/-- What a node offers by its symbol goes on from its text, if a literal has no more text than it
spells. -/
theorem Label.extends_of_plainOffer {l : Label}
    (hliteral : ∀ text, l.symbol = .literal text → l.text.toList <+: text.toList)
    (h : l.plainOffer = some offers) (hmem : offer ∈ offers) (hveto : offer.isVeto = false) :
    offer.Extends l.text := by
  rw [Label.plainOffer] at h
  split at h
  next text hsymbol =>
    obtain rfl := Option.some.inj h
    obtain rfl := List.mem_singleton.1 hmem
    have hrender : (Completion.literal {} text).render = text := by
      simp [Completion.render, Completion.pieces, Piece.render]
    rw [Completion.Extends, hrender]
    exact hliteral text hsymbol
  next =>
    obtain rfl := Option.some.inj h
    obtain rfl := List.mem_singleton.1 hmem
    split at hveto
    next htext =>
      rw [htext]
      exact Completion.extends_empty _
    next => cases hveto
  next => cases h

/-- **What a node offers** goes on from its text. -/
theorem Node.extends_of_offer (hg : ∀ r ∈ g.rules, ∀ c ∈ r.completer, c.IsStandard) {n : Node}
    (hliteral : ∀ text, n.label.symbol = .literal text → n.label.text.toList <+: text.toList)
    (h : ((n.offer iso g false).run ctx).1 = some offers) (hmem : offer ∈ offers)
    (hveto : offer.isVeto = false) : offer.Extends n.label.text := by
  have hplain : n.label.plainOffer = some offers → offer.Extends n.label.text :=
    fun h => Label.extends_of_plainOffer hliteral h hmem hveto
  rw [Node.offer] at h
  rcases hspeaker : n.speaker? g with _ | ⟨r, c⟩
  · rw [Visit.offer_of_no_speaker hspeaker] at h
    exact hplain h
  · obtain ⟨hrule, hc, -⟩ := Visit.speaker?_eq_some.1 hspeaker
    rw [Visit.offer_of_speaker hspeaker] at h
    exact (hg r (Label.mem_rules hrule) c hc).extends_of_reply h hmem hveto

end

/-! ## Who replied -/

section

variable {iso : Isolate} {g : FlatGrammar} {listeners : Option Nat} {ctx after : Context}
  {reply : Reply}

/-- A node that gave a reply. -/
def Node.Gives (iso : Isolate) (g : FlatGrammar) (n : Node) (reply : Reply) : Prop :=
  n.label = reply.1 ∧ ∃ ctx after, n.Answers iso g false ctx (some reply.2) after

theorem FirstReply.exists_gives {way : List Node} {replied : Option Reply}
    (h : FirstReply iso g ctx way replied after) (hreply : reply ∈ replied) :
    ∃ n ∈ way, n.Gives iso g reply := by
  induction h with
  | nobody => cases hreply
  | silent _ _ ih | withdrawn _ _ _ ih =>
    obtain ⟨n, hn, hgives⟩ := ih hreply
    exact ⟨n, List.mem_cons_of_mem _ hn, hgives⟩
  | replied _ hfull =>
    obtain rfl := Option.some.inj hreply
    exact ⟨_, List.mem_cons_self .., rfl, _, _, hfull⟩

/-- **Every reply is given by a node** on the way to the end of one of the derivations. -/
theorem Replies.exists_gives {ds : List Derivation} {replies : List Reply}
    (h : Replies iso g listeners ctx ds replies after) (hmem : reply ∈ replies) :
    ∃ d ∈ ds, ∃ n ∈ ParseTree.stuckNodes [d.tree], n.Gives iso g reply := by
  induction h with
  | none => cases hmem
  | @next ctx ctx₁ _ _ d ds t way _ _ hbuild hway hreply _ ih =>
    obtain hmem | hmem := List.mem_append.1 hmem
    · obtain ⟨n, hn, hgives⟩ := hreply.exists_gives (Option.mem_toList.1 hmem)
      obtain rfl : d.tree = t := (run_build ..).symm.trans (congrArg Prod.fst hbuild)
      refine ⟨d, List.mem_cons_self .., n, ?_, hgives⟩
      rwa [ParseTree.stuckNodes, hway]
    · obtain ⟨e, he, hfrom⟩ := ih hmem
      exact ⟨e, List.mem_cons_of_mem _ he, hfrom⟩

end

/-! ## The completions of a parse -/

/-- On the way to where the input ran out, a literal has no more text than it spells. -/
theorem Derivation.literal_of_mem_stuckNodes {g : FlatGrammar} {cfg : Config} {input : List Char}
    {d : Derivation} (hd : d ∈ (Branch.initial input).ends g cfg) (hran : d.ranOut) {n : Node}
    (hn : n ∈ ParseTree.stuckNodes [d.tree]) {text : String}
    (hsymbol : n.label.symbol = .literal text) : n.label.text.toList <+: text.toList := by
  obtain ⟨path, hpath, hv⟩ := ParseTree.exists_stuckPath_of_mem_stuckNodes hn
  obtain ⟨before, last, rfl, hbefore, -, hstuck⟩ := (part_tree hd).stuckPath hpath
  obtain hv | hv := List.mem_append.1 hv
  · obtain ⟨x, hx⟩ := hbefore _ hv
    rw [hx] at hsymbol
    cases hsymbol
  · obtain rfl := List.mem_singleton.1 hv
    obtain ⟨m, hm, hout⟩ := (Option.any_eq_true ..).1 hran
    obtain rfl : m = n.label.result := Option.some.inj (hm.symm.trans hstuck.2)
    exact prefix_of_ranOut hd (hsymbol ▸ hstuck) (of_decide_eq_true hout)

/-- **A completion of a parse** was found before, or a node on the way to where the input ran out
gave it in a reply, and it is no veto. -/
theorem exists_gives_of_mem_completions {g : FlatGrammar} {listeners : Nat} {input : String}
    {found : List Completion} {ctx : Context} {c : Completion}
    (hc : c ∈ ((parse g listeners input (some found)).run ctx).1.completions) :
    c ∈ found ∨ ∃ d ∈ (search g ctx.config input.toList).cut,
      ∃ n ∈ ParseTree.stuckNodes [d.tree], ∃ reply : Reply, n.Gives isolate g reply ∧
        ¬ reply.Vetoes ∧ c ∈ reply.candidates input.toList := by
  obtain ⟨replies, after, h⟩ : ∃ replies after, Replies isolate g (some listeners) ctx
      (search g ctx.config input.toList).cut replies after :=
    exists_replies (search_mem_ends g ctx.config input.toList).2 ctx
  rw [run_parse, run_attempt_some, run_collect_offered] at hc
  dsimp only at hc
  by_cases hveto : ∃ reply ∈ replies, reply.Vetoes
  · rw [h.offered_eq_none hveto] at hc
    cases hc
  · rw [h.offered_eq_some fun reply hreply hvetoes => hveto ⟨reply, hreply, hvetoes⟩] at hc
    refine (mem_addEach.1 hc).imp_right fun hc => ?_
    obtain ⟨reply, hreply, hc⟩ := List.mem_flatMap.1 hc
    obtain ⟨d, hd, n, hn, hgives⟩ := h.exists_gives hreply
    exact ⟨d, hd, n, hn, reply, hgives, fun hvetoes => hveto ⟨reply, hreply, hvetoes⟩, hc⟩

/-! ### An instance cut off within a template -/

/-- A node with a template replies with it, whether or not it is only probed, if something was
entered and the parts are completed to what goes on from that. -/
theorem Node.answers_template {iso : Isolate} {g : FlatGrammar} {n : Node} {r : Rule}
    {answers : List (Option Completion)} {ctx after : Context} (hrule : n.label.rule g = some r)
    (hc : r.completer = some .template) (hcontinues : n.continues = false)
    (htext : n.label.text ≠ "") (hparts : (r.parts.mapM (iso g)).run ctx = (answers, after))
    (hstarts : n.label.text.toList.isPrefixOf
      (Completion.template {} (answers.flatMap Option.toList)).leadingText.toList = true)
    (probe : Bool) :
    n.Answers iso g probe ctx (some [.template {} (answers.flatMap Option.toList)]) after := by
  have hreply : (Completer.template.reply (n.view g r n.toPlace) ctx.circumstances probe).run iso g
      = (do
        let candidate := .template {} ((← r.parts.mapM (iso g)).flatMap Option.toList)
        return if n.label.text.toList.isPrefixOf candidate.leadingText.toList then some [candidate]
          else none) := by
    simp only [Completer.template, Visit.view, htext, and_false, if_false, Asking.run_askAll]
    rfl
  rw [Answers, offer, Visit.offer_of_speaker (Visit.speaker?_eq_some.2 ⟨hrule, hc, hcontinues⟩)]
  change (Asking.run iso g (Completer.template.reply _ ctx.circumstances probe)).run ctx = _
  rw [hreply, ParseM.run_bind, hparts]
  dsimp only
  rw [if_pos hstarts]
  rfl

namespace Grammar

/-- The order `go` with an exclamation mark, as a template. -/
def begunOrder : Grammar :=
  ((templated "order" [(Symbol.literal "go").unnamed, (Symbol.literal "!").unnamed]).run {}).2

/-- The grammar after its compile. -/
def begunOrderCompiled : Grammar := ((compile (.nonterminal "order")).run.run begunOrder).2

theorem compile_begunOrder :
    (compile (.nonterminal "order")).run.run begunOrder = (.ok (), begunOrderCompiled) := rfl

theorem wellFormed_begunOrder : begunOrderCompiled.flat.WellFormed :=
  wellFormed_of_compile (Reachable.sequenceWith .refl ..) compile_begunOrder

theorem templates_begunOrder : begunOrderCompiled.flat.AllCompleters (· = .template) :=
  FlatGrammar.allCompleters_of_map [some .template, none] rfl (by simp)

theorem standard_begunOrder :
    ∀ r ∈ begunOrderCompiled.rules, ∀ c ∈ r.completer, c.IsStandard := by
  have hrules : begunOrderCompiled.rules = begunOrderCompiled.flat.rules := rfl
  intro r hr c hc
  rw [templates_begunOrder r (hrules ▸ hr) c hc]
  exact .template

/-- The derivation of the order that ran out of input after `g`. -/
def begunDerivation : Derivation where
  trace := [.expand ⟨"order", [.literal "go", .literal "!"], some 0, .positional [none, none],
      .keep⟩ 0,
    .expand ⟨"S'", [.nonterminal "order", .terminal .endOfInput], some 1,
      .positional [none, none], .keep⟩ 0]
  pending := [.literal "go", .literal "!", .terminal .endOfInput]
  stuck := some ⟨.endOfInput, 0, "g"⟩
  stop := 0

theorem cut_begunOrder :
    (search begunOrderCompiled.flat {} "g".toList).cut = [begunDerivation] := by
  cbv

/-- The literals of the order, completed. -/
def begunLiterals : List Completion := [literalAlone "go", literalAlone "!"]

/-- The template of the order. -/
def begunTemplate : Completion := .template ⟨some (.nonterminal "order"), "g"⟩ begunLiterals

/-- The node of the order replies with the template: both literals are completed when it is probed,
and remembered for its reply. -/
theorem exists_answers_begunOrder {order : Node} {ctx : Context}
    (hrule : order.label.rule begunOrderCompiled.flat = begunOrderCompiled.flat.rules[0]?)
    (hcontinues : order.continues = false) (htext : order.label.text = "g")
    (hdepth : 2 ≤ ctx.config.maxDepth) (hknown : ctx.known = []) :
    ∃ ctx₁ ctx₂, order.Answers isolate begunOrderCompiled.flat true ctx
        (some [.template {} begunLiterals]) ctx₁ ∧
      order.Answers isolate begunOrderCompiled.flat false ctx₁
        (some [.template {} begunLiterals]) ctx₂ := by
  have hrun {k : Answered} := wellFormed_begunOrder.run_literals templates_begunOrder.isPlain
    hdepth ["go", "!"] (by decide) (k := k)
  obtain ⟨k₁, hprobed, hremembered⟩ := @hrun [] fun _ _ => .inl rfl
  obtain ⟨k₂, hasked, -⟩ := hrun fun c hc => .inr (hremembered c hc)
  rw [Context.knowing_nil hknown] at hprobed
  have hanswers (probe : Bool) {ctx after : Context}
      (h : ((["go", "!"].map literalPart).mapM (isolate begunOrderCompiled.flat)).run ctx
        = (["go", "!"].map fun c => some (literalAlone c), after)) :
      order.Answers isolate begunOrderCompiled.flat probe ctx
        (some [.template {} begunLiterals]) after :=
    Node.answers_template (hrule.trans rfl) rfl hcontinues (by simp [htext]) h (by rw [htext]; rfl)
      probe
  exact ⟨_, _, hanswers true hprobed, hanswers false hasked⟩

/-- The order replies, and no other node does before it. -/
theorem exists_replies_begunOrder : ∃ reply after,
    Replies isolate begunOrderCompiled.flat (some 0) {} [begunDerivation] [reply] after ∧
      ¬ reply.Vetoes ∧ reply.candidates "g".toList = [begunTemplate] := by
  obtain ⟨ctx, tree, hbuild, hdepth, hknown, start, order, way, hway, hstart, hrule, hcontinues,
      htext, hsymbol, hpos⟩ :
      ∃ ctx tree, (begunDerivation.build begunOrderCompiled.flat (some 0)).run {} = (tree, ctx) ∧
        2 ≤ ctx.config.maxDepth ∧ ctx.known = [] ∧ ∃ start order way,
      ParseTree.stuckNodes? [tree] = some (start :: order :: way) ∧
        start.offer isolate begunOrderCompiled.flat true = pure none ∧
        order.label.rule begunOrderCompiled.flat = begunOrderCompiled.flat.rules[0]? ∧
        order.continues = false ∧ order.label.text = "g" ∧
        order.label.symbol = .nonterminal "order" ∧
        order.label.result.pos = 0 :=
    ⟨_, _, rfl, by decide, rfl, _, _, _, rfl, rfl, rfl, rfl, rfl, rfl, rfl⟩
  obtain ⟨ctx₁, ctx₂, hprobed, hasked⟩ :=
    exists_answers_begunOrder hrule hcontinues htext hdepth hknown
  refine ⟨(order.label, _), _, .next hbuild hway (.silent ?_ (.replied hprobed hasked)) .none, ?_,
    ?_⟩
  · rw [Node.Answers, hstart]
    rfl
  · simp [Reply.Vetoes, Completion.isVeto]
  · simp only [Reply.candidates, List.map_singleton, hsymbol, hpos]
    rfl

theorem completions_begunOrder :
    ((parse begunOrderCompiled.flat 0 "g" (some [])).run {}).1.completions = [begunTemplate] := by
  obtain ⟨reply, after, hreplies, hveto, hcandidates⟩ := exists_replies_begunOrder
  rw [completions_parse, show ({} : Context).config = {} from rfl, cut_begunOrder,
    hreplies.offered_eq_some (by simpa using hveto), List.flatMap_singleton, hcandidates]
  rfl

end Grammar

/-- **Every completion goes on from what was entered.**  With no other completers than the standard
ones, a completion that was not found before is attached to an end of the input: the text of the
node that offered it, which it is shown to begin with. -/
theorem extends_of_mem_completions {G G' : Grammar} {top : Symbol}
    (hcompile : (Grammar.compile top).run.run G = (.ok (), G'))
    (hstandard : ∀ r ∈ G'.rules, ∀ c ∈ r.completer, c.IsStandard) (listeners : Nat)
    (input : String) (found : List Completion) (ctx : Context) :
    ∀ c ∈ ((parse G'.flat listeners input (some found)).run ctx).1.completions, c ∈ found ∨
      c.origin.entered.toList <:+ input.toList ∧ c.Extends c.origin.entered ∧
      ∃ d ∈ (search G'.flat ctx.config input.toList).cut,
        ∃ n ∈ ParseTree.stuckNodes [d.tree], n.label.text = c.origin.entered ∧
          ∃ reply : Reply, n.Gives isolate G'.flat reply ∧ c ∈ reply.candidates input.toList := by
  intro c hc
  refine (exists_gives_of_mem_completions hc).imp_right ?_
  rintro ⟨d, hd, n, hn, reply, hgives, hveto, hmem⟩
  obtain ⟨hends, hran⟩ := (search_mem_ends G'.flat ctx.config input.toList).2 d hd
  obtain ⟨path, hpath, hv⟩ := ParseTree.exists_stuckPath_of_mem_stuckNodes hn
  obtain ⟨before, hinput, hpos⟩ := Derivation.text_of_ranOut hends hran hpath hv
  have hslice : String.ofList (Text.sliceFrom input.toList n.label.result.pos) = n.label.text := by
    rw [hinput, hpos, Text.sliceFrom_append, String.ofList_toList]
  obtain ⟨offer, hoffer, rfl⟩ := List.mem_map.1 hmem
  obtain ⟨hlabel, asked, after, hanswers⟩ := hgives
  have hextends : offer.Extends n.label.text :=
    Node.extends_of_offer (Grammar.standard_of_compile hcompile hstandard)
      (fun _ => Derivation.literal_of_mem_stuckNodes hends hran hn)
      (congrArg Prod.fst hanswers) hoffer (Bool.eq_false_iff.2 fun h => hveto ⟨offer, hoffer, h⟩)
  have hentered : (offer.attach ⟨some reply.1.symbol, String.ofList (Text.sliceFrom input.toList
      reply.1.result.pos)⟩).origin.entered = n.label.text := by
    rw [Completion.origin_attach, ← hlabel]
    exact hslice
  refine ⟨?_, ?_, d, hd, n, hn, hentered.symm, reply, ⟨hlabel, asked, after, hanswers⟩, hmem⟩
  · rw [hentered]
    exact ⟨before, hinput.symm⟩
  · rw [hentered, Completion.Extends, Completion.render_attach]
    exact hextends

/-- After `g` the template of the order is offered, which goes on from `g`. -/
theorem extends_of_mem_completions_begunOrder :
    (∀ r ∈ Grammar.begunOrderCompiled.rules, ∀ c ∈ r.completer, c.IsStandard) ∧
    Grammar.begunTemplate ∈
      ((parse Grammar.begunOrderCompiled.flat 0 "g" (some [])).run {}).1.completions ∧
    Grammar.begunTemplate.origin.entered = "g" ∧
    Grammar.begunTemplate.origin.entered.toList <:+ "g".toList ∧
    Grammar.begunTemplate.Extends "g" := by
  have hmem : Grammar.begunTemplate ∈
      ((parse Grammar.begunOrderCompiled.flat 0 "g" (some [])).run {}).1.completions := by
    rw [Grammar.completions_begunOrder]
    exact List.mem_singleton_self _
  obtain hfound | ⟨hsuffix, hextends, -⟩ := extends_of_mem_completions
    Grammar.compile_begunOrder Grammar.standard_begunOrder 0 "g" [] {} _ hmem
  · cases hfound
  · exact ⟨Grammar.standard_begunOrder, hmem, rfl, hsuffix, hextends⟩

end Typeahead
