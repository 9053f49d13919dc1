import Typeahead.Proofs.Language.Numbers
import Typeahead.Proofs.Language.OpaqueColor

/-!
# Proofs/Language/Composites — ranges and colours are read back

A text of whole numbers with marks and blanks between them says what the numbers are, although the
mark may be a sign as well (`Item.flatMap_inj`).  So whatever derivation a parse finds for a range
or for the parts of a colour, its entries are the numbers that were written.
-/

namespace Typeahead

open ParseTree (Spelled symbols)
open Text (Stops stops_cons stops_nil)

/-! ## Blanks between numerals -/

/-- Blanks and tabs. -/
structure Blanks where
  text : String
  isBlank : ∀ c ∈ text.toList, Terminal.whitespace.accepts c = true

namespace Blanks

/-- The characters of some blanks. -/
def chars (u : Blanks) : List Char := u.text.toList

/-- Digits end where blanks begin, and at any other character that is not a digit. -/
theorem stops_isDigit (u : Blanks) {c : Char} (hc : c.isDigit = false) (rest : List Char) :
    Stops Char.isDigit (u.chars ++ c :: rest) := by
  have hu : ∀ b ∈ u.chars, Terminal.whitespace.accepts b = true := u.isBlank
  generalize u.chars = cs at hu
  cases cs with
  | nil => exact stops_cons.2 hc
  | cons b bs =>
    have hb : b = ' ' ∨ b = '\t' := by simpa [Terminal.accepts] using hu b (List.mem_cons_self ..)
    rcases hb with rfl | rfl <;> exact stops_cons.2 (by decide)

end Blanks

/-- A numeral begins with no blank. -/
theorem Numeral.stops_whitespace (w : Numeral) (rest : List Char) :
    Stops Terminal.whitespace.accepts (w.chars ++ rest) := by
  have hfirst : ∀ c : Char, c.isDigit = true ∨ c = '+' ∨ c = '-' →
      Terminal.whitespace.accepts c = false := by
    intro c hc
    rw [Bool.eq_false_iff]
    intro hblank
    have hblank : c = ' ' ∨ c = '\t' := by simpa [Terminal.accepts] using hblank
    rcases hblank with rfl | rfl <;> simp at hc
  rw [chars]
  rcases hsign : w.sign with _ | s
  · obtain ⟨c, cs, hcons, hc, -⟩ := w.exists_digits
    rw [hcons]
    exact stops_cons.2 (hfirst c (.inl hc))
  · exact stops_cons.2 (hfirst s (.inr (w.sign_eq s hsign)))

/-- A numeral behind a mark, with blanks around the mark. -/
structure Item where
  before : Blanks
  behind : Blanks
  numeral : Numeral

/-- The text of a numeral behind a mark. -/
def Item.chars (mark : Char) (i : Item) : List Char :=
  i.before.chars ++ mark :: (i.behind.chars ++ i.numeral.chars)

/-- **Numerals with marks between them** are determined by the text, although a mark may be a sign
as well, if it is known how many there are. -/
theorem Item.flatMap_inj {mark : Char} (hdigit : mark.isDigit = false)
    (hblank : Terminal.whitespace.accepts mark = false) {w w' : Numeral} {items items' : List Item}
    {rest rest' : List Char} (hlength : items.length = items'.length)
    (hrest : Stops Char.isDigit rest) (hrest' : Stops Char.isDigit rest')
    (h : w.chars ++ (items.flatMap (chars mark) ++ rest)
      = w'.chars ++ (items'.flatMap (chars mark) ++ rest')) :
    w :: items.map (·.numeral) = w' :: items'.map (·.numeral) := by
  induction items generalizing w w' items' with
  | nil =>
    obtain rfl := List.length_eq_zero_iff.1 hlength.symm
    rw [(Numeral.append_inj h hrest hrest').1]
  | cons i items ih =>
    obtain ⟨i', items', rfl⟩ := List.exists_cons_of_length_eq_add_one hlength.symm
    simp only [List.flatMap_cons, chars, List.append_assoc, List.cons_append] at h
    obtain ⟨hw, h⟩ := Numeral.append_inj h (i.before.stops_isDigit hdigit _)
      (i'.before.stops_isDigit hdigit _)
    obtain ⟨-, h⟩ := Text.append_inj_of_stops i.before.isBlank i'.before.isBlank
      (stops_cons.2 hblank) (stops_cons.2 hblank) h
    obtain ⟨-, h⟩ := Text.append_inj_of_stops i.behind.isBlank i'.behind.isBlank
      (i.numeral.stops_whitespace _) (i'.numeral.stops_whitespace _) (List.cons.inj h).2
    rw [List.map_cons, List.map_cons, hw, ih (Nat.succ.inj hlength) h]

/-! ## Values -/

/-- The bound that a number is taken for. -/
theorem Value.expectBound_int (n : Int) : (Value.int n).expectBound =
    if n < 0 then .error (.unexpectedValue "a non-negative integer" (.int n))
    else .ok n.toNat := rfl

namespace ParseTree

variable {g : FlatGrammar} {t : ParseTree} {n₁ n₂ n₃ : Int}

theorem evaluate_of_range (h : (t.label.rule g).bind (·.evaluator) = some .range)
    (hvalues : t.children.map (evaluate g) = [.ok (.int n₁), .ok (.int n₂)]) : t.evaluate g =
      if n₁ < 0 then .error (.unexpectedValue "a non-negative integer" (.int n₁))
      else if n₂ < 0 then .error (.unexpectedValue "a non-negative integer" (.int n₂))
      else .ok (.range ⟨n₁.toNat, n₂.toNat⟩) := by
  obtain ⟨l, children, rfl, hl⟩ := exists_eq_node h
  obtain ⟨t₁, ts, rfl, h₁, hvalues⟩ := List.map_eq_cons_iff.1 hvalues
  obtain ⟨t₂, rfl, h₂⟩ := List.map_eq_singleton_iff.1 hvalues
  rw [evaluate, hl]
  simp only [evaluateNth, h₁, h₂]
  change ((Value.int n₁).expectBound >>= fun lower => (Value.int n₂).expectBound >>= fun upper =>
    Except.ok (Value.range ⟨lower, upper⟩)) = _
  rw [Value.expectBound_int, Value.expectBound_int]
  split_ifs <;> rfl

theorem evaluate_of_color (h : (t.label.rule g).bind (·.evaluator) = some .color)
    (hvalues : t.children.map (evaluate g) = [.ok (.int n₁), .ok (.int n₂), .ok (.int n₃)]) :
    t.evaluate g = .ok (.int (Value.opaqueColor n₁ n₂ n₃)) := by
  obtain ⟨l, children, rfl, hl⟩ := exists_eq_node h
  obtain ⟨t₁, ts, rfl, h₁, hvalues⟩ := List.map_eq_cons_iff.1 hvalues
  obtain ⟨t₂, ts, rfl, h₂, hvalues⟩ := List.map_eq_cons_iff.1 hvalues
  obtain ⟨t₃, rfl, h₃⟩ := List.map_eq_singleton_iff.1 hvalues
  rw [evaluate, hl]
  simp only [evaluateNth, h₁, h₂, h₃]
  rfl

end ParseTree

namespace Standard

variable {g : FlatGrammar} {o d : String} {t : ParseTree}

/-! ## Blanks -/

section

variable {i : Nat} {a : Auxiliaries} {blanks : String} {c : Completer}
  (h : g.Realizes (blanksRule blanks c) i a)

include h

theorem affords_blanks (u : Blanks) {limit n : Nat} (hn : n < limit) :
    g.Affords limit n [.nonterminal blanks] u.chars (n + 1) := by
  have hpieces : ∀ p ∈ u.chars.map fun c => [c],
      g.Affords limit (n + 1) [.terminal .whitespace] p 0 := by
    intro p hp
    obtain ⟨c, hc, rfl⟩ := List.mem_map.1 hp
    exact .terminal ⟨c, rfl, u.isBlank c hc⟩ (by simp) (List.cons_ne_nil _ _)
  have hrun := h.affords_star (by simp [blanksRule]) rfl rfl hn hpieces
  rwa [← List.flatMap_def, List.flatMap_singleton'] at hrun

theorem exists_blanks (ht : t.Spelled g) (hsymbol : t.label.symbol = .nonterminal blanks) :
    ∃ u : Blanks, t.chars = u.chars := by
  obtain ⟨pieces, htext, hpieces⟩ := ht.exists_pieces_of_star h rfl rfl (by simp) hsymbol
  obtain ⟨hall, -⟩ := forall_mem_flatten hpieces
  exact ⟨⟨String.ofList t.chars, by rwa [String.toList_ofList, htext]⟩,
    (String.toList_ofList).symm⟩

/-! ### Marks with blanks around them -/

section

variable {j : Nat} {b : Auxiliaries} {x mark : String} {name : Option String} {c : Char}
  (hx : g.Realizes (spacedRule x blanks mark name) j b) (hmark : mark.toList = [c])

include hx hmark

theorem affords_spaced (u v : Blanks) {limit n : Nat} (hn : n + 1 < limit) :
    g.Affords limit n [.nonterminal x] (u.chars ++ (c :: v.chars)) 1 := by
  have hread : g.Affords limit (n + 2) [.literal mark] [c] 0 :=
    .terminal hmark.symm (by simp) (List.cons_ne_nil _ _)
  refine hx.affords_sequence (by simp [spacedRule, Symbol.literal]) (Nat.lt_of_succ_lt hn) rfl ?_
  exact (affords_blanks h u hn).cons
    (hread.cons (affords_blanks h v (Nat.zero_lt_of_lt hn)))

theorem exists_spaced (ht : t.Spelled g) (hsymbol : t.label.symbol = .nonterminal x) :
    ∃ u v : Blanks, t.chars = u.chars ++ (c :: v.chars) := by
  have hexpands := ht.of_sequence hx hsymbol (by simp [spacedRule, Symbol.literal]) rfl
  obtain ⟨l, m, r, -, ⟨hl, hl'⟩, ⟨hm, hm'⟩, ⟨hr, hr'⟩, hchars⟩ := hexpands.triple
  obtain ⟨u, hu⟩ := exists_blanks h hl hl'
  obtain ⟨v, hv⟩ := exists_blanks h hr hr'
  have hm : m.chars = [c] := (hm.writes hm').trans hmark
  exact ⟨u, v, by rw [hchars, hu, hm, hv]; rfl⟩

end

/-! ### Brackets with blanks inside -/

section

variable {j : Nat} {b : Auxiliaries} {x : String}

theorem affords_opening (hx : g.Realizes (openingRule x blanks) j b) (u : Blanks) {limit n : Nat}
    (hn : n < limit) : g.Affords limit n [.nonterminal x] ('(' :: u.chars) 1 := by
  have hread : g.Affords limit (n + 1) [.literal "("] ['('] 0 :=
    .terminal rfl (by simp) (List.cons_ne_nil _ _)
  refine hx.affords_sequence (by simp [openingRule, Symbol.literal]) hn rfl ?_
  exact hread.cons (affords_blanks h u (Nat.zero_lt_of_lt hn))

theorem exists_opening (hx : g.Realizes (openingRule x blanks) j b) (ht : t.Spelled g)
    (hsymbol : t.label.symbol = .nonterminal x) : ∃ u : Blanks, t.chars = '(' :: u.chars := by
  have hexpands := ht.of_sequence hx hsymbol (by simp [openingRule, Symbol.literal]) rfl
  obtain ⟨m, r, -, ⟨hm, hm'⟩, ⟨hr, hr'⟩, hchars⟩ := hexpands.pair
  obtain ⟨u, hu⟩ := exists_blanks h hr hr'
  have hm : m.chars = ['('] := hm.writes hm'
  exact ⟨u, by rw [hchars, hm, hu]; rfl⟩

theorem affords_closing (hx : g.Realizes (closingRule x blanks) j b) (u : Blanks) {limit n : Nat}
    (hn : n + 1 < limit) : g.Affords limit n [.nonterminal x] (u.chars ++ [')']) 0 := by
  have hread : g.Affords limit (n + 2) [.literal ")"] [')'] 0 :=
    .terminal rfl (by simp) (List.cons_ne_nil _ _)
  refine hx.affords_sequence (by simp [closingRule, Symbol.literal]) (Nat.lt_of_succ_lt hn) rfl ?_
  exact (affords_blanks h u hn).cons hread

theorem exists_closing (hx : g.Realizes (closingRule x blanks) j b) (ht : t.Spelled g)
    (hsymbol : t.label.symbol = .nonterminal x) : ∃ u : Blanks, t.chars = u.chars ++ [')'] := by
  have hexpands := ht.of_sequence hx hsymbol (by simp [closingRule, Symbol.literal]) rfl
  obtain ⟨l, m, -, ⟨hl, hl'⟩, ⟨hm, hm'⟩, hchars⟩ := hexpands.pair
  obtain ⟨u, hu⟩ := exists_blanks h hl hl'
  have hm : m.chars = [')'] := hm.writes hm'
  exact ⟨u, by rw [hchars, hu, hm]⟩

end

end

/-! ## Joins of whole numbers -/

section

variable {j : Join} {blanks x mark : String} {completer : Completer} {name : Option String}
  {c : Char} (hint : g.RealizesAll (numberRules o d))
  (hblanks : g.RealizesAll [blanksRule blanks completer])
  (hx : g.RealizesAll [spacedRule x blanks mark name]) (hmark : mark.toList = [c])
  (hdelimiter : j.delimiter = some (.nonterminal x))

include hint hblanks hx hmark hdelimiter

/-- The entries of a join behind the first one. -/
theorem exists_items {row entries : List ParseTree}
    (h : j.Follows (.nonterminal int) row entries) (hrow : ∀ u ∈ row, u.Spelled g) :
    ∃ items : List Item, row.flatMap ParseTree.chars = items.flatMap (Item.chars c) ∧
      entries.map (fun e => e.shape.1.evaluate g) = items.map (·.numeral.evaluated) := by
  induction h with
  | nil => exact ⟨[], rfl, rfl⟩
  | @cons before row entries e hbefore he _ ih =>
    rw [hdelimiter] at hbefore
    obtain ⟨m, rfl, hm⟩ := ParseTree.symbols_eq_singleton.1 hbefore
    obtain ⟨_, _, hblanks⟩ := hblanks _ (List.mem_singleton_self _)
    obtain ⟨_, _, hx⟩ := hx _ (List.mem_singleton_self _)
    obtain ⟨items, hchars, hvalues⟩ := ih fun u hu => hrow u (by simp [hu])
    obtain ⟨u, v, huv⟩ := exists_spaced hblanks hx hmark (hrow m (by simp)) hm
    obtain ⟨w, hw, hvalue⟩ := exists_numeral hint (hrow e (by simp)) he
    refine ⟨⟨u, v, w⟩ :: items, ?_, ?_⟩
    · simp [Item.chars, huv, hw, hchars]
    · rw [List.map_cons, List.map_cons, hvalue, hvalues]

section

variable {i : Nat} {a : Auxiliaries} {r : Rule} {k : Nat} (hkind : r.kind = .join j)
  (hchildren : r.children = [.nonterminal int]) (hcount : j.count = .exactly (k + 2))
  (hlimit : k + 2 < Count.limit)

include hkind hchildren hcount hlimit

/-- **Numbers with marks between them are afforded** by a join of them. -/
theorem affords_numbers (hr : g.Realizes r i a)
    (hjoints : .terminal .epsilon ∉ j.joints) {limit n m q : Nat} {opening closing : List Char}
    (hn : n < limit) (hopening : g.Affords limit (n + 1) j.opening.toList opening q)
    (hq : q + 5 < limit) (hclosing : g.Affords limit 1 j.closing.toList closing m) (w : Numeral)
    (items : List Item) (hlength : items.length = k + 1) :
    g.Affords limit n [.nonterminal r.target]
      (opening ++ (w.chars ++ items.flatMap (Item.chars c)) ++ closing) m := by
  obtain ⟨_, _, hblanks⟩ := hblanks _ (List.mem_singleton_self _)
  obtain ⟨_, _, hx⟩ := hx _ (List.mem_singleton_self _)
  refine hr.affords_join hkind hchildren (by simpa using hjoints) hcount hlimit hn hopening
    (by omega) (by omega) (affords_int hint w (by omega)) (fun p hp => ?_) (by simpa using hlength)
    hclosing
  obtain ⟨item, -, rfl⟩ := List.mem_map.1 hp
  have htwo : 2 + 1 < limit := by omega
  have hpiece := (affords_spaced hblanks hx hmark item.before item.behind htwo).cons
    (affords_int hint item.numeral (by omega))
  rw [hdelimiter, Item.chars]
  simpa using hpiece

/-- **The node of a join of numbers** covers numerals between its brackets, and is finished to nodes
with their values. -/
theorem exists_numbers {table : SymbolTable} {own : List String} (hr : g.Lowered table r a own)
    (hj : j.entriesOnly = true) (ht : t.Spelled g)
    (hsymbol : t.label.symbol = .nonterminal r.target) :
    ∃ (opening closing : List ParseTree) (w : Numeral) (items : List Item),
      t.chars = opening.flatMap ParseTree.chars ++ (w.chars ++ items.flatMap (Item.chars c)) ++
        closing.flatMap ParseTree.chars ∧
      (symbols opening = j.opening.toList ∧ ∀ u ∈ opening, u.Spelled g) ∧
      (symbols closing = j.closing.toList ∧ ∀ u ∈ closing, u.Spelled g) ∧
      items.length = k + 1 ∧
      t.shape.1.children.map (ParseTree.evaluate g)
        = w.evaluated :: items.map (·.numeral.evaluated) ∧
      (t.shape.1.label.rule g).bind (·.evaluator) = r.evaluator := by
  obtain ⟨row, entries, ⟨opening, middle, closing, rfl, hopening, hlines, hclosing⟩, hspelled,
    hchars, ⟨hlower, hupper⟩, hfinished, hevaluator⟩ :=
    ht.exists_entries hr hkind hj hchildren hsymbol
  rw [hcount] at hlower hupper
  have hlength : entries.length = k + 2 :=
    Nat.le_antisymm (hupper.resolve_left (Nat.ne_of_lt hlimit)) hlower
  cases hlines with
  | nil => cases hlength
  | @cons row entries e he hfollows =>
    obtain ⟨w, hw, hvalue⟩ := exists_numeral hint (hspelled e (by simp)) he
    obtain ⟨items, hitems, hvalues⟩ := exists_items hint hblanks hx hmark hdelimiter hfollows
      fun u hu => hspelled u (by simp [hu])
    have hcounted : entries.length = items.length := by
      simpa using congrArg List.length hvalues
    refine ⟨opening, closing, w, items, ?_, ⟨hopening, fun u hu => hspelled u (by simp [hu])⟩,
      ⟨hclosing, fun u hu => hspelled u (by simp [hu])⟩, hcounted ▸ Nat.succ.inj hlength, ?_,
      hevaluator⟩
    · rw [hchars]
      simp [hw, hitems]
    · rw [hfinished, List.map_map]
      exact congrArg₂ List.cons hvalue hvalues

end

end

/-! ## Ranges -/

/-- A range in writing. -/
def rangeText (a b : Int64) (u v : Blanks) : String :=
  toString a.toInt ++ u.text ++ "-" ++ v.text ++ toString b.toInt

theorem toList_rangeText (a b : Int64) (u v : Blanks) : (rangeText a b u v).toList =
    (Numeral.ofInt a.toInt).chars ++
      [⟨u, v, Numeral.ofInt b.toInt⟩].flatMap (Item.chars '-') := by
  simp [rangeText, Item.chars, Numeral.chars_ofInt, Blanks.chars]

section

variable {dash : String} (hint : g.RealizesAll (numberRules o d))
  (hblanks : g.RealizesAll [blanksRule "whitespace-star" (.ifEmpty " ")])
  (hdash : g.RealizesAll [spacedRule dash "whitespace-star" "-" none])

include hint hblanks hdash

theorem affords_rangeText {i : Nat} {aux : Auxiliaries} (hr : g.Realizes (rangeRule dash) i aux)
    (a b : Int64) (u v : Blanks) {limit n : Nat} (hn : n + 6 < limit) :
    g.Affords limit n [.nonterminal integerRange] (rangeText a b u v).toList 1 := by
  have hjoin : g.Affords limit n [.nonterminal integerRange] _ 1 :=
    affords_numbers hint hblanks hdash (c := '-') rfl rfl rfl rfl rfl (k := 0) (by decide) hr
      (by simp [Join.joints]) (q := n + 1) (by omega) (.nil (Nat.le_refl _)) (by omega)
      (.nil (Nat.le_refl 1)) (Numeral.ofInt a.toInt) [⟨u, v, Numeral.ofInt b.toInt⟩] rfl
  rw [toList_rangeText]
  simpa using hjoin

theorem evaluate_rangeText {table : SymbolTable} {aux : Auxiliaries} {own : List String}
    (hr : g.Lowered table (rangeRule dash) aux own) (ht : t.Spelled g)
    (hsymbol : t.label.symbol = .nonterminal integerRange) {a b : Int64} {u v : Blanks}
    (hchars : t.chars = (rangeText a b u v).toList) : t.shape.1.evaluate g =
      if a.toInt < 0 then .error (.unexpectedValue "a non-negative integer" (.int a.toInt))
      else if b.toInt < 0 then .error (.unexpectedValue "a non-negative integer" (.int b.toInt))
      else .ok (.range ⟨a.toInt.toNat, b.toInt.toNat⟩) := by
  obtain ⟨opening, closing, w, items, htext, ⟨hopening, -⟩, ⟨hclosing, -⟩, hlength, hvalues,
    hevaluator⟩ := exists_numbers hint hblanks hdash (c := '-') rfl rfl rfl rfl rfl (by decide) hr
      rfl ht hsymbol
  obtain rfl := ParseTree.symbols_eq_nil.1 hopening
  obtain rfl := ParseTree.symbols_eq_nil.1 hclosing
  rw [hchars, toList_rangeText] at htext
  have htext : (Numeral.ofInt a.toInt).chars ++
      ([⟨u, v, Numeral.ofInt b.toInt⟩].flatMap (Item.chars '-') ++ [])
        = w.chars ++ (items.flatMap (Item.chars '-') ++ []) := by simpa using htext
  have hone : [Item.mk u v (Numeral.ofInt b.toInt)].length = items.length := hlength.symm
  have hnumerals := Item.flatMap_inj (by decide) (by decide) hone stops_nil stops_nil htext
  refine ParseTree.evaluate_of_range hevaluator (hvalues.trans ?_)
  have hmap := congrArg (List.map Numeral.evaluated) hnumerals
  simp only [List.map_cons, List.map_map, List.map_nil, Numeral.evaluated_ofInt (fitsInt64_toInt _)]
    at hmap
  exact hmap.symm

end

/-- **Ranges**: two numbers with a dash between them, and blanks around it, are read back. -/
theorem parse_range :
    ∃ G', (Grammar.compile (.nonterminal integerRange)).run.run grammar = (.ok (), G') ∧
      ∀ (a b : Int64) (u v : Blanks) (listeners : Nat) (found : Option (List Completion))
        (ctx : Context),
        let parsed := ((parse G'.flat listeners (rangeText a b u v) found).run
          { ctx with config := {} }).1
        parsed.failure = none ∧ parsed.tree.outcome = .successful ∧
          parsed.tree.evaluate G'.flat =
            if a.toInt < 0 then .error (.unexpectedValue "a non-negative integer" (.int a.toInt))
            else if b.toInt < 0 then
              .error (.unexpectedValue "a non-negative integer" (.int b.toInt))
            else .ok (.range ⟨a.toInt.toNat, b.toInt.toNat⟩) := by
  obtain ⟨rs, G', hrules, hcompile, honly, hrealized⟩ :=
    exists_realized (x := integerRange) (by simp [names])
  obtain ⟨o, d, hnumbers⟩ := hrules.numbers
  obtain ⟨dash, hranges⟩ := hrules.ranges
  have hint : G'.flat.RealizesAll (numberRules o d) := fun r hr => hrealized r (hnumbers hr)
  have hblanks : G'.flat.RealizesAll [blanksRule "whitespace-star" (.ifEmpty " ")] :=
    List.forall_mem_singleton.2 (hrealized _ hrules.blanks)
  have hdash : G'.flat.RealizesAll [spacedRule dash "whitespace-star" "-" none] :=
    List.forall_mem_singleton.2 (hrealized _ (hranges (by simp [rangeRules])))
  have hmem : rangeRule dash ∈ rs := hranges (by simp [rangeRules])
  obtain ⟨_, _, hwhole⟩ := hrealized _ hmem
  obtain ⟨_, _, hlowered⟩ := Grammar.exists_lowered_of_compile reachable_grammar hcompile
    (honly _ hmem) rfl (by simp [rangeRule, Rule.symbols, Rule.ofChildren, Join.joints])
  refine ⟨G', hcompile, fun a b u v listeners found ctx => ?_⟩
  exact read_of_affords reachable_grammar hcompile (lt_maxDepth (by decide))
    (affords_rangeText hint hblanks hdash hwhole a b u v (lt_maxDepth (by decide)))
    fun t ht hsymbol hchars => evaluate_rangeText hint hblanks hdash hlowered ht hsymbol hchars

/-! ## Colours -/

/-- The parts of a colour in writing. -/
def colorText (red green blue : Int64) (u₁ u₂ u₃ u₄ u₅ u₆ : Blanks) : String :=
  "(" ++ u₁.text ++ toString red.toInt ++ u₂.text ++ "," ++ u₃.text ++ toString green.toInt ++
    u₄.text ++ "," ++ u₅.text ++ toString blue.toInt ++ u₆.text ++ ")"

section

variable (red green blue : Int64) (u₁ u₂ u₃ u₄ u₅ u₆ : Blanks)

/-- The numbers of such a text behind the first one. -/
def colorItems : List Item :=
  [⟨u₂, u₃, Numeral.ofInt green.toInt⟩, ⟨u₄, u₅, Numeral.ofInt blue.toInt⟩]

theorem toList_colorText : (colorText red green blue u₁ u₂ u₃ u₄ u₅ u₆).toList =
    '(' :: (u₁.chars ++ ((Numeral.ofInt red.toInt).chars ++
      ((colorItems green blue u₂ u₃ u₄ u₅).flatMap (Item.chars ',') ++ (u₆.chars ++ [')'])))) := by
  have hopening : "(".toList = ['('] := rfl
  have hcomma : ",".toList = [','] := rfl
  have hclosing : ")".toList = [')'] := rfl
  -- the equation of this definition would be compared byte by byte
  delta colorText
  simp only [String.toList_append, hopening, hcomma, hclosing, ← Numeral.chars_ofInt,
    colorItems, List.flatMap_cons, List.flatMap_nil, Item.chars, Blanks.chars, List.append_assoc,
    List.cons_append, List.nil_append]

end

section

variable {rs : List Rule} {named : List Named} (hnamed : NamesColors rs named)

include hnamed

/-- No kind of colour is left out of the parse. -/
theorem NamesColors.visible (parts : String) :
    .terminal .epsilon ∉ (colorRule parts named).children := by
  intro hmem
  rcases List.mem_cons.1 hmem with h | h
  · cases h
  · obtain ⟨n, hn, heq⟩ := List.mem_map.1 h
    obtain ⟨_, _, _, _, rfl, _⟩ := hnamed n hn
    cases heq

/-- No name of a colour begins with a bracket. -/
theorem NamesColors.head?_chars (hrs : g.RealizesAll rs) (ht : t.Spelled g)
    (hsymbol : t.label.symbol ∈ named.map (·.symbol)) : t.chars.head? ≠ some '(' := by
  obtain ⟨n, hn, heq⟩ := List.mem_map.1 hsymbol
  obtain ⟨a, ha, x, v, rfl, hmem⟩ := hnamed n hn
  obtain ⟨_, _, hconstant⟩ := hrs _ hmem
  have hexpands := ht.of_sequence hconstant heq.symm (by simp [constantRule, plain]) rfl
  obtain ⟨l, -, hl, hl', hchars⟩ := hexpands.singleton
  have hname : l.chars = a.1.toList := hl.writes hl'
  have hcolors : ∀ a ∈ colors, a.1.toList.head? ≠ some '(' := by decide
  rw [hchars, hname]
  exact hcolors a ha

end

section

variable {blanks opening closing comma parts : String}
  (hint : g.RealizesAll (numberRules o d))
  (hparts : g.RealizesAll (partsRules blanks opening closing comma parts))
  {red green blue : Int64} {u₁ u₂ u₃ u₄ u₅ u₆ : Blanks}

include hint hparts

theorem affords_parts {limit n : Nat} (hn : n + 6 < limit) :
    g.Affords limit n [.nonterminal parts]
      (colorText red green blue u₁ u₂ u₃ u₄ u₅ u₆).toList 0 := by
  simp only [FlatGrammar.RealizesAll, partsRules, List.forall_mem_cons] at hparts
  obtain ⟨⟨_, _, hwhole⟩, hcomma, ⟨_, _, hclosing⟩, ⟨_, _, hopening⟩, hblanks, -⟩ := hparts
  obtain ⟨_, _, hblanks'⟩ := id hblanks
  have hjoin : g.Affords limit n [.nonterminal parts] _ 0 :=
    affords_numbers hint (List.forall_mem_singleton.2 hblanks) (List.forall_mem_singleton.2 hcomma)
      (c := ',') rfl rfl rfl rfl rfl (k := 1) (by decide) hwhole (by simp [Join.joints]) (by omega)
      (affords_opening hblanks' hopening u₁ (by omega)) (by omega)
      (affords_closing hblanks' hclosing u₆ (by omega)) (Numeral.ofInt red.toInt)
      (colorItems green blue u₂ u₃ u₄ u₅) rfl
  rw [toList_colorText]
  simpa using hjoin

theorem evaluate_parts {table : SymbolTable} {aux : Auxiliaries} {own : List String}
    (hr : g.Lowered table (partsRule parts opening closing comma) aux own) (ht : t.Spelled g)
    (hsymbol : t.label.symbol = .nonterminal parts)
    (hchars : t.chars = (colorText red green blue u₁ u₂ u₃ u₄ u₅ u₆).toList) :
    t.shape.1.evaluate g
      = .ok (.int (Value.opaqueColor red.toInt green.toInt blue.toInt)) := by
  simp only [FlatGrammar.RealizesAll, partsRules, List.forall_mem_cons] at hparts
  obtain ⟨-, hcomma, ⟨_, _, hclosing⟩, ⟨_, _, hopening⟩, hblanks, -⟩ := hparts
  obtain ⟨_, _, hblanks'⟩ := id hblanks
  obtain ⟨before, behind, w, items, htext, ⟨hbefore, hbefore'⟩, ⟨hbehind, hbehind'⟩, hlength,
    hvalues, hevaluator⟩ := exists_numbers hint (List.forall_mem_singleton.2 hblanks)
      (List.forall_mem_singleton.2 hcomma) (c := ',') rfl rfl rfl rfl rfl (by decide) hr rfl ht
      hsymbol
  obtain ⟨b₁, rfl, hb₁⟩ := ParseTree.symbols_eq_singleton.1 hbefore
  obtain ⟨b₂, rfl, hb₂⟩ := ParseTree.symbols_eq_singleton.1 hbehind
  obtain ⟨v₁, hv₁⟩ := exists_opening hblanks' hopening (hbefore' b₁ (by simp)) hb₁
  obtain ⟨v₂, hv₂⟩ := exists_closing hblanks' hclosing (hbehind' b₂ (by simp)) hb₂
  rw [hchars, toList_colorText, List.flatMap_singleton, List.flatMap_singleton, hv₁, hv₂,
    List.append_assoc, List.append_assoc] at htext
  obtain ⟨-, htext⟩ := Text.append_inj_of_stops u₁.isBlank v₁.isBlank
    (Numeral.stops_whitespace _ _) (Numeral.stops_whitespace _ _) (List.cons.inj htext).2
  have htwo : (colorItems green blue u₂ u₃ u₄ u₅).length = items.length := hlength.symm
  have hnumerals := Item.flatMap_inj (by decide) (by decide) htwo
    (u₆.stops_isDigit (by decide) []) (v₂.stops_isDigit (by decide) []) htext
  refine ParseTree.evaluate_of_color hevaluator (hvalues.trans ?_)
  have hmap := congrArg (List.map Numeral.evaluated) hnumerals
  simp only [colorItems, List.map_cons, List.map_map, List.map_nil,
    Numeral.evaluated_ofInt (fitsInt64_toInt _)] at hmap
  exact hmap.symm

section

variable {rs : List Rule} {named : List Named} (hnamed : NamesColors rs named) {i : Nat}
  {aux : Auxiliaries} (hcolor : g.Realizes (colorRule parts named) i aux)

include hnamed hcolor

theorem affords_colorText {limit n : Nat} (hn : n + 7 < limit) :
    g.Affords limit n [.nonterminal color] (colorText red green blue u₁ u₂ u₃ u₄ u₅ u₆).toList 0 :=
  hcolor.affords_choice (hnamed.visible parts) (by omega) rfl (List.mem_cons_self ..)
    (affords_parts hint hparts (by omega))

theorem evaluate_colorText (hrs : g.RealizesAll rs) {table : SymbolTable} {aux' : Auxiliaries}
    {own : List String} (hr : g.Lowered table (partsRule parts opening closing comma) aux' own)
    (ht : t.Spelled g) (hsymbol : t.label.symbol = .nonterminal color)
    (hchars : t.chars = (colorText red green blue u₁ u₂ u₃ u₄ u₅ u₆).toList) :
    t.shape.1.evaluate g
      = .ok (.int (Value.opaqueColor red.toInt green.toInt blue.toInt)) := by
  obtain ⟨c, hc, hexpands⟩ := ht.of_choice hcolor hsymbol (hnamed.visible parts) rfl
  obtain ⟨u, hchildren, hu, hu', hcovers⟩ := hexpands.singleton
  rcases List.mem_cons.1 hc with rfl | hc
  · rw [ParseTree.evaluate_of_first hexpands.evaluator, hexpands.finished, hchildren]
    exact evaluate_parts hint hparts hr hu hu' (hcovers.symm.trans hchars)
  · have hhead := hnamed.head?_chars hrs hu (hu'.symm ▸ hc)
    rw [← hcovers, hchars, toList_colorText] at hhead
    exact absurd rfl hhead

end

end

/-- **Colours**: three numbers in brackets, with commas between them and blanks around them, are
read back. -/
theorem parse_color :
    ∃ G', (Grammar.compile (.nonterminal color)).run.run grammar = (.ok (), G') ∧
      ∀ (red green blue : Int64) (u₁ u₂ u₃ u₄ u₅ u₆ : Blanks) (listeners : Nat)
        (found : Option (List Completion)) (ctx : Context),
        let parsed := ((parse G'.flat listeners (colorText red green blue u₁ u₂ u₃ u₄ u₅ u₆)
          found).run { ctx with config := {} }).1
        parsed.failure = none ∧ parsed.tree.outcome = .successful ∧
          parsed.tree.evaluate G'.flat
            = .ok (.int (Value.opaqueColor red.toInt green.toInt blue.toInt)) := by
  obtain ⟨rs, G', hrules, hcompile, honly, hrealized⟩ :=
    exists_realized (x := color) (by simp [names])
  obtain ⟨o, d, hnumbers⟩ := hrules.numbers
  obtain ⟨blanks, opening, closing, comma, parts, named, hmore, hmem, hnamed⟩ := hrules.colors
  have hint : G'.flat.RealizesAll (numberRules o d) := fun r hr => hrealized r (hnumbers hr)
  have hparts : G'.flat.RealizesAll (partsRules blanks opening closing comma parts) :=
    fun r hr => hrealized r (hmore hr)
  obtain ⟨_, _, hcolor⟩ := hrealized _ hmem
  have hmem' : partsRule parts opening closing comma ∈ rs := hmore (by simp [partsRules])
  obtain ⟨_, _, hlowered⟩ := Grammar.exists_lowered_of_compile reachable_grammar hcompile
    (honly _ hmem') rfl (by simp [partsRule, Rule.symbols, Rule.ofChildren, Join.joints])
  refine ⟨G', hcompile, fun red green blue u₁ u₂ u₃ u₄ u₅ u₆ listeners found ctx => ?_⟩
  exact read_of_affords reachable_grammar hcompile (lt_maxDepth (by decide))
    (affords_colorText hint hparts hnamed hcolor (lt_maxDepth (by decide)))
    fun t ht hsymbol hchars =>
      evaluate_colorText hint hparts hnamed hcolor hrealized hlowered ht hsymbol hchars

/-- **Ranges and colours are read back.**  A range has its bounds as its value, unless one of them
is negative.  A colour has the lowest eight bits of its parts behind eight bits that are set, so
that different parts of eight bits each have different values. -/
theorem parse_composites :
    (∃ G', (Grammar.compile (.nonterminal integerRange)).run.run grammar = (.ok (), G') ∧
      ∀ (a b : Int64) (u v : Blanks) (listeners : Nat) (found : Option (List Completion))
        (ctx : Context),
        let parsed := ((parse G'.flat listeners (rangeText a b u v) found).run
          { ctx with config := {} }).1
        parsed.failure = none ∧ parsed.tree.outcome = .successful ∧
          parsed.tree.evaluate G'.flat =
            if a.toInt < 0 then .error (.unexpectedValue "a non-negative integer" (.int a.toInt))
            else if b.toInt < 0 then
              .error (.unexpectedValue "a non-negative integer" (.int b.toInt))
            else .ok (.range ⟨a.toInt.toNat, b.toInt.toNat⟩)) ∧
    (∃ G', (Grammar.compile (.nonterminal color)).run.run grammar = (.ok (), G') ∧
      ∀ (red green blue : Int64) (u₁ u₂ u₃ u₄ u₅ u₆ : Blanks) (listeners : Nat)
        (found : Option (List Completion)) (ctx : Context),
        let parsed := ((parse G'.flat listeners (colorText red green blue u₁ u₂ u₃ u₄ u₅ u₆)
          found).run { ctx with config := {} }).1
        parsed.failure = none ∧ parsed.tree.outcome = .successful ∧
          parsed.tree.evaluate G'.flat
            = .ok (.int (Value.opaqueColor red.toInt green.toInt blue.toInt))) ∧
    (∀ red green blue : Int, Value.opaqueColor red green blue =
      255 * 2 ^ 24 + red % 256 * 2 ^ 16 + green % 256 * 2 ^ 8 + blue % 256) ∧
    (Function.Injective fun p : UInt8 × UInt8 × UInt8 =>
      Value.opaqueColor p.1.toNat p.2.1.toNat p.2.2.toNat) ∧
    ∀ red green blue : Int, 0xff000000 ≤ Value.opaqueColor red green blue ∧
      Value.opaqueColor red green blue ≤ 0xffffffff :=
  ⟨parse_range, parse_color, Value.opaqueColor_eq, Value.opaqueColor_injective,
    Value.opaqueColor_bounds⟩

end Standard

end Typeahead
