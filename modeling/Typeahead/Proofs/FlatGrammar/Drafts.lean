import Typeahead.Proofs.FlatGrammar.Sides

/-!
# Proofs/FlatGrammar/Drafts — what lowering a rule adds, in closed form

Lowering asks for productions one after the other, and on its way it keeps rules and declares names.
`Rule.drafts` lists the productions that a rule asks for, given names for the nonterminals it makes
up; `lower_makes` says that lowering adds these, in this order, and nothing else.

What else is known about the productions of a rule — their sides, the rules they belong to, how they
are shaped — is read off its drafts.
-/

namespace Typeahead

/-- Names for the nonterminals that a join makes up. -/
structure Auxiliaries where
  next : String
  repetition : String
  tail : String
  rest : String

namespace Auxiliaries

/-- All names that a join may need. -/
abbrev names (a : Auxiliaries) : List String := [a.next, a.repetition, a.tail, a.rest]

/-- The names differ from each other and are not known yet. -/
structure Fresh (table : SymbolTable) (a : Auxiliaries) : Prop where
  unknown : ∀ x ∈ [a.next, a.repetition, a.tail, a.rest], table.knows x = false
  nodup : [a.next, a.repetition, a.tail, a.rest].Nodup

theorem Fresh.ne_of_knows {table : SymbolTable} {a : Auxiliaries} {x : String} (ha : a.Fresh table)
    (hx : table.knows x = true) : ∀ y ∈ a.names, x ≠ y := by
  rintro y hy rfl
  rw [ha.unknown x hy] at hx
  cases hx

end Auxiliaries

/-! ## Drafts -/

/-- A production as lowering asks for it: its right side may have empty symbols. -/
structure Draft where
  rule : Nat
  sides : Sides
  naming : Naming
  shaping : Shaping

namespace Draft

variable (rule : Nat) (x : String) (child : Symbol) (names : ChildNames)

/-- No child. -/
def nothing : Draft := ⟨rule, ⟨x, []⟩, .anonymous, .keep⟩

/-- One child. -/
def alone : Draft := ⟨rule, ⟨x, [child]⟩, .single names, .keep⟩

/-- A child in front of the nonterminal itself. -/
def more : Draft := ⟨rule, ⟨x, [child, .nonterminal x]⟩, .entryAndTail names, .entryAndTail⟩

/-- `n` children side by side. -/
def copies (n : Nat) : Draft := ⟨rule, ⟨x, List.replicate n child⟩, .positional names, .keep⟩

/-- A child and a nonterminal for the children behind it. -/
def headed (tail word : String) : Draft :=
  ⟨rule, ⟨x, [child, .nonterminal tail]⟩, .headed names word, .headed⟩

end Draft

/-- Any number of children. -/
def starDrafts (rule : Nat) (x : String) (child : Symbol) (names : ChildNames) : List Draft :=
  [.more rule x child names, .nothing rule x]

/-- Between `least` and `most` children, the longest first. -/
def repetitionDrafts (rule : Nat) (x : String) (child : Symbol) (names : ChildNames)
    (least most : Nat) : List Draft :=
  (List.range (most + 1 - least)).map fun i => .copies rule x child names (most - i)

/-! ## Joins -/

namespace Auxiliaries

variable (a : Auxiliaries) (rule : Nat) (entry : Symbol) (names : ChildNames)

/-- As many entries behind the first one as there have to be, and any number of others. -/
def spreadDraft (lower : Nat) : Draft :=
  ⟨rule, ⟨a.rest, List.replicate (lower - 1) (.nonterminal a.next) ++ [.nonterminal a.tail]⟩,
    .numbered, .spreadLast⟩

/-- The entries of a join: a first entry followed by as many more as the count admits, and nothing
if there need not be any.  The rule of the tail is `helper`. -/
def entryDrafts (helper : Nat) (count : Count) : List Draft :=
  (if count.upper = 0 then []
  else if count.upper = 1 then [.alone rule a.repetition entry names]
  else if count.upper = Count.limit then
    starDrafts helper a.tail (.nonterminal a.next) [some "next"] ++
    if count.lower ≤ 1 then [.headed rule a.repetition entry names a.tail "star"]
    else [a.spreadDraft rule count.lower, .headed rule a.repetition entry names a.rest "rest"]
  else repetitionDrafts helper a.tail (.nonterminal a.next) [some "next"] (count.lower - 1)
      (count.upper - 1) ++ [.headed rule a.repetition entry names a.tail "repeat"]) ++
  if count.lower = 0 then [.nothing rule a.repetition] else []

/-- The names that the entries of a join need. -/
def entryNames (a : Auxiliaries) (count : Count) : List String :=
  if count.upper ≤ 1 then []
  else if count.upper = Count.limit ∧ 1 < count.lower then [a.tail, a.rest]
  else [a.tail]

/-- The rule of the tail. -/
def tailRule (kind : RuleKind) : Rule :=
  Rule.ofChildren kind a.tail [⟨.nonterminal a.next, some "next"⟩]

/-- The rules that the entries of a join need. -/
def helpers (count : Count) : List Rule :=
  if count.upper ≤ 1 then []
  else if count.upper = Count.limit then [a.tailRule .star]
  else [a.tailRule (.repetition (count.lower - 1) (count.upper - 1))]

end Auxiliaries

namespace Join

variable (j : Join) (rule : Nat) (target : String) (entry : Symbol) (names : ChildNames)

/-- An entry behind its delimiter. -/
def nextDraft (next : String) : Draft :=
  match j.delimiter with
  | some delimiter => ⟨rule, ⟨next, [delimiter, entry]⟩, .delimited names,
    if j.entriesOnly then .second else .keep⟩
  | none => ⟨rule, ⟨next, [entry]⟩, .following names, .keep⟩

/-- All entries, between the brackets. -/
def wholeDraft (repetition : String) : Draft :=
  match j.opening, j.closing with
  | some opening, some closing => ⟨rule, ⟨target, [opening, .nonterminal repetition, closing]⟩,
    .bracketed (!j.entriesOnly), .bracketed (!j.entriesOnly)⟩
  | _, _ => ⟨rule, ⟨target, [.nonterminal repetition]⟩, .wrapped, .wrapped⟩

/-- The productions of a join.  Its tail has the rule after its own. -/
def drafts (a : Auxiliaries) : List Draft :=
  j.nextDraft rule entry names a.next ::
    (a.entryDrafts rule entry names (rule + 1) j.count ++ [j.wholeDraft rule target a.repetition])

end Join

/-! ## Rules -/

namespace Rule

variable (r : Rule) (rule : Nat) (a : Auxiliaries)

/-- **The productions of a rule**, in the order in which they are asked for. -/
def drafts : List Draft :=
  match r.kind, r.children with
  | .sequence, children => [⟨rule, ⟨r.target, children⟩, .positional r.names, .keep⟩]
  | .choice, children => children.zipIdx.map fun (s, i) =>
    ⟨rule, ⟨r.target, [s]⟩, .alternative i r.names, .keep⟩
  | .optional, s :: _ => [.alone rule r.target s r.names, .nothing rule r.target]
  | .star, s :: _ => starDrafts rule r.target s r.names
  | .plus, s :: _ =>
    [.more rule r.target s r.names, ⟨rule, ⟨r.target, [s]⟩, .lastEntry r.names, .keep⟩]
  | .repetition least most, s :: _ => repetitionDrafts rule r.target s r.names least most
  | .join j, s :: _ => j.drafts rule r.target s r.names a
  | _, [] => []

/-- The rules made up for a rule. -/
def helpers : List Rule :=
  match r.kind with
  | .join j => a.helpers j.count
  | _ => []

/-- The names that a rule makes up. -/
def auxiliaries (r : Rule) (a : Auxiliaries) : List String :=
  match r.kind with
  | .join j => [a.next, a.repetition] ++ a.entryNames j.count
  | _ => []

end Rule

/-! ## The members of the lists -/

theorem forall_mem_repetitionDrafts {P : Draft → Prop} {rule : Nat} {x : String} {child : Symbol}
    {names : ChildNames} {least most : Nat}
    (h : ∀ n, least ≤ n → n ≤ most → P (.copies rule x child names n)) :
    ∀ d ∈ repetitionDrafts rule x child names least most, P d := by
  rintro d hd
  obtain ⟨i, hi, rfl⟩ := List.mem_map.1 hd
  have hi := List.mem_range.1 hi
  exact h _ (by omega) (Nat.sub_le ..)

section

variable (a : Auxiliaries) (rule : Nat) (entry : Symbol) (names : ChildNames) (helper : Nat)
  (count : Count)

/-- **What the entries of a join ask for**, and for which counts. -/
inductive Auxiliaries.Asks : Draft → Prop
  | nothing (hlower : count.lower = 0) : Asks (.nothing rule a.repetition)
  | alone (hupper : count.upper = 1) : Asks (.alone rule a.repetition entry names)
  | star {d : Draft} (hlimit : count.upper = Count.limit)
    (hd : d ∈ starDrafts helper a.tail (.nonterminal a.next) [some "next"]) : Asks d
  | copies {n : Nat} (hupper : 1 < count.upper) (hlimit : count.upper ≠ Count.limit)
    (hleast : count.lower - 1 ≤ n) (hmost : n ≤ count.upper - 1) :
    Asks (.copies helper a.tail (.nonterminal a.next) [some "next"] n)
  | tail {word : String} (hupper : 1 < count.upper)
    (hlower : count.upper = Count.limit → count.lower ≤ 1)
    (hword : word = if count.upper = Count.limit then "star" else "repeat") :
    Asks (.headed rule a.repetition entry names a.tail word)
  | spread (hlimit : count.upper = Count.limit) (hlower : 1 < count.lower) :
    Asks (a.spreadDraft rule count.lower)
  | rest (hlimit : count.upper = Count.limit) (hlower : 1 < count.lower) :
    Asks (.headed rule a.repetition entry names a.rest "rest")

variable {a rule entry names helper count}

theorem Auxiliaries.asks_of_mem_entryDrafts :
    ∀ d ∈ a.entryDrafts rule entry names helper count, a.Asks rule entry names helper count d := by
  rw [entryDrafts, List.forall_mem_append]
  constructor
  · split_ifs with hnone hone hlimit hlower
    · exact List.forall_mem_nil _
    · exact List.forall_mem_singleton.2 (.alone hone)
    all_goals
      have hupper : 1 < count.upper := by omega
    · refine List.forall_mem_append.2 ⟨fun d => .star hlimit, List.forall_mem_singleton.2 ?_⟩
      exact .tail hupper (fun _ => hlower) (if_pos hlimit).symm
    · have hlower : 1 < count.lower := Nat.lt_of_not_le hlower
      refine List.forall_mem_append.2 ⟨fun d => .star hlimit, List.forall_mem_cons.2 ?_⟩
      exact ⟨.spread hlimit hlower, List.forall_mem_singleton.2 (.rest hlimit hlower)⟩
    · refine List.forall_mem_append.2
        ⟨forall_mem_repetitionDrafts fun n => .copies hupper hlimit, List.forall_mem_singleton.2 ?_⟩
      exact .tail hupper (fun h => absurd h hlimit) (if_neg hlimit).symm
  · split_ifs with hzero
    · exact List.forall_mem_singleton.2 (.nothing hzero)
    · exact List.forall_mem_nil _

end

/-! ## Adding productions -/

namespace FlatGrammar

/-- Adds the production that a draft asks for. -/
def draw (g : FlatGrammar) (d : Draft) : FlatGrammar :=
  g.extend d.rule d.sides.left d.sides.right d.naming d.shaping

theorem draw_productions {g h : FlatGrammar} (hgh : g.productions = h.productions) (d : Draft) :
    (g.draw d).productions = (h.draw d).productions := by
  rw [draw, draw, extend, extend, merge, merge, find?, find?, hgh]
  split <;> rfl

/-- What productions are drawn onto matters only for its productions. -/
theorem foldl_draw_productions {g h : FlatGrammar} (hgh : g.productions = h.productions)
    (ds : List Draft) : (ds.foldl draw g).productions = (ds.foldl draw h).productions := by
  induction ds generalizing g h with
  | nil => exact hgh
  | cons d ds ih => exact ih (draw_productions hgh d)

/-- **`g'` is `g` with rules and productions** added, and with names that `g` did not know. -/
structure Makes (g g' : FlatGrammar) (added : List Rule) (new : List Draft) (names : List String) :
    Prop where
  rules : g'.rules.toList = g.rules.toList ++ added
  productions : g'.productions = (new.foldl draw g).productions
  knows : ∀ x, g'.symbols.knows x = true ↔ g.symbols.knows x = true ∨ x ∈ names
  unknown : ∀ x ∈ names, g.symbols.knows x = false
  nodup : names.Nodup

variable {g g' g'' : FlatGrammar} {added added' : List Rule} {new new' : List Draft}
  {names names' : List String}

theorem Makes.refl (g : FlatGrammar) : Makes g g [] [] [] :=
  ⟨(List.append_nil _).symm, rfl, by simp, by simp, .nil⟩

/-- Names that are unknown after others were added are new besides these. -/
theorem Makes.unknown_append (h : Makes g g' added new names) (hnodup : names'.Nodup)
    (hunknown : ∀ x ∈ names', g'.symbols.knows x = false) :
    (names ++ names').Nodup ∧ ∀ x ∈ names ++ names', g.symbols.knows x = false := by
  have hnew : ∀ x ∈ names', g.symbols.knows x = false ∧ x ∉ names := by
    intro x hx
    have hx' := mt (h.knows x).2 (Bool.eq_false_iff.1 (hunknown x hx))
    simpa [not_or] using hx'
  refine ⟨h.nodup.append hnodup fun x hx hx' => (hnew x hx').2 hx, fun x hx => ?_⟩
  exact (List.mem_append.1 hx).elim (h.unknown x) fun hx => (hnew x hx).1

theorem Makes.trans (h : Makes g g' added new names) (h' : Makes g' g'' added' new' names') :
    Makes g g'' (added ++ added') (new ++ new') (names ++ names') := by
  obtain ⟨hnodup, hunknown⟩ := h.unknown_append h'.nodup h'.unknown
  refine ⟨?_, ?_, fun x => ?_, hunknown, hnodup⟩
  · rw [h'.rules, h.rules, List.append_assoc]
  · rw [h'.productions, foldl_draw_productions h.productions, List.foldl_append]
  · rw [h'.knows, h.knows, List.mem_append, or_assoc]

theorem Makes.of_eq (h : Makes g g' added new names) (hadded : added = added') (hnew : new = new')
    (hnames : names = names') : Makes g g' added' new' names' := by
  subst hadded hnew hnames
  exact h

theorem Makes.size (h : Makes g g' added new names) :
    g'.rules.size = g.rules.size + added.length := by
  simpa using congrArg List.length h.rules

/-- The first rule that is added comes behind those that are there. -/
theorem getElem?_size_of_rules {r : Rule} (h : g'.rules.toList = g.rules.toList ++ r :: added) :
    g'.rules[g.rules.size]? = some r := by
  rw [← Array.getElem?_toList, h, ← Array.length_toList,
    List.getElem?_append_right (Nat.le_refl _), Nat.sub_self]
  rfl

theorem makes_addRule (g : FlatGrammar) (r : Rule) : Makes g (g.addRule r).2 [r] [] [] :=
  ⟨by simp [addRule], rfl, by simp [addRule], by simp, .nil⟩

theorem extend_rules (g : FlatGrammar) (rule : Nat) (left : String) (right : List Symbol)
    (naming : Naming) (shaping : Shaping) :
    (g.extend rule left right naming shaping).rules = g.rules := by
  rw [extend, merge]
  split <;> rfl

theorem makes_draw (g : FlatGrammar) (d : Draft) : Makes g (g.draw d) [] [d] [] where
  rules := by rw [draw, extend_rules, List.append_nil]
  productions := rfl
  knows x := by simp [draw, extend, merge_symbols]
  unknown := by simp
  nodup := .nil

/-- One more production, as it is written in the lowering. -/
theorem Makes.extend (h : Makes g g' added new names) (rule : Nat) (left : String)
    (right : List Symbol) (naming : Naming) (shaping : Shaping) :
    Makes g (g'.extend rule left right naming shaping) added
      (new ++ [⟨rule, ⟨left, right⟩, naming, shaping⟩]) names :=
  (h.trans (makes_draw g' ⟨rule, ⟨left, right⟩, naming, shaping⟩)).of_eq (List.append_nil _) rfl
    (List.append_nil _)

theorem makes_fresh (g : FlatGrammar) (base : String) :
    Makes g (g.fresh base).2 [] [] [(g.fresh base).1] where
  rules := (List.append_nil _).symm
  productions := rfl
  knows x := by
    rw [List.mem_singleton, or_comm]
    exact SymbolTable.knows_fresh
  unknown := by simpa [fresh] using g.symbols.fresh_unknown base
  nodup := List.nodup_singleton _

theorem makes_of_fresh {base x : String} (h : g.fresh base = (x, g')) : Makes g g' [] [] [x] := by
  simpa only [h] using makes_fresh g base

theorem makes_foldl {α : Type} (d : α → Draft) (as : List α) (g : FlatGrammar) :
    Makes g (as.foldl (fun g a => g.draw (d a)) g) [] (as.map d) [] := by
  induction as generalizing g with
  | nil => exact .refl g
  | cons a as ih => exact (makes_draw g (d a)).trans (ih _)

/-- There is always one more name. -/
theorem Makes.exists_unknown (h : Makes g g' added new names) :
    ∃ x, (names ++ [x]).Nodup ∧ ∀ y ∈ names ++ [x], g.symbols.knows y = false :=
  ⟨_, (h.trans (makes_fresh g' "")).nodup, (h.trans (makes_fresh g' "")).unknown⟩

theorem exists_auxiliaries (g : FlatGrammar) : ∃ a : Auxiliaries, a.Fresh g.symbols := by
  have h := (((makes_fresh g "").trans (makes_fresh _ "")).trans (makes_fresh _ "")).trans
    (makes_fresh _ "")
  exact ⟨⟨_, _, _, _⟩, h.unknown, h.nodup⟩

/-! ## Lowering -/

theorem makes_lowerStar (g : FlatGrammar) (rule : Nat) (x : String) (child : Symbol)
    (names : ChildNames) :
    Makes g (g.lowerStar rule x child names) [] (starDrafts rule x child names) [] :=
  ((Makes.refl g).extend ..).extend ..

theorem makes_lowerRepetition (g : FlatGrammar) (rule : Nat) (x : String) (child : Symbol)
    (names : ChildNames) (least most : Nat) :
    Makes g (g.lowerRepetition rule x child names least most) []
      (repetitionDrafts rule x child names least most) [] :=
  makes_foldl (fun i => .copies rule x child names (most - i)) _ g

theorem makes_lowerTail_star (g : FlatGrammar) (a : Auxiliaries) :
    Makes g (g.lowerTail .star a.tail a.next) [a.tailRule .star]
      (starDrafts g.rules.size a.tail (.nonterminal a.next) [some "next"]) [] :=
  (makes_addRule g _).trans (makes_lowerStar ..)

theorem makes_lowerTail_repetition (g : FlatGrammar) (a : Auxiliaries) (least most : Nat) :
    Makes g (g.lowerTail (.repetition least most) a.tail a.next)
      [a.tailRule (.repetition least most)]
      (repetitionDrafts g.rules.size a.tail (.nonterminal a.next) [some "next"] least most) [] :=
  (makes_addRule g _).trans (makes_lowerRepetition ..)

theorem makes_lowerNext {rule : Nat} {target next : String} {entry : Symbol} {names : ChildNames}
    {j : Join} (h : g.lowerNext rule target entry names j = (next, g')) :
    Makes g g' [] [j.nextDraft rule entry names next] [next] := by
  rw [lowerNext] at h
  rw [Join.nextDraft]
  rcases hdelimiter : j.delimiter with _ | delimiter <;> rw [hdelimiter] at h <;> cases h
  · exact (makes_fresh ..).extend ..
  · exact (makes_fresh ..).extend ..

end FlatGrammar

namespace Auxiliaries

variable (a : Auxiliaries) (rule : Nat) (entry : Symbol) (names : ChildNames) (helper : Nat)

theorem entryDrafts_unbounded {lower : Nat} (h : 1 < lower) :
    a.entryDrafts rule entry names helper ⟨lower, Count.limit⟩ =
      starDrafts helper a.tail (.nonterminal a.next) [some "next"] ++
        [a.spreadDraft rule lower, .headed rule a.repetition entry names a.rest "rest"] ∧
    a.helpers ⟨lower, Count.limit⟩ = [a.tailRule .star] ∧
    a.entryNames ⟨lower, Count.limit⟩ = [a.tail, a.rest] := by
  have hzero : lower ≠ 0 := by omega
  have hone : ¬ lower ≤ 1 := by omega
  simp [entryDrafts, helpers, entryNames, hzero, hone, h, Count.limit]

theorem entryDrafts_bounded {count : Count} (h : 1 < count.upper)
    (hlimit : count.upper ≠ Count.limit) :
    a.entryDrafts rule entry names helper count =
      repetitionDrafts helper a.tail (.nonterminal a.next) [some "next"] (count.lower - 1)
        (count.upper - 1) ++ [.headed rule a.repetition entry names a.tail "repeat"] ++
        (if count.lower = 0 then [.nothing rule a.repetition] else []) ∧
    a.helpers count = [a.tailRule (.repetition (count.lower - 1) (count.upper - 1))] ∧
    a.entryNames count = [a.tail] := by
  have hzero : count.upper ≠ 0 := by omega
  have hone : count.upper ≠ 1 := by omega
  have hle : ¬ count.upper ≤ 1 := by omega
  simp [entryDrafts, helpers, entryNames, hzero, hone, hlimit, hle]

end Auxiliaries

namespace FlatGrammar

variable {g g' : FlatGrammar}

/-- **The productions of the entries of a join**, by the cases of the count. -/
theorem makes_lowerEntries (g : FlatGrammar) (rule : Nat) (target repetition next : String)
    (entry : Symbol) (names : ChildNames) {count : Count} (hcount : count.lower ≤ count.upper) :
    ∃ tail rest, [tail, rest].Nodup ∧ (∀ x ∈ [tail, rest], g.symbols.knows x = false) ∧
      Makes g (g.lowerEntries rule target repetition next entry names count)
        (Auxiliaries.helpers ⟨next, repetition, tail, rest⟩ count)
        (Auxiliaries.entryDrafts ⟨next, repetition, tail, rest⟩ rule entry names g.rules.size count)
        (Auxiliaries.entryNames ⟨next, repetition, tail, rest⟩ count) := by
  unfold lowerEntries
  rcases hstar : g.fresh (target ++ "_star") with ⟨star, gs⟩
  rcases hrepeat : g.fresh (target ++ "_repeat") with ⟨copies, gr⟩
  rcases hrest : (gs.lowerTail .star star next).fresh (target ++ "_rest") with ⟨rest, gt⟩
  have hs := makes_of_fresh hstar
  have hr := makes_of_fresh hrepeat
  obtain ⟨spare, hnodup, hunknown⟩ := hs.exists_unknown
  obtain ⟨spare', hnodup', hunknown'⟩ := hr.exists_unknown
  have hstars := hs.trans (makes_lowerTail_star gs ⟨next, repetition, star, rest⟩)
  have hcopies := hr.trans (makes_lowerTail_repetition gr ⟨next, repetition, copies, spare'⟩
    (count.lower - 1) (count.upper - 1))
  rw [show gs.rules.size = g.rules.size from hs.size] at hstars
  rw [show gr.rules.size = g.rules.size from hr.size] at hcopies
  dsimp only at hstars hcopies ⊢
  split_ifs with hany h h hnone hone hlimit hzero
  · subst h
    exact ⟨star, spare, hnodup, hunknown, (hstars.extend ..).extend ..⟩
  · obtain rfl := hany.resolve_left h
    exact ⟨star, spare, hnodup, hunknown, hstars.extend ..⟩
  · subst h
    exact ⟨star, spare, hnodup, hunknown, ((Makes.refl g).extend ..).extend ..⟩
  · subst hnone
    exact ⟨star, spare, hnodup, hunknown, (Makes.refl g).extend ..⟩
  · subst hone
    exact ⟨star, spare, hnodup, hunknown, (Makes.refl g).extend ..⟩
  · obtain ⟨lower, upper⟩ := count
    obtain rfl : upper = Count.limit := hlimit
    have hlower : 1 < lower := by
      simp only [Count.star, Count.plus, Count.mk.injEq, and_true, not_or] at hany
      omega
    have hnames := hstars.trans (makes_of_fresh hrest)
    obtain ⟨hdrafts, hhelpers, hused⟩ := Auxiliaries.entryDrafts_unbounded
      ⟨next, repetition, star, rest⟩ rule entry names g.rules.size hlower
    refine ⟨star, rest, hnames.nodup, hnames.unknown, ?_⟩
    rw [hdrafts, hhelpers, hused, hrest]
    exact ((hnames.extend ..).extend ..).of_eq rfl (List.append_assoc ..) rfl
  all_goals
    have hupper : 1 < count.upper := by
      obtain ⟨lower, upper⟩ := count
      simp only [Count.optional, Count.mk.injEq] at *
      omega
    obtain ⟨hdrafts, hhelpers, hused⟩ := Auxiliaries.entryDrafts_bounded
      ⟨next, repetition, copies, spare'⟩ rule entry names g.rules.size hupper hlimit
    refine ⟨copies, spare', hnodup', hunknown', ?_⟩
    rw [hdrafts, hhelpers, hused]
  · rw [if_pos hzero]
    exact (hcopies.extend ..).extend ..
  · rw [if_neg hzero, List.append_nil]
    exact hcopies.extend ..

/-- **The productions of a join.** -/
theorem makes_lowerJoin (g : FlatGrammar) (rule : Nat) (target : String) (entry : Symbol)
    (names : ChildNames) {j : Join} (hcount : j.count.lower ≤ j.count.upper)
    (hrule : g.rules.size = rule + 1) :
    ∃ a : Auxiliaries, a.Fresh g.symbols ∧ Makes g (g.lowerJoin rule target entry names j)
      (a.helpers j.count) (j.drafts rule target entry names a)
      ([a.next, a.repetition] ++ a.entryNames j.count) := by
  unfold lowerJoin
  rcases hlowered : g.lowerNext rule target entry names j with ⟨next, g₁⟩
  rcases hfresh : g₁.fresh (target ++ "_repetition") with ⟨repetition, g₂⟩
  have hnames := (makes_lowerNext hlowered).trans (makes_of_fresh hfresh)
  obtain ⟨tail, rest, hnodup, hunknown, hentries⟩ :=
    makes_lowerEntries g₂ rule target repetition next entry names hcount
  rw [show g₂.rules.size = rule + 1 from hnames.size.trans hrule] at hentries
  obtain ⟨hnodup, hunknown⟩ := hnames.unknown_append hnodup hunknown
  refine ⟨⟨next, repetition, tail, rest⟩, ⟨hunknown, hnodup⟩, ?_⟩
  rw [Join.drafts, Join.wholeDraft]
  dsimp only
  rw [hfresh]
  rcases j.opening with _ | opening <;> rcases j.closing with _ | closing
  all_goals exact ((hnames.trans hentries).extend ..).of_eq rfl (List.append_assoc ..) rfl

/-- **What lowering a rule adds.** -/
theorem lower_makes {r : Rule} (h : g.lower r = .ok g') :
    ∃ a : Auxiliaries, a.Fresh g.symbols ∧
      Makes g g' (r :: r.helpers a) (r.drafts g.rules.size a) (r.auxiliaries a) := by
  obtain ⟨a, ha⟩ := g.exists_auxiliaries
  have hrule := makes_addRule g r
  obtain ⟨⟨kind, target, children, names⟩, evaluator, completer, listener⟩ := r
  unfold lower at h
  cases kind with
  | sequence =>
    cases h
    exact ⟨a, ha, hrule.extend ..⟩
  | choice =>
    cases h
    refine ⟨a, ha, hrule.trans ?_⟩
    exact makes_foldl (fun o => ⟨g.rules.size, ⟨target, [o.1]⟩, .alternative o.2 names, .keep⟩)
      children.zipIdx _
  | optional | plus =>
    rcases children with _ | ⟨s, _⟩ <;> cases h
    exact ⟨a, ha, (hrule.extend ..).extend ..⟩
  | star =>
    rcases children with _ | ⟨s, _⟩ <;> cases h
    exact ⟨a, ha, hrule.trans (makes_lowerStar ..)⟩
  | repetition least most =>
    dsimp only at h
    split at h
    · cases h
    · rcases children with _ | ⟨s, _⟩ <;> cases h
      exact ⟨a, ha, hrule.trans (makes_lowerRepetition ..)⟩
  | join j =>
    dsimp only at h
    split at h
    · cases h
    rcases children with _ | ⟨entry, _⟩
    · cases h
    dsimp only [List.head?_cons] at h
    split at h
    · cases h
    next hcount =>
      cases h
      obtain ⟨a, ha, hjoin⟩ := makes_lowerJoin (g.addRule _).2 (g.addRule _).1 target entry names
        (Nat.le_of_not_lt hcount) (Array.size_push ..)
      exact ⟨a, ha, hrule.trans hjoin⟩

/-- A join that can be lowered has both brackets or none, and admits some number of entries. -/
theorem lower_join {r : Rule} {j : Join} (h : g.lower r = .ok g') (hj : r.kind = .join j) :
    j.opening.isSome = j.closing.isSome ∧ j.count.lower ≤ j.count.upper := by
  simp only [lower, hj] at h
  split at h
  · cases h
  next hbalanced =>
    split at h
    · split at h
      · cases h
      next hcount => exact ⟨not_not.1 hbalanced, Nat.not_lt.1 hcount⟩
    · cases h

end FlatGrammar

end Typeahead
