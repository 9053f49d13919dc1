import Typeahead.FlatGrammar.Lowering

/-!
# FlatGrammar/Store — productions by number

A store keeps the productions of a flat grammar together with an index of their numbers by left
side.  Productions are looked up through the index, and one that is added again is found by its
number, under which it can be changed.  Numbers are places: removing productions shifts those behind
them, and the index is made anew.

A `Sink` is anything that rules can be lowered into, a flat grammar or a store, and `Sink.lower` is
the one lowering for all of them.  A rule that cannot be lowered stays with the sink.
-/

namespace Typeahead

/-! ## The index -/

/-- The numbers of productions by their left sides. -/
abbrev Index := List (String × List Nat)

namespace Index

/-- The numbers kept for a left side. -/
def ids (index : Index) (left : String) : List Nat := (index.lookup left).getD []

/-- Keeps one more number for a left side, behind the others. -/
def push : Index → String → Nat → Index
  | [], left, i => [(left, [i])]
  | (x, is) :: more, left, i =>
    if x = left then (x, is ++ [i]) :: more else (x, is) :: push more left i

/-- The index of some productions. -/
def build (productions : List Production) : Index :=
  productions.zipIdx.foldl (fun index (p, i) => index.push p.left i) []

end Index

/-! ## Stores -/

/-- The productions of a flat grammar, with an index of their left sides. -/
structure Store extends FlatGrammar where
  index : Index

namespace Store

variable (s : Store)

/-- The store without productions. -/
def new (symbols : SymbolTable) : Store := ⟨.ofSymbols symbols, []⟩

/-- The numbers of the productions of a nonterminal. -/
def idsOf (left : String) : List Nat := s.index.ids left

/-- The productions of a nonterminal, looked up by their numbers. -/
def listed (left : String) : List Production := (s.idsOf left).filterMap (s.productions[·]?)

/-- The number of the production with the given sides, looked up among those of its left side. -/
def lookup (left : String) (right : List Symbol) : Option Nat :=
  (s.idsOf left).find? fun i => (s.productions[i]?).any (·.right = right)

/-- Stores a production under the next number. -/
def put (p : Production) : Store :=
  { s with
    productions := s.productions ++ [p]
    index := s.index.push p.left s.productions.length }

/-- Adds a production unless one with the same sides exists, and tells the number of the stored
one. -/
def add (p : Production) : Nat × Store :=
  match s.lookup p.left p.right with
  | some i => (i, s)
  | none => (s.productions.length, s.put p)

/-- Names the children of a production, and decides which of its nodes stay.  Where nothing is
said, this stays as it was. -/
def treat (i : Nat) (naming : Naming) (shaping : Shaping) : Store :=
  { s with productions := s.productions.modify i fun p =>
    { p with
      naming := if naming = .anonymous then p.naming else naming
      shaping := if shaping = .keep then p.shaping else shaping } }

/-- Adds a production of the rule with index `rule`. -/
def extend (rule : Nat) (left : String) (right : List Symbol) (naming : Naming)
    (shaping : Shaping) : Store :=
  let (i, s) := s.add { Production.ofSymbols left right with rule := some rule }
  s.treat i naming shaping

/-- Removes the productions of the start symbol.  The others get new numbers. -/
def removeStart : Store :=
  let productions := s.productions.filter (·.left ≠ SymbolTable.start)
  { s with productions := productions, index := .build productions }

/-- Keeps a rule for the productions that follow. -/
def addRule (r : Rule) : Nat × Store :=
  let (rule, g) := s.toFlatGrammar.addRule r
  (rule, { s with toFlatGrammar := g })

/-- Declares a nonterminal that is not known yet. -/
def fresh (base : String) : String × Store :=
  let (name, g) := s.toFlatGrammar.fresh base
  (name, { s with toFlatGrammar := g })

end Store

/-! ## Lowering into a sink -/

/-- What rules are lowered into: it takes productions, keeps rules, and makes up names. -/
structure Sink (σ : Type) where
  extend : σ → Nat → String → List Symbol → Naming → Shaping → σ
  addRule : σ → Rule → Nat × σ
  fresh : σ → String → String × σ

namespace Sink

variable {σ : Type} (S : Sink σ) (s : σ) (rule : Nat) (target : String) (child : Symbol)
  (names : ChildNames)

/-- One more entry in front of the tail. -/
def extendRepetition : σ :=
  S.extend s rule target [child, .nonterminal target] (.entryAndTail names) .entryAndTail

/-- The productions of any number of children. -/
def lowerStar : σ :=
  S.extend (S.extendRepetition s rule target child names) rule target [] .anonymous .keep

/-- The productions of between `least` and `most` children, the longest first. -/
def lowerRepetition (least most : Nat) : σ :=
  (List.range (most + 1 - least)).foldl (fun s i =>
    S.extend s rule target (List.replicate (most - i) child) (.positional names) .keep) s

/-- The nonterminal `next` of a join. -/
def lowerNext (j : Join) : String × σ :=
  let (next, s) := S.fresh s (target ++ "_next")
  match j.delimiter with
  | some delimiter =>
    (next, S.extend s rule next [delimiter, child] (.delimited names)
      (if j.entriesOnly then .second else .keep))
  | none => (next, S.extend s rule next [child] (.following names) .keep)

/-- A nonterminal of its own for a repetition of `next`, with a rule of its own. -/
def lowerTail (kind : RuleKind) (tail next : String) : σ :=
  let r := Rule.ofChildren kind tail [⟨.nonterminal next, some "next"⟩]
  let (rule, s) := S.addRule s r
  match kind with
  | .repetition least most => S.lowerRepetition s rule tail (.nonterminal next) r.names least most
  | _ => S.lowerStar s rule tail (.nonterminal next) r.names

/-- The productions of `repetition`, by the admissible number of entries. -/
def lowerEntries (repetition next : String) (count : Count) : σ :=
  let alone (s : σ) := S.extend s rule repetition [child] (.single names) .keep
  let followed (s : σ) (tail word : String) :=
    S.extend s rule repetition [child, .nonterminal tail] (.headed names word) .headed
  let nothing (s : σ) := S.extend s rule repetition [] .anonymous .keep
  if count = .star ∨ count = .plus then
    let (tail, s) := S.fresh s (target ++ "_star")
    let s := followed (S.lowerTail s .star tail next) tail "star"
    if count = .star then nothing s else s
  else if count = .optional then nothing (alone s)
  else if count = ⟨0, 0⟩ then nothing s
  else if count = ⟨1, 1⟩ then alone s
  else if count.upper = Count.limit then
    let (tail, s) := S.fresh s (target ++ "_star")
    let s := S.lowerTail s .star tail next
    let (rest, s) := S.fresh s (target ++ "_rest")
    let right := List.replicate (count.lower - 1) (.nonterminal next) ++ [.nonterminal tail]
    followed (S.extend s rule rest right .numbered .spreadLast) rest "rest"
  else
    let (tail, s) := S.fresh s (target ++ "_repeat")
    let s := S.lowerTail s (.repetition (count.lower - 1) (count.upper - 1)) tail next
    let s := followed s tail "repeat"
    if count.lower = 0 then nothing s else s

/-- The productions of a join. -/
def lowerJoin (j : Join) : σ :=
  let (next, s) := S.lowerNext s rule target child names j
  let (repetition, s) := S.fresh s (target ++ "_repetition")
  let s := S.lowerEntries s rule target child names repetition next j.count
  match j.opening, j.closing with
  | some opening, some closing =>
    S.extend s rule target [opening, .nonterminal repetition, closing]
      (.bracketed (!j.entriesOnly)) (.bracketed (!j.entriesOnly))
  | _, _ => S.extend s rule target [.nonterminal repetition] .wrapped .wrapped

/-- **Keeps a rule and adds its productions.**  If the rule is refused, it is kept all the same. -/
def lower (r : Rule) : σ × Option GrammarError :=
  let (rule, s) := S.addRule s r
  match r.kind, r.children.head? with
  | .sequence, _ => (S.extend s rule r.target r.children (.positional r.names) .keep, none)
  | .choice, _ =>
    (r.children.zipIdx.foldl (fun s (option, i) =>
      S.extend s rule r.target [option] (.alternative i r.names) .keep) s, none)
  | .optional, some child =>
    (S.extend (S.extend s rule r.target [child] (.single r.names) .keep) rule r.target []
      .anonymous .keep, none)
  | .star, some child => (S.lowerStar s rule r.target child r.names, none)
  | .plus, some child =>
    (S.extend (S.extendRepetition s rule r.target child r.names) rule r.target [child]
      (.lastEntry r.names) .keep, none)
  | .repetition least most, child =>
    if most < least then (s, some (.emptyRange least most))
    else match child with
      | some child => (S.lowerRepetition s rule r.target child r.names least most, none)
      | none => (s, some .missingChild)
  | .join j, child =>
    if j.opening.isSome ≠ j.closing.isSome then (s, some .unbalancedJoin)
    else match child with
      | some entry =>
        if j.count.upper < j.count.lower then
          (s, some (.emptyRange j.count.lower j.count.upper))
        else (S.lowerJoin s rule r.target entry r.names j, none)
      | none => (s, some .missingChild)
  | _, none => (s, some .missingChild)

end Sink

/-- Lowering into a flat grammar. -/
def FlatGrammar.sink : Sink FlatGrammar where
  extend g rule left right naming shaping := g.extend rule left right naming shaping
  addRule := FlatGrammar.addRule
  fresh := FlatGrammar.fresh

/-- Lowering into a store. -/
def Store.sink : Sink Store := ⟨Store.extend, Store.addRule, Store.fresh⟩

/-! ## Edits -/

/-- What can be done to a store or a flat grammar from outside.  A production that is added may come
from anywhere, also from another store, whose rule and treatment of nodes it keeps. -/
inductive Edit
  | add (p : Production)
  | removeStart
  | lower (r : Rule)

/-- A store after an edit. -/
def Store.apply (s : Store) : Edit → Store
  | .add p => (s.add p.bare).2
  | .removeStart => s.removeStart
  | .lower r => (Store.sink.lower s r).1

/-- A flat grammar after an edit. -/
def FlatGrammar.apply (g : FlatGrammar) : Edit → FlatGrammar
  | .add p => g.add p.bare
  | .removeStart => g.removeStart
  | .lower r => match g.lower r with
    | .ok g => g
    | .error _ => (g.addRule r).2

/-- The store that edits lead to. -/
def Store.after (table : SymbolTable) (edits : List Edit) : Store :=
  edits.foldl Store.apply (.new table)

/-- The flat grammar that edits lead to. -/
def FlatGrammar.after (table : SymbolTable) (edits : List Edit) : FlatGrammar :=
  edits.foldl FlatGrammar.apply (.ofSymbols table)

end Typeahead
