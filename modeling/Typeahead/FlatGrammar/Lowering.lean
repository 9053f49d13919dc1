import Typeahead.FlatGrammar

/-!
# FlatGrammar/Lowering — rules as productions

`FlatGrammar.lower` adds the productions of a rule.  A repetition becomes a production that recurses
on its own target.  A join needs nonterminals of its own:

* `next` is a delimiter followed by an entry;
* `repetition` is the first entry followed by a tail of `next`s, of which there are as many as the
  count admits;
* the target is `repetition`, between brackets if there are any.
-/

namespace Typeahead

namespace FlatGrammar

/-- Adds a production of the rule with index `rule`. -/
def extend (g : FlatGrammar) (rule : Nat) (left : String) (right : List Symbol)
    (naming : Naming := .anonymous) (shaping : Shaping := .keep) : FlatGrammar :=
  g.merge { Production.ofSymbols left right with
    rule := some rule, naming := naming, shaping := shaping }

/-- One more entry in front of the tail: `target -> child target`. -/
def extendRepetition (g : FlatGrammar) (rule : Nat) (target : String) (child : Symbol)
    (names : ChildNames) : FlatGrammar :=
  g.extend rule target [child, .nonterminal target] (.entryAndTail names) .entryAndTail

/-- The productions of any number of children. -/
def lowerStar (g : FlatGrammar) (rule : Nat) (target : String) (child : Symbol)
    (names : ChildNames) : FlatGrammar :=
  (g.extendRepetition rule target child names).extend rule target []

/-- The productions of between `least` and `most` children, the longest first. -/
def lowerRepetition (g : FlatGrammar) (rule : Nat) (target : String) (child : Symbol)
    (names : ChildNames) (least most : Nat) : FlatGrammar :=
  (List.range (most + 1 - least)).foldl
    (fun g i => g.extend rule target (List.replicate (most - i) child) (.positional names)) g

/-- The nonterminal `next` of a join: an entry after its delimiter. -/
def lowerNext (g : FlatGrammar) (rule : Nat) (target : String) (entry : Symbol)
    (names : ChildNames) (j : Join) : String × FlatGrammar :=
  let (next, g) := g.fresh (target ++ "_next")
  match j.delimiter with
  | some delimiter =>
    (next, g.extend rule next [delimiter, entry] (.delimited names)
      (if j.entriesOnly then .second else .keep))
  | none => (next, g.extend rule next [entry] (.following names))

/-- A nonterminal of its own for a repetition of `next`, with a rule of its own. -/
def lowerTail (g : FlatGrammar) (kind : RuleKind) (tail next : String) : FlatGrammar :=
  let r := Rule.ofChildren kind tail [⟨.nonterminal next, some "next"⟩]
  let (rule, g) := g.addRule r
  match kind with
  | .repetition least most => g.lowerRepetition rule tail (.nonterminal next) r.names least most
  | _ => g.lowerStar rule tail (.nonterminal next) r.names

/-- The productions of `repetition`, by the admissible number of entries. -/
def lowerEntries (g : FlatGrammar) (rule : Nat) (target repetition next : String) (entry : Symbol)
    (names : ChildNames) (count : Count) : FlatGrammar :=
  let alone (g : FlatGrammar) := g.extend rule repetition [entry] (.single names)
  let followed (g : FlatGrammar) (tail word : String) :=
    g.extend rule repetition [entry, .nonterminal tail] (.headed names word) .headed
  let nothing (g : FlatGrammar) := g.extend rule repetition []
  if count = .star ∨ count = .plus then
    let (tail, g) := g.fresh (target ++ "_star")
    let g := followed (g.lowerTail .star tail next) tail "star"
    if count = .star then nothing g else g
  else if count = .optional then nothing (alone g)
  else if count = ⟨0, 0⟩ then nothing g
  else if count = ⟨1, 1⟩ then alone g
  else if count.upper = Count.limit then
    let (tail, g) := g.fresh (target ++ "_star")
    let g := g.lowerTail .star tail next
    let (rest, g) := g.fresh (target ++ "_rest")
    let right := List.replicate (count.lower - 1) (.nonterminal next) ++ [.nonterminal tail]
    followed (g.extend rule rest right .numbered .spreadLast) rest "rest"
  else
    let (tail, g) := g.fresh (target ++ "_repeat")
    let g := g.lowerTail (.repetition (count.lower - 1) (count.upper - 1)) tail next
    let g := followed g tail "repeat"
    if count.lower = 0 then nothing g else g

/-- The productions of a join. -/
def lowerJoin (g : FlatGrammar) (rule : Nat) (target : String) (entry : Symbol)
    (names : ChildNames) (j : Join) : FlatGrammar :=
  let (next, g) := g.lowerNext rule target entry names j
  let (repetition, g) := g.fresh (target ++ "_repetition")
  let g := g.lowerEntries rule target repetition next entry names j.count
  match j.opening, j.closing with
  | some opening, some closing =>
    g.extend rule target [opening, .nonterminal repetition, closing]
      (.bracketed (!j.entriesOnly)) (.bracketed (!j.entriesOnly))
  | _, _ => g.extend rule target [.nonterminal repetition] .wrapped .wrapped

/-- **Adds the productions of a rule.**  Fails for a join with only one bracket, for an empty range,
and for a repetition without child. -/
def lower (g : FlatGrammar) (r : Rule) : Except GrammarError FlatGrammar :=
  let (rule, g) := g.addRule r
  match r.kind, r.children.head? with
  | .sequence, _ => .ok (g.extend rule r.target r.children (.positional r.names))
  | .choice, _ =>
    .ok (r.children.zipIdx.foldl
      (fun g (option, i) => g.extend rule r.target [option] (.alternative i r.names)) g)
  | .optional, some child =>
    .ok ((g.extend rule r.target [child] (.single r.names)).extend rule r.target [])
  | .star, some child => .ok (g.lowerStar rule r.target child r.names)
  | .plus, some child =>
    .ok ((g.extendRepetition rule r.target child r.names).extend rule r.target [child]
      (.lastEntry r.names))
  | .repetition least most, child =>
    if most < least then .error (.emptyRange least most)
    else match child with
      | some child => .ok (g.lowerRepetition rule r.target child r.names least most)
      | none => .error .missingChild
  | .join j, child =>
    if j.opening.isSome ≠ j.closing.isSome then .error .unbalancedJoin
    else match child with
      | some entry =>
        if j.count.upper < j.count.lower then .error (.emptyRange j.count.lower j.count.upper)
        else .ok (g.lowerJoin rule r.target entry r.names j)
      | none => .error .missingChild
  | _, none => .error .missingChild

/-- The grammar whose start symbol derives only `s`, through a sequence with that one child; a
completion of `s` by itself is found on it. -/
def isolating (g : FlatGrammar) (s : Symbol) (name : Option String) : FlatGrammar :=
  let (target, g) := g.fresh "entire_sequence"
  let (rule, g) := g.addRule (Rule.ofChildren .sequence target [⟨s, name⟩])
  let g := g.extend rule target [s] (.positional [name])
  g.removeStart.add (Production.ofSymbols SymbolTable.start [.nonterminal target])

end FlatGrammar

end Typeahead
