import Typeahead.Symbol

/-!
# Completion — one way to go on at the end of the input

A completion is a fixed text, a placeholder to be filled in, or a template made of further
completions.  Two more kinds are answers rather than texts: `veto` silences every completion of a
parse, and `available` only says that there is something to offer.  Each carries its `Origin`: the
symbol it came from and the text already entered for it.

All renderings go through `pieces`, the sequence of fixed texts and slots a completion unfolds to.
-/

namespace Typeahead

/-- Where a completion comes from: the symbol of the node that offered it and the input typed since
that node began. -/
structure Origin where
  symbol : Option Symbol := none
  entered : String := ""
deriving DecidableEq

/-- A candidate for completing the input. -/
inductive Completion
  | literal (origin : Origin) (text : String)
  | placeholder (origin : Origin) (name : String)
  | veto (origin : Origin)
  | available (origin : Origin)
  | template (origin : Origin) (parts : List Completion)

instance : Inhabited Completion := ⟨.veto {}⟩

/-- A stretch of a completion: fixed text, or a slot to be filled in. -/
inductive Piece
  | text (s : String)
  | slot (name : String)
deriving DecidableEq, Repr

/-- A slot of an inserted text: its name and the byte range that holds it. -/
structure Slot where
  name : String
  first : Nat
  last : Nat
deriving DecidableEq, Repr

namespace Piece

/-- The text of a piece before it is filled in. -/
def render : Piece → String
  | text s => s
  | slot name => "$\x7b" ++ name ++ "\x7d"

/-- What a piece puts into the input: its text, or the name of the slot. -/
def content : Piece → String
  | text s => s
  | slot name => name

/-- Whether a piece is fixed text. -/
def isText : Piece → Bool
  | text _ => true
  | slot _ => false

/-- The slots among some pieces that are inserted one after the other from offset `pos` on. -/
def slots : Nat → List Piece → List Slot
  | _, [] => []
  | pos, text s :: more => slots (pos + s.utf8ByteSize) more
  | pos, slot name :: more =>
    ⟨name, pos, pos + name.utf8ByteSize⟩ :: slots (pos + name.utf8ByteSize) more

end Piece

namespace Completion

/-- The symbol and the entered text a completion is attached to. -/
def origin : Completion → Origin
  | literal o _ | placeholder o _ | veto o | available o | template o _ => o

/-- The completion attached to a node's symbol and the text entered for it. -/
def attach (origin : Origin) : Completion → Completion
  | literal _ text => literal origin text
  | placeholder _ name => placeholder origin name
  | veto _ => veto origin
  | available _ => available origin
  | template _ parts => template origin parts

/-- Whether a completion silences all others. -/
def isVeto : Completion → Bool
  | veto _ => true
  | _ => false

/-! ## Renderings -/

mutual

/-- The fixed texts and slots of a completion, in order. -/
def pieces : Completion → List Piece
  | literal _ text => [.text text]
  | placeholder _ name => [.slot name]
  | veto _ => []
  | available _ => []
  | template _ parts => piecesAll parts

/-- The pieces of several completions, in order. -/
def piecesAll : List Completion → List Piece
  | [] => []
  | c :: cs => pieces c ++ piecesAll cs

end

/-- The text that shows a completion, its slots between braces. -/
def render (c : Completion) : String := String.join (c.pieces.map Piece.render)

/-- The text that a completion inserts, every slot holding its own name. -/
def insertedText (c : Completion) : String := String.join (c.pieces.map Piece.content)

/-- The slots of the inserted text. -/
def insertedSlots (c : Completion) : List Slot := Piece.slots 0 c.pieces

/-- The fixed text up to the first slot. -/
def leadingText (c : Completion) : String :=
  String.join ((c.pieces.takeWhile Piece.isText).map Piece.content)

/-! ## Equality -/

mutual

/-- Equality of completions, part by part. -/
def decEq : (a b : Completion) → Decidable (a = b)
  | literal o s, literal o' s' =>
    if h : o = o' ∧ s = s' then .isTrue (by rw [h.1, h.2])
    else .isFalse fun e => by injection e with ho hs; exact h ⟨ho, hs⟩
  | placeholder o s, placeholder o' s' =>
    if h : o = o' ∧ s = s' then .isTrue (by rw [h.1, h.2])
    else .isFalse fun e => by injection e with ho hs; exact h ⟨ho, hs⟩
  | veto o, veto o' =>
    if h : o = o' then .isTrue (by rw [h]) else .isFalse fun e => by injection e with ho; exact h ho
  | available o, available o' =>
    if h : o = o' then .isTrue (by rw [h]) else .isFalse fun e => by injection e with ho; exact h ho
  | template o ps, template o' ps' =>
    if h : o = o' then
      match decEqAll ps ps' with
      | .isTrue hp => .isTrue (by rw [h, hp])
      | .isFalse hp => .isFalse fun e => by injection e with _ he; exact hp he
    else .isFalse fun e => by injection e with ho; exact h ho
  | literal .., placeholder .. | literal .., veto .. | literal .., available ..
  | literal .., template .. | placeholder .., literal .. | placeholder .., veto ..
  | placeholder .., available .. | placeholder .., template .. | veto .., literal ..
  | veto .., placeholder .. | veto .., available .. | veto .., template ..
  | available .., literal .. | available .., placeholder .. | available .., veto ..
  | available .., template .. | template .., literal .. | template .., placeholder ..
  | template .., veto .. | template .., available .. => .isFalse (by simp)

/-- Equality of lists of completions. -/
def decEqAll : (as bs : List Completion) → Decidable (as = bs)
  | [], [] => .isTrue rfl
  | [], _ :: _ => .isFalse (by simp)
  | _ :: _, [] => .isFalse (by simp)
  | a :: as, b :: bs =>
    match decEq a b, decEqAll as bs with
    | .isTrue h, .isTrue hs => .isTrue (by rw [h, hs])
    | .isFalse h, _ => .isFalse fun e => by injection e with he; exact h he
    | _, .isFalse hs => .isFalse fun e => by injection e with _ he; exact hs he

end

instance : DecidableEq Completion := decEq

end Completion

end Typeahead
