/-!
# CharClass/Expr — what a character class accepts

A character class is a small regular expression that is only ever asked about texts of one
character.  For those it is enough to know of every subexpression whether it accepts the empty text
and which single characters it accepts: `Expr.acceptsEmpty` and `Expr.acceptsChar`.
-/

namespace Typeahead.CharClass

/-- The character kinds that have a name, all within ASCII. -/
inductive Kind
  | alnum | alpha | ascii | blank | cntrl | digit | graph
  | lower | print | punct | space | upper | word | xdigit
deriving DecidableEq, Repr

namespace Kind

/-- The characters of a kind. -/
def contains : Kind → Char → Bool
  | alnum, c => c.isAlphanum
  | alpha, c => c.isAlpha
  | ascii, c => c.toNat < 128
  | blank, c => c = ' ' || c = '\t'
  | cntrl, c => c.toNat < 32 || c.toNat = 127
  | digit, c => c.isDigit
  | graph, c => 33 ≤ c.toNat && c.toNat ≤ 126
  | lower, c => c.isLower
  | print, c => 32 ≤ c.toNat && c.toNat ≤ 126
  | punct, c => 33 ≤ c.toNat && c.toNat ≤ 126 && !c.isAlphanum
  | space, c => c = ' ' || (9 ≤ c.toNat && c.toNat ≤ 13)
  | upper, c => c.isUpper
  | word, c => c.isAlphanum || c = '_'
  | xdigit, c => c.isDigit || ('a' ≤ c && c ≤ 'f') || ('A' ≤ c && c ≤ 'F')

/-- The kind called `name`. -/
def ofName? (name : String) : Option Kind :=
  [("alnum", alnum), ("alpha", alpha), ("ascii", ascii), ("blank", blank), ("cntrl", cntrl),
    ("digit", digit), ("graph", graph), ("lower", lower), ("print", print), ("punct", punct),
    ("space", space), ("upper", upper), ("word", word), ("xdigit", xdigit)].lookup name

end Kind

/-- One member of a bracketed set. -/
inductive Item
  | range (first last : Char)
  | kind (negated : Bool) (k : Kind)
deriving DecidableEq, Repr

namespace Item

/-- The item that holds one character. -/
def single (c : Char) : Item := range c c

/-- The characters of an item. -/
def contains : Item → Char → Bool
  | range first last, c => first ≤ c && c ≤ last
  | kind negated k, c => k.contains c != negated

end Item

/-- A class expression. -/
inductive Expr
  | empty
  | set (negated : Bool) (items : List Item)
  | seq (a b : Expr)
  | alt (a b : Expr)
  | optional (a : Expr)
  | star (a : Expr)
  | plus (a : Expr)
deriving DecidableEq, Repr

namespace Expr

/-- Whether the expression accepts the empty text. -/
def acceptsEmpty : Expr → Bool
  | empty => true
  | set _ _ => false
  | seq a b => a.acceptsEmpty && b.acceptsEmpty
  | alt a b => a.acceptsEmpty || b.acceptsEmpty
  | optional _ => true
  | star _ => true
  | plus a => a.acceptsEmpty

/-- Whether the expression accepts the text that consists of one character. -/
def acceptsChar : Expr → Char → Bool
  | empty, _ => false
  | set negated items, c => items.any (·.contains c) != negated
  | seq a b, c => (a.acceptsEmpty && b.acceptsChar c) || (a.acceptsChar c && b.acceptsEmpty)
  | alt a b, c => a.acceptsChar c || b.acceptsChar c
  | optional a, c => a.acceptsChar c
  | star a, c => a.acceptsChar c
  | plus a, c => a.acceptsChar c

end Expr

end Typeahead.CharClass
