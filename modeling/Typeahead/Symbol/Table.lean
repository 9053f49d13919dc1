import Typeahead.Symbol

/-!
# Symbol/Table — the symbols known by name

Terminals and nonterminals share one name space.  A name that was declared as a nonterminal means
that nonterminal from then on; a name that only terminals were registered under keeps the first of
them.  `fresh` makes up a name that is not known yet.
-/

namespace Typeahead

/-- The known names, each with the symbol it stands for. -/
structure SymbolTable where
  entries : List (String × Symbol)
deriving Inhabited

namespace SymbolTable

/-- The nonterminal that every derivation starts from. -/
def start : String := "S'"

/-- The table that knows the start symbol alone. -/
def initial : SymbolTable := ⟨[(start, .nonterminal start)]⟩

/-- The symbol known as `name`. -/
def get? (table : SymbolTable) (name : String) : Option Symbol := table.entries.lookup name

/-- Whether `name` is known. -/
def knows (table : SymbolTable) (name : String) : Bool := (table.get? name).isSome

/-- Lets `name` stand for the nonterminal of that name. -/
def declare (table : SymbolTable) (name : String) : SymbolTable :=
  match table.get? name with
  | some (.nonterminal _) => table
  | _ => ⟨(name, .nonterminal name) :: table.entries⟩

/-- Makes a symbol known under its name unless the name is taken.  The empty symbol stays unknown. -/
def register (table : SymbolTable) (s : Symbol) : SymbolTable :=
  if s = .terminal .epsilon ∨ table.knows s.name then table
  else ⟨(s.name, s) :: table.entries⟩

/-- The name `base` followed by a number. -/
def numbered (base : String) (i : Nat) : String := base ++ "_" ++ toString i

/-- The least number that makes `base` a name not known yet.  Among one more numbers than there are
names, one is free. -/
def freshIndex (table : SymbolTable) (base : String) : Nat :=
  ((List.range (table.entries.length + 1)).find? fun i => !table.knows (numbered base i)).getD
    (table.entries.length + 1)

/-- Declares a new nonterminal called `base` with the least free number. -/
def fresh (table : SymbolTable) (base : String) : String × SymbolTable :=
  let name := numbered base (table.freshIndex base)
  (name, table.declare name)

end SymbolTable

end Typeahead
