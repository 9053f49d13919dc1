import Typeahead.Symbol.Table

/-!
# Symbol/Interned — the symbols known by name, through keys

A nonterminal is the key that an interner gave its name, and a keyed table finds the symbol of a
name under that key.  The interner comes from elsewhere and is a parameter: `Interner.Lawful` says
that equal names get equal keys and distinct names distinct ones.  A session is a sequence of
requests to a table, with what was answered.
-/

namespace Typeahead

/-! ## Interners -/

/-- What gives keys to names, and finds the names of keys. -/
structure Interner (Key State : Type) where
  empty : State
  get? : State → String → Option Key
  intern : State → String → Key × State
  resolve? : State → Key → Option String

namespace Interner

variable {Key State : Type} [DecidableEq Key]

/-- **A name keeps the key it got, and no other name has it.** -/
structure Lawful (I : Interner Key State) : Prop where
  get?_empty : ∀ n, I.get? I.empty n = none
  /-- Only the interned name may get a key. -/
  get?_intern : ∀ names n m,
    I.get? (I.intern names n).2 m = if m = n then some (I.intern names n).1 else I.get? names m
  /-- Equal names have equal keys. -/
  intern_of_get? : ∀ {names n k}, I.get? names n = some k → (I.intern names n).1 = k
  /-- Distinct names have distinct keys. -/
  get?_inj : ∀ {names n m k}, I.get? names n = some k → I.get? names m = some k → n = m
  /-- The name of a key is the one that was interned. -/
  resolve?_intern : ∀ names n k,
    I.resolve? (I.intern names n).2 k
      = if k = (I.intern names n).1 then some n else I.resolve? names k

/-- Names in the order in which they came, each with its place as its key. -/
def byPlace : Interner Nat (List String) where
  empty := []
  get? names n := if n ∈ names then some (names.idxOf n) else none
  intern names n := (names.idxOf n, if n ∈ names then names else names ++ [n])
  resolve? names k := names[k]?

/-- The first number from `i` on that makes `base` a name without a key. -/
def firstFree (I : Interner Key State) (names : State) (base : String) (i : Nat) : Option Nat :=
  if (I.get? names (SymbolTable.numbered base i)).isNone then some i
  else I |>.firstFree names base (i + 1)
partial_fixpoint

end Interner

/-! ## Tables -/

/-- A terminal, or a nonterminal by its key. -/
inductive KeyedSymbol (Key : Type)
  | terminal (t : Terminal)
  | nonterminal (k : Key)
deriving DecidableEq

/-- The interned names, the symbols of their keys, and the key of the start symbol. -/
structure KeyedTable (Key State : Type) where
  names : State
  symbols : List (Key × KeyedSymbol Key)
  start : Key

namespace KeyedTable

variable {Key State : Type} [DecidableEq Key]
  (I : Interner Key State) (table : KeyedTable Key State)

/-- The table that knows the start symbol alone. -/
def initial : KeyedTable Key State :=
  let (start, names) := I.intern I.empty SymbolTable.start
  ⟨names, [(start, .nonterminal start)], start⟩

/-- The symbol known as `name`. -/
def get? (name : String) : Option (KeyedSymbol Key) :=
  (I.get? table.names name).bind fun k => table.symbols.lookup k

/-- The name of a nonterminal. -/
def resolve (k : Key) : String := (I.resolve? table.names k).getD ""

/-- Keeps a symbol under a key unless the key has one. -/
def keep (k : Key) (s : KeyedSymbol Key) : KeyedTable Key State :=
  match table.symbols.lookup k with
  | some _ => table
  | none => { table with symbols := (k, s) :: table.symbols }

/-- Lets `name` stand for a nonterminal, and tells which.  A terminal gives way. -/
def declare (name : String) : Key × KeyedTable Key State :=
  let (k, names) := I.intern table.names name
  let symbols := match table.symbols.lookup k with
    | some (.nonterminal _) => table.symbols
    | _ => (k, .nonterminal k) :: table.symbols
  (k, { table with names, symbols })

/-- Declares a nonterminal called `base` with the first free number, and tells its name and key. -/
def fresh (base : String) : Option ((String × Key) × KeyedTable Key State) := do
  let i ← I.firstFree table.names base 0
  let name := SymbolTable.numbered base i
  let (k, table) := table.declare I name
  return ((name, k), table)

/-- Makes a symbol known under its name unless the name is taken.  The empty symbol stays unknown. -/
def register : KeyedSymbol Key → KeyedTable Key State
  | .nonterminal k => table.keep k (.nonterminal k)
  | .terminal .epsilon => table
  | .terminal t =>
    let (k, names) := I.intern table.names t.name
    { table with names }.keep k (.terminal t)

end KeyedTable

/-! ## Sessions -/

/-- What can be asked of a table. -/
inductive Request (Key : Type)
  | declare (name : String)
  | fresh (base : String)
  | register (s : KeyedSymbol Key)
  | get (name : String)

/-- What a table answers: the nonterminal that now has a name, what a name stands for, or nothing. -/
inductive Answer (Key : Type)
  | issued (name : String) (k : Key)
  | found (s : Option (KeyedSymbol Key))
  | done

/-- Answers a request, if that ends. -/
def KeyedTable.serve {Key State : Type} [DecidableEq Key] (I : Interner Key State)
    (table : KeyedTable Key State) : Request Key → Option (Answer Key × KeyedTable Key State)
  | .declare name =>
    let (k, table) := table.declare I name
    some (.issued name k, table)
  | .fresh base => do
    let ((name, k), table) ← table.fresh I base
    return (.issued name k, table)
  | .register s => some (.done, table.register I s)
  | .get name => some (.found (table.get? I name), table)

/-- A request with its answer. -/
structure Served (Key : Type) where
  request : Request Key
  answer : Answer Key

/-- A table, and what was served before. -/
structure Session (Key State : Type) where
  log : List (Served Key)
  table : KeyedTable Key State

namespace Session

variable {Key State : Type} [DecidableEq Key] (I : Interner Key State)

/-- Nothing was served. -/
def initial : Session Key State := ⟨[], .initial I⟩

/-- Serves one more request, if that ends. -/
def serve (s : Session Key State) (r : Request Key) : Option (Session Key State) :=
  (s.table.serve I r).map fun (answer, table) => ⟨s.log ++ [⟨r, answer⟩], table⟩

/-- Serves requests one after the other, if that ends. -/
def run (requests : List (Request Key)) : Option (Session Key State) :=
  requests.foldlM (serve I) (initial I)

end Session

end Typeahead
