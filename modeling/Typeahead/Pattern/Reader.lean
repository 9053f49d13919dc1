import Typeahead.GrammarError
import Typeahead.Number.Written
import Typeahead.Pattern
import Typeahead.Text.Span

/-!
# Pattern/Reader — reading patterns

A reader takes a text and returns what it read with the rest, or `none`.  A variable stands between
braces; inside it a backslash protects the character after it from being counted as a brace.  A
literal goes on to the next opening brace or line break and leaves the blanks at its end to the
pattern, where they separate items.

`readItem_length` says that an item leaves a shorter rest, so reading items comes to an end.
-/

namespace Typeahead.Pattern

/-- A blank of a pattern. -/
def isBlank (c : Char) : Bool := c = ' ' || c = '\t'

/-- The text after its leading blanks. -/
def skipBlanks (cs : List Char) : List Char := cs.dropWhile isBlank

/-- A character that a name can go on with. -/
def isNameChar (c : Char) : Bool := c.isAlphanum || c = '_' || c = '-'

/-- A name: a letter or an underscore, then letters, digits, underscores and dashes. -/
def readName : List Char → Option (String × List Char)
  | [] => none
  | c :: cs =>
    if c.isAlpha || c = '_' then
      some (String.ofList (c :: cs.takeWhile isNameChar), cs.dropWhile isNameChar)
    else none

/-- The rest after one expected character. -/
def expect (c : Char) : List Char → Option (List Char)
  | [] => none
  | d :: cs => if c = d then some cs else none

/-- The rest after an expected word. -/
def expectWord : List Char → List Char → Option (List Char)
  | [], cs => some cs
  | c :: word, cs => (expect c cs).bind (expectWord word)

/-- A number of at most 64 bits. -/
def readCount (cs : List Char) : Option (Nat × List Char) :=
  let digits := cs.takeWhile Char.isDigit
  let n := digitsValue digits
  if digits.isEmpty || 18446744073709551616 ≤ n then none
  else some (n, cs.dropWhile Char.isDigit)

/-- Two numbers with a dash between them. -/
def readBounds (cs : List Char) : Option (Count × List Char) := do
  let (lower, rest) ← readCount cs
  let rest ← expect '-' (skipBlanks rest)
  let (upper, rest) ← readCount (skipBlanks rest)
  return (⟨lower, upper⟩, rest)

/-- A quantifier: a sign, a range, or a single number. -/
def readQuantifier (cs : List Char) : Option (Count × List Char) :=
  match cs with
  | '?' :: rest => some (.optional, rest)
  | '+' :: rest => some (.plus, rest)
  | '*' :: rest => some (.star, rest)
  | cs => readBounds cs <|> (readCount cs).map fun (n, rest) => (.exactly n, rest)

/-- The text up to the closing bracket that belongs to an opening one already read, and the rest
after it.  `depth` brackets were opened in between. -/
def readBalanced (opening closing : Char) : Nat → List Char → Option (List Char × List Char)
  | _, [] => none
  | depth, '\\' :: c :: cs =>
    (readBalanced opening closing depth cs).map fun (inner, rest) => ('\\' :: c :: inner, rest)
  | depth, c :: cs =>
    if c = '\\' then none
    else if c = opening then
      (readBalanced opening closing (depth + 1) cs).map fun (inner, rest) => (c :: inner, rest)
    else if c = closing then
      match depth with
      | 0 => some ([], cs)
      | depth + 1 =>
        (readBalanced opening closing depth cs).map fun (inner, rest) => (c :: inner, rest)
    else (readBalanced opening closing depth cs).map fun (inner, rest) => (c :: inner, rest)

/-- What stands between a pair of brackets. -/
def readBracketed (opening closing : Char) (cs : List Char) : Option (List Char × List Char) :=
  (expect opening cs).bind (readBalanced opening closing 0)

/-! ## Each reader leaves a shorter rest -/

theorem readName_length {cs : List Char} {name : String} {rest : List Char}
    (h : readName cs = some (name, rest)) : rest.length < cs.length := by
  unfold readName at h
  split at h
  · simp at h
  · rename_i c tail
    have := Text.length_dropWhile_le isNameChar tail
    split at h
    · simp only [Option.some.injEq, Prod.mk.injEq] at h
      rw [← h.2, List.length_cons]
      omega
    · simp at h

theorem expect_length {c : Char} {cs rest : List Char} (h : expect c cs = some rest) :
    rest.length < cs.length := by
  unfold expect at h
  split at h
  · simp at h
  · split at h
    · simp only [Option.some.injEq] at h
      simp [h]
    · simp at h

theorem readBalanced_length {opening closing : Char} {depth : Nat} {cs inner rest : List Char}
    (h : readBalanced opening closing depth cs = some (inner, rest)) :
    rest.length < cs.length := by
  fun_induction readBalanced opening closing depth cs generalizing inner rest with
  | case1 => simp at h
  | case2 _ _ _ ih | case4 _ _ _ _ ih | case6 _ _ _ _ _ ih | case7 _ _ _ _ _ _ _ ih =>
    obtain ⟨⟨i, r⟩, hr, he⟩ := Option.map_eq_some_iff.1 h
    simp only [Prod.mk.injEq] at he
    have := ih hr
    simp only [List.length_cons, ← he.2]
    omega
  | case3 => simp at h
  | case5 =>
    simp only [Option.some.injEq, Prod.mk.injEq] at h
    simp [h.2]

/-! ## Types and variables -/

/-- Names, each after a comma. -/
def readNames (cs : List Char) : List String × List Char :=
  match _h : expect ',' (skipBlanks cs) with
  | none => ([], cs)
  | some rest =>
    match _hname : readName (skipBlanks rest) with
    | none => ([], cs)
    | some (name, rest') =>
      let (names, r) := readNames rest'
      (name :: names, r)
termination_by cs.length
decreasing_by
  have := Text.length_dropWhile_le isBlank cs
  have := Text.length_dropWhile_le isBlank rest
  have := expect_length _h
  have := readName_length _hname
  simp only [skipBlanks] at *
  omega

/-- What follows a keyword between angle brackets. -/
def readAngled {α : Type} (keyword : String) (inner : List Char → Option (α × List Char))
    (cs : List Char) : Option (α × List Char) := do
  let rest ← expectWord keyword.toList cs
  let rest ← expect '<' (skipBlanks rest)
  let (a, rest) ← inner (skipBlanks rest)
  let rest ← expect '>' (skipBlanks rest)
  return (a, rest)

/-- A list type. -/
def readListType (cs : List Char) : Option (VarType × List Char) :=
  (readAngled "list" readName cs).map fun (entry, rest) => (.list entry, rest)

/-- The entry type of a tuple and the names of its entries, at least one. -/
def readTupleBody (cs : List Char) : Option (VarType × List Char) :=
  match readName cs with
  | none => none
  | some (entry, rest) =>
    match readNames rest with
    | ([], _) => none
    | (names, rest) => some (.tuple entry names, rest)

/-- A character class, kept with its brackets. -/
def readClassType (cs : List Char) : Option (VarType × List Char) :=
  (readBracketed '[' ']' cs).map fun (inner, rest) =>
    (.charClass (String.ofList ('[' :: inner ++ [']'])), rest)

/-- The type of a variable. -/
def readType (cs : List Char) : Option (VarType × List Char) :=
  readListType cs <|> readAngled "tuple" readTupleBody cs <|> readClassType cs <|>
    (readName cs).map fun (name, rest) => (.named name, rest)

/-- An optional part after a colon. -/
def readOptional {α : Type} (reader : List Char → Option (α × List Char)) (cs : List Char) :
    Option α × List Char :=
  match (expect ':' cs).bind reader with
  | some (a, rest) => (some a, rest)
  | none => (none, cs)

/-- The inside of a variable: a name, then optionally a type and a quantifier, and nothing else. -/
def readVariable (cs : List Char) : Option Variable :=
  let isNamePart (c : Char) : Bool := c ≠ ':' && c ≠ '\x7b' && c ≠ '\x7d'
  let name := cs.takeWhile isNamePart
  let (type, rest) := readOptional readType (cs.dropWhile isNamePart)
  let (quantifier, rest) := readOptional readQuantifier rest
  if name.isEmpty || !rest.isEmpty then none else some ⟨String.ofList name, type, quantifier⟩

/-- A variable between braces. -/
def readSlot (cs : List Char) : Option (Item × List Char) :=
  (readBracketed '\x7b' '\x7d' cs).bind fun (inner, rest) =>
    (readVariable inner).map fun v => (.slot v, rest)

/-! ## Items -/

/-- Where a literal ends at the latest. -/
def endsLiteral (c : Char) : Bool := c = '\x7b' || c = '\n'

/-- A literal without the blanks at its end. -/
def readLiteral (cs : List Char) : Option (Item × List Char) :=
  let run := cs.takeWhile (!endsLiteral ·)
  let text := (run.reverse.dropWhile isBlank).reverse
  if text.isEmpty then none else some (.literal (String.ofList text), cs.drop text.length)

/-- A variable or a literal. -/
def readItem (cs : List Char) : Option (Item × List Char) :=
  (readSlot cs).or (readLiteral cs)

theorem readItem_length {cs : List Char} {item : Item} {rest : List Char}
    (h : readItem cs = some (item, rest)) : rest.length < cs.length := by
  unfold readItem at h
  rcases Option.or_eq_some_iff.1 h with h | ⟨_, h⟩
  · obtain ⟨⟨inner, r⟩, hb, hv⟩ := Option.bind_eq_some_iff.1 h
    obtain ⟨v, _, he⟩ := Option.map_eq_some_iff.1 hv
    obtain ⟨tail, ht, hi⟩ := Option.bind_eq_some_iff.1 hb
    have := expect_length ht
    have := readBalanced_length hi
    simp only [Prod.mk.injEq] at he
    rw [← he.2]
    omega
  · simp only [readLiteral] at h
    split at h
    · simp at h
    · rename_i hne
      simp only [Option.some.injEq, Prod.mk.injEq] at h
      rw [← h.2, List.length_drop]
      have h1 : 0 < ((cs.takeWhile (!endsLiteral ·)).reverse.dropWhile isBlank).length := by
        rw [List.length_pos_iff]
        intro he
        simp [he] at hne
      have h2 := Text.length_dropWhile_le isBlank (cs.takeWhile (!endsLiteral ·)).reverse
      have h3 : (cs.takeWhile (!endsLiteral ·)).length ≤ cs.length :=
        (List.takeWhile_sublist _).length_le
      simp only [List.length_reverse] at *
      omega

/-- All items that follow one another, with the blanks between them, and the rest. -/
def readItems (cs : List Char) : List Item × List Char :=
  match _h : readItem (skipBlanks cs) with
  | none => ([], cs)
  | some (item, rest) =>
    let (items, r) := readItems rest
    ((if cs.head?.any isBlank then [.blanks, item] else [item]) ++ items, r)
termination_by cs.length
decreasing_by
  have := readItem_length _h
  have := Text.length_dropWhile_le isBlank cs
  simp only [skipBlanks] at *
  omega

/-- The fault at the place where `after` starts, at the end of a pattern. -/
def faultAt (pattern after : List Char) (misreading : Misreading) : GrammarError :=
  .invalidPattern ⟨pattern.take (pattern.length - after.length), after, misreading⟩

/-- **Splits a pattern into its items.** -/
def read (pattern : String) : Except GrammarError (List Item) :=
  let cs := pattern.toList
  let start := skipBlanks cs
  match readItem start with
  | none => .error (faultAt cs start .noItem)
  | some (first, rest) =>
    let (items, rest) := readItems rest
    let rest := skipBlanks rest
    if rest.isEmpty then .ok (first :: items) else .error (faultAt cs rest .leftover)

end Typeahead.Pattern
