import Typeahead.CharClass.Expr
import Typeahead.Text.Span

/-!
# CharClass/Reader — reading the notation of character classes

Bracketed sets with ranges, escapes and named kinds are the core of the notation; around them stand
plain characters, `.`, alternatives with `|` and the repetition signs `?`, `*`, `+`.  Groups,
anchors and counted repetitions do not belong to it.  Every reader returns what it read together
with the rest of the text, and `none` for a text that is not in the notation.

The loops end because each step leaves a shorter rest: `readAtom_length`, `readKind_length` and
`readSet_length`.
-/

namespace Typeahead.CharClass

/-- A hexadecimal digit. -/
def isHexDigit (c : Char) : Bool := Kind.contains .xdigit c

/-- The value of a hexadecimal digit. -/
def hexDigit (c : Char) : Nat :=
  if c.isDigit then c.toNat - 48 else if c.isLower then c.toNat - 87 else c.toNat - 55

/-- The character whose code point is written by hexadecimal digits. -/
def hexChar? (digits : List Char) : Option Char :=
  let n := digits.foldl (fun n c => 16 * n + hexDigit c) 0
  if n.isValidChar then some (Char.ofNat n) else none

/-- A code point after `\x`, `\u` or `\U`: `width` hexadecimal digits, or any number of them between
braces. -/
def readHex (width : Nat) : List Char → Option (Char × List Char)
  | '\x7b' :: cs =>
    let digits := cs.takeWhile isHexDigit
    match cs.dropWhile isHexDigit with
    | '\x7d' :: rest => if digits.isEmpty then none else (hexChar? digits).map (·, rest)
    | _ => none
  | cs =>
    let digits := cs.take width
    if digits.length = width ∧ digits.all isHexDigit then
      (hexChar? digits).map (·, cs.drop width)
    else none

/-- The kinds that have a letter after a backslash; a capital letter stands for everything else. -/
def letterKind? : Char → Option Item
  | 'd' => some (.kind false .digit)
  | 's' => some (.kind false .space)
  | 'w' => some (.kind false .word)
  | 'D' => some (.kind true .digit)
  | 'S' => some (.kind true .space)
  | 'W' => some (.kind true .word)
  | _ => none

/-- The characters that have a letter after a backslash. -/
def letterChar? : Char → Option Char
  | 'a' => some '\x07'
  | 'f' => some '\x0c'
  | 't' => some '\t'
  | 'n' => some '\n'
  | 'r' => some '\r'
  | 'v' => some '\x0b'
  | _ => none

/-- Whether a backslash before `c` stands for `c` itself. -/
def isEscapable (c : Char) : Bool := c.toNat < 128 && !c.isAlphanum && c ≠ '<' && c ≠ '>'

/-- What follows a backslash. -/
def readEscape : List Char → Option (Item × List Char)
  | [] => none
  | c :: cs =>
    if c = 'x' then (readHex 2 cs).map fun (d, rest) => (.single d, rest)
    else if c = 'u' then (readHex 4 cs).map fun (d, rest) => (.single d, rest)
    else if c = 'U' then (readHex 8 cs).map fun (d, rest) => (.single d, rest)
    else match letterKind? c, letterChar? c with
      | some item, _ => some (item, cs)
      | none, some d => some (.single d, cs)
      | none, none => if isEscapable c then some (.single c, cs) else none

/-- One character or escape of a set. -/
def readAtom : List Char → Option (Item × List Char)
  | [] => none
  | c :: cs => if c = '\\' then readEscape cs else some (.single c, cs)

/-- Whether a text starts with the sign of negation, and the text without it. -/
def readNegation : List Char → Bool × List Char
  | '^' :: cs => (true, cs)
  | cs => (false, cs)

/-- A named kind, after its opening bracket: `:name:]` or `:^name:]`. -/
def readKind : List Char → Option (Item × List Char)
  | ':' :: cs =>
    let (negated, cs) := readNegation cs
    match cs.dropWhile (· ≠ ':') with
    | ':' :: ']' :: rest =>
      (Kind.ofName? (String.ofList (cs.takeWhile (· ≠ ':')))).map (.kind negated ·, rest)
    | _ => none
  | _ => none

/-- The range between two items that are single characters in order. -/
def rangeOf? : Item → Item → Option Item
  | .range a a', .range b b' => if a = a' ∧ b = b' ∧ a ≤ b then some (.range a b) else none
  | _, _ => none

/-! ## Each reader leaves a shorter rest -/

/-- A reader that only converts what was read leaves the same rest. -/
theorem rest_of_map {α β : Type} {o : Option α} {f : α → β} {b : β} {r rest : List Char}
    (h : o.map (fun a => (f a, r)) = some (b, rest)) : rest = r := by
  obtain ⟨a, _, he⟩ := Option.map_eq_some_iff.1 h
  simp only [Prod.mk.injEq] at he
  exact he.2.symm

theorem readHex_length {width : Nat} {cs : List Char} {c : Char} {rest : List Char}
    (h : readHex width cs = some (c, rest)) : rest.length ≤ cs.length := by
  unfold readHex at h
  split at h
  · rename_i tail
    have hdrop := Text.length_dropWhile_le isHexDigit tail
    dsimp only at h
    split at h
    · rename_i r hr
      rw [hr] at hdrop
      split at h
      · simp at h
      · rw [rest_of_map h]
        simp only [List.length_cons] at hdrop ⊢
        omega
    · simp at h
  · dsimp only at h
    split at h
    · rw [rest_of_map h, List.length_drop]
      omega
    · simp at h

theorem readEscape_length {cs : List Char} {item : Item} {rest : List Char}
    (h : readEscape cs = some (item, rest)) : rest.length < cs.length := by
  unfold readEscape at h
  split at h
  · simp at h
  · rename_i c tail
    have key : ∀ {w : Nat} {f : Char × List Char → Item × List Char},
        (∀ x, (f x).2 = x.2) → (readHex w tail).map f = some (item, rest) →
        rest.length < (c :: tail).length := by
      intro w f hf hmap
      obtain ⟨⟨d, r⟩, hd, he⟩ := Option.map_eq_some_iff.1 hmap
      have := readHex_length hd
      have : r = rest := by have := hf (d, r); simp_all
      grind
    split at h
    · exact key (fun _ => rfl) h
    split at h
    · exact key (fun _ => rfl) h
    split at h
    · exact key (fun _ => rfl) h
    · grind

theorem readAtom_length {cs : List Char} {item : Item} {rest : List Char}
    (h : readAtom cs = some (item, rest)) : rest.length < cs.length := by
  unfold readAtom at h
  split at h
  · simp at h
  · rename_i c tail
    split at h
    · have := readEscape_length h
      grind
    · grind

theorem readNegation_length (cs : List Char) : (readNegation cs).2.length ≤ cs.length := by
  unfold readNegation
  split <;> simp

theorem readKind_length {cs : List Char} {item : Item} {rest : List Char}
    (h : readKind cs = some (item, rest)) : rest.length < cs.length := by
  unfold readKind at h
  split at h
  · rename_i tail
    have hle := readNegation_length tail
    have hdrop := Text.length_dropWhile_le (· ≠ ':') (readNegation tail).2
    dsimp only at h
    split at h
    · rename_i r hr
      rw [hr] at hdrop
      rw [rest_of_map h]
      simp only [List.length_cons] at hdrop ⊢
      omega
    · simp at h
  · simp at h

/-! ## Sets and whole expressions -/

/-- The members of a set up to its closing bracket. -/
def readItems (cs : List Char) : Option (List Item × List Char) :=
  match cs with
  | [] => none
  | ']' :: rest => some ([], rest)
  | '[' :: rest =>
    match _h : readKind rest with
    | none => none
    | some (item, rest') => (readItems rest').map fun (items, r) => (item :: items, r)
  | '&' :: '&' :: _ => none
  | '-' :: '-' :: _ => none
  | '~' :: '~' :: _ => none
  | c :: tail =>
    match _h : readAtom (c :: tail) with
    | none => none
    | some (first, '-' :: rest) =>
      if rest.head? = some ']' ∨ rest.head? = some '-' then
        (readItems ('-' :: rest)).map fun (items, r) => (first :: items, r)
      else match _hlast : readAtom rest with
        | none => none
        | some (last, rest') =>
          match rangeOf? first last with
          | none => none
          | some item => (readItems rest').map fun (items, r) => (item :: items, r)
    | some (item, rest) => (readItems rest).map fun (items, r) => (item :: items, r)
termination_by cs.length
decreasing_by
  · have := readKind_length _h; simp; omega
  · have := readAtom_length _h; simp at this ⊢; omega
  · have := readAtom_length _h; have := readAtom_length _hlast; simp at *; omega
  · have := readAtom_length _h; simp at this ⊢; omega

/-- A set after its opening bracket: an optional `^` that negates it, then any number of dashes that
stand for themselves, then a closing bracket that stands for itself if there was no dash. -/
def readSet (cs : List Char) : Option (Expr × List Char) :=
  let (negated, cs) := readNegation cs
  let dashes := (cs.takeWhile (· = '-')).map Item.single
  match dashes, cs.dropWhile (· = '-') with
  | [], ']' :: rest =>
    (readItems rest).map fun (items, r) => (.set negated (.single ']' :: items), r)
  | _, rest => (readItems rest).map fun (items, r) => (.set negated (dashes ++ items), r)

theorem readItems_length {cs : List Char} {items : List Item} {rest : List Char}
    (h : readItems cs = some (items, rest)) : rest.length < cs.length := by
  fun_induction readItems cs generalizing items rest with
  | case1 => simp at h
  | case2 => grind
  | case3 => simp at h
  | case4 r item r' hk ih =>
    obtain ⟨⟨is, t⟩, hi, he⟩ := Option.map_eq_some_iff.1 h
    have := ih hi
    have := readKind_length hk
    grind
  | case5 => simp at h
  | case6 => simp at h
  | case7 => simp at h
  | case8 => simp at h
  | case9 c tail _ _ _ _ _ first r ha _ ih =>
    obtain ⟨⟨is, t⟩, hi, he⟩ := Option.map_eq_some_iff.1 h
    have := ih hi
    have := readAtom_length ha
    grind
  | case10 => simp at h
  | case11 => simp at h
  | case12 c tail _ _ _ _ _ first r ha _ last r' ha' item _ ih =>
    obtain ⟨⟨is, t⟩, hi, he⟩ := Option.map_eq_some_iff.1 h
    have := ih hi
    have := readAtom_length ha
    have := readAtom_length ha'
    grind
  | case13 c tail _ _ _ _ _ item r _ ha ih =>
    obtain ⟨⟨is, t⟩, hi, he⟩ := Option.map_eq_some_iff.1 h
    have := ih hi
    have := readAtom_length ha
    grind

theorem readSet_length {cs : List Char} {e : Expr} {rest : List Char}
    (h : readSet cs = some (e, rest)) : rest.length ≤ cs.length := by
  unfold readSet at h
  have hle := readNegation_length cs
  have hdrop := Text.length_dropWhile_le (· = '-') (readNegation cs).2
  dsimp only at h
  split at h <;> obtain ⟨⟨is, t⟩, hi, he⟩ := Option.map_eq_some_iff.1 h <;>
    have := readItems_length hi <;> grind

/-- The repetition that a sign stands for. -/
def repetition? : Char → Option (Expr → Expr)
  | '?' => some .optional
  | '*' => some .star
  | '+' => some .plus
  | _ => none

/-- Whether a character opens or closes something that the notation does not have. -/
def isForeign (c : Char) : Bool :=
  c = '(' || c = ')' || c = '\x7b' || c = '^' || c = '$'

/-- The rest without a question mark at its start: after a repetition sign it only asks for the
shortest match, which makes no difference to a whole text. -/
def dropLazy : List Char → List Char
  | '?' :: cs => cs
  | cs => cs

theorem length_dropLazy_le (cs : List Char) : (dropLazy cs).length ≤ cs.length := by
  unfold dropLazy
  split <;> simp

/-- Reads a whole expression; `before` holds the alternatives already read and `branch` the parts of
the current one, the latest first. -/
def readExpr (cs : List Char) (before : List Expr) (branch : List Expr) : Option Expr :=
  let whole := branch.foldl (fun e part => .seq part e) .empty
  match cs with
  | [] => some (before.foldl (fun e earlier => .alt earlier e) whole)
  | '|' :: rest => readExpr rest (whole :: before) []
  | '[' :: rest =>
    match _h : readSet rest with
    | none => none
    | some (e, rest') => readExpr rest' before (e :: branch)
  | '.' :: rest => readExpr rest before (.set true [.single '\n'] :: branch)
  | c :: rest =>
    if isForeign c then none
    else match repetition? c, branch with
      | some _, [] => none
      | some repeated, e :: branch => readExpr (dropLazy rest) before (repeated e :: branch)
      | none, _ =>
        match _h : readAtom (c :: rest) with
        | none => none
        | some (item, rest') => readExpr rest' before (.set false [item] :: branch)
termination_by cs.length
decreasing_by
  · simp
  · have := readSet_length _h; simp; omega
  · simp
  · have := length_dropLazy_le rest; simp; omega
  · have := readAtom_length _h; simp at this ⊢; omega

/-- **The class expression a text stands for**, if the text is in the notation. -/
def Expr.ofText? (text : String) : Option Expr := readExpr text.toList [] []

end Typeahead.CharClass
