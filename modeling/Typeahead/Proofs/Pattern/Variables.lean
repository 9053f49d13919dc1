import Typeahead.Proofs.Pattern.Brackets
import Typeahead.Proofs.Pattern.Quantifiers

/-!
# Proofs/Pattern/Variables — variables read back from their writing

A variable that was read is *legible*: its name has no colon and no brace, its type is built from
names or is a class text with balanced brackets, its bounds have 64 bits, and its inside closes the
braces it opens (`legible_of_readVariable`).  A legible variable reads back from its writing,
whatever comes after it (`readSlot_append`).

Blanks inside list types, tuples and bounds are not kept, so the inside that was read and the inside
that is written differ.  The braces come out even in both: a part that starts with a colon and is
plain otherwise leaves them as they are, and every other part is written as it was read.
-/

namespace Typeahead.Pattern

open Text

variable {cs rest : List Char} {name : String}

/-! ## Names -/

/-- A name as the reader of names takes it. -/
def IsName (name : String) : Prop :=
  ∃ c cs, name.toList = c :: cs ∧ (c.isAlpha || c = '_') ∧ ∀ d ∈ cs, isNameChar d

theorem isName_of_readName (h : readName cs = some (name, rest)) :
    IsName name ∧ cs = name.toList ++ rest := by
  cases cs with
  | nil => cases h
  | cons c cs =>
    simp only [readName] at h
    split at h
    · rename_i hc
      cases h
      rw [String.toList_ofList, List.cons_append, List.takeWhile_append_dropWhile]
      exact ⟨⟨c, _, String.toList_ofList, hc, fun _ => List.mem_takeWhile_imp⟩, rfl⟩
    · cases h

theorem readName_append (h : IsName name) (hrest : Stops isNameChar rest) :
    readName (name.toList ++ rest) = some (name, rest) := by
  obtain ⟨c, cs, hcons, hc, hcs⟩ := h
  rw [hcons, List.cons_append, readName, if_pos hc, takeWhile_append_of_stops hcs hrest,
    dropWhile_append_of_stops hcs hrest, ← hcons, String.ofList_toList]

theorem IsName.chars (h : IsName name) : ∀ c ∈ name.toList, isNameChar c := by
  obtain ⟨c, cs, hcons, hc, hcs⟩ := h
  rw [hcons, List.forall_mem_cons]
  refine ⟨?_, hcs⟩
  rw [Bool.or_eq_true] at hc
  simp only [isNameChar, Char.isAlphanum, Bool.or_eq_true]
  exact hc.elim (fun h => .inl (.inl (.inl h))) fun h => .inl (.inr h)

theorem IsName.stops (h : IsName name) {p : Char → Bool}
    (hp : ∀ c, isNameChar c → p c = false) : Stops p (name.toList ++ rest) := by
  have hchars := h.chars
  obtain ⟨c, cs, hcons, -, -⟩ := h
  rw [hcons] at hchars ⊢
  exact stops_cons.2 (hp c (hchars c List.mem_cons_self))

theorem ne_of_isNameChar {c d : Char} (hc : isNameChar c) (hd : isNameChar d = false) : c ≠ d := by
  rintro rfl
  rw [hc] at hd
  exact absurd hd (by decide)

theorem isBlank_of_isNameChar {c : Char} (h : isNameChar c) : isBlank c = false := by
  simp [isBlank, ne_of_isNameChar h (show isNameChar ' ' = false by decide),
    ne_of_isNameChar h (show isNameChar '\t' = false by decide)]

/-! ## Names after commas -/

/-- Names, each after a comma and a blank. -/
def writtenNames (names : List String) : List Char :=
  names.flatMap fun name => ',' :: ' ' :: name.toList

theorem stops_writtenNames (names : List String) :
    Stops isNameChar (writtenNames names ++ '>' :: rest) := by
  cases names with
  | nil => exact stops_cons.2 (by decide)
  | cons name names => exact stops_cons.2 (by decide)

theorem isName_of_mem_readNames : ∀ name ∈ (readNames cs).1, IsName name := by
  fun_induction readNames cs with
  | case1 | case2 => exact List.forall_mem_nil _
  | case3 cs rest _ name rest' hname names r hnames ih =>
    rw [List.forall_mem_cons]
    rw [hnames] at ih
    exact ⟨(isName_of_readName hname).1, ih⟩

theorem readNames_of_read {ds : List Char} (hcomma : expect ',' (skipBlanks cs) = some ds)
    (hname : readName (skipBlanks ds) = some (name, rest)) :
    readNames cs = (name :: (readNames rest).1, (readNames rest).2) := by
  rw [readNames]
  split
  · rename_i h
    cases h.symm.trans hcomma
  · rename_i es h
    cases h.symm.trans hcomma
    split
    · rename_i h'
      cases h'.symm.trans hname
    · rename_i h'
      cases h'.symm.trans hname
      rfl

theorem readNames_append {names : List String} (h : ∀ name ∈ names, IsName name) :
    readNames (writtenNames names ++ '>' :: rest) = (names, '>' :: rest) := by
  induction names with
  | nil =>
    have hcomma : expect ',' (skipBlanks ('>' :: rest)) = none := rfl
    rw [readNames]
    split
    · rfl
    · rename_i h'
      cases h'.symm.trans hcomma
  | cons name names ih =>
    rw [List.forall_mem_cons] at h
    have hblank : skipBlanks (' ' :: (name.toList ++ (writtenNames names ++ '>' :: rest)))
        = name.toList ++ (writtenNames names ++ '>' :: rest) :=
      skipBlanks_of_stops (h.1.stops fun c => isBlank_of_isNameChar)
    have hread : readName (skipBlanks (' ' :: (name.toList ++ (writtenNames names ++ '>' :: rest))))
        = some (name, writtenNames names ++ '>' :: rest) := by
      rw [hblank, readName_append h.1 (stops_writtenNames names)]
    have hwritten : writtenNames (name :: names) ++ '>' :: rest
        = ',' :: ' ' :: (name.toList ++ (writtenNames names ++ '>' :: rest)) := by
      simp [writtenNames]
    rw [hwritten, readNames_of_read rfl hread, ih h.2]

/-! ## Types -/

theorem expectWord_eq_some_iff {word : List Char} :
    expectWord word cs = some rest ↔ cs = word ++ rest := by
  induction word generalizing cs with
  | nil => simp [expectWord]
  | cons c word ih => simp [expectWord, Option.bind_eq_some_iff, expect_eq_some_iff, ih]

theorem mem_of_mem_skipBlanks {c : Char} (h : c ∈ skipBlanks cs) : c ∈ cs :=
  List.dropWhile_subset _ h

section Angled

variable {α : Type} {keyword : String} {inner : List Char → Option (α × List Char)} {a : α}

/-- **What an angled part that was read looks like.** -/
theorem of_readAngled (h : readAngled keyword inner cs = some (a, rest)) :
    '<' ∈ cs ∧ ∃ ds rest', inner ds = some (a, rest') := by
  simp only [readAngled, Option.bind_eq_bind, Option.bind_eq_some_iff, Option.pure_def,
    Option.some.injEq] at h
  obtain ⟨ds, hword, es, hangle, ⟨a', rest'⟩, hinner, _, _, he⟩ := h
  cases he
  have hmem : '<' ∈ skipBlanks ds := by
    rw [expect_eq_some_iff.1 hangle]
    exact List.mem_cons_self
  rw [expectWord_eq_some_iff.1 hword]
  exact ⟨List.mem_append_right _ (mem_of_mem_skipBlanks hmem), _, _, hinner⟩

theorem readAngled_eq_none (h : '<' ∉ cs) : readAngled keyword inner cs = none :=
  Option.eq_none_iff_forall_ne_some.2 fun ⟨_, _⟩ hread => h (of_readAngled hread).1

theorem readAngled_append {body : List Char} (hbody : Stops isBlank (body ++ '>' :: rest))
    (hinner : inner (body ++ '>' :: rest) = some (a, '>' :: rest)) :
    readAngled keyword inner (keyword.toList ++ '<' :: (body ++ '>' :: rest))
      = some (a, rest) := by
  have hword : expectWord keyword.toList (keyword.toList ++ '<' :: (body ++ '>' :: rest))
      = some ('<' :: (body ++ '>' :: rest)) := expectWord_eq_some_iff.2 rfl
  have hopen : skipBlanks ('<' :: (body ++ '>' :: rest)) = '<' :: (body ++ '>' :: rest) := rfl
  have hclose : skipBlanks ('>' :: rest) = '>' :: rest := rfl
  simp [readAngled, hword, hopen, hclose, expect, skipBlanks_of_stops hbody, hinner]

end Angled

/-- A type built from names, or a class text between balanced brackets. -/
def VarType.Legible : VarType → Prop
  | named name => IsName name
  | charClass text => ∃ inner, text.toList = '[' :: inner ++ [']'] ∧ Balanced '[' ']' inner
  | list entry => IsName entry
  | tuple entry names => names ≠ [] ∧ IsName entry ∧ ∀ name ∈ names, IsName name

theorem toList_render_tuple {entry : String} {names : List String} :
    (VarType.tuple entry names).render.toList
      = "tuple".toList ++ '<' :: (entry.toList ++ (writtenNames names ++ ['>'])) := by
  have hnames : (", ".intercalate (entry :: names)).toList
      = entry.toList ++ writtenNames names := by
    rw [String.toList_intercalate]
    induction names generalizing entry with
    | nil => simp [writtenNames]
    | cons name names ih =>
      have hrest := @ih name
      rw [List.map_cons] at hrest
      rw [List.map_cons, List.map_cons, List.intercalate_cons_cons, hrest]
      simp [writtenNames]
  simp [VarType.render, hnames]

theorem readType_of_no_angle (h : '<' ∉ cs) :
    readType cs = (readClassType cs <|> (readName cs).map fun (name, rest) => (.named name, rest)) := by
  rw [readType, readListType, readAngled_eq_none h, readAngled_eq_none h]
  rfl

theorem readType_named (h : IsName name) (hname : Stops isNameChar rest) (hangle : '<' ∉ rest) :
    readType (name.toList ++ rest) = some (.named name, rest) := by
  have hfree : '<' ∉ name.toList ++ rest := by
    rw [List.mem_append, not_or]
    exact ⟨fun hc => ne_of_isNameChar (h.chars _ hc) (by decide) rfl, hangle⟩
  have hclass : readClassType (name.toList ++ rest) = none := by
    obtain ⟨c, cs, hcons, hc, -⟩ := h
    have hne : c ≠ '[' := by
      rintro rfl
      exact absurd hc (by decide)
    rw [readClassType, hcons, List.cons_append, readBracketed_eq_none hne]
    rfl
  rw [readType_of_no_angle hfree, hclass, readName_append h hname]
  rfl

theorem readType_charClass {inner : List Char} (h : Balanced '[' ']' inner) :
    readType ('[' :: inner ++ ']' :: rest)
      = some (.charClass (String.ofList ('[' :: inner ++ [']'])), rest) := by
  have hclass : readBracketed '[' ']' ('[' :: inner ++ ']' :: rest) = some (inner, rest) :=
    (readBracketed_eq_some_iff (by decide) (by decide)).2 ⟨rfl, h⟩
  have hlist : readListType ('[' :: inner ++ ']' :: rest) = none := rfl
  have htuple : readAngled "tuple" readTupleBody ('[' :: inner ++ ']' :: rest) = none := rfl
  rw [readType, hlist, htuple, readClassType, hclass]
  rfl

theorem readType_list (h : IsName name) :
    readType ((VarType.list name).render.toList ++ rest) = some (.list name, rest) := by
  have hread : readAngled "list" readName ("list".toList ++ '<' :: (name.toList ++ '>' :: rest))
      = some (name, rest) :=
    readAngled_append (h.stops fun c => isBlank_of_isNameChar)
      (readName_append h (stops_cons.2 (by decide)))
  have hwritten : (VarType.list name).render.toList ++ rest
      = "list".toList ++ '<' :: (name.toList ++ '>' :: rest) := by simp [VarType.render]
  rw [hwritten, readType, readListType, hread]
  rfl

theorem readType_tuple {names : List String} (hne : names ≠ []) (h : IsName name)
    (hnames : ∀ name ∈ names, IsName name) :
    readType ((VarType.tuple name names).render.toList ++ rest)
      = some (.tuple name names, rest) := by
  have hbody : readTupleBody (name.toList ++ (writtenNames names ++ '>' :: rest))
      = some (.tuple name names, '>' :: rest) := by
    obtain ⟨first, names, rfl⟩ := List.exists_cons_of_ne_nil hne
    rw [readTupleBody, readName_append h (stops_writtenNames _)]
    simp only [readNames_append hnames]
  have hblank : Stops isBlank (name.toList ++ (writtenNames names ++ '>' :: rest)) :=
    h.stops fun c => isBlank_of_isNameChar
  rw [← List.append_assoc] at hbody hblank
  have hread : readAngled "tuple" readTupleBody ("tuple".toList
      ++ '<' :: (name.toList ++ writtenNames names ++ '>' :: rest))
      = some (.tuple name names, rest) := readAngled_append hblank hbody
  have hwritten : (VarType.tuple name names).render.toList ++ rest
      = "tuple".toList ++ '<' :: (name.toList ++ writtenNames names ++ '>' :: rest) := by
    simp [toList_render_tuple]
  have hlist : readListType ("tuple".toList ++ '<' :: (name.toList ++ writtenNames names
      ++ '>' :: rest)) = none := rfl
  rw [hwritten, readType, hlist, hread]
  rfl

/-- **A legible type reads back from its writing**, if the text after it goes on with no name and
has no angle bracket. -/
theorem readType_append {t : VarType} (h : t.Legible) (hname : Stops isNameChar rest)
    (hangle : '<' ∉ rest) : readType (t.render.toList ++ rest) = some (t, rest) := by
  cases t with
  | named name => exact readType_named h hname hangle
  | charClass text =>
    obtain ⟨inner, htext, hbalanced⟩ := h
    have hwritten : text.toList ++ rest = '[' :: inner ++ ']' :: rest := by simp [htext]
    rw [VarType.render, hwritten, readType_charClass hbalanced, ← htext, String.ofList_toList]
  | list entry => exact readType_list h
  | tuple entry names => exact readType_tuple h.1 h.2.1 h.2.2

/-- Nothing of the text counts for braces. -/
def Plain (cs : List Char) : Prop := ∀ c ∈ cs, c ≠ '\\' ∧ c ≠ '\x7b' ∧ c ≠ '\x7d'

instance : DecidablePred Plain := fun cs => List.decidableBAll _ cs

theorem Plain.append {ds : List Char} (hc : Plain cs) (hd : Plain ds) : Plain (cs ++ ds) :=
  fun c h => (List.mem_append.1 h).elim (hc c) (hd c)

theorem IsName.plain (h : IsName name) : Plain name.toList := fun c hc =>
  ⟨ne_of_isNameChar (h.chars c hc) (by decide), ne_of_isNameChar (h.chars c hc) (by decide),
    ne_of_isNameChar (h.chars c hc) (by decide)⟩

theorem plain_writtenNames {names : List String} (h : ∀ name ∈ names, IsName name) :
    Plain (writtenNames names) := by
  intro c hc
  obtain ⟨name, hname, hc⟩ := List.mem_flatMap.1 hc
  rcases List.mem_cons.1 hc with rfl | hc
  · decide
  rcases List.mem_cons.1 hc with rfl | hc
  · decide
  · exact (h name hname).plain c hc

theorem of_readTupleBody {t : VarType} (h : readTupleBody cs = some (t, rest)) :
    ∃ entry names, t = .tuple entry names ∧ t.Legible := by
  unfold readTupleBody at h
  split at h
  · cases h
  · rename_i entry ds hentry
    split at h
    · cases h
    · rename_i names r hne hnames
      cases h
      refine ⟨entry, names, rfl, hne, (isName_of_readName hentry).1, ?_⟩
      have hmem : ∀ name ∈ (readNames ds).1, IsName name := isName_of_mem_readNames
      rwa [hnames] at hmem

/-- **A type that was read is legible**, and its text is kept as it was or is plain in writing. -/
theorem of_readType {t : VarType} (h : readType cs = some (t, rest)) :
    t.Legible ∧ (cs = t.render.toList ++ rest ∨ Plain t.render.toList) := by
  rw [readType] at h
  rcases (Option.orElse_eq_some _ _ _).1 h with h | ⟨-, h⟩
  · obtain ⟨⟨entry, r⟩, hread, he⟩ := Option.map_eq_some_iff.1 h
    cases he
    obtain ⟨-, ds, rest', hname⟩ := of_readAngled hread
    have hentry := (isName_of_readName hname).1
    refine ⟨hentry, .inr ?_⟩
    rw [VarType.render, String.toList_append, String.toList_append]
    exact (Plain.append (by decide) hentry.plain).append (by decide)
  rcases (Option.orElse_eq_some _ _ _).1 h with h | ⟨-, h⟩
  · obtain ⟨-, ds, rest', hbody⟩ := of_readAngled h
    obtain ⟨entry, names, rfl, hlegible⟩ := of_readTupleBody hbody
    refine ⟨hlegible, .inr ?_⟩
    rw [toList_render_tuple]
    exact (show Plain "tuple<".toList by decide).append
      (hlegible.2.1.plain.append ((plain_writtenNames hlegible.2.2).append (by decide)))
  rcases (Option.orElse_eq_some _ _ _).1 h with h | ⟨-, h⟩
  · obtain ⟨⟨inner, r⟩, hread, he⟩ := Option.map_eq_some_iff.1 h
    cases he
    obtain ⟨rfl, hbalanced⟩ := (readBracketed_eq_some_iff (by decide) (by decide)).1 hread
    refine ⟨⟨inner, String.toList_ofList, hbalanced⟩, .inl ?_⟩
    simp [VarType.render]
  · obtain ⟨⟨name, r⟩, hread, he⟩ := Option.map_eq_some_iff.1 h
    cases he
    obtain ⟨hname, rfl⟩ := isName_of_readName hread
    exact ⟨hname, .inl rfl⟩

/-! ## Optional parts -/

/-- An optional part in writing, with the colon before it. -/
def writtenPart {α : Type} (write : α → String) : Option α → List Char
  | some a => ':' :: (write a).toList
  | none => []

section Optional

variable {α : Type} {reader : List Char → Option (α × List Char)} {write : α → String}
  {o : Option α}

/-- **What an optional part that was read looks like**: a colon and what the reader read, or
nothing at all. -/
theorem of_readOptional (h : readOptional reader cs = (o, rest)) :
    (∃ a ds, o = some a ∧ cs = ':' :: ds ∧ reader ds = some (a, rest)) ∨ (o = none ∧ cs = rest) := by
  unfold readOptional at h
  split at h
  · rename_i a r hread
    cases h
    obtain ⟨ds, hcolon, hread⟩ := Option.bind_eq_some_iff.1 hread
    exact .inl ⟨a, ds, rfl, expect_eq_some_iff.1 hcolon, hread⟩
  · cases h
    exact .inr ⟨rfl, rfl⟩

theorem readOptional_append
    (hsome : ∀ a ∈ o, reader ((write a).toList ++ rest) = some (a, rest))
    (hnone : o = none → (expect ':' rest).bind reader = none) :
    readOptional reader (writtenPart write o ++ rest) = (o, rest) := by
  cases o with
  | none => rw [writtenPart, List.nil_append, readOptional, hnone rfl]
  | some a =>
    have hread : (expect ':' (':' :: ((write a).toList ++ rest))).bind reader = some (a, rest) := by
      rw [expect, if_pos rfl, Option.bind_some, hsome a rfl]
    rw [writtenPart, List.cons_append, readOptional, hread]

end Optional

/-! ## Variables -/

/-- A character of the name of a variable. -/
def isVariableNameChar (c : Char) : Bool := c ≠ ':' && c ≠ '\x7b' && c ≠ '\x7d'

/-- What stands between the braces of a variable in writing. -/
def Variable.inner (v : Variable) : List Char :=
  v.name.toList ++ (writtenPart VarType.render v.type ++ writtenPart Count.render v.quantifier)

theorem Variable.toList_render (v : Variable) :
    v.render.toList = '\x7b' :: v.inner ++ ['\x7d'] := by
  obtain ⟨name, type, quantifier⟩ := v
  cases type <;> cases quantifier <;> simp [Variable.render, Variable.inner, writtenPart]

/-- A variable that its writing gives back. -/
structure Variable.Legible (v : Variable) : Prop where
  name_ne : v.name.toList ≠ []
  name : ∀ c ∈ v.name.toList, isVariableNameChar c
  type : ∀ t ∈ v.type, t.Legible
  quantifier : ∀ q ∈ v.quantifier,
    q.lower < 18446744073709551616 ∧ q.upper < 18446744073709551616
  balanced : Balanced '\x7b' '\x7d' v.inner

/-- The inside of a variable is a name, then optional parts that reach its end. -/
theorem readVariable_eq_some_iff {v : Variable} :
    readVariable cs = some v ↔
      v.name.toList = cs.takeWhile isVariableNameChar ∧ v.name.toList ≠ [] ∧
        ∃ ds, readOptional readType (cs.dropWhile isVariableNameChar) = (v.type, ds) ∧
          readOptional readQuantifier ds = (v.quantifier, []) := by
  have hread : readVariable cs =
      let typed := readOptional readType (cs.dropWhile isVariableNameChar)
      let quantified := readOptional readQuantifier typed.2
      if (cs.takeWhile isVariableNameChar).isEmpty || !quantified.2.isEmpty then none
      else some ⟨String.ofList (cs.takeWhile isVariableNameChar), typed.1, quantified.1⟩ := rfl
  obtain ⟨t, ds, htyped⟩ :
      ∃ t ds, readOptional readType (cs.dropWhile isVariableNameChar) = (t, ds) := ⟨_, _, rfl⟩
  obtain ⟨q, es, hquantified⟩ : ∃ q es, readOptional readQuantifier ds = (q, es) := ⟨_, _, rfl⟩
  simp only [htyped, hquantified] at hread
  rw [hread, htyped]
  constructor
  · intro h
    split at h
    · cases h
    · rename_i hcond
      cases h
      simp only [Bool.or_eq_true, List.isEmpty_iff, Bool.not_eq_true', List.isEmpty_eq_false_iff,
        not_or, not_not] at hcond
      rw [String.toList_ofList]
      exact ⟨rfl, hcond.1, ds, rfl, by rw [hquantified, hcond.2]⟩
  · rintro ⟨hname, hne, ds', htype, hquantifier⟩
    cases htype
    cases hquantified.symm.trans hquantifier
    rw [← hname, String.ofList_toList, if_neg (by simpa using hne)]

/-- Digits, signs and the colon count for no brace. -/
theorem plain_of_isQuantifierChar (h : ∀ c ∈ cs, isQuantifierChar c) : Plain (':' :: cs) := by
  have hne : ∀ c d, isQuantifierChar d = false → c ∈ cs → c ≠ d := by
    rintro c _ hd hc rfl
    rw [h c hc] at hd
    cases hd
  intro c hc
  rcases List.mem_cons.1 hc with rfl | hc
  · decide
  · exact ⟨hne c _ (by decide) hc, hne c _ (by decide) hc, hne c _ (by decide) hc⟩

theorem angle_not_mem_writtenPart {q : Option Count} : '<' ∉ writtenPart Count.render q := by
  cases q with
  | none => exact List.not_mem_nil
  | some q =>
    intro h
    rcases List.mem_cons.1 h with h | h
    · exact absurd h (by decide)
    · exact absurd (isQuantifierChar_render _ h) (by decide)

theorem stops_writtenPart {α : Type} {write : α → String} {o : Option α} {p : Char → Bool}
    (h : p ':' = false) : Stops p (writtenPart write o) := by
  cases o with
  | none => exact stops_nil
  | some a => exact stops_cons.2 h

theorem not_isNameStart_of_isQuantifierChar {c : Char} (h : isQuantifierChar c) :
    ¬ (c.isAlpha || c = '_') = true := by
  simp only [isQuantifierChar, isBlank, Bool.or_eq_true, decide_eq_true_eq] at h
  rcases h with ((((hdigit | rfl | rfl) | rfl) | rfl) | rfl) | rfl
  case inl =>
    have halpha : c.isAlpha = false := by
      simp only [Char.isDigit, Char.isAlpha, Char.isUpper, Char.isLower] at *
      grind
    have hne : c ≠ '_' := by
      rintro rfl
      exact absurd hdigit (by decide)
    simp [halpha, hne]
  all_goals decide

/-- **The writing of a range is no type.** -/
theorem readType_render_eq_none {q : Count} : readType q.render.toList = none := by
  have hchars := isQuantifierChar_render (q := q)
  have hangle : '<' ∉ q.render.toList := fun h => absurd (hchars _ h) (by decide)
  rw [readType_of_no_angle hangle]
  cases hcs : q.render.toList with
  | nil => rfl
  | cons c cs =>
    rw [hcs] at hchars
    have hc : isQuantifierChar c := hchars c List.mem_cons_self
    have hne : c ≠ '[' := by
      rintro rfl
      exact absurd hc (by decide)
    rw [readName, if_neg (not_isNameStart_of_isQuantifierChar hc), readClassType,
      readBracketed_eq_none hne]
    rfl

/-- **A legible variable reads back** from what stands between its braces. -/
theorem readVariable_inner {v : Variable} (h : v.Legible) : readVariable v.inner = some v := by
  have htyped : Stops isVariableNameChar
      (writtenPart VarType.render v.type ++ writtenPart Count.render v.quantifier) := by
    cases v.type with
    | none => exact stops_writtenPart (by decide)
    | some t => exact stops_cons.2 (by decide)
  rw [readVariable_eq_some_iff, Variable.inner, takeWhile_append_of_stops h.name htyped,
    dropWhile_append_of_stops h.name htyped]
  refine ⟨rfl, h.name_ne, writtenPart Count.render v.quantifier, readOptional_append ?_ ?_, ?_⟩
  · intro t ht
    exact readType_append (h.type t ht) (stops_writtenPart (by decide)) angle_not_mem_writtenPart
  · intro _
    cases v.quantifier with
    | none => rfl
    | some q => exact readType_render_eq_none
  · rw [← List.append_nil (writtenPart Count.render v.quantifier)]
    refine readOptional_append (fun q hq => ?_) fun _ => rfl
    obtain ⟨hl, hu⟩ := h.quantifier q hq
    rw [List.append_nil, readQuantifier_toList_render hl hu]

/-- What is left of a variable for its quantifier counts for braces as the quantifier in writing
does. -/
theorem run_of_readOptional {q : Option Count} {s : Nesting}
    (h : readOptional readQuantifier cs = (q, [])) :
    Nesting.run '\x7b' '\x7d' s cs = Nesting.run '\x7b' '\x7d' s (writtenPart Count.render q) := by
  rcases of_readOptional h with ⟨q, ds, rfl, rfl, hread⟩ | ⟨rfl, rfl⟩
  · have hplain : ∀ c ∈ ds, isQuantifierChar c := fun c hc =>
      ((of_readQuantifier hread).2 c hc).resolve_right List.not_mem_nil
    rw [Nesting.run_of_plain (plain_of_isQuantifierChar hplain) (List.cons_ne_nil _ _), writtenPart,
      Nesting.run_of_plain (plain_of_isQuantifierChar isQuantifierChar_render)
        (List.cons_ne_nil _ _)]
  · rfl

theorem run_writtenPart {q : Option Count} :
    Nesting.run '\x7b' '\x7d' ⟨false, 0⟩ (writtenPart Count.render q) = some ⟨false, 0⟩ := by
  cases q with
  | none => rfl
  | some q =>
    exact Nesting.run_of_plain (plain_of_isQuantifierChar isQuantifierChar_render)
      (List.cons_ne_nil _ _)

/-- **The inside in writing has its braces even**, if the inside that was read has. -/
theorem balanced_inner {v : Variable} (h : readVariable cs = some v)
    (hbalanced : Balanced '\x7b' '\x7d' cs) : Balanced '\x7b' '\x7d' v.inner := by
  obtain ⟨hname, -, ds, htype, hquantifier⟩ := readVariable_eq_some_iff.1 h
  have hcs : cs = v.name.toList ++ cs.dropWhile isVariableNameChar := by
    rw [hname, List.takeWhile_append_dropWhile]
  have hkept : ∀ front, cs = front ++ ds →
      v.inner = front ++ writtenPart Count.render v.quantifier →
      Balanced '\x7b' '\x7d' v.inner := by
    intro front hread hwritten
    rw [hread, Balanced, Nesting.run_append] at hbalanced
    rw [hwritten, Balanced, Nesting.run_append]
    simpa only [run_of_readOptional hquantifier] using hbalanced
  -- Either all in front of the quantifier is written as it was read, or the type is plain.
  rcases of_readOptional htype with ⟨t, es, ht, hes, hread⟩ | ⟨hnone, hes⟩
  · have hinner : v.inner = v.name.toList ++ ':' :: t.render.toList
        ++ writtenPart Count.render v.quantifier := by
      rw [Variable.inner, ht, writtenPart, List.append_assoc, List.cons_append]
    rcases (of_readType hread).2 with hsame | hplain
    · refine hkept _ ?_ hinner
      rw [hcs, hes, hsame, List.append_assoc, List.cons_append]
    · have hfree : ∀ c ∈ v.name.toList, c ≠ '\x7b' ∧ c ≠ '\x7d' := by
        intro c hc
        rw [hname] at hc
        have := List.mem_takeWhile_imp hc
        simp only [isVariableNameChar, Bool.and_eq_true, decide_eq_true_eq] at this
        exact ⟨this.1.2, this.2⟩
      have htyped : Plain (':' :: t.render.toList) :=
        (show Plain [':'] by decide).append hplain
      obtain ⟨escaped, hrun⟩ := Nesting.exists_run_of_bracketless (s := ⟨false, 0⟩) hfree
      rw [hinner, Balanced, Nesting.run_append, Nesting.run_append, hrun, Option.bind_some,
        Nesting.run_of_plain htyped (List.cons_ne_nil _ _), Option.bind_some, run_writtenPart]
  · refine hkept v.name.toList (hes ▸ hcs) ?_
    rw [Variable.inner, hnone, writtenPart, List.nil_append]

/-- **A variable that was read is legible.** -/
theorem legible_of_readVariable {v : Variable} (h : readVariable cs = some v)
    (hbalanced : Balanced '\x7b' '\x7d' cs) : v.Legible := by
  obtain ⟨hname, hne, ds, htype, hquantifier⟩ := readVariable_eq_some_iff.1 h
  refine ⟨hne, ?_, ?_, ?_, balanced_inner h hbalanced⟩
  · rw [hname]
    exact fun _ => List.mem_takeWhile_imp
  · intro t ht
    rcases of_readOptional htype with ⟨a, es, ha, -, hread⟩ | ⟨hnone, -⟩
    · cases ha.symm.trans ht
      exact (of_readType hread).1
    · cases hnone.symm.trans ht
  · intro q hq
    rcases of_readOptional hquantifier with ⟨a, es, ha, -, hread⟩ | ⟨hnone, -⟩
    · cases ha.symm.trans hq
      exact (of_readQuantifier hread).1
    · cases hnone.symm.trans hq

/-! ## Variables between braces -/

/-- **A variable that was read between braces is legible.** -/
theorem of_readSlot {item : Item} (h : readSlot cs = some (item, rest)) :
    ∃ v, item = .slot v ∧ v.Legible := by
  obtain ⟨⟨inner, r⟩, hread, hitem⟩ := Option.bind_eq_some_iff.1 h
  obtain ⟨v, hv, he⟩ := Option.map_eq_some_iff.1 hitem
  cases he
  exact ⟨v, rfl, legible_of_readVariable hv
    ((readBracketed_eq_some_iff (by decide) (by decide)).1 hread).2⟩

/-- **A legible variable reads back from its writing**, whatever comes after it. -/
theorem readSlot_append {v : Variable} (h : v.Legible) :
    readSlot (v.render.toList ++ rest) = some (.slot v, rest) := by
  have hread : readBracketed '\x7b' '\x7d' (v.render.toList ++ rest) = some (v.inner, rest) := by
    rw [readBracketed_eq_some_iff (by decide) (by decide)]
    exact ⟨by simp [Variable.toList_render], h.balanced⟩
  rw [readSlot, hread, Option.bind_some]
  simp only [readVariable_inner h, Option.map_some]

end Typeahead.Pattern
