import Typeahead.Proofs.Text.Offset
import Typeahead.Proofs.Parse.Located

/-!
# Proofs/Parse/Lines — the line a failure is shown in

A text is split into lines at line feeds, at carriage returns, and at the two of them in this order,
which are one break.  A line keeps the break that ends it (`Text.lines`), so each place between two
characters lies in one line (`InLine`, `InLine.unique`), also the place within such a break.

The number and the bounds of a line are found separately, by what is in front of a place and by what
comes after it (`Text.lines_append`).  They fit together unless the place cuts a break in two: in
front of the place its carriage return counts as a break by itself, and the failure is shown in an
empty line below its own (`Location.marks_ofOffset_iff`, `Location.not_marks_ofOffset`).
-/

namespace Typeahead

open Location (isBreak breaks lastLine)

/-- A line with the break that ends it; the last line of a text has none. -/
structure Line where
  content : List Char
  ending : List Char
deriving DecidableEq, Repr

namespace Line

/-- The characters of a line, those of its break included. -/
def chars (l : Line) : List Char := l.content ++ l.ending

/-- The line with more in front of it. -/
def behind (front : List Char) (l : Line) : Line := { l with content := front ++ l.content }

@[simp] theorem behind_nil (l : Line) : l.behind [] = l := rfl

theorem behind_behind (a b : List Char) (l : Line) : (l.behind b).behind a = l.behind (a ++ b) := by
  rw [behind, behind, behind, List.append_assoc]

@[simp] theorem behind_content (a : List Char) (l : Line) : (l.behind a).content = a ++ l.content :=
  rfl

@[simp] theorem behind_ending (a : List Char) (l : Line) : (l.behind a).ending = l.ending := rfl

theorem behind_chars (a : List Char) (l : Line) : (l.behind a).chars = a ++ l.chars :=
  List.append_assoc ..

end Line

namespace Text

/-- **The lines of a text.** -/
def lines : List Char → List Line
  | [] => [⟨[], []⟩]
  | '\r' :: '\n' :: cs => ⟨[], ['\r', '\n']⟩ :: lines cs
  | c :: cs => if isBreak c then ⟨[], [c]⟩ :: lines cs else (lines cs).modifyHead (·.behind [c])

example : lines "a\r\nb\rcd\n".toList =
    [⟨['a'], ['\r', '\n']⟩, ⟨['b'], ['\r']⟩, ⟨['c', 'd'], ['\n']⟩, ⟨[], []⟩] := by decide

/-- The number of breaks that consist of two characters. -/
def pairs : List Char → Nat
  | [] => 0
  | '\r' :: '\n' :: cs => pairs cs + 1
  | _ :: cs => pairs cs

/-- A place cuts a break in two. -/
def CutsBreak (before after : List Char) : Prop :=
  before.getLast? = some '\r' ∧ after.head? = some '\n'

/-- The first line ends at the first break character; a line without a break is the last one. -/
theorem exists_lines_eq (cs : List Char) :
    ∃ l later, lines cs = l :: later ∧ l.content = cs.takeWhile (!isBreak ·) ∧
      (l.ending = [] → later = []) := by
  fun_induction lines cs with
  | case1 => exact ⟨_, _, rfl, rfl, fun _ => rfl⟩
  | case2 cs => exact ⟨_, _, rfl, rfl, nofun⟩
  | case3 c cs _ hbreak => exact ⟨_, _, rfl, by rw [List.takeWhile_cons, hbreak]; rfl, nofun⟩
  | case4 c cs _ hbreak ih =>
    obtain ⟨l, later, hlines, hcontent, hlast⟩ := ih
    refine ⟨l.behind [c], later, by rw [hlines]; rfl, ?_, hlast⟩
    rw [List.takeWhile_cons, if_pos (by simpa using hbreak), Line.behind_content, hcontent]
    rfl

end Text

open Text (lines pairs CutsBreak)

/-- **A place in a text lies in a line**: `earlier` are the lines above, and `ahead` is what the line
has in front of the place. -/
structure InLine (before after : List Char) (earlier : List Line) (line : Line)
    (ahead : List Char) : Prop where
  split : ∃ later, lines (before ++ after) = earlier ++ line :: later ∧
    (ahead.length < line.chars.length ∨ later = [])
  before : earlier.flatMap Line.chars ++ ahead = before

variable {before after cs : List Char} {c : Char}

/-! ## One line for every place -/

/-- The lines above a place hold no line that the place lies in. -/
theorem InLine.not_longer {earlier more : List Line} {line line' : Line}
    {ahead ahead' : List Char} (h : InLine before after earlier line ahead)
    (h' : InLine before after (earlier ++ line :: more) line' ahead') : False := by
  obtain ⟨⟨later, hsplit, hahead⟩, hbefore⟩ := h
  obtain ⟨⟨later', hsplit', -⟩, hbefore'⟩ := h'
  have hlater : later = more ++ line' :: later' := by
    rw [hsplit, List.append_assoc] at hsplit'
    exact (List.cons.inj (List.append_cancel_left hsplit')).2
  have hlong : ahead = line.chars ++ (more.flatMap Line.chars ++ ahead') := by
    rw [← hbefore, List.flatMap_append, List.append_assoc, List.flatMap_cons] at hbefore'
    rw [← List.append_cancel_left hbefore', List.append_assoc]
  rcases hahead with hshort | hnil
  · rw [hlong, List.length_append] at hshort
    omega
  · rw [hnil] at hlater
    exact absurd hlater.symm (by simp)

/-- **A place lies in one line.** -/
theorem InLine.unique {earlier earlier' : List Line} {line line' : Line} {ahead ahead' : List Char}
    (h : InLine before after earlier line ahead) (h' : InLine before after earlier' line' ahead') :
    earlier = earlier' ∧ line = line' ∧ ahead = ahead' := by
  obtain ⟨later, hsplit, -⟩ := h.split
  obtain ⟨later', hsplit', -⟩ := h'.split
  rcases List.append_eq_append_iff.1 (hsplit.symm.trans hsplit') with
    ⟨more, rfl, hmore⟩ | ⟨more, rfl, hmore⟩ <;> rcases more with _ | ⟨l, more⟩
  · rw [List.append_nil] at h' ⊢
    have hahead := List.append_cancel_left (h.before.trans h'.before.symm)
    exact ⟨rfl, (List.cons.inj hmore).1, hahead⟩
  · obtain ⟨rfl, -⟩ := List.cons.inj hmore
    exact (h.not_longer h').elim
  · rw [List.append_nil] at h ⊢
    have hahead := List.append_cancel_left (h.before.trans h'.before.symm)
    exact ⟨rfl, (List.cons.inj hmore).1.symm, hahead⟩
  · obtain ⟨rfl, -⟩ := List.cons.inj hmore
    exact (h'.not_longer h).elim

/-! ## Breaks and the last line -/

/-- **Breaks are counted by their characters**, of which pairs have two. -/
theorem Location.breaks_add_pairs (cs : List Char) :
    breaks cs + pairs cs = cs.count '\n' + cs.count '\r' := by
  fun_induction breaks cs with
  | case1 => rfl
  | case2 cs ih =>
    rw [pairs, List.count_cons, List.count_cons, List.count_cons, List.count_cons]
    simp
    omega
  | case3 c cs hpair ih =>
    rw [pairs.eq_3 _ _ hpair, List.count_cons, List.count_cons]
    by_cases hn : c = '\n' <;> by_cases hr : c = '\r' <;> simp [isBreak, hn, hr] <;> omega

theorem Text.pairs_le (cs : List Char) : pairs cs ≤ cs.count '\r' := by
  fun_induction pairs cs with
  | case1 => exact Nat.le_refl 0
  | case2 cs ih =>
    simp
    omega
  | case3 c cs _ ih => exact Nat.le_trans ih (List.count_le_count_cons ..)

namespace Location

theorem breaks_eq_zero_iff : breaks cs = 0 ↔ ∀ c ∈ cs, isBreak c = false := by
  fun_induction breaks cs with
  | case1 => simp
  | case2 cs => simp [isBreak]
  | case3 c cs _ ih => simp [ih, and_comm]

/-- A carriage return at the end is a break. -/
theorem breaks_concat_return (cs : List Char) : breaks (cs ++ ['\r']) = breaks cs + 1 := by
  fun_induction breaks cs with
  | case1 => rfl
  | case2 cs ih =>
    rw [List.cons_append, List.cons_append, breaks, ih]
  | case3 c cs hpair ih =>
    rw [List.cons_append, breaks.eq_3, ih, Nat.add_right_comm]
    rintro cs' rfl hcs
    rcases cs with _ | ⟨d, cs⟩
    · exact absurd (List.cons.inj hcs).1 (by decide)
    · obtain ⟨rfl, -⟩ := List.cons.inj hcs
      exact hpair cs rfl rfl

theorem lastLine_cons (c : Char) (cs : List Char) :
    lastLine (c :: cs) =
      if breaks cs = 0 ∧ isBreak c = false then c :: lastLine cs else lastLine cs := by
  have hall : (cs.reverse.takeWhile (!isBreak ·)).length = cs.reverse.length ↔ breaks cs = 0 := by
    have hself : (cs.reverse.takeWhile (!isBreak ·)).length = cs.reverse.length ↔
        cs.reverse.takeWhile (!isBreak ·) = cs.reverse :=
      ⟨(List.takeWhile_prefix _).eq_of_length, congrArg List.length⟩
    rw [hself, breaks_eq_zero_iff, List.takeWhile_eq_self_iff]
    simp
  rw [lastLine, lastLine, List.reverse_cons, List.takeWhile_append]
  by_cases hzero : breaks cs = 0
  · rw [if_pos (hall.2 hzero), (List.takeWhile_prefix _).eq_of_length (hall.2 hzero)]
    cases hc : isBreak c <;> simp [hzero, hc]
  · rw [if_neg (mt hall.1 hzero), if_neg (hzero ·.1)]

theorem lastLine_concat_return (cs : List Char) : lastLine (cs ++ ['\r']) = [] := by
  rw [lastLine, List.reverse_append, List.reverse_singleton, List.singleton_append,
    List.takeWhile_cons_of_neg (by decide), List.reverse_nil]

end Location

/-! ## The line of a place -/

theorem Text.CutsBreak.cons (h : CutsBreak cs after) : CutsBreak (c :: cs) after :=
  ⟨by rw [List.getLast?_cons, h.1]; rfl, h.2⟩

/-- A character that starts no pair is a break by itself, or stands in front of the first line. -/
theorem Text.lines_cons_append (hcut : ¬CutsBreak (c :: cs) after)
    (hpair : ∀ more, c = '\r' → cs = '\n' :: more → False) :
    lines (c :: cs ++ after) = if isBreak c then ⟨[], [c]⟩ :: lines (cs ++ after)
      else (lines (cs ++ after)).modifyHead (·.behind [c]) := by
  refine lines.eq_3 c _ ?_
  rintro more rfl hmore
  rcases cs with _ | ⟨d, cs⟩
  · exact hcut ⟨rfl, congrArg List.head? hmore⟩
  · obtain ⟨rfl, -⟩ := List.cons.inj hmore
    exact hpair cs rfl rfl

/-- **The lines of a text from those of what comes after a place**: the line of the place begins
with the last line in front of it, unless the place cuts a break in two. -/
theorem Text.lines_append {l : Line} {later : List Line} (hcut : ¬CutsBreak before after)
    (hafter : lines after = l :: later) :
    ∃ earlier, lines (before ++ after) = earlier ++ l.behind (lastLine before) :: later ∧
      earlier.flatMap Line.chars ++ lastLine before = before ∧
      earlier.length = breaks before := by
  fun_induction breaks before with
  | case1 => exact ⟨[], hafter, rfl, rfl⟩
  | case2 cs ih =>
    obtain ⟨earlier, hlines, hbefore, hlength⟩ := ih fun h => hcut h.cons.cons
    have hlast : lastLine ('\r' :: '\n' :: cs) = lastLine cs := by
      rw [Location.lastLine_cons, if_neg (by simp [isBreak]), Location.lastLine_cons,
        if_neg (by simp [isBreak])]
    refine ⟨⟨[], ['\r', '\n']⟩ :: earlier, ?_, ?_, ?_⟩
    · rw [hlast, List.cons_append, List.cons_append, lines, hlines, List.cons_append]
    · rw [hlast, List.flatMap_cons, List.append_assoc, hbefore]
      rfl
    · rw [List.length_cons, hlength]
  | case3 c cs hpair ih =>
    obtain ⟨earlier, hlines, hbefore, hlength⟩ := ih fun h => hcut h.cons
    rw [Text.lines_cons_append hcut hpair, Location.lastLine_cons]
    cases hc : isBreak c with
    | true =>
      rw [if_pos rfl, if_neg (by simp)]
      refine ⟨⟨[], [c]⟩ :: earlier, by rw [hlines, List.cons_append], ?_, ?_⟩
      · rw [List.flatMap_cons, List.append_assoc, hbefore]
        rfl
      · rw [List.length_cons, hlength, if_pos rfl]
    | false =>
      rw [if_neg Bool.false_ne_true, if_neg Bool.false_ne_true, hlines]
      rcases earlier with _ | ⟨first, earlier⟩
      · have hzero : breaks cs = 0 := hlength.symm
        rw [if_pos ⟨hzero, rfl⟩]
        refine ⟨[], ?_, congrArg (c :: ·) hbefore, hlength⟩
        rw [List.nil_append, List.nil_append, List.modifyHead_cons, Line.behind_behind]
        rfl
      · have hpos : ¬(breaks cs = 0 ∧ false = false) := by
          rw [← hlength]
          simp
        rw [if_neg hpos]
        refine ⟨first.behind [c] :: earlier, rfl, ?_, hlength⟩
        rw [List.flatMap_cons, Line.behind_chars, List.append_assoc, List.append_assoc,
          ← List.append_assoc first.chars, ← List.flatMap_cons, hbefore]
        rfl

/-- The line of a place that does not cut a break in two. -/
theorem inLine_of_not_cutsBreak (h : ¬CutsBreak before after) :
    ∃ earlier line, InLine before after earlier line (lastLine before) ∧
      line.content = lastLine before ++ after.takeWhile (!isBreak ·) ∧
      earlier.length = breaks before := by
  obtain ⟨l, later, hafter, hcontent, hlast⟩ := Text.exists_lines_eq after
  obtain ⟨earlier, hlines, hbefore, hlength⟩ := Text.lines_append h hafter
  refine ⟨earlier, l.behind (lastLine before), ⟨⟨later, hlines, ?_⟩, hbefore⟩, ?_, hlength⟩
  · by_cases hending : l.ending = []
    · exact .inr (hlast hending)
    · refine .inl ?_
      have := List.length_pos_iff.2 hending
      rw [Line.behind_chars, Line.chars, List.length_append, List.length_append]
      omega
  · rw [Line.behind_content, hcontent]

/-- The line of a place that cuts a break in two is the one that the break ends. -/
theorem inLine_of_cutsBreak (cs more : List Char) :
    ∃ earlier, InLine (cs ++ ['\r']) ('\n' :: more) earlier ⟨lastLine cs, ['\r', '\n']⟩
      (lastLine cs ++ ['\r']) ∧ earlier.length = breaks cs := by
  have hcut : ¬CutsBreak cs ('\r' :: '\n' :: more) := fun h => absurd h.2 (by simp)
  have hafter : lines ('\r' :: '\n' :: more) = ⟨[], ['\r', '\n']⟩ :: lines more := by rw [lines]
  obtain ⟨earlier, hlines, hbefore, hlength⟩ := Text.lines_append hcut hafter
  refine ⟨earlier, ⟨⟨lines more, ?_, .inl ?_⟩, ?_⟩, hlength⟩
  · rw [List.append_assoc]
    refine hlines.trans ?_
    rw [Line.behind, List.append_nil]
  · simp [Line.chars]
  · rw [← List.append_assoc, hbefore]

/-! ## The location of a place -/

namespace Location

/-- A location shows the line of a place: its number, its text without the break, and a caret as
far to the right as the place, but no further than behind the text. -/
def Marks (l : Location) (before after : List Char) : Prop :=
  ∃ earlier line ahead, InLine before after earlier line ahead ∧
    l.line = earlier.length + 1 ∧ l.lineText = String.ofList line.content ∧
    l.caret = String.ofList
      (List.replicate (min ahead.length line.content.length) ' ' ++ ['^'])

theorem ofOffset_append (before after : List Char) (expected : List String) :
    ofOffset (before ++ after) (Text.byteLength before) expected =
      between before after expected := by
  rw [ofOffset, Text.byteLength_append, Nat.min_eq_left (Nat.le_add_right ..),
    Text.takeBytes?_append, Text.dropBytes?_append]

/-- Where no break is cut in two, the line of the place is shown. -/
theorem marks_between (h : ¬CutsBreak before after) (expected : List String) :
    (between before after expected).Marks before after := by
  obtain ⟨earlier, line, hline, hcontent, hlength⟩ := inLine_of_not_cutsBreak h
  refine ⟨earlier, line, lastLine before, hline, ?_, by rw [hcontent]; rfl, ?_⟩
  · rw [hlength, Nat.add_comm]
    rfl
  · rw [Nat.min_eq_left (by rw [hcontent, List.length_append]; exact Nat.le_add_right ..)]
    rfl

/-- Where a break is cut in two, an empty line is shown below that of the place. -/
theorem exists_marks_of_cutsBreak (h : CutsBreak before after) (expected : List String) :
    ∃ right, Marks right before after ∧
      (between before after expected).line = right.line + 1 ∧
      (between before after expected).lineText = "" ∧
      (between before after expected).caret = "^" := by
  obtain ⟨cs, rfl⟩ := List.getLast?_eq_some_iff.1 h.1
  obtain ⟨more, rfl⟩ := List.head?_eq_some_iff.1 h.2
  obtain ⟨earlier, hline, hlength⟩ := inLine_of_cutsBreak cs more
  refine ⟨⟨_, _, _, expected⟩, ⟨earlier, _, _, hline, rfl, rfl, rfl⟩, ?_, ?_, ?_⟩
  · rw [between, breaks_concat_return, hlength]
    exact Nat.add_comm ..
  · rw [between, lastLine_concat_return]
    rfl
  · rw [between, lastLine_concat_return]
    rfl

/-- Locations that mark one place have the same number. -/
theorem Marks.line_unique {l l' : Location} (h : l.Marks before after)
    (h' : l'.Marks before after) : l.line = l'.line := by
  obtain ⟨earlier, line, ahead, hline, hnumber, -⟩ := h
  obtain ⟨earlier', line', ahead', hline', hnumber', -⟩ := h'
  rw [hnumber, hnumber', (hline.unique hline').1]

/-- **When the location of an offset is right.**  It is, unless the offset is between the two
characters of a break; then an empty line below that of the offset is shown.  The number is that of
all break characters less that of the breaks of two characters, of which there are never more. -/
theorem marks_ofOffset_iff (before after : List Char) (expected : List String) :
    ((ofOffset (before ++ after) (Text.byteLength before) expected).Marks before after ↔
      ¬CutsBreak before after) ∧
    (CutsBreak before after →
      ∃ right, Marks right before after ∧
        (ofOffset (before ++ after) (Text.byteLength before) expected).line = right.line + 1 ∧
        (ofOffset (before ++ after) (Text.byteLength before) expected).lineText = "" ∧
        (ofOffset (before ++ after) (Text.byteLength before) expected).caret = "^") ∧
    pairs before ≤ 1 + before.count '\n' + before.count '\r' ∧
    (ofOffset (before ++ after) (Text.byteLength before) expected).line
      = 1 + before.count '\n' + before.count '\r' - pairs before := by
  have hpairs := Text.pairs_le before
  have hbreaks := breaks_add_pairs before
  rw [ofOffset_append]
  refine ⟨⟨fun hmarks hcut => ?_, (marks_between · expected)⟩,
    (exists_marks_of_cutsBreak · expected), by omega, ?_⟩
  · obtain ⟨right, hright, hbelow, -⟩ := exists_marks_of_cutsBreak hcut expected
    have := hmarks.line_unique hright
    omega
  · rw [between]
    dsimp only
    omega

end Location

/-! ### A break that is cut in two -/

namespace Grammar

/-- A letter with the break behind it, and a letter in the next line. -/
def brokenLine : Grammar :=
  ((insert .sequence (some "top") [(Symbol.literal "a\r").unnamed, (Symbol.literal "x").unnamed] :
      StateM Grammar _).run {}).2

/-- The grammar after its compile. -/
def brokenLineCompiled : Grammar :=
  ((compile (.nonterminal "top")).run.run brokenLine).2

theorem compile_brokenLine :
    (compile (.nonterminal "top")).run.run brokenLine = (.ok (), brokenLineCompiled) := rfl

/-- `x` is missed between the two characters of the break. -/
theorem failed_brokenLine :
    ((parse brokenLineCompiled.flat 0 "a\r\nb" none).run {}).1.failure.map
      (fun f => (f.offset, f.failed.map (·.result.pos))) = some (2, some 2) := by
  cbv

/-- What is in front of it does not fail. -/
theorem outcome_brokenLine :
    (search brokenLineCompiled.flat {}
      (Text.slice "a\r\nb".toList 0 2)).derivation.tree.shape.1.outcome = .endOfInput := by
  cbv

end Grammar

/-- The location of a failure is that of its offset. -/
theorem exists_ofOffset_of_parse {g : FlatGrammar} {listeners : Nat} {input : String}
    {found : Option (List Completion)} {ctx : Context} {f : Failure} {l : Location}
    (h : ((parse g listeners input found).run ctx).1.failure = some f)
    (hl : f.location = some l) : ∃ expected, l = .ofOffset input.toList f.offset expected := by
  obtain ⟨rfl, -⟩ := explain_of_parse h
  obtain ⟨expected, -, rfl⟩ := Option.map_eq_some_iff.1 hl
  exact ⟨expected, rfl⟩

/-- **A failure may be shown in the wrong line**: the letter `x` is missed between the two characters
of the break that ends the first line, and the failure is shown in the second one. -/
theorem not_marks_ofOffset :
    (Grammar.compile (.nonterminal "top")).run.run Grammar.brokenLine
      = (.ok (), Grammar.brokenLineCompiled) ∧
    ∃ f l, ((parse Grammar.brokenLineCompiled.flat 0 "a\r\nb" none).run {}).1.failure = some f ∧
      f.offset = 2 ∧ f.location = some l ∧ l.line = 2 ∧ l.lineText = "" ∧ l.caret = "^" ∧
      ¬l.Marks "a\r".toList "\nb".toList ∧
      Location.Marks ⟨1, "a", " ^", l.expected⟩ "a\r".toList "\nb".toList := by
  obtain ⟨f, hf, hfailed⟩ := Option.map_eq_some_iff.1 Grammar.failed_brokenLine
  obtain ⟨hoffset, hpos⟩ := Prod.mk.inj hfailed
  obtain ⟨failed, hlabel, -, hlocated⟩ := located_of_parse hf
  rw [hlabel] at hpos
  have hpos : failed.result.pos = 2 := Option.some.inj hpos
  rw [hpos, Grammar.outcome_brokenLine] at hlocated
  obtain ⟨l, hl⟩ := Option.isSome_iff_exists.1 (hlocated.2 (by decide))
  obtain ⟨expected, rfl⟩ := exists_ofOffset_of_parse hf hl
  rw [hoffset] at hl
  obtain ⟨earlier, hline, hlength⟩ := inLine_of_cutsBreak ['a'] ['b']
  obtain rfl : earlier = [] := List.length_eq_zero_iff.1 hlength
  have hright : Location.Marks ⟨1, "a", " ^", expected⟩ "a\r".toList "\nb".toList :=
    ⟨[], _, _, hline, rfl, rfl, rfl⟩
  refine ⟨Grammar.compile_brokenLine, f, _, hf, hoffset, hl, rfl, rfl, rfl, fun hmarks => ?_, hright⟩
  exact absurd (hmarks.line_unique hright) (show (2 : Nat) ≠ 1 by decide)

end Typeahead
