import Typeahead.Proofs.Symbol.Session

/-!
# Proofs/Symbol/Tracked — a table of names along a table of keys

With names for keys, a keyed table holds what a `SymbolTable` holds that served the same requests,
as long as no nonterminal from elsewhere is registered (`Session.Tracks`).
-/

namespace Typeahead

variable {Key State : Type}

/-- The symbol with a name in place of the key. -/
def KeyedSymbol.named (nameOf : Key → String) : KeyedSymbol Key → Symbol
  | .terminal t => .terminal t
  | .nonterminal k => .nonterminal (nameOf k)

/-! ## Tables of names -/

namespace SymbolTable

/-- The table after a request. -/
def serve (nameOf : Key → String) (table : SymbolTable) : Request Key → SymbolTable
  | .declare n => table.declare n
  | .fresh base => (table.fresh base).2
  | .register x => table.register (x.named nameOf)
  | .get _ => table

/-- The table after requests. -/
def after (nameOf : Key → String) (rs : List (Request Key)) : SymbolTable :=
  rs.foldl (serve nameOf) initial

end SymbolTable

/-! ## Both tables -/

namespace Session

variable {I : Interner Key State} {nameOf : Key → String} {log : List (Served Key)}
  {table : KeyedTable Key State} {flat : SymbolTable}

/-- Every registered nonterminal had been given out. -/
def Native (s : Session Key State) : Prop :=
  ∀ before k a after, s.log = before ++ ⟨.register (.nonterminal k), a⟩ :: after →
    ∃ n, (n, k) ∈ issued s.table.start before

theorem mem_issued_append {start : Key} {p : String × Key} {before : List (Served Key)}
    (h : p ∈ issued start before) (after : List (Served Key)) :
    p ∈ issued start (before ++ after) := by
  rw [issued, List.filterMap_append, ← List.cons_append]
  exact List.mem_append_left _ h

theorem Native.of_concat {e : Served Key} {table' : KeyedTable Key State}
    (h : Native ⟨log ++ [e], table'⟩) (hstart : table'.start = table.start) :
    Native ⟨log, table⟩ := by
  rintro before k a after hlog
  rw [← hstart]
  refine h before k a (after ++ [e]) ?_
  rw [show log = _ from hlog, List.append_assoc, List.cons_append]

theorem Native.exists_issued {k : Key} (h : Native ⟨log, table⟩)
    (hmem : .register (.nonterminal k) ∈ requests log) :
    ∃ n, (n, k) ∈ issued table.start log := by
  obtain ⟨⟨r, a⟩, he, rfl⟩ := List.mem_map.1 hmem
  obtain ⟨before, after, rfl⟩ := List.append_of_mem he
  obtain ⟨n, hn⟩ := h before k a after rfl
  exact ⟨n, mem_issued_append hn _⟩

variable [DecidableEq Key]

/-- **With names for keys, both tables hold the same.** -/
structure Tracks (I : Interner Key State) (nameOf : Key → String) (s : Session Key State)
    (flat : SymbolTable) : Prop where
  get? : ∀ n, (s.table.get? I n).map (·.named nameOf) = flat.get? n
  knows : ∀ n, flat.knows n = true ↔ n ∈ interned s.log

theorem tracks_initial (hI : I.Lawful) (hname : nameOf (initial I).table.start = SymbolTable.start) :
    Tracks I nameOf (initial I) .initial where
  get? m := by
    have hflat : SymbolTable.initial.get? m
        = if m = SymbolTable.start then some (.nonterminal SymbolTable.start) else none :=
      @SymbolTable.get?_cons ⟨[]⟩ _ _ _
    rw [hflat, initial, KeyedTable.initial, KeyedTable.get?, hI.get?_intern]
    split
    next =>
      rw [Option.bind_some, KeyedTable.lookup_cons, if_pos rfl, Option.map_some,
        KeyedSymbol.named]
      exact congrArg (fun y => some (Symbol.nonterminal y)) hname
    next => rw [hI.get?_empty]; rfl
  knows m := by simp [SymbolTable.knows_iff, SymbolTable.initial, interned, initial]

theorem Tracks.skip (h : Tracks I nameOf ⟨log, table⟩ flat) {e : Served Key}
    (he : e.interned? = none) : Tracks I nameOf ⟨log ++ [e], table⟩ flat where
  get? := h.get?
  knows m := by
    rw [h.knows, mem_interned_concat, he]
    simp

/-- Both tables give the nonterminal the same name. -/
theorem Tracks.declare (hI : I.Lawful) (hvalid : Valid I ⟨log, table⟩)
    (h : Tracks I nameOf ⟨log, table⟩ flat) (n : String) {r : Request Key}
    (hname : nameOf (table.declare I n).1 = n) :
    Tracks I nameOf ⟨log ++ [⟨r, .issued n (table.declare I n).1⟩], (table.declare I n).2⟩
      (flat.declare n) where
  get? m := by
    have hown : ∀ y, flat.get? n = some (.nonterminal y) → y = n := by
      intro y hy
      rw [← h.get?, Option.map_eq_some_iff] at hy
      obtain ⟨x, hx, hxy⟩ := hy
      cases x with
      | terminal t => cases hxy
      | nonterminal k =>
        have hk : (table.declare I n).1 = k := hI.intern_of_get? (hvalid.owned.get?_names hx)
        rw [← hname, hk]
        cases hxy
        rfl
    rw [KeyedTable.get?_declare hI hvalid.owned, SymbolTable.get?_declare hown]
    split
    · simp [KeyedSymbol.named, hname]
    · exact h.get? m
  knows m := by
    have hinterned : Served.interned? ⟨r, .issued n (table.declare I n).1⟩ = some n := rfl
    rw [SymbolTable.knows_declare, h.knows, mem_interned_concat, hinterned, Option.some.injEq,
      eq_comm (a := n), or_comm]

theorem Tracks.register_terminal (hI : I.Lawful) (hvalid : Valid I ⟨log, table⟩)
    (h : Tracks I nameOf ⟨log, table⟩ flat) {t : Terminal} (ht : t ≠ .epsilon)
    (hnative : Native ⟨log ++ [⟨.register (.terminal t), .done⟩],
      table.register I (.terminal t)⟩) :
    Tracks I nameOf ⟨log ++ [⟨.register (.terminal t), .done⟩], table.register I (.terminal t)⟩
      (flat.register (.terminal t)) where
  get? m := by
    have hold : Native ⟨log, table⟩ := hnative.of_concat (KeyedTable.register_terminal_start ht)
    have hget := hvalid.get?_register_terminal hI ht (m := m) fun _ k _ hmem => by
      obtain ⟨n, hn⟩ := hold.exists_issued hmem
      exact ⟨n, (hvalid.issued hn).1⟩
    rw [hget, SymbolTable.get?_register (by simpa using ht), Symbol.name]
    split
    next hmt =>
      rw [← hmt, ← h.get? m]
      cases table.get? I m <;> rfl
    next => exact h.get? m
  knows m := by
    rw [SymbolTable.knows_register (by simpa using ht), h.knows, mem_interned_concat,
      Served.interned?_register_terminal ht, Option.some.injEq, eq_comm (a := t.name), or_comm]
    rfl

/-- What both tables hold is the same after a request. -/
theorem Tracks.serve (hI : I.Lawful) (hvalid : Valid I ⟨log, table⟩)
    (h : Tracks I nameOf ⟨log, table⟩ flat) {r : Request Key} {a : Answer Key}
    {table' : KeyedTable Key State} (hserve : table.serve I r = some (a, table'))
    (hnames : ∀ n k, (n, k) ∈ issued table.start (log ++ [⟨r, a⟩]) → nameOf k = n)
    (hnative : Native ⟨log ++ [⟨r, a⟩], table'⟩) :
    Tracks I nameOf ⟨log ++ [⟨r, a⟩], table'⟩ (flat.serve nameOf r) := by
  cases r with
  | declare n =>
    cases hserve
    exact h.declare hI hvalid n (hnames n _ (mem_issued_concat.2 (.inr rfl)))
  | fresh base =>
    obtain ⟨i, hi, hfresh⟩ := hvalid.fresh base
    rw [hfresh] at hserve
    cases hserve
    have hleast := flat.isLeast_freshIndex base
    have hindex : flat.freshIndex base = i := by
      refine hleast.unique ?_
      simpa only [← Bool.not_eq_true, h.knows] using hi
    rw [SymbolTable.serve, SymbolTable.fresh, hindex]
    exact h.declare hI hvalid _ (hnames _ _ (mem_issued_concat.2 (.inr rfl)))
  | register x =>
    cases hserve
    cases x with
    | nonterminal k =>
      obtain ⟨n, hn⟩ := hnative log k _ [] rfl
      rw [KeyedTable.register, KeyedTable.keep_start] at hn
      obtain ⟨hname, hentry⟩ := hvalid.issued hn
      have hknown : flat.knows n = true := by rw [h.knows, ← hvalid.known, hname]; rfl
      have hflat : flat.serve nameOf (.register (.nonterminal k)) = flat := by
        refine SymbolTable.register_eq_self ?_
        rwa [KeyedSymbol.named, Symbol.name, hnames n k (mem_issued_concat.2 (.inl hn))]
      rw [hflat, KeyedTable.register, KeyedTable.keep_of_lookup hentry]
      exact h.skip rfl
    | terminal t =>
      by_cases ht : t = .epsilon
      · subst t
        exact h.skip rfl
      · exact h.register_terminal hI hvalid ht hnative
  | get n =>
    cases hserve
    exact h.skip rfl

/-- **A table of keys and one of names hold the same** after the same requests. -/
theorem tracks_run (hI : I.Lawful) {rs : List (Request Key)} {s : Session Key State}
    (hrun : run I rs = some s) (hnative : s.Native)
    (hnames : ∀ n k, (n, k) ∈ issued s.table.start s.log → nameOf k = n) :
    Tracks I nameOf s (SymbolTable.after nameOf rs) := by
  induction rs using List.reverseRecOn generalizing s with
  | nil =>
    cases hrun
    exact tracks_initial hI (hnames _ _ List.mem_cons_self)
  | append_singleton rs r ih =>
    obtain ⟨⟨log, table⟩, hrun', -, hvalid, -⟩ := exists_run hI rs
    obtain ⟨a, table', hserve, hstart, -, -⟩ := hvalid.serve hI r
    have hs : (⟨log ++ [⟨r, a⟩], table'⟩ : Session Key State) = s := by
      rw [run_concat, hrun', Option.bind_some, Session.serve, hserve, Option.map_some] at hrun
      exact Option.some.inj hrun
    subst hs
    rw [SymbolTable.after, List.foldl_append]
    have hbefore := ih hrun' (hnative.of_concat hstart) fun n k hk =>
      hnames n k (mem_issued_concat.2 (.inl (by rwa [hstart])))
    exact hbefore.serve hI hvalid hserve (by rwa [← hstart]) hnative

/-! ## The result -/

/-- **A table never confuses names.**  Every sequence of requests is served, nonterminals and names
belong together for ever after, and a name of terminals keeps the first of them but for the empty
symbol.  With names for keys, a table of names holds the same. -/
theorem run_sound (hI : I.Lawful) (rs : List (Request Key)) :
    ∃ s, run I rs = some s ∧ requests s.log = rs ∧ s.Sound I ∧
      (s.Native → ∀ n, (s.table.get? I n).map (·.named (s.table.resolve I))
        = (SymbolTable.after (s.table.resolve I) rs).get? n) := by
  obtain ⟨s, hrun, hrequests, hvalid, hanswers⟩ := exists_run hI rs
  have hsound := hvalid.sound hI hanswers
  exact ⟨s, hrun, hrequests, hsound, fun hnative => (tracks_run hI hrun hnative hsound.resolve).get?⟩

/-- A literal, a declared name and a made-up one, with names by their places. -/
theorem run_sound_byPlace :
    Interner.byPlace.Lawful ∧ ∃ s, run Interner.byPlace
        [.register (.terminal (.literal "five")), .declare "star_0", .fresh "star", .get "star_0"]
          = some s ∧
      s.Sound Interner.byPlace ∧ s.Native ∧ ∀ n,
        (s.table.get? Interner.byPlace n).map (·.named (s.table.resolve Interner.byPlace))
          = (SymbolTable.after (s.table.resolve Interner.byPlace)
              [.register (.terminal (.literal "five")), .declare "star_0", .fresh "star",
                .get "star_0"]).get? n := by
  obtain ⟨s, hrun, hrequests, hsound, htracks⟩ := run_sound Interner.byPlace_lawful
    [.register (.terminal (.literal "five")), .declare "star_0", .fresh "star", .get "star_0"]
  have hnative : s.Native := by
    intro before k a after hlog
    rw [hlog] at hrequests
    have hmem : .register (.nonterminal k) ∈ requests
        (before ++ ⟨.register (.nonterminal k), a⟩ :: after) := by simp [requests]
    rw [hrequests] at hmem
    simp at hmem
  exact ⟨Interner.byPlace_lawful, s, hrun, hsound, hnative, htracks hnative⟩

/-- The empty symbol is registered without being known. -/
theorem not_keepsFirst_epsilon :
    Interner.byPlace.Lawful ∧ ∃ s, run Interner.byPlace [.register (.terminal .epsilon)] = some s ∧
      ¬ s.KeepsFirst Interner.byPlace fun _ => true := by
  have hunknown : KeyedTable.get? Interner.byPlace (.initial Interner.byPlace) "epsilon" = none := by
    decide
  refine ⟨Interner.byPlace_lawful,
    ⟨[⟨.register (.terminal .epsilon), .done⟩], .initial Interner.byPlace⟩, rfl, fun hkeeps => ?_⟩
  have honly := hkeeps "epsilon"
    ⟨by simp [issued, Served.issued?, SymbolTable.start], by simp [requests]⟩
  exact absurd (hunknown.symm.trans honly) (by decide)

end Session

end Typeahead
