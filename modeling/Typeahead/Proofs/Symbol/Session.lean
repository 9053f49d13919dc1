import Typeahead.Proofs.Symbol.Interned

/-!
# Proofs/Symbol/Session — a table never confuses names

Terminals and nonterminals share the names of a table, and what a name stands for depends on all
that was asked before.  `Session.Valid` relates the entries of a table to the log of a session; every
request preserves it and is answered.
-/

namespace Typeahead

variable {Key State : Type}

/-! ## What a log says -/

namespace Served

/-- The nonterminal that was given out, with its name. -/
def issued? : Served Key → Option (String × Key)
  | ⟨_, .issued n k⟩ => some (n, k)
  | _ => none

/-- The terminal that was registered. -/
def terminal? : Served Key → Option Terminal
  | ⟨.register (.terminal t), _⟩ => some t
  | _ => none

/-- The name that was interned. -/
def interned? (e : Served Key) : Option String :=
  (e.issued?.map (·.1)).or ((e.terminal?.filter (· ≠ .epsilon)).map (·.name))

theorem interned?_register_terminal {t : Terminal} (ht : t ≠ .epsilon) :
    interned? (⟨.register (.terminal t), .done⟩ : Served Key) = some t.name := by
  simp [interned?, issued?, terminal?, Option.filter, ht]

end Served

namespace Session

/-- The requests that were served. -/
def requests (log : List (Served Key)) : List (Request Key) := log.map (·.request)

/-- The names that were interned, the start symbol's first. -/
def interned (log : List (Served Key)) : List String :=
  SymbolTable.start :: log.filterMap Served.interned?

/-- The nonterminals that were given out with their names, the start symbol first. -/
def issued (start : Key) (log : List (Served Key)) : List (String × Key) :=
  (SymbolTable.start, start) :: log.filterMap Served.issued?

/-- The first terminal among the admitted ones that was registered under a name. -/
def firstUnder (admits : Terminal → Bool) (n : String) (log : List (Served Key)) :
    Option Terminal :=
  (log.filterMap Served.terminal?).find? fun t => t.name = n && admits t

section Log

variable {start : Key} {log : List (Served Key)} {e : Served Key} {n m : String}

theorem mem_requests_concat_of_mem {r : Request Key} (h : r ∈ requests log) :
    r ∈ requests (log ++ [e]) := by
  rw [requests, List.map_append]
  exact List.mem_append_left _ h

theorem mem_interned_concat :
    m ∈ interned (log ++ [e]) ↔ m ∈ interned log ∨ e.interned? = some m := by
  cases h : e.interned? <;> simp [interned, h, or_assoc, eq_comm]

theorem mem_issued_concat {p : String × Key} :
    p ∈ issued start (log ++ [e]) ↔ p ∈ issued start log ∨ e.issued? = some p := by
  cases h : e.issued? <;> simp [issued, h, or_assoc, eq_comm]

theorem firstUnder_concat (admits : Terminal → Bool) :
    firstUnder admits n (log ++ [e])
      = (firstUnder admits n log).or (e.terminal?.filter fun t => t.name = n && admits t) := by
  rw [firstUnder, List.filterMap_append, List.find?_append, ← firstUnder]
  cases h : e.terminal? with
  | none => simp [h]
  | some t => cases ht : (decide (t.name = n) && admits t) <;> simp [h, ht, Option.filter]

/-- What holds of every element after those before it holds with one more, if it holds of that. -/
theorem forall_split_concat {α : Type} {as : List α} {x : α} {P : List α → α → Prop}
    (h : ∀ before a after, as = before ++ a :: after → P before a) (hx : P as x) :
    ∀ before a after, as ++ [x] = before ++ a :: after → P before a := by
  intro before a after heq
  obtain rfl | ⟨after', y, rfl⟩ := List.eq_nil_or_concat after
  · obtain ⟨rfl, hxa⟩ := List.append_inj' heq rfl
    cases hxa
    exact hx
  · rw [List.concat_eq_append, ← List.cons_append, ← List.append_assoc] at heq
    exact h before a after' (List.append_inj' heq rfl).1

end Log

/-! ## What a session promises -/

section Promises

variable (I : Interner Key State) (s : Session Key State)

/-- A name that was registered for terminals only: neither was it given to a nonterminal, nor was a
nonterminal of its key registered. -/
structure OnlyTerminals (n : String) : Prop where
  not_issued : ∀ k, (n, k) ∉ issued s.table.start s.log
  not_registered : ∀ k, I.get? s.table.names n = some k →
    .register (.nonterminal k) ∉ requests s.log

/-- A name of terminals was one before. -/
theorem OnlyTerminals.of_concat {I : Interner Key State} {log : List (Served Key)} {e : Served Key}
    {m : String} {table table' : KeyedTable Key State}
    (h : OnlyTerminals I ⟨log ++ [e], table'⟩ m) (hstart : table'.start = table.start)
    (hnames : ∀ {k}, I.get? table.names m = some k → I.get? table'.names m = some k) :
    OnlyTerminals I ⟨log, table⟩ m where
  not_issued k hk := h.not_issued k (mem_issued_concat.2 (.inl (by rwa [hstart])))
  not_registered k hk hmem := h.not_registered k (hnames hk) (mem_requests_concat_of_mem hmem)

variable [DecidableEq Key]

/-- Every name that was registered for terminals only keeps the first admitted one. -/
def KeepsFirst (admits : Terminal → Bool) : Prop :=
  ∀ n, s.OnlyTerminals I n → s.table.get? I n = (firstUnder admits n s.log).map .terminal

/-- What is right to answer after `log`. -/
def Right (start : Key) (log : List (Served Key)) : Served Key → Prop
  | ⟨.declare n, a⟩ => ∃ k, a = .issued n k
  | ⟨.fresh base, a⟩ => ∃ i k, a = .issued (SymbolTable.numbered base i) k ∧
      IsLeast {i | SymbolTable.numbered base i ∉ interned log} i
  | ⟨.register _, a⟩ => a = .done
  | ⟨.get n, a⟩ => ∀ k, (n, k) ∈ issued start log → a = .found (some (.nonterminal k))

/-- **No names are confused.** -/
structure Sound : Prop where
  /-- Every request is answered rightly after those before it. -/
  answers : ∀ before e after, s.log = before ++ e :: after → Right s.table.start before e
  /-- A nonterminal that was given out has the name it was given out for. -/
  resolve : ∀ n k, (n, k) ∈ issued s.table.start s.log → s.table.resolve I k = n
  /-- Nonterminals are equal just as their names are. -/
  key_eq_iff : ∀ n m k l, (n, k) ∈ issued s.table.start s.log →
    (m, l) ∈ issued s.table.start s.log → (k = l ↔ n = m)
  /-- The name of a nonterminal that was given out means that nonterminal. -/
  get : ∀ n k, (n, k) ∈ issued s.table.start s.log → s.table.get? I n = some (.nonterminal k)
  /-- A name of terminals keeps the first one. -/
  keeps : s.KeepsFirst I (· ≠ .epsilon)

end Promises

/-! ## What every request preserves -/

section Steps

variable [DecidableEq Key] {I : Interner Key State} {log : List (Served Key)} {e : Served Key}
  {m : String} {table : KeyedTable Key State}

/-- The names, the entries and the log of a session agree. -/
structure Valid (I : Interner Key State) (s : Session Key State) : Prop where
  owned : s.table.Owned
  known : ∀ n, (I.get? s.table.names n).isSome ↔ n ∈ interned s.log
  resolve? : ∀ {n k}, I.get? s.table.names n = some k → I.resolve? s.table.names k = some n
  /-- An entry belongs to a name, or to a nonterminal from elsewhere. -/
  source : ∀ {k e}, s.table.symbols.lookup k = some e →
    (∃ n, I.get? s.table.names n = some k) ∨ .register (.nonterminal k) ∈ requests s.log
  issued : ∀ {n k}, (n, k) ∈ issued s.table.start s.log →
    I.get? s.table.names n = some k ∧ s.table.symbols.lookup k = some (.nonterminal k)
  keeps : s.KeepsFirst I (· ≠ .epsilon)

/-- A request that makes nothing known. -/
theorem Valid.skip (h : Valid I ⟨log, table⟩) (hissued : e.issued? = none)
    (hterminal : e.terminal?.filter (· ≠ .epsilon) = none) :
    Valid I ⟨log ++ [e], table⟩ where
  owned := h.owned
  known m := by
    have hinterned : e.interned? = none := by rw [Served.interned?, hissued, hterminal]; rfl
    rw [mem_interned_concat, hinterned, ← h.known]
    simp
  resolve? := h.resolve?
  source hk := (h.source hk).imp id mem_requests_concat_of_mem
  issued hk := h.issued ((mem_issued_concat.1 hk).resolve_right (by simp [hissued]))
  keeps m hm := by
    rw [h.keeps m (hm.of_concat rfl id), firstUnder_concat]
    have hnone : (e.terminal?.filter fun t => t.name = m && t ≠ .epsilon) = none := by
      rw [Option.filter_eq_none_iff] at hterminal ⊢
      intro t ht
      simp [hterminal t ht]
    rw [hnone, Option.or_none]

/-- Declaring a name gives out its nonterminal. -/
theorem Valid.declare (hI : I.Lawful) (h : Valid I ⟨log, table⟩) (n : String) {r : Request Key}
    (hr : ∀ x, r ≠ .register x) :
    Valid I ⟨log ++ [⟨r, .issued n (table.declare I n).1⟩], (table.declare I n).2⟩ where
  owned := h.owned.declare n
  known m := by
    rw [mem_interned_concat, ← h.known]
    have hinterned : Served.interned? ⟨r, .issued n (table.declare I n).1⟩ = some n := rfl
    rw [hinterned, Option.some.injEq, eq_comm (a := n), or_comm]
    exact hI.isSome_get?_intern
  resolve? := hI.resolve?_intern_of_get? h.resolve?
  source {k e} hk := by
    rw [KeyedTable.lookup_declare h.owned] at hk
    split at hk
    next hk' => exact .inl ⟨n, hk' ▸ hI.get?_intern_self⟩
    next =>
      exact (h.source hk).imp (fun ⟨m, hm⟩ => ⟨m, hI.get?_intern_of_get? hm⟩)
        mem_requests_concat_of_mem
  issued {m k} hk := by
    obtain hold | hnew := mem_issued_concat.1 hk
    · obtain ⟨hname, hentry⟩ := h.issued hold
      exact ⟨hI.get?_intern_of_get? hname, KeyedTable.lookup_declare_of_lookup h.owned hentry n⟩
    · obtain ⟨rfl, rfl⟩ : n = m ∧ (table.declare I n).1 = k := by simpa [Served.issued?] using hnew
      exact ⟨hI.get?_intern_self, (KeyedTable.lookup_declare h.owned n).trans (if_pos rfl)⟩
  keeps m hm := by
    have hne : m ≠ n := by
      rintro rfl
      exact hm.not_issued _ (mem_issued_concat.2 (.inr rfl))
    have hterminal : Served.terminal? ⟨r, .issued n (table.declare I n).1⟩ = none := by
      cases r with
      | register x => exact absurd rfl (hr x)
      | declare | fresh | get => rfl
    rw [KeyedTable.get?_declare hI h.owned, if_neg hne, firstUnder_concat, hterminal,
      Option.filter_none, Option.or_none]
    exact h.keeps m (hm.of_concat rfl hI.get?_intern_of_get?)

/-- Registering a nonterminal interns nothing. -/
theorem Valid.register_nonterminal (h : Valid I ⟨log, table⟩) (k : Key) :
    Valid I ⟨log ++ [⟨.register (.nonterminal k), .done⟩], table.keep k (.nonterminal k)⟩ where
  owned := h.owned.keep fun l hl => by simp_all
  known m := by
    rw [KeyedTable.keep_names, mem_interned_concat, ← h.known]
    simp [Served.interned?, Served.issued?, Served.terminal?]
  resolve? hk := by
    rw [KeyedTable.keep_names] at hk ⊢
    exact h.resolve? hk
  source {l e} hl := by
    rw [KeyedTable.lookup_keep] at hl
    rw [KeyedTable.keep_names]
    split at hl
    next hlk => exact .inr (by simp [hlk, requests])
    next => exact (h.source hl).imp id mem_requests_concat_of_mem
  issued {n l} hl := by
    rw [KeyedTable.keep_start, mem_issued_concat] at hl
    obtain ⟨hname, hentry⟩ := h.issued (hl.resolve_right (by simp [Served.issued?]))
    rw [KeyedTable.keep_names]
    exact ⟨hname, KeyedTable.lookup_keep_of_lookup hentry _⟩
  keeps m hm := by
    have hnames := congrArg (I.get? · m) (table.keep_names (k := k) (.nonterminal k))
    have hget : (table.keep k (.nonterminal k)).get? I m = table.get? I m := by
      refine KeyedTable.get?_congr hnames fun l hl => ?_
      rw [KeyedTable.lookup_keep, if_neg]
      rintro rfl
      exact hm.not_registered l hl (by simp [requests])
    rw [hget, firstUnder_concat]
    refine (h.keeps m (hm.of_concat (KeyedTable.keep_start _) hnames.trans)).trans ?_
    simp [Served.terminal?]

/-- What a name stands for is the entry of the key that interning it gives, unless this key belongs
to a nonterminal from elsewhere. -/
theorem Valid.lookup_intern (hI : I.Lawful) (h : Valid I ⟨log, table⟩)
    (hm : ∀ k, I.get? (I.intern table.names m).2 m = some k →
      .register (.nonterminal k) ∈ requests log → ∃ n, I.get? table.names n = some k) :
    table.symbols.lookup (I.intern table.names m).1 = table.get? I m := by
  rw [KeyedTable.get?]
  cases hname : I.get? table.names m with
  | some k => rw [hI.intern_of_get? hname, Option.bind_some]
  | none =>
    rw [Option.bind_none, Option.eq_none_iff_forall_ne_some]
    intro e he
    obtain ⟨n, hn⟩ := (h.source he).elim id (hm _ hI.get?_intern_self)
    have hnm : n = m := hI.get?_inj (hI.get?_intern_of_get? hn) hI.get?_intern_self
    rw [hnm, hname] at hn
    cases hn

theorem Valid.get?_register_terminal (hI : I.Lawful) (h : Valid I ⟨log, table⟩) {t : Terminal}
    (ht : t ≠ .epsilon)
    (hm : m = t.name → ∀ k, I.get? (I.intern table.names m).2 m = some k →
      .register (.nonterminal k) ∈ requests log → ∃ n, I.get? table.names n = some k) :
    (table.register I (.terminal t)).get? I m
      = if m = t.name then some ((table.get? I m).getD (.terminal t)) else table.get? I m := by
  have hnames : (table.register I (.terminal t)).names = (I.intern table.names t.name).2 :=
    KeyedTable.register_terminal_names ht
  split
  next hmt =>
    subst m
    rw [KeyedTable.get?, hnames, hI.get?_intern_self, Option.bind_some,
      KeyedTable.lookup_register_terminal ht, if_pos rfl, h.lookup_intern hI (hm rfl)]
  next hmt =>
    exact KeyedTable.get?_intern_of_ne hI hnames
      (fun l hl => by rw [KeyedTable.lookup_register_terminal ht, if_neg hl]) hmt

/-- Registering a terminal interns its name, which keeps what it stood for. -/
theorem Valid.register_terminal (hI : I.Lawful) (h : Valid I ⟨log, table⟩) {t : Terminal}
    (ht : t ≠ .epsilon) :
    Valid I ⟨log ++ [⟨.register (.terminal t), .done⟩], table.register I (.terminal t)⟩ := by
  have hnames : (table.register I (.terminal t)).names = (I.intern table.names t.name).2 :=
    KeyedTable.register_terminal_names ht
  have hstart : (table.register I (.terminal t)).start = table.start :=
    KeyedTable.register_terminal_start ht
  exact {
    owned := h.owned.register_terminal ht
    known m := by
      rw [hnames, mem_interned_concat, ← h.known, Served.interned?_register_terminal ht,
        Option.some.injEq, eq_comm (a := t.name), or_comm]
      exact hI.isSome_get?_intern
    resolve? hk := by
      rw [hnames] at hk ⊢
      exact hI.resolve?_intern_of_get? h.resolve? hk
    source {l e} hl := by
      rw [KeyedTable.lookup_register_terminal ht] at hl
      rw [hnames]
      split at hl
      next hlk => exact .inl ⟨t.name, hlk ▸ hI.get?_intern_self⟩
      next =>
        exact (h.source hl).imp (fun ⟨m, hm⟩ => ⟨m, hI.get?_intern_of_get? hm⟩)
          mem_requests_concat_of_mem
    issued {n l} hl := by
      rw [hstart, mem_issued_concat] at hl
      obtain ⟨hname, hentry⟩ := h.issued (hl.resolve_right (by simp [Served.issued?]))
      rw [hnames]
      exact ⟨hI.get?_intern_of_get? hname,
        KeyedTable.lookup_register_terminal_of_lookup ht hentry⟩
    keeps m hm := by
      have hold : OnlyTerminals I ⟨log, table⟩ m := hm.of_concat hstart <| by
        rw [hnames]
        exact hI.get?_intern_of_get?
      have hget := h.get?_register_terminal hI ht (m := m) fun hmt k hk hmem =>
        absurd (mem_requests_concat_of_mem hmem)
          (hm.not_registered k (by rwa [hnames, ← hmt]))
      rw [hget, h.keeps m hold, firstUnder_concat]
      by_cases hmt : m = t.name
      · cases firstUnder (· ≠ .epsilon) m log <;>
          simp [Served.terminal?, Option.filter, ht, hmt]
      · simp [Served.terminal?, Option.filter, hmt, Ne.symm hmt] }

/-- At first the start symbol alone is known. -/
theorem valid_initial (hI : I.Lawful) : Valid I (initial I) := by
  have hnames : ∀ n k, I.get? (I.intern I.empty SymbolTable.start).2 n = some k →
      n = SymbolTable.start := by
    intro n k hk
    by_contra hne
    rw [hI.get?_intern_of_ne hne, hI.get?_empty] at hk
    cases hk
  exact {
    owned k l hl := by
      rw [initial, KeyedTable.initial, KeyedTable.lookup_cons] at hl
      split at hl <;> simp_all
    known m := by
      refine hI.isSome_get?_intern.trans ?_
      simp [hI.get?_empty, interned, initial]
    resolve? hk := hI.resolve?_intern_of_get? (fun hn => by simp [hI.get?_empty] at hn) hk
    source {k e} hk := by
      rw [initial, KeyedTable.initial, KeyedTable.lookup_cons] at hk
      split at hk
      next hk' => exact .inl ⟨_, hk' ▸ hI.get?_intern_self⟩
      next => cases hk
    issued {n k} hk := by
      obtain ⟨rfl, rfl⟩ : n = SymbolTable.start ∧ k = (KeyedTable.initial I).start := by
        simpa [issued, initial] using hk
      exact ⟨hI.get?_intern_self, by simp [initial, KeyedTable.initial]⟩
    keeps m hm := by
      have hnone : I.get? (KeyedTable.initial I).names m = none := by
        rw [Option.eq_none_iff_forall_ne_some]
        rintro k hk
        exact hm.not_issued (KeyedTable.initial I).start (by simp [issued, hnames m k hk, initial])
      rw [KeyedTable.get?, initial, hnone]
      rfl }

end Steps

/-! ## Whole sessions -/

section Runs

variable [DecidableEq Key] {I : Interner Key State}

/-- Making up a name ends with the first number that no name was interned for. -/
theorem Valid.fresh {log : List (Served Key)} {table : KeyedTable Key State}
    (h : Valid I ⟨log, table⟩) (base : String) :
    ∃ i, IsLeast {i | SymbolTable.numbered base i ∉ interned log} i ∧
      table.serve I (.fresh base)
        = some (.issued (SymbolTable.numbered base i)
            (table.declare I (SymbolTable.numbered base i)).1,
          (table.declare I (SymbolTable.numbered base i)).2) := by
  obtain ⟨i, hfree, hleast⟩ := Interner.exists_isLeast_free base (interned log)
  have hfirst : I.firstFree table.names base 0 = some i := by
    refine Interner.firstFree_eq_some (Nat.zero_le i) ?_ fun m _ hm hnone => ?_
    · rw [← Option.not_isSome_iff_eq_none, h.known]
      exact hfree
    · have hm' : SymbolTable.numbered base m ∉ interned log := by
        rw [← h.known, hnone]
        nofun
      exact absurd (hleast hm') (by omega)
  exact ⟨i, ⟨hfree, hleast⟩, by simp [KeyedTable.serve, KeyedTable.fresh, hfirst]⟩

/-- Every request is answered, and rightly. -/
theorem Valid.serve (hI : I.Lawful) {log : List (Served Key)} {table : KeyedTable Key State}
    (h : Valid I ⟨log, table⟩) (r : Request Key) :
    ∃ a table', table.serve I r = some (a, table') ∧ table'.start = table.start ∧
      Right table.start log ⟨r, a⟩ ∧ Valid I ⟨log ++ [⟨r, a⟩], table'⟩ := by
  cases r with
  | declare n => exact ⟨_, _, rfl, rfl, ⟨_, rfl⟩, h.declare hI n nofun⟩
  | fresh base =>
    obtain ⟨i, hi, hserve⟩ := h.fresh base
    exact ⟨_, _, hserve, rfl, ⟨i, _, rfl, hi⟩, h.declare hI _ nofun⟩
  | register x =>
    refine ⟨_, _, rfl, ?_⟩
    cases x with
    | nonterminal k => exact ⟨KeyedTable.keep_start _, rfl, h.register_nonterminal k⟩
    | terminal t =>
      by_cases ht : t = .epsilon
      · subst t
        exact ⟨rfl, rfl, h.skip rfl (by simp [Served.terminal?])⟩
      · exact ⟨KeyedTable.register_terminal_start ht, rfl, h.register_terminal hI ht⟩
  | get n =>
    refine ⟨_, _, rfl, rfl, fun k hk => ?_, h.skip rfl rfl⟩
    obtain ⟨hname, hentry⟩ := h.issued hk
    rw [KeyedTable.get?, hname, Option.bind_some, hentry]

theorem run_concat (rs : List (Request Key)) (r : Request Key) :
    run I (rs ++ [r]) = (run I rs).bind (serve I · r) := by
  simp [run, List.foldlM_append]

/-- **Every sequence of requests is served**, and each is answered rightly. -/
theorem exists_run (hI : I.Lawful) (rs : List (Request Key)) :
    ∃ s, run I rs = some s ∧ requests s.log = rs ∧ Valid I s ∧
      ∀ before e after, s.log = before ++ e :: after → Right s.table.start before e := by
  induction rs using List.reverseRecOn with
  | nil =>
    exact ⟨initial I, rfl, rfl, valid_initial hI, fun before e after h => by simp [initial] at h⟩
  | append_singleton rs r ih =>
    obtain ⟨⟨log, table⟩, hrun, rfl, hvalid, hanswers⟩ := ih
    obtain ⟨a, table', hserve, hstart, hright, hvalid'⟩ := hvalid.serve hI r
    refine ⟨⟨log ++ [⟨r, a⟩], table'⟩, ?_, by simp [requests], hvalid', ?_⟩
    · rw [run_concat, hrun, Option.bind_some, serve, hserve, Option.map_some]
    · rw [hstart]
      exact forall_split_concat hanswers hright

/-- Where names, entries and log agree, no names are confused. -/
theorem Valid.sound (hI : I.Lawful) {s : Session Key State} (h : Valid I s)
    (hanswers : ∀ before e after, s.log = before ++ e :: after → Right s.table.start before e) :
    s.Sound I where
  answers := hanswers
  resolve n k hk := by
    rw [KeyedTable.resolve, h.resolve? (h.issued hk).1, Option.getD_some]
  key_eq_iff n m k l hk hl := by
    refine ⟨?_, ?_⟩
    · rintro rfl
      exact hI.get?_inj (h.issued hk).1 (h.issued hl).1
    · rintro rfl
      exact Option.some.inj ((h.issued hk).1.symm.trans (h.issued hl).1)
  get n k hk := by
    rw [KeyedTable.get?, (h.issued hk).1, Option.bind_some, (h.issued hk).2]
  keeps := h.keeps

end Runs

end Session

end Typeahead
