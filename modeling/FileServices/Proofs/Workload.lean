import FileServices.Workload

/-!
# The paths in turn

`workload_init` stays inside its arrays for up to 100 words of up to 255 bytes.  The calls of
`workload_get_path` are numbered by an `int`, which wraps after `2 ^ 31` of them, and then the
remainder is no longer the one that is meant (`roundRobin_iff`).
-/

namespace FileServices.Workload

open CString Cells

variable {file : Bytes} {done toks : List Bytes} {s s' : Reading} {n N m : ℕ}

/-! ### `workload_init` -/

theorem cstr_terminator (t : Bytes) : ∃ z, t ++ [0] = cstr t ++ 0 :: z := by
  by_cases h : 0 ∈ t
  · obtain ⟨z, hz⟩ := cstr_terminated h
    exact ⟨z ++ [0], by rw [← List.cons_append, ← List.append_assoc, ← hz]⟩
  · exact ⟨[], by rw [cstr_eq_self h]⟩

/-- What there is after the words `done`. -/
structure Read (done : List Bytes) (s : Reading) : Prop where
  i : s.i = done.length
  tempBuf : s.tempBuf.length = 256
  array : s.gWorkloadPathArray
    = done.map (fun t => some (cstr t)) ++ List.replicate (100 - done.length) none
  le : done.length ≤ 100

theorem Read.length (h : Read done s) : s.gWorkloadPathArray.length = 100 := by
  have := h.le
  rw [h.array, List.length_append, List.length_map, List.length_replicate]
  omega

theorem Read.start : Read [] ⟨0, declared 256, List.replicate 100 none⟩ :=
  ⟨rfl, List.length_replicate, rfl, by decide⟩

/-- A word is stored just when it fits the buffer with its terminator and there is an entry left. -/
theorem Read.word (h : Read done s) (word : Bytes) :
    (word.length ≤ 255 ∧ done.length < 100 ∧ ∃ s', readWord s word = .ok s'
        ∧ Read (done ++ [word]) s')
      ∨ ¬ (word.length ≤ 255 ∧ done.length < 100) ∧ ∃ fault, readWord s word = .error fault := by
  by_cases hfit : word.length ≤ 255
  · have hle : 0 + (word ++ [0]).length ≤ s.tempBuf.length := by
      rw [h.tempBuf, List.length_append, List.length_singleton]
      omega
    obtain ⟨z, hz⟩ := cstr_terminator word
    have hload : load 0 ((word ++ [0]).map some ++ s.tempBuf.drop (word ++ [0]).length)
        = .ok (cstr word) := by
      rw [hz, List.map_append, List.map_cons, List.append_assoc, List.cons_append]
      exact load_string _ (notMem_cstr word)
    have hread : readWord s word = if s.i < s.gWorkloadPathArray.length then
        .ok ⟨s.i + 1, (word ++ [0]).map some ++ s.tempBuf.drop (word ++ [0]).length,
          s.gWorkloadPathArray.set s.i (some (cstr word))⟩
        else .error (.writeOutside s.i) := by
      rw [readWord, store_eq hle, List.take_zero, List.nil_append, Nat.zero_add]
      simp only [Except.bind, hload]
    rw [hread, h.length, h.i]
    by_cases hlt : done.length < 100
    · refine .inl ⟨hfit, hlt, _, if_pos hlt, ⟨?_, ?_, ?_, ?_⟩⟩
      · simp
      · rw [List.length_append, List.length_map, List.length_drop, h.tempBuf]
        rw [h.tempBuf] at hle
        omega
      · obtain ⟨k, hk⟩ : ∃ k, 100 - done.length = k + 1 := ⟨100 - done.length - 1, by omega⟩
        have hk' : 100 - (done ++ [word]).length = k := by
          rw [List.length_append, List.length_singleton]
          omega
        rw [h.array, hk, hk', List.set_append_right _ _ (by simp), List.length_map, Nat.sub_self,
          List.replicate_succ, List.set_cons_zero]
        simp
      · rw [List.length_append, List.length_singleton]
        omega
    · exact .inr ⟨fun hboth => hlt hboth.2, _, if_neg hlt⟩
  · refine .inr ⟨fun hboth => hfit hboth.1, ?_⟩
    have hfull : ¬ ∃ buf, store s.tempBuf 0 (word ++ [0]) = .ok buf := by
      rw [store_isOk_iff (by simp), h.tempBuf, List.length_append, List.length_singleton]
      omega
    rcases hstore : store s.tempBuf 0 (word ++ [0]) with fault | buf
    · exact ⟨fault, by rw [readWord, hstore]; rfl⟩
    · exact absurd ⟨buf, hstore⟩ hfull

theorem Read.words : ∀ (toks : List Bytes) {done : List Bytes} {s : Reading}, Read done s →
    (done.length + toks.length ≤ 100 ∧ (∀ t ∈ toks, t.length ≤ 255)
        ∧ ∃ s', toks.foldlM readWord s = .ok s' ∧ Read (done ++ toks) s')
      ∨ ¬ (done.length + toks.length ≤ 100 ∧ ∀ t ∈ toks, t.length ≤ 255)
        ∧ ∃ fault, toks.foldlM readWord s = .error fault
  | [], done, s, h => .inl ⟨h.le, by simp, s, rfl, by rwa [List.append_nil]⟩
  | t :: toks, done, s, h => by
    rcases h.word t with ⟨hfit, hlt, s₁, hs₁, h₁⟩ | ⟨hbad, fault, hfault⟩
    · have hlen : (done ++ [t]).length + toks.length = done.length + (t :: toks).length := by
        simp only [List.length_append, List.length_cons, List.length_nil]
        omega
      have hall : (∀ u ∈ t :: toks, u.length ≤ 255) ↔ ∀ u ∈ toks, u.length ≤ 255 := by
        simp [hfit]
      rw [List.foldlM_cons, hs₁, hall, ← hlen]
      rcases Read.words toks h₁ with ⟨hle, hwords, s', hs', h'⟩ | ⟨hbad, hfault⟩
      · exact .inl ⟨hle, hwords, s', hs', by rwa [List.append_assoc] at h'⟩
      · exact .inr ⟨hbad, hfault⟩
    · refine .inr ⟨fun hboth => hbad ⟨hboth.2 t List.mem_cons_self, ?_⟩, fault, ?_⟩
      · have := hboth.1
        rw [List.length_cons] at this
        omega
      · rw [List.foldlM_cons, hfault]
        rfl

/-- The array after `workload_init`: the strings in the words of the file, and NULL. -/
structure Loaded (file : Bytes) (w : Paths) : Prop where
  array : w.gWorkloadPathArray = (words file).map (fun t => some (cstr t))
    ++ List.replicate (100 - (words file).length) none
  count : w.gUniqueWorkloadPaths = (words file).length
  le : (words file).length ≤ 100

theorem workloadInit_ok {w : Paths} (h : workloadInit file = .ok w) :
    Loaded file w ∧ ∀ t ∈ words file, t.length ≤ 255 := by
  rw [workloadInit] at h
  rcases Read.words (words file) .start with ⟨hle, hwords, s, hs, hread⟩ | ⟨-, fault, hs⟩
  · rw [hs] at h
    obtain rfl := Except.ok.inj h
    rw [List.nil_append] at hread
    refine ⟨⟨hread.array, ?_, hread.le⟩, hwords⟩
    have := hread.le
    change s.i % 2 ^ 16 = _
    rw [hread.i]
    exact Nat.mod_eq_of_lt (by omega)
  · rw [hs] at h
    cases h

theorem workloadInit_isOk (hle : (words file).length ≤ 100)
    (hwords : ∀ t ∈ words file, t.length ≤ 255) : ∃ w, workloadInit file = .ok w := by
  rw [workloadInit]
  rcases Read.words (words file) .start with ⟨-, -, s, hs, -⟩ | ⟨hbad, -⟩
  · rw [hs]
    exact ⟨_, rfl⟩
  · exact absurd ⟨by simpa using hle, hwords⟩ hbad

/-! ### The index -/

/-- The entry of call `k`. -/
@[irreducible] def entryOf (k : ℕ) : ℤ := (k : ℤ).bmod (2 ^ 32)

theorem bmod_succ (w k : ℕ) : ((k : ℤ).bmod w + 1).bmod w = ((k + 1 : ℕ) : ℤ).bmod w := by
  rw [Int.bmod_add_bmod, Nat.cast_succ]

theorem entryOf_succ (k : ℕ) : increment (entryOf k) = entryOf (k + 1) := by
  unfold entryOf
  exact bmod_succ (2 ^ 32) k

theorem entryOf_lt {k : ℕ} (h : k < 2 ^ 31) : entryOf k = k := by
  unfold entryOf
  exact Int.bmod_eq_of_le (by omega) (by omega)

theorem entryOf_wrapped : entryOf (2 ^ 31) = -(2 ^ 31 : ℕ) := by
  unfold entryOf
  decide +kernel

theorem entryOf_wrapped_succ : entryOf (2 ^ 31 + 1) = -(2 ^ 31 - 1 : ℕ) := by
  unfold entryOf
  decide +kernel

theorem neg_tmod_eq_iff {a k : ℕ} :
    (-(a : ℤ)).tmod m = (k % m : ℕ) ↔ m ∣ a ∧ m ∣ k := by
  rw [Int.neg_tmod, ← Int.ofNat_tmod, Nat.dvd_iff_mod_eq_zero, Nat.dvd_iff_mod_eq_zero]
  omega

/-- The remainder of a wrapped entry is right where both are 0. -/
theorem remainders_iff (hm : 0 < m) :
    (∀ k < N, (entryOf k).tmod m = (k % m : ℕ)) ↔
      m = 1 ∨ N ≤ 2 ^ 31 ∨ m ∣ 2 ^ 31 ∧ N = 2 ^ 31 + 1 := by
  constructor
  · intro h
    by_cases h1 : m = 1
    · exact .inl h1
    by_cases hN : N ≤ 2 ^ 31
    · exact .inr (.inl hN)
    have hdvd := h (2 ^ 31) (not_le.mp hN)
    rw [entryOf_wrapped, neg_tmod_eq_iff] at hdvd
    refine .inr (.inr ⟨hdvd.1, ?_⟩)
    by_contra hne
    have hodd := h (2 ^ 31 + 1) (by omega)
    rw [entryOf_wrapped_succ, neg_tmod_eq_iff] at hodd
    have hone : m ∣ 1 := (Nat.dvd_add_right hdvd.1).mp hodd.2
    exact h1 (Nat.dvd_one.mp hone)
  · intro h k hk
    rcases h with rfl | hN | ⟨hdvd, rfl⟩
    · simp [Nat.mod_one]
    · rw [entryOf_lt (hk.trans_le hN), Int.ofNat_tmod]
    · rcases Nat.lt_succ_iff_lt_or_eq.mp hk with hlt | rfl
      · rw [entryOf_lt hlt, Int.ofNat_tmod]
      · rw [entryOf_wrapped, neg_tmod_eq_iff]
        exact ⟨hdvd, hdvd⟩

/-- Call `k` gets the word that is its turn. -/
def Turn (file : Bytes) (w : Paths) (k : ℕ) : Prop :=
  ∃ tok, (words file)[k % (words file).length]? = some tok
    ∧ lookup w (entryOf k) = .ok ((k % (words file).length : ℕ), some (cstr tok))

theorem turn_iff {w : Paths} (h : Loaded file w) (k : ℕ) : Turn file w k ↔
    0 < (words file).length
      ∧ (entryOf k).tmod (words file).length = (k % (words file).length : ℕ) := by
  have hlength : w.gWorkloadPathArray.length = 100 := by
    have := h.le
    rw [h.array, List.length_append, List.length_map, List.length_replicate]
    omega
  rcases Nat.eq_zero_or_pos (words file).length with hzero | hpos
  · refine iff_of_false ?_ (by omega)
    rintro ⟨tok, htok, -⟩
    rw [List.length_eq_zero_iff.mp hzero] at htok
    simp at htok
  · have hlt := Nat.mod_lt k hpos
    have hle := h.le
    rw [and_iff_right hpos, Turn, lookup, h.count, if_neg (by omega), hlength]
    constructor
    · rintro ⟨tok, -, hlookup⟩
      simp only [] at hlookup
      split_ifs at hlookup
      exact (Prod.mk.inj (Except.ok.inj hlookup)).1
    · intro heq
      refine ⟨_, List.getElem?_eq_getElem hlt, ?_⟩
      simp only [heq]
      rw [if_pos (by omega), Int.toNat_natCast, h.array, List.getD_eq_getElem?_getD,
        List.getElem?_append_left (by rwa [List.length_map]), List.getElem?_map,
        List.getElem?_eq_getElem hlt]
      rfl

/-! ### The calls -/

section Calls

variable {nthreads : ℕ} {w : Paths} {t t' : Calls nthreads} {a : Action nthreads}

/-- A returned call has used its turn. -/
def Served (file : Bytes) (c : Call) : Prop :=
  ∃ tok, (words file)[c.number % (words file).length]? = some tok
    ∧ c.index = (c.number % (words file).length : ℕ) ∧ c.path = some (cstr tok)

/-- Entries are numbered as the increments come, and while no more than `N` calls are made all that
have returned were served. -/
structure Numbered (file : Bytes) (N : ℕ) (t : Calls nthreads) : Prop where
  counter : t.counter = entryOf t.made
  entry : ∀ i number entry, t.entry i = some (number, entry) →
    number < t.made ∧ entry = entryOf number
  served : t.made ≤ N → t.fault = none ∧ ∀ c ∈ t.returned, Served file c

theorem Numbered.init (file : Bytes) (N nthreads : ℕ) : Numbered file N (.init nthreads) :=
  ⟨(entryOf_lt (by decide)).symm, nofun, fun _ => ⟨rfl, nofun⟩⟩

theorem enter_entry (t : Calls nthreads) (i j : Fin nthreads) : (t.enter i).entry j
    = if j = i then some (t.made, t.counter) else t.entry j := Function.update_apply ..

theorem leave_entry (t : Calls nthreads) (i j : Fin nthreads) (c : Call) :
    (t.leave i c).entry j = if j = i then none else t.entry j := Function.update_apply ..

theorem fetchAndAdd_eq {i : Fin nthreads} (h : workloadGetPath w (.fetchAndAdd i) t = some t') :
    t' = t.enter i := by
  simp only [workloadGetPath] at h
  split at h
  · exact (Option.some.inj h).symm
  · cases h

theorem index_eq {i : Fin nthreads} (h : workloadGetPath w (.index i) t = some t') :
    ∃ number entry, t.entry i = some (number, entry)
      ∧ ((∃ index path, lookup w entry = .ok (index, path) ∧ t' = t.leave i ⟨number, index, path⟩)
        ∨ ∃ fault, lookup w entry = .error fault ∧ t' = { t with fault := some fault }) := by
  simp only [workloadGetPath] at h
  split at h
  · rename_i number entry hfault hentry
    refine ⟨number, entry, hentry, ?_⟩
    split at h
    · rename_i index path hlookup
      exact .inl ⟨index, path, hlookup, (Option.some.inj h).symm⟩
    · rename_i fault hlookup
      exact .inr ⟨fault, hlookup, (Option.some.inj h).symm⟩
  · cases h

theorem Numbered.enter (h : Numbered file N t) (i : Fin nthreads) :
    Numbered file N (t.enter i) where
  counter := (congrArg increment h.counter).trans (entryOf_succ t.made)
  entry := fun j number entry hj => by
    rw [enter_entry] at hj
    split_ifs at hj
    · obtain ⟨rfl, rfl⟩ := Prod.mk.inj (Option.some.inj hj)
      exact ⟨Nat.lt_succ_self _, h.counter⟩
    · obtain ⟨hlt, heq⟩ := h.entry j number entry hj
      exact ⟨Nat.lt_succ_of_lt hlt, heq⟩
  served := fun hmade => h.served (Nat.le_of_succ_le hmade)

theorem Numbered.leave (h : Numbered file N t) (i : Fin nthreads) {c : Call}
    (hc : t.made ≤ N → Served file c) : Numbered file N (t.leave i c) where
  counter := h.counter
  entry := fun j number entry hj => by
    rw [leave_entry] at hj
    split_ifs at hj
    exact h.entry j number entry hj
  served := fun hmade => by
    refine ⟨(h.served hmade).1, fun d hd => ?_⟩
    rcases List.mem_append.mp hd with hd | hd
    · exact (h.served hmade).2 d hd
    · exact List.mem_singleton.mp hd ▸ hc hmade

theorem Numbered.step (hturn : ∀ k < N, Turn file w k) (h : Numbered file N t)
    (hstep : workloadGetPath w a t = some t') : Numbered file N t' := by
  cases a with
  | fetchAndAdd i => exact fetchAndAdd_eq hstep ▸ h.enter i
  | index i =>
    obtain ⟨number, entry, hi, hcase⟩ := index_eq hstep
    obtain ⟨hlt, rfl⟩ := h.entry i number entry hi
    rcases hcase with ⟨index, path, hlookup, rfl⟩ | ⟨fault, hlookup, rfl⟩
    · refine h.leave i fun hmade => ?_
      obtain ⟨tok, htok, hok⟩ := hturn number (hlt.trans_le hmade)
      obtain ⟨rfl, rfl⟩ := Prod.mk.inj (Except.ok.inj (hlookup.symm.trans hok))
      exact ⟨tok, htok, rfl, rfl⟩
    · refine ⟨h.counter, h.entry, fun hmade => ?_⟩
      obtain ⟨tok, -, hok⟩ := hturn number (hlt.trans_le hmade)
      rw [hok] at hlookup
      cases hlookup

/-- Before call `n` of a single thread. -/
def Waiting (w : Paths) (n : ℕ) (t : Calls 1) : Prop :=
  Trans.Reach (workloadGetPath w) (fun _ _ => True) (.init 1) t ∧ t.made = n
    ∧ t.counter = entryOf n ∧ t.entry 0 = none ∧ t.fault = none

theorem Waiting.enter {t : Calls 1} (h : Waiting w n t) :
    Trans.Reach (workloadGetPath w) (fun _ _ => True) (.init 1) (t.enter 0) := by
  obtain ⟨hreach, -, -, hentry, hfault⟩ := h
  refine hreach.tail trivial (a := .fetchAndAdd 0) ?_
  simp only [workloadGetPath, hfault, hentry]

theorem Waiting.entry {t : Calls 1} (h : Waiting w n t) :
    (t.enter 0).entry 0 = some (n, entryOf n) ∧ (t.enter 0).fault = none := by
  obtain ⟨-, hmade, hcounter, -, hfault⟩ := h
  refine ⟨?_, hfault⟩
  rw [enter_entry, if_pos rfl, hmade, hcounter]

/-- One thread makes `n` calls, each of which finds an entry of the array. -/
theorem one_thread (w : Paths) : ∀ n, (∀ k < n, ∃ r, lookup w (entryOf k) = .ok r) →
    ∃ t : Calls 1, Waiting w n t
  | 0, _ => ⟨_, .refl, rfl, (entryOf_lt (by decide)).symm, rfl, rfl⟩
  | n + 1, h => by
    obtain ⟨t, ht⟩ := one_thread w n fun k hk => h k (Nat.lt_succ_of_lt hk)
    obtain ⟨⟨index, path⟩, hlookup⟩ := h n (Nat.lt_succ_self n)
    obtain ⟨hentry, hfault⟩ := ht.entry
    refine ⟨(t.enter 0).leave 0 ⟨n, index, path⟩, ht.enter.tail trivial (a := .index 0) ?_, ?_, ?_,
      ?_, hfault⟩
    · simp only [workloadGetPath, hfault, hentry, hlookup]
    · exact congrArg Nat.succ ht.2.1
    · exact (congrArg increment ht.2.2.1).trans (entryOf_succ n)
    · rw [leave_entry, if_pos rfl]

/-- The paths are served in turn: `workload_init` stores inside its arrays, and in any order of the
steps of any number of threads that make up to `N` calls, each call that returns is served and no
call is a fault. -/
def RoundRobin (file : Bytes) (N : ℕ) : Prop :=
  ∃ w, workloadInit file = .ok w ∧ ∀ nthreads, ∀ t : Calls nthreads,
    Trans.Reach (workloadGetPath w) (fun _ _ => True) (.init nthreads) t → t.made ≤ N →
      t.fault = none ∧ ∀ c ∈ t.returned, Served file c

/-- What the calls of a single thread come to. -/
theorem turn_of_served (hserved : ∀ t : Calls 1,
      Trans.Reach (workloadGetPath w) (fun _ _ => True) (.init 1) t → t.made ≤ N →
        t.fault = none ∧ ∀ c ∈ t.returned, Served file c) :
    ∀ k < N, Turn file w k := by
  intro k
  induction k using Nat.strong_induction_on with
  | h k ih =>
    intro hk
    obtain ⟨t, ht⟩ := one_thread w k fun m hm =>
      let ⟨_, _, hok⟩ := ih m hm (hm.trans hk)
      ⟨_, hok⟩
    obtain ⟨hentry, hfault⟩ := ht.entry
    have hmade : (t.enter 0).made ≤ N := (congrArg Nat.succ ht.2.1).le.trans hk
    rcases hlookup : lookup w (entryOf k) with fault | ⟨index, path⟩
    · have hstep : workloadGetPath w (.index 0) (t.enter 0)
          = some { t.enter 0 with fault := some fault } := by
        simp only [workloadGetPath, hfault, hentry, hlookup]
      exact absurd (hserved _ (ht.enter.tail trivial hstep) hmade).1 (Option.some_ne_none fault)
    · have hstep : workloadGetPath w (.index 0) (t.enter 0)
          = some ((t.enter 0).leave 0 ⟨k, index, path⟩) := by
        simp only [workloadGetPath, hfault, hentry, hlookup]
      obtain ⟨tok, htok, hindex, hpath⟩ := (hserved _ (ht.enter.tail trivial hstep) hmade).2
        ⟨k, index, path⟩ (List.mem_append_right _ List.mem_cons_self)
      exact ⟨tok, htok, hlookup.trans (congrArg Except.ok (Prod.ext hindex hpath))⟩

end Calls

/-- The paths are served in turn just when each call on its own finds the path of its turn. -/
theorem roundRobin_iff_turns :
    RoundRobin file N ↔ ∃ w, workloadInit file = .ok w ∧ ∀ k < N, Turn file w k := by
  constructor
  · rintro ⟨w, hw, hserved⟩
    exact ⟨w, hw, turn_of_served fun t => hserved 1 t⟩
  · rintro ⟨w, hw, hturn⟩
    refine ⟨w, hw, fun nthreads t hreach hmade => ?_⟩
    have hinv := hreach.invariant (I := Numbered file N) (.init file N nthreads)
      fun s a s' hs _ hstep => hs.step hturn hstep
    exact hinv.served hmade

/-- For every workload file and every number of calls, the paths are served in turn just when the
words fit the arrays, there is a word for the first call, and the counter has not wrapped where the
remainder shows it. -/
theorem roundRobin_iff (file : Bytes) (N : ℕ) : RoundRobin file N ↔ (words file).length ≤ 100
    ∧ (∀ t ∈ words file, t.length ≤ 255) ∧ (N = 0 ∨ 0 < (words file).length
      ∧ ((words file).length = 1 ∨ N ≤ 2 ^ 31
        ∨ (words file).length ∣ 2 ^ 31 ∧ N = 2 ^ 31 + 1)) := by
  have hturns : ∀ {w : Paths}, Loaded file w → ((∀ k < N, Turn file w k) ↔ N = 0
      ∨ 0 < (words file).length ∧ ((words file).length = 1 ∨ N ≤ 2 ^ 31
        ∨ (words file).length ∣ 2 ^ 31 ∧ N = 2 ^ 31 + 1)) := by
    intro w hw
    simp only [turn_iff hw]
    rcases Nat.eq_zero_or_pos N with rfl | hN
    · exact iff_of_true nofun (.inl rfl)
    · rw [or_iff_right hN.ne']
      constructor
      · intro h
        have hpos := (h 0 hN).1
        exact ⟨hpos, (remainders_iff hpos).mp fun k hk => (h k hk).2⟩
      · rintro ⟨hpos, h⟩ k hk
        exact ⟨hpos, (remainders_iff hpos).mpr h k hk⟩
  rw [roundRobin_iff_turns]
  constructor
  · rintro ⟨w, hw, hturn⟩
    obtain ⟨hloaded, hwords⟩ := workloadInit_ok hw
    exact ⟨hloaded.le, hwords, (hturns hloaded).mp hturn⟩
  · rintro ⟨hle, hwords, hcalls⟩
    obtain ⟨w, hw⟩ := workloadInit_isOk hle hwords
    exact ⟨w, hw, (hturns (workloadInit_ok hw).1).mpr hcalls⟩

/-- A file without words: the first call divides by zero. -/
theorem roundRobin_empty : ¬ RoundRobin [] 1 := by
  have hwords : words [] = [] := by
    rw [words]
    rfl
  rw [roundRobin_iff_turns]
  rintro ⟨w, hw, hturn⟩
  have hpos := ((turn_iff (workloadInit_ok hw).1 0).mp (hturn 0 Nat.one_pos)).1
  simp [hwords] at hpos

end FileServices.Workload
