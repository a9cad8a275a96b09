import FileServices.Downloader

/-!
# What a step of the client does

The steps of the boss and of a worker by where the thread stands, each with its guard and the
state that it leaves.
-/

namespace FileServices.Downloader

variable {nthreads n : ℕ} {s s' : Pool nthreads} {k : Fin nthreads}
  {w : Option (Thread nthreads)}

/-- The steps of the boss. -/
inductive MainStep (n : ℕ) (w : Option (Thread nthreads)) (s : Pool nthreads) :
    MainPc → Pool nthreads → Prop
  | next (i) (hlt : i < n) : MainStep n w s (.next i) { s with boss := .lock i }
  | enqueued (i) (hle : n ≤ i) : MainStep n w s (.next i) { s with boss := .lockDone }
  | lock (i) (hfree : s.monitor.owner = none) : MainStep n w s (.lock i)
      { s with monitor := ⟨some .boss, s.monitor.asleep⟩, boss := .enqueue i }
  | enqueue (i) : MainStep n w s (.enqueue i)
      { s with workQueue := s.workQueue ++ [i], boss := .unlock i }
  | unlock (i) : MainStep n w s (.unlock i)
      { s with monitor := s.monitor.unlock, boss := .signal i }
  | signal (i) {m} (hm : s.monitor.signal w = some m) : MainStep n w s (.signal i)
      { s with monitor := m, boss := .next (i + 1) }
  | lockDone (hfree : s.monitor.owner = none) : MainStep n w s .lockDone
      { s with monitor := ⟨some .boss, s.monitor.asleep⟩, boss := .test }
  | undone (hne : s.nrequestsDone ≠ n) : MainStep n w s .test { s with boss := .wait }
  | done (heq : s.nrequestsDone = n) : MainStep n w s .test { s with boss := .unlockDone }
  | wait : MainStep n w s .wait { s with monitor := s.monitor.sleep .boss, boss := .waiting }
  | waiting (hawake : .boss ∉ s.monitor.asleep) (hfree : s.monitor.owner = none) :
    MainStep n w s .waiting
      { s with monitor := ⟨some .boss, s.monitor.asleep⟩, boss := .test }
  | unlockDone : MainStep n w s .unlockDone
      { s with monitor := s.monitor.unlock, boss := .broadcast }
  | broadcast : MainStep n w s .broadcast
      { s with monitor := s.monitor.broadcast, boss := .join 0 }
  | join (j) (hlt : j < nthreads) (hret : (s.worker ⟨j, hlt⟩).pc = .returned) :
    MainStep n w s (.join j) { s with boss := .join (j + 1) }
  | joined (j) (hle : nthreads ≤ j) : MainStep n w s (.join j) { s with boss := .returned }

theorem main_cases (h : main n w s = some s') : ∃ pc, s.boss = pc ∧ MainStep n w s pc s' := by
  refine ⟨_, rfl, ?_⟩
  unfold main at h
  cases hpc : s.boss with
  | next i =>
    simp only [hpc, Option.some.injEq] at h
    subst h
    split_ifs with hlt
    · exact .next i hlt
    · exact .enqueued i (Nat.not_lt.mp hlt)
  | lock i =>
    simp only [hpc, Option.map_eq_some_iff] at h
    obtain ⟨m, hm, rfl⟩ := h
    obtain ⟨hfree, rfl⟩ := Monitor.lock_eq_some.mp hm
    exact .lock i hfree
  | signal i =>
    simp only [hpc, Option.map_eq_some_iff] at h
    obtain ⟨m, hm, rfl⟩ := h
    exact .signal i hm
  | lockDone =>
    simp only [hpc, Option.map_eq_some_iff] at h
    obtain ⟨m, hm, rfl⟩ := h
    obtain ⟨hfree, rfl⟩ := Monitor.lock_eq_some.mp hm
    exact .lockDone hfree
  | test =>
    simp only [hpc, Option.some.injEq] at h
    subst h
    split_ifs with hne
    · exact .undone hne
    · exact .done (not_not.mp hne)
  | waiting =>
    simp only [hpc, Option.map_eq_some_iff] at h
    obtain ⟨m, hm, rfl⟩ := h
    obtain ⟨hawake, hfree, rfl⟩ := Monitor.resume_eq_some.mp hm
    exact .waiting hawake hfree
  | join j =>
    simp only [hpc] at h
    split_ifs at h with hj hret <;> obtain rfl := Option.some.inj h
    · exact .join j hj hret
    · exact .joined j (Nat.not_lt.mp hj)
  | enqueue i | unlock i | wait | unlockDone | broadcast =>
    simp only [hpc, Option.some.injEq] at h
    subst h
    constructor
  | returned => simp [hpc] at h

/-- The steps of worker `k`. -/
inductive WorkerStep (n : ℕ) (k : Fin nthreads) (w : Option (Thread nthreads))
    (s : Pool nthreads) : WorkerPc → Pool nthreads → Prop
  | next (hlt : (s.worker k).i < n) : WorkerStep n k w s .next (s.goto k .lock)
  | through (hle : n ≤ (s.worker k).i) : WorkerStep n k w s .next (s.goto k .returned)
  | lock (hfree : s.monitor.owner = none) : WorkerStep n k w s .lock
      ({ s with monitor := ⟨some (.worker k), s.monitor.asleep⟩ }.goto k .isempty)
  | empty (hq : s.workQueue = []) : WorkerStep n k w s .isempty (s.goto k .checkDone)
  | nonempty (hq : s.workQueue ≠ []) : WorkerStep n k w s .isempty (s.goto k .pop)
  | done (heq : s.nrequestsDone = n) : WorkerStep n k w s .checkDone (s.goto k .unlockReturn)
  | undone (hne : s.nrequestsDone ≠ n) : WorkerStep n k w s .checkDone (s.goto k .wait)
  | unlockReturn : WorkerStep n k w s .unlockReturn
      ({ s with monitor := s.monitor.unlock }.goto k .returned)
  | wait : WorkerStep n k w s .wait
      ({ s with monitor := s.monitor.sleep (.worker k) }.goto k .waiting)
  | waiting (hawake : .worker k ∉ s.monitor.asleep) (hfree : s.monitor.owner = none) :
    WorkerStep n k w s .waiting
      ({ s with monitor := ⟨some (.worker k), s.monitor.asleep⟩ }.goto k .isempty)
  | underflow (hq : s.workQueue = []) : WorkerStep n k w s .pop { s with underflow := true }
  | pop {req q} (hq : s.workQueue = req :: q) :
    WorkerStep n k w s .pop ({ s with workQueue := q }.goto k (.unlockPop req))
  | unlockPop (req) : WorkerStep n k w s (.unlockPop req)
      ({ s with monitor := s.monitor.unlock }.goto k (.signal req))
  | signal (req) {m} (hm : s.monitor.signal w = some m) : WorkerStep n k w s (.signal req)
      ({ s with monitor := m }.goto k (.perform req))
  | perform (req) : WorkerStep n k w s (.perform req)
      ({ s with performed := (req, k) :: s.performed }.goto k .lockDone)
  | lockDone (hfree : s.monitor.owner = none) : WorkerStep n k w s .lockDone
      ({ s with monitor := ⟨some (.worker k), s.monitor.asleep⟩ }.goto k .count)
  | count : WorkerStep n k w s .count
      ({ s with nrequestsDone := s.nrequestsDone + 1 }.goto k .unlockDone)
  | unlockDone : WorkerStep n k w s .unlockDone
      ({ s with monitor := s.monitor.unlock }.goto k .broadcast)
  | broadcast : WorkerStep n k w s .broadcast { s with
      monitor := s.monitor.broadcast
      worker := Function.update s.worker k ⟨(s.worker k).i + 1, .next⟩ }

theorem threadHandleReq_cases (h : threadHandleReq n k w s = some s') :
    ∃ pc, (s.worker k).pc = pc ∧ WorkerStep n k w s pc s' := by
  refine ⟨_, rfl, ?_⟩
  unfold threadHandleReq at h
  cases hpc : (s.worker k).pc with
  | next =>
    simp only [hpc, Option.some.injEq] at h
    subst h
    split_ifs with hlt
    · exact .next hlt
    · exact .through (Nat.not_lt.mp hlt)
  | isempty =>
    simp only [hpc, Option.some.injEq] at h
    subst h
    split_ifs with hq
    · exact .empty (stequeIsempty_iff.mp hq)
    · exact .nonempty fun he => hq (stequeIsempty_iff.mpr he)
  | checkDone =>
    simp only [hpc, Option.some.injEq] at h
    subst h
    split_ifs with hd
    · exact .done hd
    · exact .undone hd
  | pop =>
    simp only [hpc] at h
    cases hpop : stequePop s.workQueue with
    | none =>
      simp only [hpop, Option.some.injEq] at h
      exact h ▸ .underflow (stequePop_eq_none.mp hpop)
    | some p =>
      simp only [hpop, Option.some.injEq] at h
      exact h ▸ .pop (stequePop_eq_some.mp hpop)
  | lock =>
    simp only [hpc, Option.map_eq_some_iff] at h
    obtain ⟨m, hm, rfl⟩ := h
    obtain ⟨hfree, rfl⟩ := Monitor.lock_eq_some.mp hm
    exact .lock hfree
  | lockDone =>
    simp only [hpc, Option.map_eq_some_iff] at h
    obtain ⟨m, hm, rfl⟩ := h
    obtain ⟨hfree, rfl⟩ := Monitor.lock_eq_some.mp hm
    exact .lockDone hfree
  | waiting =>
    simp only [hpc, Option.map_eq_some_iff] at h
    obtain ⟨m, hm, rfl⟩ := h
    obtain ⟨hawake, hfree, rfl⟩ := Monitor.resume_eq_some.mp hm
    exact .waiting hawake hfree
  | signal req =>
    simp only [hpc, Option.map_eq_some_iff] at h
    obtain ⟨m, hm, rfl⟩ := h
    exact .signal req hm
  | unlockReturn | wait | unlockPop | perform | count | unlockDone | broadcast =>
    simp only [hpc, Option.some.injEq] at h
    subst h
    constructor
  | returned => simp [hpc] at h

end FileServices.Downloader
