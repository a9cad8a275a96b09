import FileServices.Proofs.CacheAnswer
import FileServices.Proofs.CacheIsolation
import FileServices.Proofs.CachePool

/-!
# Where the proxy and the cache can come to rest

As long as no call fails, the threads come to rest only when every request has been answered: a
side that waits for a semaphore is waiting for a thread that can take a step.
-/

namespace FileServices.Cache

open CString Handoff

variable {c : Config} {s s' : State c} {i : Fin c.nproxies} {j : Fin c.nworkers}
  {g : Fin c.nsegments} {gone : Bool} {ph : Fin c.nsegments → Phase c} {ret : ℤ}

/-! ### The cache does not crash -/

/-- A message names a segment. -/
def WorkerPc.named (c : Config) : WorkerPc c.nsegments → Prop
  | .lookup _ m | .shmOpen _ m _ => ∃ g, m.shmId = c.names g
  | _ => True

structure Intact (s : State c) : Prop where
  crashed : s.crashed = false
  named : ∀ j, (s.worker j).named c

theorem Intact.move (hi : Intact s) {x : WorkerPc c.nsegments}
    (hworker : s'.worker = Function.update s.worker j x) (hcrashed : s'.crashed = s.crashed)
    (hx : x.named c) : Intact s' := by
  refine ⟨hcrashed.trans hi.crashed, fun j' => ?_⟩
  by_cases h : j' = j
  · rw [h, hworker, Function.update_self]
    exact hx
  · rw [hworker, Function.update_of_ne h]
    exact hi.named j'

/-- The cache goes on where what it reads fits the segment. -/
theorem Intact.workerRoutine (hi : Intact s) (hseats : Seats gone s ph)
    (hfits : ∀ r job n, s.worker j = .copy r job (.data n) → n ≤ job.segsize)
    (h : workerRoutine j ret s = some s') : Intact s' := by
  have hnamed := hi.named j
  obtain ⟨pc, hpc, hstep⟩ := workerRoutine_cases h
  rw [hpc] at hnamed
  cases hstep with
  | receive hmq =>
    obtain ⟨g, i, -, hm⟩ := hseats.msgs _ (by rw [hmq]; exact List.mem_cons_self)
    exact hi.move rfl rfl ⟨g, congrArg (fun m => m.2.shmId) hm⟩
  | lookup => exact hi.move rfl rfl hnamed
  | unnamed r m fd hopen =>
    obtain ⟨g, hg⟩ := hnamed
    rw [hg, shmOpen_names] at hopen
    cases hopen
  | overflow r job n hlt => exact absurd (hfits r job n hpc) (Nat.not_le.mpr hlt)
  | _ => exact hi.move rfl rfl trivial

/-- As long as no read fails, what the cache reads fits the segment. -/
theorem Seats.fits (hi : Seats false s ph) {r n : ℕ} {job : Copy c.nsegments}
    (hpc : s.worker j = .copy r job (.data n)) : n ≤ job.segsize := by
  obtain ⟨i, content, w, -, -, -, -, hcopy, -⟩ := hi.past hpc rfl rfl
  cases hcopy with
  | data hchunk hfits hlen => exact hfits rfl

/-- The proxy does not touch the threads of the cache. -/
theorem handleWithCache_cache (h : handleWithCache i ret s = some s') :
    s'.worker = s.worker ∧ s'.crashed = s.crashed := by
  obtain ⟨pc, -, hstep⟩ := handleWithCache_cases h
  cases hstep <;> exact ⟨rfl, rfl⟩

/-- The cache does not touch what belongs to the proxy. -/
theorem workerRoutine_proxy (h : workerRoutine j ret s = some s') : s'.proxy = s.proxy
    ∧ s'.monitor = s.monitor ∧ s'.shmQueue = s.shmQueue ∧ s'.next = s.next ∧ s'.sent = s.sent := by
  obtain ⟨pc, -, hstep⟩ := workerRoutine_cases h
  cases hstep <;> exact ⟨rfl, rfl, rfl, rfl, rfl⟩

/-! ### Runs in which no call fails -/

structure Sound (s : State c) : Prop where
  seats : ∃ ph, Seats false s ph
  pool : Pool s
  log : Log s
  intact : Intact s

/-- The states reached over all interleavings in which no call fails. -/
def Reachable (s : State c) : Prop :=
  Trans.Reach (step c) (Allowed false) (State.init c) s

theorem Sound.next (hs : Sound s) {e : Event c} (hok : Allowed false s e)
    (h : step c e s = some s') : Sound s' := by
  obtain ⟨⟨ph, hi⟩, hpool, hlog, hintact⟩ := hs
  have hseats := seats_step hi hok h
  cases e with
  | proxy i ret =>
    obtain ⟨hworker, hcrashed⟩ := handleWithCache_cache h
    exact ⟨hseats, hpool.handleWithCache h, hlog.handleWithCache hi hok h,
      by rw [hcrashed]; exact hintact.crashed, by rw [hworker]; exact hintact.named⟩
  | worker j ret =>
    simp only [step] at h
    split_ifs at h
    obtain ⟨hproxy, hmonitor, hqueue, hnext, hsent⟩ := workerRoutine_proxy h
    exact ⟨hseats, hpool.same hproxy hmonitor hqueue, hlog.same hproxy hnext hsent,
      hintact.workerRoutine hi (fun _ _ _ => hi.fits) h⟩
  | spurious i =>
    obtain ⟨m, hm, rfl⟩ := Option.map_eq_some_iff.mp h
    exact ⟨hseats, hpool.spurious hm, hlog.same rfl rfl rfl, hintact.crashed, hintact.named⟩

theorem Reachable.sound (h : Reachable s) : Sound s :=
  h.invariant ⟨⟨_, seats_init⟩, pool_init c, log_init c, rfl, fun _ => trivial⟩
    fun _ _ _ hs hok hstep => hs.next hok hstep

/-! ### Blocked threads -/

/-- A thread takes a step of its own, which leaves the spurious wakeups out. -/
def Event.Own : Event c → Prop
  | .spurious _ => False
  | _ => True

/-- No thread can take a step of its own in which no call fails. -/
def Quiescent (s : State c) : Prop :=
  ∀ e : Event c, e.Own → Allowed false s e → step c e s = none

theorem exists_locked (hi : Pool s) (hlock : (s.proxy i).pc.locked = true) :
    ∃ s', handleWithCache i 0 s = some s' := by
  have hknow := hi.knows i
  unfold handleWithCache processResponse
  cases hpc : (s.proxy i).pc with
  | pop =>
    rw [hpc] at hknow
    obtain ⟨g, q, hq⟩ := List.exists_cons_of_ne_nil hknow
    simp [hq, stequePop]
  | queue g branch qpc => cases qpc <;> simp_all [ProxyPc.locked, queueMemory]
  | _ => simp_all [ProxyPc.locked]

/-- A thread of the proxy that can take no step, with the mutex free. -/
theorem proxy_blocked (hi : Pool s) (hfree : s.monitor.owner = none)
    (h : ∀ ret, SendsLast false s i ret → handleWithCache i ret s = none) :
    ((s.proxy i).pc = .idle ∧ c.paths.length ≤ s.next) ∨ i ∈ s.monitor.asleep
      ∨ (∃ g m, (s.proxy i).pc = .mqSend g m ∧ mqMaxmsg ≤ s.msgqueue.length)
      ∨ (∃ g, (s.proxy i).pc = .waitFilelen g ∧ (s.seg g).filelenSem = 0)
      ∨ ∃ g n, (s.proxy i).pc = .waitProxysem g n ∧ (s.seg g).proxysem = 0 := by
  have hknow := hi.knows i
  have hstep : ∀ ret : ℤ, (∀ g n len, (s.proxy i).pc = .send g n len → ret = len) →
      handleWithCache i ret s = none := fun ret hret =>
    h ret fun g n len hpc => .inl (hret g n len hpc)
  unfold handleWithCache processResponse at hstep
  cases hpc : (s.proxy i).pc with
  | idle =>
    have := hstep 0 (by simp [hpc])
    simp only [hpc] at this
    split_ifs at this with hlt
    exact .inl ⟨rfl, Nat.not_lt.mp hlt⟩
  | waiting =>
    have := hstep 0 (by simp [hpc])
    simp only [hpc, Monitor.resume, Monitor.lock, hfree, Option.map_eq_none_iff] at this
    split_ifs at this with hmem
    exact .inr (.inl hmem)
  | pop =>
    have := hstep 0 (by simp [hpc])
    rw [hpc] at hknow
    obtain ⟨g, q, hq⟩ := List.exists_cons_of_ne_nil hknow
    simp [hpc, hq, stequePop] at this
  | mqSend g m =>
    have := hstep 0 (by simp [hpc])
    simp only [hpc] at this
    split_ifs at this with hlt
    exact .inr (.inr (.inl ⟨g, m, rfl, Nat.not_lt.mp hlt⟩))
  | waitFilelen g =>
    have := hstep 0 (by simp [hpc])
    simp only [hpc] at this
    split_ifs at this with hlt
    exact .inr (.inr (.inr (.inl ⟨g, rfl, Nat.eq_zero_of_not_pos hlt⟩)))
  | waitProxysem g n =>
    have := hstep 0 (by simp [hpc])
    simp only [hpc] at this
    split_ifs at this with hlt
    exact .inr (.inr (.inr (.inr ⟨g, n, rfl, Nat.eq_zero_of_not_pos hlt⟩)))
  | send g n len =>
    have := hstep len fun g' n' len' he => by
      rw [hpc] at he
      cases he
      rfl
    simp only [hpc] at this
    split_ifs at this
  | status g =>
    have := hstep 0 (by simp [hpc])
    simp only [hpc] at this
    split_ifs at this
  | queue g branch qpc =>
    have := hstep 0 (by simp [hpc])
    cases qpc <;> simp only [hpc, queueMemory, Monitor.lock, hfree, Option.map_some, reduceCtorEq]
      at this
    cases branch <;> cases this
  | _ =>
    have := hstep 0 (by simp [hpc])
    simp [hpc, Monitor.lock, hfree] at this

/-- A worker of the cache that can take no step. -/
theorem worker_blocked (hi : Seats false s ph)
    (h : ∀ ret, Reads false s j ret → workerRoutine j ret s = none) :
    (s.worker j = .receive ∧ s.msgqueue = [])
      ∨ ∃ r job, s.worker j = .copy r job .waitCachesem ∧ (s.seg job.shm).cachesem = 0 := by
  have hstep := h 1 fun _ _ _ => .inr le_rfl
  unfold workerRoutine sendResponse at hstep
  cases hpc : s.worker j with
  | receive =>
    simp only [hpc] at hstep
    cases hmq : s.msgqueue with
    | nil => exact .inl ⟨rfl, rfl⟩
    | cons m rest => simp [hmq] at hstep
  | lookup r m => simp [hpc] at hstep
  | shmOpen r m fd =>
    simp only [hpc] at hstep
    cases hopen : shmOpen c m.shmId <;> simp [hopen] at hstep
  | missing r g mpc =>
    simp only [hpc] at hstep
    cases mpc <;> cases hstep
  | seek r g fd segsize => simp [hpc] at hstep
  | copy r job cpc =>
    simp only [hpc] at hstep
    cases cpc with
    | waitCachesem =>
      simp only [copyFile] at hstep
      split_ifs at hstep with hempty
      exact .inr ⟨r, job, rfl, Nat.eq_zero_of_not_pos hempty⟩
    | pread =>
      obtain ⟨i, content, w, -, -, -, hjob, hcopy, hses⟩ := hi.past hpc rfl rfl
      cases hcopy with
      | pread =>
        obtain ⟨r, -, htoken⟩ := hses.token
        have hlt := htoken.writing_lt
        have hsegsize := c.segsize_ge
        simp only [copyFile, hjob.offset, ← hjob.file, List.length_drop, hjob.segsize] at hstep
        rw [if_pos ⟨by omega, by simp only [maxRequestLen] at hsegsize; omega⟩,
          if_neg (by decide)] at hstep
        cases hstep
    | data n =>
      simp only [copyFile] at hstep
      split_ifs at hstep
    | _ => cases hstep

/-- A worker waits for a thread of the proxy that can take a step. -/
theorem worker_unblocked (hi : Seats false s ph) (hpool : Pool s) (hfree : s.monitor.owner = none)
    (h : ∀ i ret, SendsLast false s i ret → handleWithCache i ret s = none) {r : ℕ}
    {job : Copy c.nsegments} (hpc : s.worker j = .copy r job .waitCachesem) :
    (s.seg job.shm).cachesem ≠ 0 := by
  intro hzero
  obtain ⟨i, content, w, hph, -, -, -, hcopy, hses⟩ := hi.past hpc rfl rfl
  have hheld : (s.proxy i).pc.shm = some job.shm := (hi.holder i _).mpr (by rw [hph]; rfl)
  cases hcopy with
  | waitCachesem hlt =>
    obtain ⟨r, hr, htoken⟩ := hses.token
    rw [hzero] at htoken
    rcases proxy_blocked hpool hfree (h i) with
      ⟨hpc, -⟩ | hasleep | ⟨g, m, hpc, -⟩ | ⟨g, hpc, hfl⟩ | ⟨g, n, hpc, hps⟩
    · simp [hpc, ProxyPc.reader] at hr
    · simp [hpool.asleep i hasleep, ProxyPc.reader] at hr
    · simp [hpc, ProxyPc.reader] at hr
    · rw [hpc] at hheld
      obtain rfl := Option.some.inj hheld
      exact (hses.filelenSem _ hpc).ne' hfl
    · rw [hpc] at hheld hr
      obtain rfl := Option.some.inj hheld
      obtain rfl := Option.some.inj hr
      rcases htoken.reader_of_taken with ⟨m, -, hfull⟩ | ⟨m, hm⟩ | ⟨m, hm⟩
      · exact hfull.ne' hps
      · cases hm
      · cases hm

/-- With the cache idle, the thread of the proxy that waits for it has been answered. -/
theorem waitFilelen_unblocked (hi : Seats false s ph) (hworkers : ∀ j, s.worker j = .receive)
    (hmq : s.msgqueue = []) (hpc : (s.proxy i).pc = .waitFilelen g) :
    (s.seg g).filelenSem ≠ 0 := by
  have hheld : (s.proxy i).pc.shm = some g := by rw [hpc]; rfl
  rcases (hi.link g).waiting ((hi.holder i g).mp hheld) hpc with hph | ⟨j, hph⟩ | hpos
  · have hpend := hi.pend g
    simp [hmq, hph, Phase.isPending] at hpend
  · have hat := (hi.peer j g).mpr (by rw [hph]; rfl)
    simp [hworkers, WorkerPc.shm] at hat
  · exact hpos.ne'

theorem waitProxysem_unblocked (hi : Seats false s ph) (hworkers : ∀ j, s.worker j = .receive)
    {n : ℕ} (hpc : (s.proxy i).pc = .waitProxysem g n) : (s.seg g).proxysem ≠ 0 := by
  have hheld : (s.proxy i).pc.shm = some g := by rw [hpc]; rfl
  have hlink := hi.link g
  rcases hlink.copies ((hi.holder i g).mp hheld) (by rw [hpc]; rfl) with ⟨j, hph⟩ | ⟨w, hph⟩
  · have hat := (hi.peer j g).mpr (by rw [hph]; rfl)
    simp [hworkers, WorkerPc.shm] at hat
  · rw [hph] at hlink
    obtain ⟨content, -, rfl | ⟨h, -⟩, hses⟩ := hlink
    · obtain ⟨r, hr, htoken⟩ := hses.token
      have hlt := hses.waits g n hpc
      rw [hpc] at hr
      obtain rfl := Option.some.inj hr
      exact (htoken.full_of_lt hlt).ne'
    · cases h

theorem Seats.queued (hi : Seats false s ph) (hnone : ∀ i, (s.proxy i).pc.shm = none)
    (g : Fin c.nsegments) : s.shmQueue.count g = 1 := by
  rw [hi.queue g, if_pos]
  cases hp : (ph g).proxy with
  | none => rfl
  | some i =>
    have hheld := (hi.holder i g).mpr hp
    rw [hnone i] at hheld
    cases hheld

/-- At rest, nothing is on its way and every thread of the proxy waits for requests. -/
theorem Sound.quiescent (hs : Sound s) (hq : Quiescent s) :
    (∀ i, (s.proxy i).pc = .idle) ∧ (∀ j, s.worker j = .receive) ∧ s.msgqueue = []
      ∧ (0 < c.nproxies → s.next = c.paths.length) := by
  obtain ⟨⟨ph, hi⟩, hpool, hlog, hintact⟩ := hs
  have hproxies : ∀ i ret, SendsLast false s i ret → handleWithCache i ret s = none :=
    fun i ret hret => hq (.proxy i ret) trivial hret
  have hworkers : ∀ j ret, Reads false s j ret → workerRoutine j ret s = none :=
    fun j ret hret => by
      have := hq (.worker j ret) trivial hret
      simpa only [step, hintact.crashed, Bool.false_eq_true, if_false] using this
  have hfree : s.monitor.owner = none := hpool.excludes.free fun i hlock => by
    obtain ⟨s', hs'⟩ := exists_locked hpool hlock
    rw [hproxies i 0 fun g n len hpc => by simp [hpc, ProxyPc.locked] at hlock] at hs'
    cases hs'
  have hreceive : ∀ j, s.worker j = .receive ∧ s.msgqueue = [] := fun j => by
    rcases worker_blocked hi (hworkers j) with h | ⟨r, job, hpc, hzero⟩
    · exact h
    · exact absurd hzero (worker_unblocked hi hpool hfree hproxies hpc)
  have hmq : s.msgqueue = [] := (hreceive ⟨0, c.nworkers_pos⟩).2
  have hidle : ∀ i, ((s.proxy i).pc = .idle ∧ c.paths.length ≤ s.next) ∨ i ∈ s.monitor.asleep :=
    fun i => by
      rcases proxy_blocked hpool hfree (hproxies i) with
        h | h | ⟨g, m, -, hfull⟩ | ⟨g, hpc, hfl⟩ | ⟨g, n, hpc, hps⟩
      · exact .inl h
      · exact .inr h
      · rw [hmq] at hfull
        cases hfull
      · exact absurd hfl (waitFilelen_unblocked hi (fun j => (hreceive j).1) hmq hpc)
      · exact absurd hps (waitProxysem_unblocked hi (fun j => (hreceive j).1) hpc)
  have hawake : s.monitor.asleep = ∅ := by
    by_contra hne
    -- nobody holds a segment, so that the queue is not empty and somebody is to wake the sleepers
    have hpcs : ∀ i, (s.proxy i).pc = .idle ∨ (s.proxy i).pc = .waiting := fun i =>
      (hidle i).imp And.left (hpool.asleep i)
    have hqueue : s.shmQueue ≠ [] := fun he => by
      have hcount := hi.queued (fun i => by rcases hpcs i with h | h <;> rw [h] <;> rfl)
        ⟨0, c.nsegments_pos⟩
      simp [he] at hcount
    obtain ⟨i, hwakes⟩ := hpool.woken (Finset.nonempty_iff_ne_empty.mpr hne) hqueue
    rcases hpcs i with h | h <;> simp [h, ProxyPc.wakes] at hwakes
  have hall : ∀ i, (s.proxy i).pc = .idle ∧ c.paths.length ≤ s.next := fun i =>
    (hidle i).resolve_right (by simp [hawake])
  exact ⟨fun i => (hall i).1, fun j => (hreceive j).1, hmq,
    fun hpos => le_antisymm hlog.next_le (hall ⟨0, hpos⟩).2⟩

end FileServices.Cache
