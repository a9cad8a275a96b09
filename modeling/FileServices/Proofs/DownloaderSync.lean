import FileServices.Proofs.DownloaderTally

/-!
# Who sleeps in the client, and who is to wake them

A worker falls asleep only when the queue is empty, so that it takes one signal to have the queue
served.  The boss falls asleep only before the last request is counted, and the worker that counts
it wakes all threads.  The workers that are left are woken by the boss.
-/

namespace FileServices.Downloader

variable {nthreads n : ℕ} {s s' : Pool nthreads} {k : Fin nthreads}
  {w : Option (Thread nthreads)}

def MainPc.locked : MainPc → Bool
  | .enqueue _ | .unlock _ | .test | .wait | .unlockDone => true
  | _ => false

def WorkerPc.locked : WorkerPc → Bool
  | .isempty | .checkDone | .unlockReturn | .wait | .pop | .unlockPop _ | .count
  | .unlockDone => true
  | _ => false

def Pool.locks (s : Pool nthreads) : Thread nthreads → Prop
  | .boss => s.boss.locked = true
  | .worker k => (s.worker k).pc.locked = true

/-- What the boss knows of the counter where it stands. -/
def MainPc.knows (n done : ℕ) : MainPc → Prop
  | .wait => done ≠ n
  | .unlockDone | .broadcast | .join _ | .returned => done = n
  | _ => True

/-- What a worker knows of the queue and the counter where it stands. -/
def WorkerPc.knows (n : ℕ) (queue : List ℕ) (done : ℕ) : WorkerPc → Prop
  | .pop => queue ≠ []
  | .checkDone => queue = []
  | .wait => queue = [] ∧ done ≠ n
  | .unlockReturn | .returned => done = n
  | _ => True

/-- The boss has sent its broadcast. -/
def MainPc.joining : MainPc → Prop
  | .join _ | .returned => True
  | _ => False

/-- The boss has joined worker `k`. -/
def MainPc.joined (k : ℕ) : MainPc → Prop
  | .join j => k < j
  | .returned => True
  | _ => False

/-- A worker that has counted a request is going to wake all threads. -/
def WorkerPc.tells : WorkerPc → Bool
  | .unlockDone | .broadcast => true
  | _ => false

structure Sync (n : ℕ) (s : Pool nthreads) : Prop where
  excludes : s.monitor.Excludes s.locks
  bossAsleep : .boss ∈ s.monitor.asleep → s.boss = .waiting
  asleep : ∀ k, .worker k ∈ s.monitor.asleep → (s.worker k).pc = .waiting
  bossKnows : s.boss.knows n s.nrequestsDone
  knows : ∀ k, (s.worker k).pc.knows n s.workQueue s.nrequestsDone
  /-- A queue that is not empty has a worker awake for it, or the boss is to wake one. -/
  served : s.workQueue ≠ [] →
    (∃ k, .worker k ∉ s.monitor.asleep ∧ (s.worker k).pc ≠ .returned)
      ∨ ∃ i, s.boss = .unlock i ∨ s.boss = .signal i
  /-- The boss does not sleep through the last request. -/
  told : .boss ∈ s.monitor.asleep → s.nrequestsDone = n → ∃ k, (s.worker k).pc.tells = true
  quiet : s.boss.joining → ∀ k, .worker k ∉ s.monitor.asleep
  joined : ∀ k : Fin nthreads, s.boss.joined k → (s.worker k).pc = .returned

theorem sync_init (n : ℕ) : Sync n (Pool.init nthreads) where
  excludes := fun t => by cases t <;> simp [Pool.locks, Pool.init, Monitor.init, MainPc.locked,
    WorkerPc.locked]
  bossAsleep := by simp [Pool.init, Monitor.init]
  asleep := by simp [Pool.init, Monitor.init]
  bossKnows := trivial
  knows := fun _ => trivial
  served := by simp [Pool.init]
  told := by simp [Pool.init, Monitor.init]
  quiet := by simp [Pool.init, Monitor.init]
  joined := fun _ h => h.elim

/-- A thread without the mutex knows at most that all requests are done, which stays so. -/
theorem WorkerPc.knows.of_unlocked {pc : WorkerPc} {q q' : List ℕ} {d d' : ℕ}
    (h : pc.knows n q d) (hpc : pc.locked = false) (hd : d = n → d' = n) : pc.knows n q' d' := by
  cases pc <;> simp_all [knows, locked]

theorem MainPc.knows.of_unlocked {pc : MainPc} {d d' : ℕ} (h : pc.knows n d)
    (hpc : pc.locked = false) (hd : d = n → d' = n) : pc.knows n d' := by
  cases pc <;> simp_all [knows, locked]

/-- A worker that holds the mutex holds it alone. -/
theorem Sync.alone (hi : Sync n s) (hk : (s.worker k).pc.locked = true) :
    s.boss.locked = false ∧ ∀ j, j ≠ k → (s.worker j).pc.locked = false := by
  refine ⟨?_, fun j hj => ?_⟩
  · refine Bool.eq_false_iff.mpr fun hb => ?_
    have := hi.excludes.eq (show s.locks .boss from hb) (show s.locks (.worker k) from hk)
    cases this
  · refine Bool.eq_false_iff.mpr fun hj' => ?_
    have := hi.excludes.eq (show s.locks (.worker j) from hj') (show s.locks (.worker k) from hk)
    cases this
    exact hj rfl

theorem Sync.awake (hi : Sync n s) {pc : WorkerPc} (hpc : (s.worker k).pc = pc)
    (hne : pc ≠ .waiting) : .worker k ∉ s.monitor.asleep :=
  fun hmem => hne (hpc ▸ hi.asleep k hmem)

theorem MainPc.joining.knows {pc : MainPc} {d : ℕ} (h : pc.joining) (hk : pc.knows n d) :
    d = n := by
  cases pc <;> simp_all [joining, MainPc.knows]

/-- A step of worker `k`, from `pc` to the local state `x`. -/
theorem Sync.work (hi : Sync n s) (ht : Tally n s') {pc : WorkerPc} {x : Worker}
    (hpc : (s.worker k).pc = pc) (hboss : s'.boss = s.boss)
    (hworker : s'.worker = Function.update s.worker k x) (hret : pc ≠ .returned)
    (hmoves : Monitor.Moves (.worker k) s.monitor s'.monitor pc.locked x.pc.locked)
    (hasleep : s'.monitor.asleep ⊆ insert (.worker k) s.monitor.asleep)
    (hself : .worker k ∈ s'.monitor.asleep →
      x.pc = .waiting ∧ s'.workQueue = [] ∧ s'.nrequestsDone ≠ n)
    (hchange : (s'.workQueue = s.workQueue ∧ s'.nrequestsDone = s.nrequestsDone)
      ∨ pc.locked = true ∧ s.nrequestsDone ≠ n)
    (hknow : x.pc.knows n s'.workQueue s'.nrequestsDone)
    (htold : .boss ∈ s'.monitor.asleep → s'.nrequestsDone = n →
      x.pc.tells = true ∨ s.nrequestsDone = n ∧ pc.tells = false) : Sync n s' := by
  subst hpc
  have hother : ∀ j, j ≠ k → s'.worker j = s.worker j := fun j hj => by
    rw [hworker, Function.update_of_ne hj]
  have hnew : s'.worker k = x := by rw [hworker, Function.update_self]
  have hsub : ∀ t, t ≠ .worker k → t ∈ s'.monitor.asleep → t ∈ s.monitor.asleep :=
    fun t hne hmem => (Finset.mem_insert.mp (hasleep hmem)).resolve_left hne
  have hworkers : ∀ j, j ≠ k → .worker j ∈ s'.monitor.asleep → .worker j ∈ s.monitor.asleep :=
    fun j hj => hsub _ fun e => hj (Thread.worker.inj e)
  have hbossKnows : s'.boss.knows n s'.nrequestsDone := by
    rw [hboss]
    rcases hchange with ⟨-, hd⟩ | ⟨hlock, hd⟩
    · exact hd ▸ hi.bossKnows
    · exact hi.bossKnows.of_unlocked (hi.alone hlock).1 fun h => absurd h hd
  refine ⟨?_, fun h => hboss ▸ hi.bossAsleep (hsub _ (by simp) h), fun j hj => ?_, hbossKnows,
    fun j => ?_, fun hq => ?_, fun hb hd => ?_, fun hb j hj => ?_, fun j hj => ?_⟩
  · refine hi.excludes.moves hmoves Iff.rfl (by simp only [Pool.locks, hnew]) fun u hu => ?_
    cases u with
    | boss => simp only [Pool.locks, hboss]
    | worker j => simp only [Pool.locks, hother j fun e => hu (e ▸ rfl)]
  · by_cases hjk : j = k
    · subst hjk
      exact hnew.symm ▸ (hself hj).1
    · exact hother j hjk ▸ hi.asleep j (hworkers j hjk hj)
  · by_cases hjk : j = k
    · exact hjk ▸ hnew.symm ▸ hknow
    · rw [hother j hjk]
      rcases hchange with ⟨hq, hd⟩ | ⟨hlock, hd⟩
      · exact hq ▸ hd ▸ hi.knows j
      · exact (hi.knows j).of_unlocked ((hi.alone hlock).2 j hjk) fun h => absurd h hd
  · refine .inl ⟨k, fun hmem => hq (hself hmem).2.1, fun he => hq (ht.queue_eq_nil ?_)⟩
    rw [hnew] at he
    simpa [he, WorkerPc.knows] using hknow
  · rcases htold hb hd with hx | ⟨hn, hx⟩
    · exact ⟨k, hnew.symm ▸ hx⟩
    · obtain ⟨j, hj⟩ := hi.told (hsub _ (by simp) hb) hn
      have hjk : j ≠ k := fun e => by simp [← e, hj] at hx
      exact ⟨j, (hother j hjk).symm ▸ hj⟩
  · by_cases hjk : j = k
    · subst hjk
      exact (hself hj).2.2 (hb.knows hbossKnows)
    · exact hi.quiet (hboss ▸ hb) j (hworkers j hjk hj)
  · have hret' := hi.joined j (hboss ▸ hj)
    rw [hother j fun e => hret (e ▸ hret')]
    exact hret'

/-- A step of worker `k` that touches neither the queue nor the counter, and keeps `k` awake. -/
theorem Sync.pass (hi : Sync n s) (ht : Tally n s') {pc : WorkerPc} {x : Worker}
    (hpc : (s.worker k).pc = pc) (hboss : s'.boss = s.boss)
    (hworker : s'.worker = Function.update s.worker k x) (hret : pc ≠ .returned)
    (hmoves : Monitor.Moves (.worker k) s.monitor s'.monitor pc.locked x.pc.locked)
    (hasleep : s'.monitor.asleep ⊆ s.monitor.asleep) (hself : .worker k ∉ s.monitor.asleep)
    (hqueue : s'.workQueue = s.workQueue) (hdone : s'.nrequestsDone = s.nrequestsDone)
    (hknow : x.pc.knows n s.workQueue s.nrequestsDone)
    (htells : .boss ∈ s'.monitor.asleep → x.pc.tells = pc.tells) : Sync n s' := by
  refine hi.work ht hpc hboss hworker hret hmoves (hasleep.trans (Finset.subset_insert _ _))
    (fun h => absurd (hasleep h) hself) (.inl ⟨hqueue, hdone⟩) (hqueue ▸ hdone ▸ hknow)
    fun hb hd => ?_
  rw [htells hb]
  cases htell : pc.tells
  · exact .inr ⟨hdone ▸ hd, rfl⟩
  · exact .inl rfl

theorem Sync.threadHandleReq (hi : Sync n s) (ht : Tally n s)
    (h : threadHandleReq n k w s = some s') (hunder : s'.underflow = false) : Sync n s' := by
  have ht' := ht.threadHandleReq h
  have hknow := hi.knows k
  obtain ⟨pc, hpc, hstep⟩ := threadHandleReq_cases h
  rw [hpc] at hknow
  cases hstep with
  | next | perform =>
    exact hi.pass ht' hpc rfl rfl (by simp) (.keep rfl) subset_rfl (hi.awake hpc (by simp))
      rfl rfl trivial fun _ => rfl
  | through hle =>
    have hdone : s.nrequestsDone = n := ht.done_of_loop (k := k) (by rwa [Worker.counted, hpc])
    exact hi.pass ht' hpc rfl rfl (by simp) (.keep rfl) subset_rfl (hi.awake hpc (by simp)) rfl rfl
      hdone fun _ => rfl
  | empty hq | nonempty hq =>
    exact hi.pass ht' hpc rfl rfl (by simp) (.keep rfl) subset_rfl (hi.awake hpc (by simp))
      rfl rfl hq fun _ => rfl
  | done hd =>
    exact hi.pass ht' hpc rfl rfl (by simp) (.keep rfl) subset_rfl (hi.awake hpc (by simp))
      rfl rfl hd fun _ => rfl
  | undone hd =>
    exact hi.pass ht' hpc rfl rfl (by simp) (.keep rfl) subset_rfl (hi.awake hpc (by simp)) rfl rfl
      ⟨hknow, hd⟩ fun _ => rfl
  | wait =>
    obtain ⟨hq, hd⟩ := hknow
    exact hi.work ht' hpc rfl rfl (by simp) (.drop rfl) subset_rfl
      (fun _ => ⟨by simp, hq, hd⟩) (.inl ⟨rfl, rfl⟩) trivial
      fun _ hd' => absurd hd' hd
  | underflow => cases hunder
  | pop =>
    exact hi.work ht' hpc rfl rfl (by simp) (.keep rfl) (Finset.subset_insert _ _)
      (fun h => absurd h (hi.awake hpc (by simp)))
      (.inr ⟨rfl, fun hd => hknow (ht.queue_eq_nil hd)⟩) trivial fun _ hd => .inr ⟨hd, rfl⟩
  | count =>
    have hlt : s.nrequestsDone < n := ht.done_lt (k := k) (by rw [hpc]; rfl)
    exact hi.work ht' hpc rfl rfl (by simp) (.keep rfl) (Finset.subset_insert _ _)
      (fun h => absurd h (hi.awake hpc (by simp))) (.inr ⟨rfl, hlt.ne⟩) trivial fun _ _ => .inl rfl
  | broadcast =>
    exact hi.pass ht' hpc rfl rfl (by simp) (.keep rfl) (Finset.empty_subset _)
      (hi.awake hpc (by simp)) rfl rfl trivial fun hb => absurd hb (Finset.notMem_empty _)
  | unlockReturn | unlockPop | unlockDone =>
    exact hi.pass ht' hpc rfl rfl (by simp) (.drop rfl) subset_rfl (hi.awake hpc (by simp))
      rfl rfl hknow fun _ => rfl
  | lock hfree | lockDone hfree =>
    exact hi.pass ht' hpc rfl rfl (by simp) (.take hfree rfl) subset_rfl (hi.awake hpc (by simp))
      rfl rfl trivial fun _ => rfl
  | waiting hawake hfree =>
    exact hi.pass ht' hpc rfl rfl (by simp) (.take hfree rfl) subset_rfl hawake rfl rfl trivial
      fun _ => rfl
  | signal req hm =>
    obtain ⟨hown, hsub⟩ := Monitor.signal_spec hm
    exact hi.pass ht' hpc rfl rfl (by simp) (.keep hown) hsub (hi.awake hpc (by simp))
      rfl rfl trivial fun _ => rfl

/-- A step of the boss, from `pc` to `pc'`. -/
theorem Sync.boss (hi : Sync n s) {pc pc' : MainPc} (hpc : s.boss = pc) (hpc' : s'.boss = pc')
    (hworker : s'.worker = s.worker) (hdone : s'.nrequestsDone = s.nrequestsDone)
    (hmoves : Monitor.Moves .boss s.monitor s'.monitor pc.locked pc'.locked)
    (hasleep : s'.monitor.asleep ⊆ insert .boss s.monitor.asleep)
    (hself : .boss ∈ s'.monitor.asleep → pc' = .waiting ∧ s'.nrequestsDone ≠ n)
    (hqueue : s'.workQueue = s.workQueue ∨ pc.locked = true)
    (hknow : pc'.knows n s.nrequestsDone)
    (hserved : s'.workQueue ≠ [] → (∃ i, pc' = .unlock i ∨ pc' = .signal i)
      ∨ (∃ k, .worker k ∉ s'.monitor.asleep ∧ (s.worker k).pc ≠ .returned))
    (hquiet : pc'.joining → pc.joining ∨ s'.monitor.asleep = ∅)
    (hjoined : ∀ k : Fin nthreads, pc'.joined k → pc.joined k ∨ (s.worker k).pc = .returned) :
    Sync n s' := by
  subst hpc
  have hsub : ∀ k, .worker k ∈ s'.monitor.asleep → .worker k ∈ s.monitor.asleep :=
    fun k hmem => (Finset.mem_insert.mp (hasleep hmem)).resolve_left (by simp)
  refine ⟨?_, fun h => hpc' ▸ (hself h).1, fun k hk => ?_, hpc' ▸ hdone ▸ hknow, fun k => ?_,
    fun hq => ?_, fun hb hd => absurd hd (hself hb).2, fun hb k hk => ?_, fun k hk => ?_⟩
  · refine hi.excludes.moves hmoves Iff.rfl (by simp only [Pool.locks, hpc']) fun u hu => ?_
    cases u with
    | boss => exact absurd rfl hu
    | worker j => simp only [Pool.locks, hworker]
  · exact hworker ▸ hi.asleep k (hsub k hk)
  · rw [hworker, hdone]
    rcases hqueue with hq | hlock
    · exact hq ▸ hi.knows k
    · refine (hi.knows k).of_unlocked (Bool.eq_false_iff.mpr fun hk => ?_) id
      rw [(hi.alone hk).1] at hlock
      cases hlock
  · rw [hpc', hworker]
    exact (hserved hq).symm
  · rw [hpc'] at hb
    rcases hquiet hb with hj | he
    · exact hi.quiet hj k (hsub k hk)
    · rw [he] at hk
      exact Finset.notMem_empty _ hk
  · rw [hpc'] at hk
    rw [hworker]
    exact (hjoined k hk).elim (hi.joined k) id

theorem Sync.bossAwake (hi : Sync n s) {pc : MainPc} (hpc : s.boss = pc) (hne : pc ≠ .waiting) :
    .boss ∉ s.monitor.asleep := fun hmem => hne (hpc ▸ hi.bossAsleep hmem)

/-- The boss signals after each request it puts on the queue. -/
def MainPc.signals : MainPc → Bool
  | .unlock _ | .signal _ => true
  | _ => false

theorem Sync.servedBy (hi : Sync n s) (hpc : s.boss.signals = false) (hq : s.workQueue ≠ []) :
    ∃ k, .worker k ∉ s.monitor.asleep ∧ (s.worker k).pc ≠ .returned := by
  rcases hi.served hq with hk | ⟨i, hb | hb⟩
  · exact hk
  · simp [hb, MainPc.signals] at hpc
  · simp [hb, MainPc.signals] at hpc

/-- While there is something on the queue no worker has returned. -/
theorem Sync.notReturned (hi : Sync n s) (ht : Tally n s) (hq : s.workQueue ≠ [])
    (k : Fin nthreads) : (s.worker k).pc ≠ .returned := fun hret => by
  have hk := hi.knows k
  rw [hret] at hk
  exact hq (ht.queue_eq_nil hk)

theorem Sync.main (hi : Sync n s) (ht : Tally n s) (hthreads : 0 < nthreads)
    (h : main n w s = some s') : Sync n s' := by
  have hknow := hi.bossKnows
  obtain ⟨pc, hpc, hstep⟩ := main_cases h
  rw [hpc] at hknow
  have hserved := fun hs : pc.signals = false => hi.servedBy (hpc ▸ hs)
  cases hstep with
  | next | enqueued =>
    exact hi.boss hpc rfl rfl rfl (.keep rfl) (Finset.subset_insert _ _)
      (fun h => absurd h (hi.bossAwake hpc nofun)) (.inl rfl) trivial
      (fun hq => .inr (hserved rfl hq)) nofun nofun
  | lock i hfree =>
    exact hi.boss hpc rfl rfl rfl (.take hfree rfl) (Finset.subset_insert _ _)
      (fun h => absurd h (hi.bossAwake hpc nofun)) (.inl rfl) trivial
      (fun hq => .inr (hserved rfl hq)) nofun nofun
  | lockDone hfree =>
    exact hi.boss hpc rfl rfl rfl (.take hfree rfl) (Finset.subset_insert _ _)
      (fun h => absurd h (hi.bossAwake hpc nofun)) (.inl rfl) trivial
      (fun hq => .inr (hserved rfl hq)) nofun nofun
  | enqueue i =>
    exact hi.boss hpc rfl rfl rfl (.keep rfl) (Finset.subset_insert _ _)
      (fun h => absurd h (hi.bossAwake hpc nofun)) (.inr rfl) trivial
      (fun _ => .inl ⟨i, .inl rfl⟩) nofun nofun
  | unlock i =>
    exact hi.boss hpc rfl rfl rfl (.drop rfl) (Finset.subset_insert _ _)
      (fun h => absurd h (hi.bossAwake hpc nofun)) (.inl rfl) trivial
      (fun _ => .inl ⟨i, .inr rfl⟩) nofun nofun
  | signal i hm =>
    obtain ⟨hown, hsub⟩ := Monitor.signal_spec hm
    refine hi.boss hpc rfl rfl rfl (.keep hown) (hsub.trans (Finset.subset_insert _ _))
      (fun h => absurd (hsub h) (hi.bossAwake hpc nofun)) (.inl rfl) trivial
      (fun hq => .inr ?_) nofun nofun
    -- the boss is awake, so that it is a worker that the signal wakes
    rcases Monitor.signal_eq_some.mp hm with ⟨t, -, ht', rfl⟩ | ⟨-, hnone, rfl⟩
    · cases t with
      | boss => exact absurd ht' (hi.bossAwake hpc nofun)
      | worker k => exact ⟨k, Finset.notMem_erase _ _, hi.notReturned ht hq k⟩
    · exact ⟨⟨0, hthreads⟩, by simp [hnone], hi.notReturned ht hq _⟩
  | undone hd | done hd =>
    exact hi.boss hpc rfl rfl rfl (.keep rfl) (Finset.subset_insert _ _)
      (fun h => absurd h (hi.bossAwake hpc nofun)) (.inl rfl) hd
      (fun hq => .inr (hserved rfl hq)) nofun nofun
  | wait =>
    refine hi.boss hpc rfl rfl rfl (.drop rfl) subset_rfl (fun _ => ⟨rfl, hknow⟩) (.inl rfl) trivial
      (fun hq => .inr ?_) nofun nofun
    obtain ⟨k, hk, hret⟩ := hserved rfl hq
    exact ⟨k, by simpa [Monitor.sleep] using hk, hret⟩
  | waiting hawake hfree =>
    exact hi.boss hpc rfl rfl rfl (.take hfree rfl) (Finset.subset_insert _ _)
      (fun h => absurd h hawake) (.inl rfl) trivial (fun hq => .inr (hserved rfl hq)) nofun nofun
  | unlockDone =>
    exact hi.boss hpc rfl rfl rfl (.drop rfl) (Finset.subset_insert _ _)
      (fun h => absurd h (hi.bossAwake hpc nofun)) (.inl rfl) hknow
      (fun hq => .inr (hserved rfl hq)) nofun nofun
  | broadcast =>
    exact hi.boss hpc rfl rfl rfl (.keep rfl) (Finset.empty_subset _)
      (fun h => absurd h (Finset.notMem_empty _)) (.inl rfl) hknow
      (fun hq => absurd (ht.queue_eq_nil hknow) hq) (fun _ => .inr rfl)
      fun k hk => absurd hk (Nat.not_lt_zero _)
  | join j hlt hret =>
    refine hi.boss hpc rfl rfl rfl (.keep rfl) (Finset.subset_insert _ _)
      (fun h => absurd h (hi.bossAwake hpc nofun)) (.inl rfl) hknow
      (fun hq => absurd (ht.queue_eq_nil hknow) hq) (fun _ => .inl trivial) fun k hk => ?_
    rcases Nat.lt_succ_iff_lt_or_eq.mp hk with hk | heq
    · exact .inl hk
    · obtain rfl : k = ⟨j, hlt⟩ := Fin.ext heq
      exact .inr hret
  | joined j hle =>
    exact hi.boss hpc rfl rfl rfl (.keep rfl) (Finset.subset_insert _ _)
      (fun h => absurd h (hi.bossAwake hpc nofun)) (.inl rfl) hknow
      (fun hq => absurd (ht.queue_eq_nil hknow) hq) (fun _ => .inl trivial)
      fun k _ => .inl (k.isLt.trans_le hle)

/-- A wakeup takes a sleeper out of its sleep and does nothing else. -/
theorem Sync.spurious (hi : Sync n s) {t : Thread nthreads} {m : Monitor (Thread nthreads)}
    (h : s.monitor.wake t = some m) : Sync n { s with monitor := m } := by
  obtain ⟨-, rfl⟩ := Monitor.wake_eq_some.mp h
  have hsub := Finset.erase_subset t s.monitor.asleep
  exact { hi with
    excludes := hi.excludes
    bossAsleep := fun hb => hi.bossAsleep (hsub hb)
    asleep := fun k hk => hi.asleep k (hsub hk)
    served := fun hq => (hi.served hq).imp_left fun ⟨k, hk, hret⟩ =>
      ⟨k, fun hm => hk (hsub hm), hret⟩
    told := fun hb => hi.told (hsub hb)
    quiet := fun hb k hk => hi.quiet hb k (hsub hk) }

end FileServices.Downloader
