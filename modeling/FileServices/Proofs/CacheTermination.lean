import FileServices.Lib.Total
import FileServices.Proofs.CacheProgress

/-!
# The proxy and the cache do not run for ever

Each step of a thread takes it down a ladder, or takes a message or a request off those that are
left.  A broadcast, which sends the sleepers back to the queue, is worth more than all of that.
-/

namespace FileServices.Cache

open CString Handoff Total

variable {c : Config} {s s' : State c} {i : Fin c.nproxies} {j : Fin c.nworkers}
  {ph : Fin c.nsegments → Phase c} {ret : ℤ}

/-- No file is longer. -/
def maxLen : ℕ := 2 ^ 63

/-! ### The ladders -/

def CopyPc.rank : CopyPc → ℕ
  | .filesize => 8 | .status => 7 | .postFilelen => 6
  | .loop => 5 | .waitCachesem => 4 | .pread => 3 | .readLen _ => 2 | .data _ => 1
  | .postProxysem _ => 0

def MissingPc.rank : MissingPc → ℕ
  | .filesize => 3 | .status => 2 | .postFilelen => 1

def WorkerPc.rank (c : Config) : WorkerPc c.nsegments → ℕ
  | .receive => 0
  | .lookup _ _ => 6 * maxLen + 11
  | .shmOpen _ _ _ => 6 * maxLen + 10
  | .seek _ _ _ _ => 6 * maxLen + 9
  | .missing _ _ pc => pc.rank
  | .copy _ job pc => 6 * (maxLen - job.bytesRead) + pc.rank

/-- What a message is worth. -/
def msgWorth : ℕ := 6 * maxLen + 12

def QueuePc.rank : QueuePc → ℕ
  | .readLen => 6 | .filesize => 5 | .lock => 4 | .enqueue => 3 | .unlock => 2 | .broadcast => 1

/-- `k` is what a broadcast is worth. -/
def ProxyPc.rank {n : ℕ} (k : ℕ) : ProxyPc n → ℕ
  | .idle => 0
  | .notFound => 1
  | .queue _ _ pc => k + 1 + pc.rank
  | .send _ n _ => k + 8 + 5 * (maxLen - n)
  | .load _ n => k + 9 + 5 * (maxLen - n)
  | .waitProxysem _ n => k + 10 + 5 * (maxLen - n)
  | .loop _ n => k + 11 + 5 * (maxLen - n)
  | .postCachesem _ n => k + 12 + 5 * (maxLen - n)
  | .header _ => k + 12 + 5 * maxLen
  | .status _ => k + 13 + 5 * maxLen
  | .waitFilelen _ => k + 14 + 5 * maxLen
  | .mqSend _ _ => k + 15 + 5 * maxLen + msgWorth
  | .initCachesem _ _ => k + 16 + 5 * maxLen + msgWorth
  | .initProxysem _ _ => k + 17 + 5 * maxLen + msgWorth
  | .initFilelen _ _ => k + 18 + 5 * maxLen + msgWorth
  | .fill _ => k + 19 + 5 * maxLen + msgWorth
  | .broadcast _ => k + 20 + 5 * maxLen + msgWorth + k
  | .unlock _ => k + 21 + 5 * maxLen + msgWorth + k
  | .pop => k + 22 + 5 * maxLen + msgWorth + k
  | .wait => k + 23 + 5 * maxLen + msgWorth + k
  | .isempty => k + 24 + 5 * maxLen + msgWorth + k
  | .lock | .waiting => k + 25 + 5 * maxLen + msgWorth + k

/-- What a sleeper does from its wakeup to its next sleep, for all threads of the proxy. -/
def Config.wakeups (c : Config) : ℕ := 4 * c.nproxies

/-- What is left to do outside the threads. -/
def State.waiting (s : State c) : ℕ :=
  (c.paths.length - s.next) * (c.wakeups + 26 + 5 * maxLen + msgWorth + c.wakeups)
    + s.msgqueue.length * msgWorth + (c.wakeups - 4 * s.monitor.asleep.card)

def State.measure (s : State c) : ℕ :=
  s.waiting + total (fun p => p.pc.rank c.wakeups) s.proxy + total (WorkerPc.rank c) s.worker
    + if s.crashed then 0 else 1

theorem measure_lt_proxy {x : Proxy c.nsegments} (hproxy : s'.proxy = Function.update s.proxy i x)
    (hworker : s'.worker = s.worker) (hcrashed : s'.crashed = s.crashed)
    (hlt : s'.waiting + x.pc.rank c.wakeups < s.waiting + (s.proxy i).pc.rank c.wakeups) :
    s'.measure < s.measure := by
  have := total_update (fun p : Proxy c.nsegments => p.pc.rank c.wakeups) s.proxy i x
  unfold State.measure
  rw [hproxy, hworker, hcrashed]
  omega

theorem measure_lt_worker {x : WorkerPc c.nsegments}
    (hworker : s'.worker = Function.update s.worker j x) (hproxy : s'.proxy = s.proxy)
    (hcrashed : s'.crashed = s.crashed)
    (hlt : s'.waiting + x.rank c < s.waiting + (s.worker j).rank c) : s'.measure < s.measure := by
  have := total_update (WorkerPc.rank c) s.worker j x
  unfold State.measure
  rw [hproxy, hworker, hcrashed]
  omega

/-- A step down the ladder. -/
theorem measure_lt_step {x : Proxy c.nsegments} {pc : ProxyPc c.nsegments}
    (hpc : (s.proxy i).pc = pc) (hproxy : s'.proxy = Function.update s.proxy i x)
    (hworker : s'.worker = s.worker) (hcrashed : s'.crashed = s.crashed)
    (hnext : s'.next = s.next) (hmq : s'.msgqueue = s.msgqueue)
    (hasleep : s'.monitor.asleep = s.monitor.asleep)
    (hlt : x.pc.rank c.wakeups < pc.rank c.wakeups) : s'.measure < s.measure := by
  refine measure_lt_proxy hproxy hworker hcrashed ?_
  unfold State.waiting
  rw [hnext, hmq, hasleep, hpc]
  omega

theorem measure_lt_work {x : WorkerPc c.nsegments} {pc : WorkerPc c.nsegments}
    (hpc : s.worker j = pc) (hworker : s'.worker = Function.update s.worker j x)
    (hproxy : s'.proxy = s.proxy) (hcrashed : s'.crashed = s.crashed)
    (hnext : s'.next = s.next) (hmq : s'.msgqueue = s.msgqueue)
    (hmonitor : s'.monitor = s.monitor) (hlt : x.rank c < pc.rank c) :
    s'.measure < s.measure := by
  refine measure_lt_worker hworker hproxy hcrashed ?_
  unfold State.waiting
  rw [hnext, hmq, hmonitor, hpc]
  omega

/-- A broadcast is worth more than the wakeups. -/
theorem measure_lt_broadcast {x : Proxy c.nsegments} {pc : ProxyPc c.nsegments}
    (hpc : (s.proxy i).pc = pc) (hproxy : s'.proxy = Function.update s.proxy i x)
    (hworker : s'.worker = s.worker) (hcrashed : s'.crashed = s.crashed)
    (hnext : s'.next = s.next) (hmq : s'.msgqueue = s.msgqueue)
    (hlt : x.pc.rank c.wakeups + c.wakeups < pc.rank c.wakeups) : s'.measure < s.measure := by
  refine measure_lt_proxy hproxy hworker hcrashed ?_
  have hcard := Finset.card_le_univ s.monitor.asleep
  rw [Fintype.card_fin] at hcard
  unfold State.waiting
  rw [hnext, hmq, hpc]
  unfold Config.wakeups at hlt ⊢
  omega

/-! ### The steps -/

theorem handleWithCache_measure (hi : Seats false s ph) (hpool : Pool s)
    (hsend : SendsLast false s i ret) (h : handleWithCache i ret s = some s') :
    s'.measure < s.measure := by
  obtain ⟨pc, hpc, hstep⟩ := handleWithCache_cases h
  cases hstep with
  | idle hlt =>
    refine measure_lt_proxy rfl rfl rfl ?_
    obtain ⟨k, hk⟩ : ∃ k, c.paths.length - s.next = k + 1 := ⟨c.paths.length - s.next - 1, by omega⟩
    have hk' : c.paths.length - (s.next + 1) = k := by omega
    simp only [State.waiting, hpc, ProxyPc.rank, hk, hk', Nat.succ_mul]
    omega
  | wait =>
    refine measure_lt_proxy rfl rfl rfl ?_
    have hcard : (insert i s.monitor.asleep).card ≤ c.nproxies := by
      simpa using Finset.card_le_univ (insert i s.monitor.asleep)
    rw [Finset.card_insert_of_notMem (hpool.awake hpc nofun)] at hcard
    simp only [State.waiting, State.goto, Monitor.sleep, hpc, ProxyPc.rank,
      Finset.card_insert_of_notMem (hpool.awake hpc nofun)]
    unfold Config.wakeups
    omega
  | mqSend =>
    refine measure_lt_proxy rfl rfl rfl ?_
    simp only [State.waiting, State.goto, hpc, ProxyPc.rank, List.length_append,
      List.length_singleton, Nat.succ_mul]
    omega
  | broadcast | sent | unsent =>
    exact measure_lt_broadcast hpc rfl rfl rfl rfl rfl
      (by simp only [ProxyPc.rank, QueuePc.rank]; omega)
  | send g n len =>
    obtain ⟨rfl, content, hans, hchunk⟩ := hi.sending hsend hpc
    have hpos := hchunk.pos
    have hfits := hchunk.fits
    have hcontent := c.answer_lt hans
    refine measure_lt_step hpc rfl rfl rfl rfl rfl rfl ?_
    -- the chunk takes the thread down
    have hmax : content.length < maxLen := hcontent
    rw [size_natCast (by omega), Nat.mod_eq_of_lt (by omega)]
    simp only [ProxyPc.rank]
    omega
  | _ =>
    exact measure_lt_step hpc rfl rfl rfl rfl rfl rfl
      (by simp only [ProxyPc.rank, QueuePc.rank]; omega)

theorem workerRoutine_measure (hi : Seats false s ph) (halive : s.crashed = false)
    (h : workerRoutine j ret s = some s') : s'.measure < s.measure := by
  obtain ⟨pc, hpc, hstep⟩ := workerRoutine_cases h
  cases hstep with
  | receive hmq =>
    refine measure_lt_worker rfl rfl rfl ?_
    simp only [State.waiting, State.work, hpc, hmq, WorkerPc.rank, List.length_cons,
      Nat.succ_mul, msgWorth]
    omega
  | unnamed | overflow => simp [State.measure, State.waiting, halive]
  | postProxysem r job n =>
    obtain ⟨i, content, w, -, -, hans, -, hcopy, hses⟩ := hi.past hpc rfl rfl
    cases hcopy with
    | postProxysem hreadLen =>
      obtain ⟨r, -, htoken⟩ := hses.token
      have hchunk := htoken.chunk_written
      rw [hreadLen] at hchunk
      have hpos := hchunk.pos
      have hfits := hchunk.fits
      have hcontent := c.answer_lt hans
      have hmax : content.length < maxLen := hcontent
      refine measure_lt_work hpc rfl rfl rfl rfl rfl rfl ?_
      -- the chunk takes the worker down
      have hlt64 : job.bytesRead + n < 2 ^ 64 := by omega
      simp only [WorkerPc.rank, CopyPc.rank, Nat.mod_eq_of_lt hlt64]
      omega
  | _ =>
    exact measure_lt_work hpc rfl rfl rfl rfl rfl rfl
      (by simp only [WorkerPc.rank, MissingPc.rank, CopyPc.rank]; omega)

theorem Sound.measure_lt (hs : Sound s) {e : Event c} (hown : e.Own) (hok : Allowed false s e)
    (h : step c e s = some s') : s'.measure < s.measure := by
  obtain ⟨ph, hi⟩ := hs.seats
  cases e with
  | proxy i ret => exact handleWithCache_measure hi hs.pool hok h
  | worker j ret =>
    simp only [step, hs.intact.crashed, Bool.false_eq_true, if_false] at h
    exact workerRoutine_measure hi hs.intact.crashed h
  | spurious i => exact hown.elim

end FileServices.Cache
