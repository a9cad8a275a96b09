import FileServices.Lib.Total
import FileServices.Proofs.CacheProgress

/-!
# The segments are neither lost nor given out twice

Whatever the cache answers and whatever the clients do, a segment is in the queue once or held by
one thread.  A thread that has been told that the answer is there finds one of the two statuses
that lead back to `queueMemory`.
-/

namespace FileServices.Cache

open Total

variable {c : Config} {s s' : State c} {i : Fin c.nproxies} {j : Fin c.nworkers}
  {g : Fin c.nsegments} {ret : ℤ}

/-- The thread counts for the segment it holds. -/
def ProxyPc.holding {n : ℕ} (g : Fin n) (pc : ProxyPc n) : ℕ := if pc.shm = some g then 1 else 0

/-- The thread has put a segment back and has yet to broadcast. -/
def ProxyPc.enqueued {n : ℕ} : ProxyPc n → Bool
  | .queue _ _ .unlock | .queue _ _ .broadcast => true
  | _ => false

/-- The segment whose `filelen_sem` the worker is about to post. -/
def WorkerPc.telling {n : ℕ} : WorkerPc n → Option (Fin n)
  | .missing _ g .postFilelen => some g
  | .copy _ job .postFilelen => some job.shm
  | _ => none

/-- `processResponse` has a branch for the status. -/
def ShmDetails.Told (shm : ShmDetails) : Prop := shm.status = 200 ∨ shm.status = 404

structure Segments (s : State c) : Prop where
  conserved : ∀ g, s.shmQueue.count g + total (fun p => p.pc.holding g) s.proxy = 1
  posted : ∀ g, 0 < (s.seg g).filelenSem → (s.seg g).Told
  telling : ∀ j g, (s.worker j).telling = some g → (s.seg g).Told
  reading : ∀ i g, (s.proxy i).pc = .status g → (s.seg g).Told
  announced : s.monitor.asleep.Nonempty → s.shmQueue ≠ [] → ∃ i, (s.proxy i).pc.enqueued = true

theorem segments_init (c : Config) : Segments (State.init c) where
  conserved := fun g => by
    have hnone : total (fun p : Proxy c.nsegments => p.pc.holding g) (State.init c).proxy = 0 :=
      total_eq_zero fun _ => rfl
    rw [hnone]
    exact List.count_eq_one_of_mem (List.nodup_finRange _) (List.mem_finRange g)
  posted := by simp [State.init]
  telling := by simp [State.init, WorkerPc.telling]
  reading := by simp [State.init]
  announced := by simp [State.init, Monitor.init]

/-! ### A step -/

/-- What a step leaves of the answers that are there. -/
structure Keeps (s s' : State c) : Prop where
  told : ∀ g, (s.seg g).Told → (s'.seg g).Told
  posted : ∀ g, (s'.seg g).filelenSem ≤ (s.seg g).filelenSem ∨ (s'.seg g).Told

theorem Keeps.same (h : s'.seg = s.seg) : Keeps s s' :=
  ⟨fun g hg => h ▸ hg, fun g => .inl (by rw [h])⟩

/-- A write to segment `g`. -/
theorem Keeps.put {shm : ShmDetails} (h : s'.seg = Function.update s.seg g shm)
    (htold : (s.seg g).Told → shm.Told)
    (hposted : shm.filelenSem ≤ (s.seg g).filelenSem ∨ shm.Told) : Keeps s s' := by
  refine ⟨fun g' hg' => ?_, fun g' => ?_⟩ <;> rw [h] <;> by_cases hg : g' = g
  · subst hg
    rw [Function.update_self]
    exact htold hg'
  · rwa [Function.update_of_ne hg]
  · subst hg
    rwa [Function.update_self]
  · rw [Function.update_of_ne hg]
    exact .inl le_rfl

theorem Segments.posted_of_keeps (hi : Segments s) (hk : Keeps s s') (g : Fin c.nsegments)
    (hpos : 0 < (s'.seg g).filelenSem) : (s'.seg g).Told := by
  rcases hk.posted g with hle | htold
  · exact hk.told g (hi.posted g (hpos.trans_le hle))
  · exact htold

/-- A step of the worker `j` to `x`. -/
theorem Segments.work (hi : Segments s) {x : WorkerPc c.nsegments}
    (hworker : s'.worker = Function.update s.worker j x) (hproxy : s'.proxy = s.proxy)
    (hmonitor : s'.monitor = s.monitor) (hqueue : s'.shmQueue = s.shmQueue) (hk : Keeps s s')
    (hx : ∀ g, x.telling = some g → (s'.seg g).Told) : Segments s' where
  conserved := by rw [hqueue, hproxy]; exact hi.conserved
  posted := hi.posted_of_keeps hk
  telling := fun j' g htell => by
    by_cases h : j' = j
    · rw [h, hworker, Function.update_self] at htell
      exact hx g htell
    · rw [hworker, Function.update_of_ne h] at htell
      exact hk.told g (hi.telling j' g htell)
  reading := fun i g hpc => hk.told g (hi.reading i g (hproxy ▸ hpc))
  announced := by rw [hmonitor, hqueue, hproxy]; exact hi.announced

/-- A step of the thread `i` from `pc` to the local state `x`. -/
theorem Segments.move (hi : Segments s) {pc : ProxyPc c.nsegments} {x : Proxy c.nsegments}
    (hpc : (s.proxy i).pc = pc) (hproxy : s'.proxy = Function.update s.proxy i x)
    (hworker : s'.worker = s.worker)
    (hcount : ∀ g, s'.shmQueue.count g + x.pc.holding g = s.shmQueue.count g + pc.holding g)
    (hk : Keeps s s') (hx : ∀ g, x.pc = .status g → (s.seg g).Told)
    (hann : s'.monitor.asleep.Nonempty → s'.shmQueue ≠ [] → x.pc.enqueued = true
      ∨ s.monitor.asleep.Nonempty ∧ s.shmQueue ≠ [] ∧ pc.enqueued = false) : Segments s' := by
  subst hpc
  refine ⟨fun g => ?_, hi.posted_of_keeps hk, fun j g h => ?_, fun i' g h => ?_, fun hne hq => ?_⟩
  · have hbefore := hi.conserved g
    have hsum := total_update (fun p : Proxy c.nsegments => p.pc.holding g) s.proxy i x
    have hstep := hcount g
    rw [hproxy]
    omega
  · exact hk.told g (hi.telling j g (hworker ▸ h))
  · by_cases hi' : i' = i
    · rw [hi', hproxy, Function.update_self] at h
      exact hk.told g (hx g h)
    · rw [hproxy, Function.update_of_ne hi'] at h
      exact hk.told g (hi.reading i' g h)
  · rcases hann hne hq with hx | ⟨hne', hq', hold⟩
    · exact ⟨i, by rwa [hproxy, Function.update_self]⟩
    · obtain ⟨i', hi'⟩ := hi.announced hne' hq'
      have h : i' ≠ i := by
        rintro rfl
        simp [hi'] at hold
      exact ⟨i', by rwa [hproxy, Function.update_of_ne h]⟩

/-- A step of the thread `i` that leaves the queue alone and puts nobody to sleep. -/
theorem Segments.pass (hi : Segments s) {pc : ProxyPc c.nsegments} {x : Proxy c.nsegments}
    (hpc : (s.proxy i).pc = pc) (hproxy : s'.proxy = Function.update s.proxy i x)
    (hworker : s'.worker = s.worker) (hqueue : s'.shmQueue = s.shmQueue)
    (hasleep : s'.monitor.asleep ⊆ s.monitor.asleep) (hshm : x.pc.shm = pc.shm)
    (henq : x.pc.enqueued = true ∨ pc.enqueued = false ∨ s'.monitor.asleep = ∅)
    (hk : Keeps s s') (hx : ∀ g, x.pc = .status g → (s.seg g).Told) :
    Segments s' := by
  refine hi.move hpc hproxy hworker (fun g => ?_) hk hx fun hne hq => ?_
  · rw [hqueue, ProxyPc.holding, ProxyPc.holding, hshm]
  · rcases henq with h | h | h
    · exact .inl h
    · exact .inr ⟨hne.mono hasleep, hqueue ▸ hq, h⟩
    · rw [h] at hne
      exact absurd hne Finset.not_nonempty_empty

theorem Segments.handleWithCache (hi : Segments s) (hpool : Pool s)
    (h : handleWithCache i ret s = some s') : Segments s' := by
  have hknow := hpool.knows i
  obtain ⟨pc, hpc, hstep⟩ := handleWithCache_cases h
  rw [hpc] at hknow
  cases hstep with
  | wait =>
    -- it falls asleep only where the queue is empty
    exact hi.move hpc rfl rfl (fun _ => rfl) (.same rfl) (by simp) fun _ hq => absurd hknow hq
  | @pop g rest hq =>
    refine hi.move hpc rfl rfl (fun g' => ?_) (.same rfl) (by simp) fun hne _ =>
      .inr ⟨hne, by simp [hq], rfl⟩
    by_cases hg : g = g' <;> simp [hq, State.goto, ProxyPc.holding, ProxyPc.shm, hg]
  | enqueue g branch =>
    refine hi.move hpc rfl rfl (fun g' => ?_) (.same rfl) (by simp) fun _ _ => .inl rfl
    by_cases hg : g = g' <;> simp [State.goto, ProxyPc.holding, ProxyPc.shm, hg]
  | broadcast | sent | unsent =>
    exact hi.pass hpc rfl rfl rfl (Finset.empty_subset _) rfl (.inr (.inr rfl)) (.same rfl)
      (by simp)
  | queueUnlock =>
    exact hi.pass hpc rfl rfl rfl subset_rfl rfl (.inl rfl) (.same rfl) (by simp)
  | initFilelen =>
    exact hi.pass hpc rfl rfl rfl subset_rfl rfl (.inr (.inl rfl))
      (.put rfl id (.inl (Nat.zero_le _))) (by simp)
  | waitFilelen g hpos =>
    -- the post that it takes came with the status
    refine hi.pass hpc rfl rfl rfl subset_rfl rfl (.inr (.inl rfl))
      (.put rfl id (.inl (Nat.sub_le _ _))) fun g' hg' => ?_
    obtain rfl := ProxyPc.status.inj hg'
    exact hi.posted _ hpos
  | untold g hfound hmissing =>
    rcases hi.reading i g hpc with htold | htold
    · exact absurd htold hfound
    · exact absurd htold hmissing
  | initProxysem | initCachesem | waitProxysem | postCachesem | resetReadLen | resetFilesize =>
    exact hi.pass hpc rfl rfl rfl subset_rfl rfl (.inr (.inl rfl)) (.put rfl id (.inl le_rfl))
      (by simp)
  | _ => exact hi.pass hpc rfl rfl rfl subset_rfl rfl (.inr (.inl rfl)) (.same rfl) (by simp)

theorem Segments.workerRoutine (hi : Segments s) (h : workerRoutine j ret s = some s') :
    Segments s' := by
  obtain ⟨pc, hpc, hstep⟩ := workerRoutine_cases h
  cases hstep with
  | unnamed | overflow => exact ⟨hi.conserved, hi.posted, hi.telling, hi.reading, hi.announced⟩
  | missingStatus r g =>
    refine hi.work rfl rfl rfl rfl (.put rfl (fun _ => .inr rfl) (.inl le_rfl)) fun g' hg' => ?_
    obtain rfl := Option.some.inj hg'
    exact .inr (by simp [State.work, State.put])
  | status r job =>
    refine hi.work rfl rfl rfl rfl (.put rfl (fun _ => .inl rfl) (.inl le_rfl)) fun g hg => ?_
    obtain rfl := Option.some.inj hg
    exact .inl (by simp [State.work, State.put])
  | missingPost r g =>
    exact hi.work rfl rfl rfl rfl (.put rfl id (.inr (hi.telling j g (by rw [hpc]; rfl))))
      (by simp [WorkerPc.telling])
  | postFilelen r job =>
    exact hi.work rfl rfl rfl rfl
      (.put rfl id (.inr (hi.telling j job.shm (by rw [hpc]; rfl)))) (by simp [WorkerPc.telling])
  | missingFilesize | filesize | waitCachesem | readLen | data | postProxysem =>
    exact hi.work rfl rfl rfl rfl (.put rfl id (.inl le_rfl)) (by simp [WorkerPc.telling])
  | _ => exact hi.work rfl rfl rfl rfl (.same rfl) (by simp [WorkerPc.telling])

theorem Segments.next (hi : Segments s) (hpool : Pool s) {e : Event c} (h : step c e s = some s') :
    Segments s' := by
  cases e with
  | proxy i ret => exact hi.handleWithCache hpool h
  | worker j ret =>
    simp only [step] at h
    split_ifs at h
    exact hi.workerRoutine h
  | spurious i =>
    obtain ⟨m, hm, rfl⟩ := Option.map_eq_some_iff.mp h
    obtain ⟨-, rfl⟩ := Monitor.wake_eq_some.mp hm
    exact ⟨hi.conserved, hi.posted, hi.telling, hi.reading,
      fun hne => hi.announced (hne.mono (Finset.erase_subset _ _))⟩

theorem Pool.next (hi : Pool s) {e : Event c} (h : step c e s = some s') : Pool s' := by
  cases e with
  | proxy i ret => exact hi.handleWithCache h
  | worker j ret =>
    simp only [step] at h
    split_ifs at h
    obtain ⟨hproxy, hmonitor, hqueue, -⟩ := workerRoutine_proxy h
    exact hi.same hproxy hmonitor hqueue
  | spurious i =>
    obtain ⟨m, hm, rfl⟩ := Option.map_eq_some_iff.mp h
    exact hi.spurious hm

/-! ### Runs -/

/-- A run in which the calls may return what they like. -/
theorem segments_reach (h : Trans.Reach (step c) (fun _ _ => True) (State.init c) s) :
    Pool s ∧ Segments s :=
  h.invariant (I := fun s => Pool s ∧ Segments s) ⟨pool_init c, segments_init c⟩
    fun _ _ _ ⟨hpool, hi⟩ _ hstep => ⟨hpool.next hstep, hi.next hpool hstep⟩

/-- A segment that is in the queue is there once and with no thread, and one that is not has one
thread. -/
theorem Segments.queued_or_held (hi : Segments s) (g : Fin c.nsegments) :
    s.shmQueue.count g = 1 ∧ (∀ i, (s.proxy i).pc.shm ≠ some g)
      ∨ g ∉ s.shmQueue ∧ ∃! i, (s.proxy i).pc.shm = some g := by
  have hsum := hi.conserved g
  by_cases hmem : g ∈ s.shmQueue
  · have hpos := List.count_pos_iff.mpr hmem
    refine .inl ⟨by omega, fun i hshm => ?_⟩
    have hle := le_total (fun p : Proxy c.nsegments => p.pc.holding g) s.proxy i
    have hone : (s.proxy i).pc.holding g = 1 := if_pos hshm
    omega
  · rw [List.count_eq_zero_of_not_mem hmem, Nat.zero_add] at hsum
    exact .inr ⟨hmem, (total_ite_eq_one fun p : Proxy c.nsegments => p.pc.shm = some g).mp hsum⟩

/-- Whatever the calls return, every segment is in the queue once or held by one thread, no thread
pops an empty queue, and while a thread sleeps beside a queue that is not empty another one that
has put a segment back is still to broadcast. -/
theorem segments_conserved
    (h : Trans.Reach (step c) (fun _ _ => True) (State.init c) s) :
    (∀ g, s.shmQueue.count g = 1 ∧ (∀ i, (s.proxy i).pc.shm ≠ some g)
        ∨ g ∉ s.shmQueue ∧ ∃! i, (s.proxy i).pc.shm = some g)
      ∧ (∀ i, (s.proxy i).pc = .pop → ∃ g rest, stequePop s.shmQueue = some (g, rest))
      ∧ (s.shmQueue ≠ [] → s.monitor.asleep.Nonempty →
          ∃ i, (s.proxy i).pc.enqueued = true) := by
  obtain ⟨hpool, hi⟩ := segments_reach h
  refine ⟨hi.queued_or_held, fun i hpc => ?_, fun hq hne => hi.announced hne hq⟩
  have hknow := hpool.knows i
  rw [hpc] at hknow
  obtain ⟨g, rest, hq⟩ := List.exists_cons_of_ne_nil hknow
  exact ⟨g, rest, stequePop_eq_some.mpr hq⟩

/-- The client of the first request goes away before anything is sent to it, and the segment is on
its way back. -/
theorem segments_conserved_leftBehind : ∃ s : State twoChunks,
    (s.proxy ⟨0, Nat.one_pos⟩).pc.enqueued = true ∧ s.shmQueue.count ⟨0, Nat.one_pos⟩ = 1
      ∧ ∀ i, (s.proxy i).pc.shm ≠ some ⟨0, Nat.one_pos⟩ := by
  have hrun : ((Trans.exec (step twoChunks) (fun _ _ => true)
      (List.replicate 11 (Event.proxy ⟨0, Nat.one_pos⟩ 0)
        ++ List.replicate 14 (Event.worker ⟨0, Nat.one_pos⟩ 128)
        ++ List.replicate 12 (Event.proxy ⟨0, Nat.one_pos⟩ 0)) (State.init twoChunks)).any fun s =>
      (s.proxy ⟨0, Nat.one_pos⟩).pc.enqueued && decide (⟨0, Nat.one_pos⟩ ∈ s.shmQueue)) = true := by
    decide +kernel
  obtain ⟨s, hs, hat⟩ := (Option.any_eq_true _ _).mp hrun
  rw [Bool.and_eq_true, decide_eq_true_eq] at hat
  obtain ⟨hconserved, -, -⟩ := segments_conserved (.exec (fun _ _ _ => trivial) _ .refl hs)
  rcases hconserved ⟨0, Nat.one_pos⟩ with hqueued | ⟨hmem, -⟩
  · exact ⟨s, hat.1, hqueued⟩
  · exact absurd hat.2 hmem

end FileServices.Cache
