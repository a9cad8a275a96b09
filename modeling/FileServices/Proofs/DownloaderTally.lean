import FileServices.Lib.Total
import FileServices.Proofs.DownloaderSteps

/-!
# Where the requests of the client are

Every request is on the queue, in the hands of one worker, or performed, and what is performed
is counted.
-/

namespace FileServices.Downloader

open Total

variable {nthreads n : ℕ} {s s' : Pool nthreads} {k : Fin nthreads}
  {w : Option (Thread nthreads)}

/-- How many requests the boss has put on the queue. -/
def MainPc.enqueued (n : ℕ) : MainPc → ℕ
  | .next i | .lock i | .enqueue i => i
  | .unlock i | .signal i => i + 1
  | _ => n

/-- The request a worker has taken off the queue and not performed. -/
def WorkerPc.hand : WorkerPc → Option ℕ
  | .unlockPop req | .signal req | .perform req => some req
  | _ => none

/-- `1` between the request being performed and its being counted. -/
def WorkerPc.uncounted : WorkerPc → ℕ
  | .lockDone | .count => 1
  | _ => 0

/-- How many requests a worker has counted as done. -/
def Worker.counted (x : Worker) : ℕ :=
  match x.pc with
  | .unlockDone | .broadcast => x.i + 1
  | _ => x.i

def Worker.holding (x : Worker) : ℕ := if x.pc.hand.isSome then 1 else 0

def Worker.holds (r : ℕ) (x : Worker) : ℕ := if x.pc.hand = some r then 1 else 0

/-- How often the request `r` is found in the program. -/
def Pool.places (s : Pool nthreads) (r : ℕ) : ℕ :=
  s.workQueue.count r + total (Worker.holds r) s.worker + (s.performed.map Prod.fst).count r

/-- The counter of the loop that enqueues stays within its bound. -/
def MainPc.inRange (n : ℕ) : MainPc → Prop
  | .next i => i ≤ n
  | .lock i | .enqueue i | .unlock i | .signal i => i < n
  | _ => True

structure Tally (n : ℕ) (s : Pool nthreads) : Prop where
  range : s.boss.inRange n
  places : ∀ r, s.places r = if r < s.boss.enqueued n then 1 else 0
  all : s.workQueue.length + total Worker.holding s.worker
    + total (fun x => x.pc.uncounted) s.worker + s.nrequestsDone = s.boss.enqueued n
  performed : s.performed.length = total (fun x => x.pc.uncounted) s.worker + s.nrequestsDone
  own : s.nrequestsDone = total Worker.counted s.worker

theorem MainPc.inRange.le {pc : MainPc} (h : pc.inRange n) : pc.enqueued n ≤ n := by
  cases pc <;> simp only [inRange, enqueued] at h ⊢ <;> omega

theorem tally_init (n : ℕ) : Tally n (Pool.init nthreads) := by
  have hz : ∀ f : Worker → ℕ, f ⟨0, .next⟩ = 0 → total f (Pool.init nthreads).worker = 0 :=
    fun f hf => total_eq_zero fun _ => hf
  refine ⟨Nat.zero_le _, fun r => ?_, ?_, ?_, ?_⟩
  · rw [Pool.places, hz _ rfl]
    simp [Pool.init, MainPc.enqueued]
  · rw [hz _ rfl, hz _ rfl]
    rfl
  · rw [hz _ rfl]
    rfl
  · rw [hz _ rfl]
    rfl

/-- A step of the boss that puts nothing on the queue. -/
theorem Tally.stay (hi : Tally n s) {m : Monitor (Thread nthreads)} {pc : MainPc}
    (hrange : pc.inRange n) (henq : pc.enqueued n = s.boss.enqueued n) :
    Tally n { s with monitor := m, boss := pc } :=
  ⟨hrange, fun r => henq ▸ hi.places r, henq ▸ hi.all, hi.performed, hi.own⟩

theorem Tally.main (hi : Tally n s) (h : main n w s = some s') : Tally n s' := by
  have hrange := hi.range
  obtain ⟨pc, hb, hstep⟩ := main_cases h
  rw [hb] at hrange
  cases hstep with
  | next i hlt => exact hi.stay hlt (by simp [hb, MainPc.enqueued])
  | enqueued i hle =>
    refine hi.stay trivial ?_
    simp only [hb, MainPc.enqueued, MainPc.inRange] at hrange ⊢
    omega
  | enqueue i =>
    obtain ⟨-, hplaces, hall, hperf, hown⟩ := hi
    simp only [hb, MainPc.enqueued, Pool.places] at hplaces hall
    refine ⟨hrange, fun r => ?_, ?_, hperf, hown⟩
    · have hr := hplaces r
      simp only [Pool.places, MainPc.enqueued, List.count_append, List.count_singleton,
        beq_iff_eq]
      by_cases hir : i = r
      · simp only [hir, lt_irrefl, if_false, if_true, Nat.lt_succ_self] at hr ⊢
        omega
      · have hlt : r < i + 1 ↔ r < i := by omega
        simp only [hlt, hir, if_false]
        omega
    · simp only [MainPc.enqueued, List.length_append, List.length_singleton]
      omega
  | _ => exact hi.stay hrange (by simp [hb, MainPc.enqueued])

/-- A step of worker `k` to the local state `x` that balances the books. -/
theorem Tally.work (hi : Tally n s) {x : Worker} (hboss : s'.boss = s.boss)
    (hworker : s'.worker = Function.update s.worker k x)
    (hplaces : ∀ r, s'.workQueue.count r + x.holds r + (s'.performed.map Prod.fst).count r
      = s.workQueue.count r + (s.worker k).holds r + (s.performed.map Prod.fst).count r)
    (hall : s'.workQueue.length + x.holding + x.pc.uncounted + s'.nrequestsDone
      = s.workQueue.length + (s.worker k).holding + (s.worker k).pc.uncounted + s.nrequestsDone)
    (hperf : s'.performed.length + (s.worker k).pc.uncounted + s.nrequestsDone
      = s.performed.length + x.pc.uncounted + s'.nrequestsDone)
    (hown : s'.nrequestsDone + (s.worker k).counted = s.nrequestsDone + x.counted) :
    Tally n s' := by
  have hsum := fun f => total_update f s.worker k x
  have hholding := hsum Worker.holding
  have huncounted := hsum fun x => x.pc.uncounted
  have hcounted := hsum Worker.counted
  refine ⟨hboss ▸ hi.range, fun r => ?_, ?_, ?_, ?_⟩
  · have hr := hi.places r
    have hholds := hsum (Worker.holds r)
    have hp := hplaces r
    rw [Pool.places] at hr ⊢
    rw [hboss, hworker, ← hr]
    omega
  · have := hi.all
    rw [hboss, hworker]
    omega
  · have := hi.performed
    rw [hworker]
    omega
  · have := hi.own
    rw [hworker]
    omega

theorem Tally.threadHandleReq (hi : Tally n s) (h : threadHandleReq n k w s = some s') :
    Tally n s' := by
  obtain ⟨pc, hpc, hstep⟩ := threadHandleReq_cases h
  cases hstep with
  | underflow => exact ⟨hi.range, hi.places, hi.all, hi.performed, hi.own⟩
  | pop hq =>
    refine hi.work rfl rfl (fun r => ?_) ?_ ?_ ?_
    · simp [Pool.goto, hpc, hq, Worker.holds, WorkerPc.hand, List.count_cons]
    · simp only [Pool.goto, hpc, hq, Worker.holding, WorkerPc.hand, WorkerPc.uncounted,
        List.length_cons]
      simp
    · simp [Pool.goto, hpc, WorkerPc.uncounted]
    · simp [Pool.goto, hpc, Worker.counted]
  | perform req =>
    refine hi.work rfl rfl (fun r => ?_) ?_ ?_ ?_
    · simp [Pool.goto, hpc, Worker.holds, WorkerPc.hand, List.count_cons]
      omega
    · simp [Pool.goto, hpc, Worker.holding, WorkerPc.hand, WorkerPc.uncounted]
    · simp [Pool.goto, hpc, WorkerPc.uncounted]
    · simp [Pool.goto, hpc, Worker.counted]
  | count =>
    refine hi.work rfl rfl (fun r => ?_) ?_ ?_ ?_
    · simp [Pool.goto, hpc, Worker.holds, WorkerPc.hand]
    · simp [Pool.goto, hpc, Worker.holding, WorkerPc.hand, WorkerPc.uncounted]
      omega
    · simp [Pool.goto, hpc, WorkerPc.uncounted]
      omega
    · simp [Pool.goto, hpc, Worker.counted]
      omega
  | _ =>
    refine hi.work rfl rfl ?_ ?_ ?_ ?_ <;>
      simp [Pool.goto, hpc, Worker.holds, Worker.holding, Worker.counted, WorkerPc.hand,
        WorkerPc.uncounted]

theorem Tally.done_le (hi : Tally n s) : s.nrequestsDone ≤ n := by
  have := hi.all
  have := hi.range.le
  omega

theorem Tally.queue_eq_nil (hi : Tally n s) (hdone : s.nrequestsDone = n) :
    s.workQueue = [] := by
  have := hi.all
  have := hi.range.le
  exact List.length_eq_zero_iff.mp (by omega)

/-- A worker that has run through its loop has done all requests by itself. -/
theorem Tally.done_of_loop (hi : Tally n s) (hloop : n ≤ (s.worker k).counted) :
    s.nrequestsDone = n := by
  have hle := le_total Worker.counted s.worker k
  have := hi.own
  have := hi.done_le
  omega

theorem Tally.done_lt (hi : Tally n s) (hpc : (s.worker k).pc.uncounted = 1) :
    s.nrequestsDone < n := by
  have hle := le_total (fun x : Worker => x.pc.uncounted) s.worker k
  have := hi.all
  have := hi.range.le
  simp only [hpc] at hle
  omega

end FileServices.Downloader
