import FileServices.Lib.Total
import FileServices.Proofs.DispatchSteps

/-!
# Who sleeps in the server, and who has been woken

While a worker sleeps, the requests on the queue are no more than the workers that have been woken
and have not popped a request since, counting the one that the boss is about to wake.  A worker
that overtakes them takes a request off the queue too, and one that finds the queue empty is not
needed any more.
-/

namespace FileServices.Dispatch

open Total
open Downloader (Thread)

variable {c : Config} {s s' : Server c} {k : Fin c.nthreads} {w : Option (Thread c.nthreads)}
  {ret : ℤ}

theorem goto_self {pc : WorkerPc} : (s.goto k pc).worker k = pc := Function.update_self ..

theorem goto_of_ne {j : Fin c.nthreads} {pc : WorkerPc} (h : j ≠ k) :
    (s.goto k pc).worker j = s.worker j := Function.update_of_ne h ..

def BossPc.locked : BossPc → Bool
  | .enqueue _ | .unlock _ => true
  | _ => false

/-- The boss is between an enqueue and its signal. -/
def BossPc.pending : BossPc → Bool
  | .unlock _ | .signal _ => true
  | _ => false

def WorkerPc.locked : WorkerPc → Bool
  | .isempty _ | .wait | .pop _ | .unlock _ => true
  | _ => false

/-- What a worker knows of the queue where it stands. -/
def WorkerPc.knows (queue : List ℕ) : WorkerPc → Prop
  | .pop _ => queue ≠ []
  | .wait => queue = []
  | _ => True

/-- The worker has been woken and has yet to pop a request: it is still in its wait, or it is back
from it and holds the mutex. -/
def WorkerPc.woken (asleep : Bool) : WorkerPc → Bool
  | .waiting => !asleep
  | .isempty back | .pop back => back
  | _ => false

def Server.locks (s : Server c) : Thread c.nthreads → Prop
  | .boss => s.boss.locked = true
  | .worker k => (s.worker k).locked = true

/-- Each worker with whether it is asleep. -/
def Server.places (s : Server c) (k : Fin c.nthreads) : Bool × WorkerPc :=
  (decide (Thread.worker k ∈ s.monitor.asleep), s.worker k)

/-- The number of workers that have been woken. -/
def Server.woken (s : Server c) : ℕ := total (fun p => (p.2.woken p.1).toNat) s.places

structure Sync (s : Server c) : Prop where
  excludes : s.monitor.Excludes s.locks
  asleep : ∀ t ∈ s.monitor.asleep, ∃ k, t = .worker k ∧ s.worker k = .waiting
  knows : ∀ k, (s.worker k).knows s.workQueue
  served : s.monitor.asleep.Nonempty → s.workQueue.length ≤ s.woken + s.boss.pending.toNat

theorem sync_init (c : Config) : Sync (Server.init c) where
  excludes := fun t => by cases t <;> simp [Server.locks, Server.init, Monitor.init,
    BossPc.locked, WorkerPc.locked]
  asleep := by simp [Server.init, Monitor.init]
  knows := fun _ => trivial
  served := by simp [Server.init, Monitor.init]

theorem WorkerPc.knows.of_unlocked {pc : WorkerPc} (hpc : pc.locked = false) (queue : List ℕ) :
    pc.knows queue := by
  cases pc <;> simp_all [WorkerPc.locked, WorkerPc.knows]

/-- Whoever holds the mutex holds it alone. -/
theorem Sync.unlocked (hi : Sync s) {t : Thread c.nthreads} (ht : s.locks t) (k : Fin c.nthreads)
    (hne : t ≠ .worker k) : (s.worker k).locked = false :=
  Bool.eq_false_iff.mpr fun hk => hne (hi.excludes.eq ht (show s.locks (.worker k) from hk))

theorem Sync.awake (hi : Sync s) {pc : WorkerPc} (hpc : s.worker k = pc) (hne : pc ≠ .waiting) :
    Thread.worker k ∉ s.monitor.asleep := fun hmem => by
  obtain ⟨k', hk', hwaits⟩ := hi.asleep _ hmem
  obtain rfl := Thread.worker.inj hk'
  exact hne (hpc ▸ hwaits)

/-- A step of worker `k`, from `pc` to `x`, which changes nothing in who is asleep but for `k`. -/
theorem woken_move (s' : Server c) {pc x : WorkerPc} (hpc : s.worker k = pc)
    (hworker : s'.worker = Function.update s.worker k x)
    (hasleep : ∀ j, j ≠ k → (Thread.worker j ∈ s'.monitor.asleep ↔ .worker j ∈ s.monitor.asleep)) :
    s'.woken + (pc.woken (decide (Thread.worker k ∈ s.monitor.asleep))).toNat
      = s.woken + (x.woken (decide (Thread.worker k ∈ s'.monitor.asleep))).toNat := by
  have hplaces : s'.places
      = Function.update s.places k (decide (Thread.worker k ∈ s'.monitor.asleep), x) := by
    funext j
    by_cases hj : j = k
    · rw [hj, Function.update_self, Server.places, hworker, Function.update_self]
    · rw [Function.update_of_ne hj, Server.places, Server.places, hworker,
        Function.update_of_ne hj, decide_eq_decide.mpr (hasleep j hj)]
  have hsum := total_update (fun p : Bool × WorkerPc => (p.2.woken p.1).toNat) s.places k
    (decide (Thread.worker k ∈ s'.monitor.asleep), x)
  rw [← hplaces] at hsum
  simpa only [Server.woken, Server.places, hpc] using hsum

/-- A step of worker `k`, from `pc` to `x`, in which nobody falls asleep or wakes up. -/
theorem Sync.work (hi : Sync s) {pc x : WorkerPc} (hpc : s.worker k = pc)
    (hboss : s'.boss = s.boss) (hworker : s'.worker = Function.update s.worker k x)
    (hmoves : Monitor.Moves (.worker k) s.monitor s'.monitor pc.locked x.locked)
    (hasleep : s'.monitor.asleep = s.monitor.asleep) (hself : .worker k ∉ s.monitor.asleep)
    (hqueue : s'.workQueue = s.workQueue ∨ pc.locked = true) (hknow : x.knows s'.workQueue)
    (hserved : s'.workQueue = [] ∨ s'.workQueue.length + (pc.woken false).toNat
      ≤ s.workQueue.length + (x.woken false).toNat) : Sync s' := by
  have hother : ∀ j, j ≠ k → s'.worker j = s.worker j := fun j hj => by
    rw [hworker, Function.update_of_ne hj]
  have hnew : s'.worker k = x := by rw [hworker, Function.update_self]
  refine ⟨?_, fun t ht => ?_, fun j => ?_, fun hne => ?_⟩
  · refine hi.excludes.moves hmoves (by simp only [Server.locks, hpc])
      (by simp only [Server.locks, hnew]) fun u hu => ?_
    cases u with
    | boss => simp only [Server.locks, hboss]
    | worker j => simp only [Server.locks, hother j fun e => hu (e ▸ rfl)]
  · rw [hasleep] at ht
    obtain ⟨j, rfl, hj⟩ := hi.asleep t ht
    exact ⟨j, rfl, by rw [hother j fun e => hself (e ▸ ht), hj]⟩
  · by_cases hj : j = k
    · exact hj ▸ hnew.symm ▸ hknow
    · rw [hother j hj]
      rcases hqueue with hq | hlock
      · exact hq ▸ hi.knows j
      · have hk : s.locks (.worker k) := by simpa only [Server.locks, hpc] using hlock
        exact .of_unlocked (hi.unlocked hk j fun e => hj (Thread.worker.inj e).symm) _
  · rcases hserved with hq | hle
    · simp [hq]
    · have hbefore := hi.served (hasleep ▸ hne)
      have hsum := woken_move s' hpc hworker fun j _ => by rw [hasleep]
      rw [hasleep, decide_eq_false hself] at hsum
      rw [hboss]
      omega

/-- A step of worker `k` that leaves the queue alone. -/
theorem Sync.pass (hi : Sync s) {pc x : WorkerPc} (hpc : s.worker k = pc)
    (hboss : s'.boss = s.boss) (hworker : s'.worker = Function.update s.worker k x)
    (hmoves : Monitor.Moves (.worker k) s.monitor s'.monitor pc.locked x.locked)
    (hasleep : s'.monitor.asleep = s.monitor.asleep) (hself : .worker k ∉ s.monitor.asleep)
    (hqueue : s'.workQueue = s.workQueue) (hknow : x.knows s.workQueue)
    (hwoken : pc.woken false = x.woken false) : Sync s' :=
  hi.work hpc hboss hworker hmoves hasleep hself (.inl hqueue) (hqueue ▸ hknow)
    (.inr (by rw [hqueue, hwoken]))

/-- A step of worker `k` outside the monitor. -/
theorem Sync.serve (hi : Sync s) {pc x : WorkerPc} (hpc : s.worker k = pc)
    (hboss : s'.boss = s.boss) (hworker : s'.worker = Function.update s.worker k x)
    (hmonitor : s'.monitor = s.monitor) (hqueue : s'.workQueue = s.workQueue)
    (hold : pc.locked = false ∧ pc ≠ .waiting) (hnew : x.locked = false ∧ x ≠ .waiting) :
    Sync s' := by
  refine hi.pass hpc hboss hworker ?_ (by rw [hmonitor]) (hi.awake hpc hold.2) hqueue
    (.of_unlocked hnew.1 _) ?_
  · rw [hold.1, hnew.1]
    exact .keep (by rw [hmonitor])
  · have hnone : ∀ pc : WorkerPc, pc.locked = false ∧ pc ≠ .waiting → pc.woken false = false := by
      rintro (_ | _ | _ | _ | _ | _ | _ | _ | _ | _ | _ | _ | _ | _ | _ | _ | _) ⟨hl, hw⟩ <;>
        simp_all [WorkerPc.locked, WorkerPc.woken]
    rw [hnone pc hold, hnone x hnew]

/-- A signal wakes one of the sleepers, if there are any. -/
theorem Sync.signal (hi : Sync s) {m : Monitor (Thread c.nthreads)}
    (h : s.monitor.signal w = some m) : Sync { s with monitor := m } ∧ (m.asleep.Nonempty →
      s.workQueue.length + 1 ≤ Server.woken { s with monitor := m } + s.boss.pending.toNat) := by
  obtain ⟨hown, hsub⟩ := Monitor.signal_spec h
  have hserved : m.asleep.Nonempty →
      s.workQueue.length + 1 ≤ Server.woken { s with monitor := m } + s.boss.pending.toNat := by
    intro hne
    have hbefore := hi.served (hne.mono hsub)
    rcases Monitor.signal_eq_some.mp h with ⟨t, -, ht, rfl⟩ | ⟨-, hnone, rfl⟩
    · obtain ⟨j, rfl, hj⟩ := hi.asleep t ht
      have hsum := woken_move (s := s) (k := j) (x := .waiting)
        { s with monitor := ⟨s.monitor.owner, s.monitor.asleep.erase (.worker j)⟩ } hj
        (by rw [← hj, Function.update_eq_self]) fun i hi' => by simp [hi']
      simp only [ht, decide_true, Finset.notMem_erase, decide_false, WorkerPc.woken,
        Bool.not_true, Bool.not_false, Bool.toNat_false, Bool.toNat_true] at hsum
      omega
    · rw [hnone] at hne
      exact absurd hne Finset.not_nonempty_empty
  refine ⟨⟨fun t => ?_, fun t ht => hi.asleep t (hsub ht), hi.knows, fun hne => ?_⟩, hserved⟩
  · rw [hown]
    exact hi.excludes t
  · have hlt := hserved hne
    change s.workQueue.length ≤ Server.woken { s with monitor := m } + s.boss.pending.toNat
    omega

theorem Sync.spurious (hi : Sync s) {t : Thread c.nthreads} {m : Monitor (Thread c.nthreads)}
    (h : s.monitor.wake t = some m) : Sync { s with monitor := m } :=
  (hi.signal (w := some t) h).1

/-- A worker falls asleep where the queue is empty. -/
theorem Sync.sleep (hi : Sync s) (hpc : s.worker k = .wait) :
    Sync ({ s with monitor := s.monitor.sleep (.worker k) }.goto k .waiting) := by
  have hq : s.workQueue = [] := by
    have hknow := hi.knows k
    rwa [hpc] at hknow
  refine ⟨?_, fun t ht => ?_, fun j => ?_, fun _ => by simp [Server.goto, hq]⟩
  · have hdrop : Monitor.Moves (.worker k) s.monitor (s.monitor.sleep (.worker k)) true false :=
      .drop rfl
    refine hi.excludes.moves hdrop
      (by simp only [Server.locks, hpc, WorkerPc.locked])
      (by simp only [Server.locks, goto_self, WorkerPc.locked]) fun u hu => ?_
    cases u with
    | boss => exact Iff.rfl
    | worker j => simp only [Server.locks, goto_of_ne fun e : j = k => hu (e ▸ rfl)]
  · rcases Finset.mem_insert.mp ht with rfl | ht
    · exact ⟨k, rfl, goto_self⟩
    · obtain ⟨j, rfl, hj⟩ := hi.asleep t ht
      exact ⟨j, rfl, (goto_of_ne fun e : j = k => hi.awake hpc nofun (e ▸ ht)).trans hj⟩
  · by_cases hj : j = k
    · rw [hj, goto_self]
      trivial
    · rw [goto_of_ne hj]
      exact hi.knows j

theorem Sync.threadHandleReq (hi : Sync s) (h : threadHandleReq k w ret s = some s') :
    Sync s' := by
  have hknow := hi.knows k
  obtain ⟨pc, hpc, hstep⟩ := threadHandleReq_cases h
  rw [hpc] at hknow
  cases hstep with
  | lock hfree =>
    exact hi.pass hpc rfl rfl (.take hfree rfl) rfl (hi.awake hpc nofun) rfl trivial rfl
  | waiting hawake hfree => exact hi.pass hpc rfl rfl (.take hfree rfl) rfl hawake rfl trivial rfl
  | empty back hq =>
    exact hi.work hpc rfl rfl (.keep rfl) rfl (hi.awake hpc nofun) (.inl rfl) hq (.inl hq)
  | nonempty back hq =>
    exact hi.pass hpc rfl rfl (.keep rfl) rfl (hi.awake hpc nofun) rfl hq rfl
  | wait => exact hi.sleep hpc
  | underflow back hq => exact absurd hq hknow
  | @pop back req q hq =>
    refine hi.work hpc rfl rfl (.keep rfl) rfl (hi.awake hpc nofun) (.inr rfl) trivial (.inr ?_)
    -- a worker that was not woken for it leaves one woken worker too many
    rw [hq, List.length_cons]
    have hback : (WorkerPc.woken false (.pop back)).toNat ≤ 1 := Bool.toNat_le _
    change q.length + _ ≤ q.length + 1 + 0
    omega
  | unlock req =>
    exact hi.pass hpc rfl rfl (.drop rfl) rfl (hi.awake hpc nofun) rfl trivial rfl
  | signal req hm => exact (hi.signal hm).1.serve hpc rfl rfl rfl rfl ⟨rfl, nofun⟩ ⟨rfl, nofun⟩
  | _ => exact hi.serve hpc rfl rfl rfl rfl ⟨rfl, nofun⟩ ⟨rfl, nofun⟩

/-- A step of the boss from `pc` to `pc'` that wakes nobody. -/
theorem Sync.boss (hi : Sync s) {pc pc' : BossPc} (hpc : s.boss = pc) (hpc' : s'.boss = pc')
    (hworker : s'.worker = s.worker)
    (hmoves : Monitor.Moves .boss s.monitor s'.monitor pc.locked pc'.locked)
    (hasleep : s'.monitor.asleep = s.monitor.asleep)
    (hqueue : s'.workQueue = s.workQueue ∨ pc.locked = true)
    (hserved : s'.workQueue.length + pc.pending.toNat ≤ s.workQueue.length + pc'.pending.toNat) :
    Sync s' := by
  refine ⟨?_, fun t ht => hworker ▸ hi.asleep t (hasleep ▸ ht), fun k => ?_, fun hne => ?_⟩
  · refine hi.excludes.moves hmoves (by simp only [Server.locks, hpc])
      (by simp only [Server.locks, hpc']) fun u hu => ?_
    cases u with
    | boss => exact absurd rfl hu
    | worker j => simp only [Server.locks, hworker]
  · rw [hworker]
    rcases hqueue with hq | hlock
    · exact hq ▸ hi.knows k
    · have hboss : s.locks .boss := by simpa only [Server.locks, hpc] using hlock
      exact .of_unlocked (hi.unlocked hboss k nofun) _
  · have hbefore := hi.served (hasleep ▸ hne)
    have hplaces : s'.places = s.places := by
      funext k
      rw [Server.places, Server.places, hworker, hasleep]
    have hsame : s'.woken = s.woken := by rw [Server.woken, Server.woken, hplaces]
    rw [hpc] at hbefore
    rw [hpc', hsame]
    omega

theorem Sync.gfsHandler (hi : Sync s) (h : gfsHandler w s = some s') : Sync s' := by
  obtain ⟨pc, hpc, hstep⟩ := gfsHandler_cases h
  cases hstep with
  | next req => exact hi.boss hpc rfl rfl (.keep rfl) rfl (.inl rfl) le_rfl
  | lock req hfree => exact hi.boss hpc rfl rfl (.take hfree rfl) rfl (.inl rfl) le_rfl
  | enqueue req =>
    refine hi.boss hpc rfl rfl (.keep rfl) rfl (.inr rfl) ?_
    simp [BossPc.pending]
  | unlock req => exact hi.boss hpc rfl rfl (.drop rfl) rfl (.inl rfl) le_rfl
  | signal req hm =>
    obtain ⟨hm, hserved⟩ := hi.signal hm
    refine ⟨fun t => ?_, hm.asleep, hm.knows, fun hne => ?_⟩
    · have hexcl := hm.excludes t
      cases t with
      | boss => simpa [Server.locks, hpc, BossPc.locked] using hexcl
      | worker k => exact hexcl
    · have hlt := hserved hne
      rw [hpc] at hlt
      exact Nat.le_of_succ_le_succ hlt

theorem Sync.next (hi : Sync s) {e : Event c} (h : step c e s = some s') : Sync s' := by
  unfold step at h
  split_ifs at h
  cases e with
  | boss w => exact hi.gfsHandler h
  | worker k w ret => exact hi.threadHandleReq h
  | spurious t =>
    obtain ⟨m, hm, rfl⟩ := Option.map_eq_some_iff.mp h
    exact hi.spurious hm

/-- While a worker sleeps beside a queue that is not empty, another one has been woken for it. -/
theorem Sync.exists_woken (hi : Sync s) (hq : s.workQueue ≠ []) (hboss : s.boss.pending = false)
    (hne : s.monitor.asleep.Nonempty) : ∃ k, Thread.worker k ∉ s.monitor.asleep
      ∧ (s.worker k = .waiting ∨ s.worker k = .isempty true ∨ s.worker k = .pop true) := by
  have hserved := hi.served hne
  rw [hboss] at hserved
  have hpos := List.length_pos_iff.mpr hq
  by_contra hnone
  have hzero : s.woken = 0 := total_eq_zero fun k => by
    by_contra hwoken
    refine hnone ⟨k, ?_⟩
    cases hpc : s.worker k with
    | waiting => simpa [Server.places, hpc, WorkerPc.woken] using hwoken
    | isempty back | pop back =>
      have hback : back = true := by simpa [Server.places, hpc, WorkerPc.woken] using hwoken
      exact ⟨hi.awake hpc nofun, by simp [hback]⟩
    | _ => simp [Server.places, hpc, WorkerPc.woken] at hwoken
  simp only [Bool.toNat_false] at hserved
  omega

end FileServices.Dispatch
