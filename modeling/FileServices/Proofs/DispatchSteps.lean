import FileServices.Dispatch

/-!
# What a step of the server does

The steps of the boss and of a worker by where the thread stands, each with its guard and the
state that it leaves.
-/

namespace FileServices.Dispatch

open Cache (size)
open Downloader (Thread)

variable {c : Config} {s s' : Server c} {k : Fin c.nthreads} {w : Option (Thread c.nthreads)}
  {ret : ℤ}

/-- The steps of the boss. -/
inductive BossStep (w : Option (Thread c.nthreads)) (s : Server c) : BossPc → Server c → Prop
  | next (req) (hlt : req < c.requests.length) :
    BossStep w s (.next req) { s with boss := .lock req }
  | lock (req) (hfree : s.monitor.owner = none) : BossStep w s (.lock req)
      { s with monitor := ⟨some .boss, s.monitor.asleep⟩, boss := .enqueue req }
  | enqueue (req) : BossStep w s (.enqueue req)
      { s with workQueue := s.workQueue ++ [req], boss := .unlock req }
  | unlock (req) : BossStep w s (.unlock req)
      { s with monitor := s.monitor.unlock, boss := .signal req }
  | signal (req) {m} (hm : s.monitor.signal w = some m) : BossStep w s (.signal req)
      { s with monitor := m, boss := .next (req + 1) }

theorem gfsHandler_cases (h : gfsHandler w s = some s') :
    ∃ pc, s.boss = pc ∧ BossStep w s pc s' := by
  refine ⟨_, rfl, ?_⟩
  unfold gfsHandler at h
  cases hpc : s.boss with
  | next req =>
    simp only [hpc] at h
    split_ifs at h with hlt
    obtain rfl := Option.some.inj h
    exact .next req hlt
  | lock req =>
    simp only [hpc, Option.map_eq_some_iff] at h
    obtain ⟨m, hm, rfl⟩ := h
    obtain ⟨hfree, rfl⟩ := Monitor.lock_eq_some.mp hm
    exact .lock req hfree
  | signal req =>
    simp only [hpc, Option.map_eq_some_iff] at h
    obtain ⟨m, hm, rfl⟩ := h
    exact .signal req hm
  | enqueue | unlock =>
    simp only [hpc, Option.some.injEq] at h
    subst h
    constructor

/-- The steps of worker `k`. -/
inductive WorkerStep (k : Fin c.nthreads) (w : Option (Thread c.nthreads)) (ret : ℤ)
    (s : Server c) : WorkerPc → Server c → Prop
  | lock (hfree : s.monitor.owner = none) : WorkerStep k w ret s .lock
      ({ s with monitor := ⟨some (.worker k), s.monitor.asleep⟩ }.goto k (.isempty false))
  | empty (back) (hq : s.workQueue = []) : WorkerStep k w ret s (.isempty back) (s.goto k .wait)
  | nonempty (back) (hq : s.workQueue ≠ []) :
    WorkerStep k w ret s (.isempty back) (s.goto k (.pop back))
  | wait : WorkerStep k w ret s .wait
      ({ s with monitor := s.monitor.sleep (.worker k) }.goto k .waiting)
  | waiting (hawake : .worker k ∉ s.monitor.asleep) (hfree : s.monitor.owner = none) :
    WorkerStep k w ret s .waiting
      ({ s with monitor := ⟨some (.worker k), s.monitor.asleep⟩ }.goto k (.isempty true))
  | underflow (back) (hq : s.workQueue = []) :
    WorkerStep k w ret s (.pop back) { s with underflow := true }
  | pop (back) {req q} (hq : s.workQueue = req :: q) : WorkerStep k w ret s (.pop back)
      ({ s with workQueue := q, popped := s.popped ++ [(req, k)] }.goto k (.unlock req))
  | unlock (req) : WorkerStep k w ret s (.unlock req)
      ({ s with monitor := s.monitor.unlock }.goto k (.signal req))
  | signal (req) {m} (hm : s.monitor.signal w = some m) : WorkerStep k w ret s (.signal req)
      ({ s with monitor := m }.goto k (.contentGet req))
  | missing (req) (hget : c.contentGet (c.path req) = -1) :
    WorkerStep k w ret s (.contentGet req) (s.goto k (.notFound req))
  | found (req) (hget : c.contentGet (c.path req) ≠ -1) :
    WorkerStep k w ret s (.contentGet req) (s.goto k (.fstat req))
  | notFound (req) : WorkerStep k w ret s (.notFound req)
      ((s.sendheader req .fileNotFound 0).goto k (.freeLast req))
  | unstated (req) (hret : ret = -1) :
    WorkerStep k w ret s (.fstat req) (s.goto k (.statError req))
  | fstat (req) (hret : ret ≠ -1) :
    WorkerStep k w ret s (.fstat req) (s.goto k (.header req (size ret)))
  | statError (req) : WorkerStep k w ret s (.statError req)
      ((s.sendheader req .error 0).goto k (.freeLast req))
  | header (req fileLen) : WorkerStep k w ret s (.header req fileLen)
      ((s.sendheader req .ok fileLen).goto k (.pread req fileLen 0))
  | pread (req fileLen totalBtsSent) (hret : 0 < size ret) :
    WorkerStep k w ret s (.pread req fileLen totalBtsSent)
      (s.goto k (.send req fileLen totalBtsSent (size ret)))
  | ended (req fileLen totalBtsSent) (hret : size ret = 0) :
    WorkerStep k w ret s (.pread req fileLen totalBtsSent) (s.goto k (.free req))
  | more (req fileLen totalBtsSent btsRead)
      (hlt : (totalBtsSent + size ret) % 2 ^ 64 < fileLen) :
    WorkerStep k w ret s (.send req fileLen totalBtsSent btsRead)
      (s.goto k (.pread req fileLen ((totalBtsSent + size ret) % 2 ^ 64)))
  | sent (req fileLen totalBtsSent btsRead)
      (hle : fileLen ≤ (totalBtsSent + size ret) % 2 ^ 64) :
    WorkerStep k w ret s (.send req fileLen totalBtsSent btsRead) (s.goto k (.free req))
  | free (req) : WorkerStep k w ret s (.free req) ((s.free req).goto k .lock)
  | freeLast (req) : WorkerStep k w ret s (.freeLast req) ((s.free req).goto k .returned)

theorem threadHandleReq_cases (h : threadHandleReq k w ret s = some s') :
    ∃ pc, s.worker k = pc ∧ WorkerStep k w ret s pc s' := by
  refine ⟨_, rfl, ?_⟩
  unfold threadHandleReq at h
  cases hpc : s.worker k with
  | lock =>
    simp only [hpc, Option.map_eq_some_iff] at h
    obtain ⟨m, hm, rfl⟩ := h
    obtain ⟨hfree, rfl⟩ := Monitor.lock_eq_some.mp hm
    exact .lock hfree
  | isempty back =>
    simp only [hpc, Option.some.injEq] at h
    subst h
    split_ifs with hq
    · exact .empty back (stequeIsempty_iff.mp hq)
    · exact .nonempty back fun he => hq (stequeIsempty_iff.mpr he)
  | waiting =>
    simp only [hpc, Option.map_eq_some_iff] at h
    obtain ⟨m, hm, rfl⟩ := h
    obtain ⟨hawake, hfree, rfl⟩ := Monitor.resume_eq_some.mp hm
    exact .waiting hawake hfree
  | pop back =>
    simp only [hpc] at h
    cases hpop : stequePop s.workQueue with
    | none =>
      simp only [hpop, Option.some.injEq] at h
      exact h ▸ .underflow back (stequePop_eq_none.mp hpop)
    | some p =>
      simp only [hpop, Option.some.injEq] at h
      exact h ▸ .pop back (stequePop_eq_some.mp hpop)
  | signal req =>
    simp only [hpc, Option.map_eq_some_iff] at h
    obtain ⟨m, hm, rfl⟩ := h
    exact .signal req hm
  | contentGet req =>
    simp only [hpc, Option.some.injEq] at h
    subst h
    split_ifs with hget
    · exact .missing req hget
    · exact .found req hget
  | fstat req =>
    simp only [hpc, Option.some.injEq] at h
    subst h
    split_ifs with hret
    · exact .unstated req hret
    · exact .fstat req hret
  | pread req fileLen totalBtsSent =>
    simp only [hpc, Option.some.injEq] at h
    subst h
    split_ifs with hret
    · exact .pread req fileLen totalBtsSent hret
    · exact .ended req fileLen totalBtsSent (Nat.eq_zero_of_not_pos hret)
  | send req fileLen totalBtsSent btsRead =>
    simp only [hpc, Option.some.injEq] at h
    subst h
    split_ifs with hlt
    · exact .more req fileLen totalBtsSent btsRead hlt
    · exact .sent req fileLen totalBtsSent btsRead (Nat.not_lt.mp hlt)
  | wait | unlock | notFound | statError | header | free | freeLast =>
    simp only [hpc, Option.some.injEq] at h
    subst h
    constructor
  | returned => simp [hpc] at h

end FileServices.Dispatch
