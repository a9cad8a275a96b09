import FileServices.Proofs.Dispatch
import FileServices.Proofs.StequeHeap
import FileServices.WorkQueue

/-!
# The work queue on the heap is the list that the server is proved for

A thread in a call to the queue holds the mutex, so nobody else is in one, and what is left of the
call leads to the list that the whole call would leave (`Refines.calling`).  The server with the
list takes its step where the call returns.
-/

namespace FileServices.WorkQueue

open Dispatch
open Downloader (Thread)
open StequeHeap (Fault State Shape)

variable {π : Type} [DecidableEq π] {c : Config} {s s' : Queued c π} {t t' : Server c}
  {k : Fin c.nthreads} {w : Option (Thread c.nthreads)} {node : π} {ret : ℤ}

/-! ### What a call does, all in all -/

theorem performs_enqueue (node : π) (item : ℕ) (this : State π ℕ) :
    performs (enqueueAccesses node item) this = StequeHeap.stequeEnqueue node item this := by
  simp only [enqueueAccesses, performs, Access.perform, Except.bind, StequeHeap.stequeEnqueue,
    State.store]
  rcases hback : this.back with _ | b
  · simp only [bind, Except.bind]
    cases State.setN _ _ <;> rfl
  · simp only [bind, Except.bind]
    rcases hset : State.setNext _ _ _ with _ | this'
    · rfl
    · simp only []
      cases State.setN _ _ <;> rfl

theorem performs_pop {node : π} {cell : Linked.Node π ℕ} {this : State π ℕ}
    (hfront : this.front = some node) (hcell : this.heap node = some cell) :
    StequeHeap.stequePop this = (performs (popAccesses node) this).map (cell.item, ·) := by
  rw [StequeHeap.stequePop_of_front hfront hcell]
  have hfree : ({ this with
      front := cell.next
      back := if cell.next.isNone then none else this.back } : State π ℕ).free node
      = .ok { this with
        front := cell.next
        back := if cell.next.isNone then none else this.back
        heap := Function.update this.heap node none
        freed := this.freed ++ [node] } := by
    simp [State.free, hcell]
  have hclear : (if cell.next.isNone
      then ({ this with front := cell.next, back := none } : State π ℕ)
      else { this with front := cell.next })
      = { this with front := cell.next, back := if cell.next.isNone then none else this.back } := by
    split_ifs <;> rfl
  simp only [popAccesses, performs, Access.perform, Except.bind, hfront,
    State.load_of_heap hcell, Except.map, hclear, hfree, ← sub_eq_add_neg]
  cases State.setN _ _ <;> rfl

theorem performs_cons {a : Access π} {as : List (Access π)} {this this' : State π ℕ}
    (h : performs (a :: as) this = .ok this') :
    ∃ next, a.perform this = .ok next ∧ performs as next = .ok this' := by
  rw [performs] at h
  cases hnext : a.perform this with
  | error fault =>
    rw [hnext] at h
    cases h
  | ok next =>
    rw [hnext] at h
    exact ⟨next, rfl, h⟩

omit [DecidableEq π] in
theorem setN_freed {n : ℤ} {this this' : State π ℕ} (h : this.setN n = .ok this') :
    this'.freed = this.freed := by
  unfold State.setN at h
  split_ifs at h
  cases h
  rfl

theorem setNext_freed {p next : Option π} {this this' : State π ℕ}
    (h : this.setNext p next = .ok this') : this'.freed = this.freed := by
  unfold State.setNext at h
  split at h
  · cases h
    rfl
  · cases h

theorem Access.perform_freed {a : Access π} (ha : ∀ node, a ≠ .free node) {this this' : State π ℕ}
    (h : a.perform this = .ok this') : this'.freed = this.freed := by
  cases a with
  | free node => exact absurd rfl (ha node)
  | fill | setBack =>
    cases h
    rfl
  | link node =>
    simp only [Access.perform] at h
    split at h
    · cases h
      rfl
    · exact setNext_freed h
  | advance =>
    simp only [Access.perform] at h
    cases hcell : this.load this.front with
    | error fault =>
      rw [hcell] at h
      cases h
    | ok cell =>
      rw [hcell] at h
      cases h
      rfl
  | clearBack =>
    cases h
    split_ifs <;> rfl
  | count d => exact setN_freed h

theorem performs_freed : ∀ {as : List (Access π)} {this this' : State π ℕ},
    (∀ a ∈ as, ∀ node, a ≠ .free node) → performs as this = .ok this' → this'.freed = this.freed
  | [], _, _, _, h => by
    cases h
    rfl
  | a :: as, this, this', has, h => by
    obtain ⟨next, hnext, hrest⟩ := performs_cons h
    rw [performs_freed (fun b hb => has b (List.mem_cons_of_mem _ hb)) hrest,
      Access.perform_freed (has a List.mem_cons_self) hnext]

/-! ### Steps outside the queue -/

theorem gfsHandler_queue {s : Server c} (hpc : ∀ req, s.boss ≠ .enqueue req) (q : List ℕ) :
    Dispatch.gfsHandler w { s with workQueue := q }
      = (Dispatch.gfsHandler w s).map fun s' => { s' with workQueue := q } := by
  unfold Dispatch.gfsHandler
  cases h : s.boss with
  | next req =>
    simp only []
    split_ifs <;> rfl
  | enqueue req => exact absurd h (hpc req)
  | lock req | signal req => simp [Option.map_map, Function.comp_def]
  | unlock req => rfl

theorem threadHandleReq_queue {s : Server c} (hempty : ∀ back, s.worker k ≠ .isempty back)
    (hpop : ∀ back, s.worker k ≠ .pop back) (q : List ℕ) :
    Dispatch.threadHandleReq k w ret { s with workQueue := q }
      = (Dispatch.threadHandleReq k w ret s).map fun s' => { s' with workQueue := q } := by
  unfold Dispatch.threadHandleReq
  cases h : s.worker k with
  | isempty back => exact absurd h (hempty back)
  | pop back => exact absurd h (hpop back)
  | lock | waiting | signal => simp [Option.map_map, Function.comp_def, Server.goto]
  | _ => rfl

/-- What a worker leaves to the others. -/
theorem threadHandleReq_frame {s s' : Server c}
    (h : Dispatch.threadHandleReq k w ret s = some s') :
    s'.boss = s.boss ∧ ∀ j ≠ k, s'.worker j = s.worker j := by
  obtain ⟨pc, -, hstep⟩ := threadHandleReq_cases h
  cases hstep with
  | underflow => exact ⟨rfl, fun _ _ => rfl⟩
  | _ => exact ⟨rfl, fun _ hj => goto_of_ne hj⟩

/-! ### The refinement -/

/-- The queue holds `items`, and each node that was allocated is on it or has been freed. -/
def Holds (queue : State π ℕ) (allocated : List π) (items : List ℕ) : Prop :=
  ∃ cells, Shape queue cells ∧ cells.map Prod.snd = items
    ∧ allocated = queue.freed ++ cells.map Prod.fst

/-- The thread is where the list changes, and will leave it as `items`. -/
inductive Calling (t : Server c) : Thread c.nthreads → ℕ → List ℕ → Prop
  | boss {req} (hpc : t.boss = .enqueue req) : Calling t .boss req (t.workQueue ++ [req])
  | worker {k back req q} (hpc : t.worker k = .pop back) (hq : t.workQueue = req :: q) :
    Calling t (.worker k) req q

structure Refines (s : Queued c π) (t : Server c) : Prop where
  server : t = { s.server with workQueue := t.workQueue }
  fault : s.fault = none
  idle : (∀ x, s.inCall x = none) → Holds s.queue s.allocated t.workQueue
  calling : ∀ x call, s.inCall x = some call → ∃ items queue, Calling t x call.item items
    ∧ performs call.rest s.queue = .ok queue ∧ Holds queue s.allocated items

theorem Calling.locks {x : Thread c.nthreads} {item : ℕ} {items : List ℕ}
    (h : Calling t x item items) : t.locks x := by
  cases h with
  | boss hpc => simp [Server.locks, hpc, BossPc.locked]
  | worker hpc => simp [Server.locks, hpc, WorkerPc.locked]

namespace Refines

variable {x : Thread c.nthreads}

theorem boss_eq (hi : Refines s t) : s.server.boss = t.boss := by rw [hi.server]

theorem worker_eq (hi : Refines s t) : s.server.worker = t.worker := by rw [hi.server]

/-- While a thread holds the mutex, nobody else is in a call. -/
theorem alone (hi : Refines s t) (hsync : Sync t) (hx : t.locks x) {y : Thread c.nthreads}
    (hne : y ≠ x) : s.inCall y = none := by
  cases hy : s.inCall y with
  | none => rfl
  | some call =>
    obtain ⟨items, queue, hcalling, -⟩ := hi.calling y call hy
    exact absurd (hsync.excludes.eq hcalling.locks hx) hne

theorem holds (hi : Refines s t) (hsync : Sync t) (hx : t.locks x) (hcall : s.inCall x = none) :
    Holds s.queue s.allocated t.workQueue := by
  refine hi.idle fun y => ?_
  by_cases hy : y = x
  · exact hy ▸ hcall
  · exact hi.alone hsync hx hy

/-- A step that leaves the queue alone. -/
theorem frame (hi : Refines s t) {server : Server c}
    (hserver : t' = { server with workQueue := t'.workQueue }) (hqueue : t'.workQueue = t.workQueue)
    (hcalling : ∀ x call items, s.inCall x = some call → Calling t x call.item items →
      Calling t' x call.item items) : Refines { s with server } t' where
  server := hserver
  fault := hi.fault
  idle := fun hnone => hqueue ▸ hi.idle hnone
  calling := fun x call hcall => by
    obtain ⟨items, queue, hcalls, hrest⟩ := hi.calling x call hcall
    exact ⟨items, queue, hcalling x call items hcall hcalls, hrest⟩

/-- Thread `x` gets into a call, or goes on with it, and what is left leads to `items`. -/
theorem setCall (hi : Refines s t) (hsync : Sync t) (call : InCall π) {items : List ℕ}
    (hcalling : Calling t x call.item items) {queue queue' : State π ℕ} {allocated : List π}
    (hrest : performs call.rest queue = .ok queue') (hholds : Holds queue' allocated items) :
    Refines ({ s with queue, allocated }.setCall x (some call)) t where
  server := hi.server
  fault := hi.fault
  idle := fun hnone => by simpa [Queued.setCall] using hnone x
  calling := fun y call' hcall => by
    by_cases hy : y = x
    · subst hy
      simp only [Queued.setCall, Function.update_self, Option.some.injEq] at hcall
      subst hcall
      exact ⟨items, queue', hcalling, hrest, hholds⟩
    · simp only [Queued.setCall, Function.update_of_ne hy, hi.alone hsync hcalling.locks hy,
        reduceCtorEq] at hcall

/-- An access of a call finds what it needs, and the call goes on to where it led. -/
theorem access (hi : Refines s t) (hsync : Sync t) {item : ℕ} {a : Access π}
    {rest : List (Access π)} (hcall : s.inCall x = some ⟨item, a :: rest⟩) :
    Refines (s.access x item a rest) t := by
  obtain ⟨items, queue, hcalling, hperforms, hholds⟩ := hi.calling x _ hcall
  obtain ⟨next, hnext, hrest⟩ := performs_cons hperforms
  unfold Queued.access
  rw [hnext]
  exact hi.setCall hsync ⟨item, rest⟩ hcalling hrest hholds

theorem returning (hi : Refines s t) {item : ℕ} (hcall : s.inCall x = some ⟨item, []⟩) :
    ∃ items, Calling t x item items ∧ Holds s.queue s.allocated items := by
  obtain ⟨items, queue, hcalling, hperforms, hholds⟩ := hi.calling x _ hcall
  cases hperforms
  exact ⟨items, hcalling, hholds⟩

/-- The call of `x` returns, and the list changes with it. -/
theorem returns (hi : Refines s t) (hsync : Sync t) (hx : t.locks x) {server : Server c}
    (hserver : t' = { server with workQueue := t'.workQueue })
    (hholds : Holds s.queue s.allocated t'.workQueue) :
    Refines ({ s with server }.setCall x none) t' where
  server := hserver
  fault := hi.fault
  idle := fun _ => hholds
  calling := fun y call hcall => by
    by_cases hy : y = x
    · simp only [Queued.setCall, hy, Function.update_self, reduceCtorEq] at hcall
    · simp only [Queued.setCall, Function.update_of_ne hy, hi.alone hsync hx hy,
        reduceCtorEq] at hcall

theorem gfsHandler (hi : Refines s t) (hsync : Sync t)
    (hfew : ∀ req, t.boss = .enqueue req → t.workQueue.length + 1 < 2 ^ 31)
    (hfresh : s.queue.heap node = none) (h : s.gfsHandler w node = some s') :
    ∃ t', (t' = t ∨ Dispatch.gfsHandler w t = some t') ∧ Refines s' t' := by
  unfold Queued.gfsHandler at h
  by_cases hpc : ∃ req, t.boss = .enqueue req
  · obtain ⟨req, hpc⟩ := hpc
    have hlocks : t.locks .boss := (Calling.boss hpc).locks
    rw [hi.boss_eq, hpc] at h
    rcases hcall : s.inCall .boss with _ | ⟨item, _ | ⟨a, rest⟩⟩
    · simp only [hcall, Option.some.injEq] at h
      subst h
      obtain ⟨cells, hshape, hitems, hnodes⟩ := hi.holds hsync hlocks hcall
      have hlen : (cells ++ [(node, req)]).length < 2 ^ 31 := by
        have hlt := hfew req hpc
        rw [← hitems, List.length_map] at hlt
        simpa using hlt
      obtain ⟨queue, henqueue, hshape'⟩ := hshape.enqueue hfresh hlen
      rw [← performs_enqueue] at henqueue
      have hfreed : queue.freed = s.queue.freed :=
        performs_freed (by simp [enqueueAccesses]) henqueue
      refine ⟨t, .inl rfl, hi.setCall hsync _ (.boss hpc) henqueue ⟨_, hshape', ?_, ?_⟩⟩
      · simp [hitems]
      · simp [hnodes, hfreed]
    · simp only [hcall, Option.some.injEq] at h
      subst h
      obtain ⟨items, hcalling, hholds⟩ := hi.returning hcall
      cases hcalling with
      | boss hpc' =>
        obtain rfl := BossPc.enqueue.inj (hpc.symm.trans hpc')
        refine ⟨{ t with workQueue := stequeEnqueue t.workQueue req, boss := .unlock req },
          .inr (by unfold Dispatch.gfsHandler; rw [hpc]), ?_⟩
        exact hi.returns hsync hlocks (by rw [hi.server]) hholds
    · simp only [hcall, Option.some.injEq] at h
      subst h
      exact ⟨t, .inl rfl, hi.access hsync hcall⟩
  · have hpc : ∀ req, t.boss ≠ .enqueue req := fun req h => hpc ⟨req, h⟩
    have hnone : ∀ req, s.server.boss ≠ .enqueue req := by rwa [hi.boss_eq]
    have hstep : (Dispatch.gfsHandler w s.server).map (fun server => { s with server })
        = some s' := by
      cases hboss : s.server.boss with
      | enqueue req => exact absurd hboss (hnone req)
      | next | lock | unlock | signal => simpa only [hboss] using h
    obtain ⟨server, hserver, rfl⟩ := Option.map_eq_some_iff.mp hstep
    have hboth := gfsHandler_queue (w := w) hnone t.workQueue
    rw [← hi.server, hserver] at hboth
    refine ⟨_, .inr hboth, hi.frame rfl rfl fun x call items hcall hcalling => ?_⟩
    cases hcalling with
    | boss hpc' => exact absurd hpc' (hpc _)
    | worker hpc' hq => exact .worker (by rw [(gfsHandler_frame hboth).1, hpc']) hq

/-- `steque_isempty` tells whether the list is empty. -/
theorem isempty (hi : Refines s t) (hsync : Sync t) {back : Bool}
    (hpc : t.worker k = .isempty back) :
    (StequeHeap.stequeIsempty s.queue ≠ 0 ↔ stequeIsempty t.workQueue = true) := by
  have hlocks : t.locks (.worker k) := by simp [Server.locks, hpc, WorkerPc.locked]
  have hcall : s.inCall (.worker k) = none := by
    cases hcall : s.inCall (.worker k) with
    | none => rfl
    | some call =>
      obtain ⟨items, queue, hcalling, -⟩ := hi.calling _ _ hcall
      cases hcalling with
      | worker hpc' => simp [hpc] at hpc'
  obtain ⟨cells, hshape, hitems, -⟩ := hi.holds hsync hlocks hcall
  rw [stequeIsempty_iff, ← hitems, List.map_eq_nil_iff, ← hshape.N_eq_zero]
  simp [StequeHeap.stequeIsempty]

/-- A worker that comes to `steque_pop` finds a node, and leads the list to what is behind it. -/
theorem startPop (hi : Refines s t) (hsync : Sync t) (hfew : t.workQueue.length < 2 ^ 31)
    {back : Bool} (hpc : t.worker k = .pop back) (hcall : s.inCall (.worker k) = none) :
    Refines (s.startPop k) t := by
  have hlocks : t.locks (.worker k) := by simp [Server.locks, hpc, WorkerPc.locked]
  obtain ⟨cells, hshape, hitems, hnodes⟩ := hi.holds hsync hlocks hcall
  have hknow := hsync.knows k
  rw [hpc] at hknow
  rcases cells with _ | ⟨⟨a, item⟩, cells⟩
  · exact absurd hitems.symm hknow
  · obtain ⟨hfront, next, hcell, -⟩ := hshape.nodes
    have hlen : ((a, item) :: cells).length < 2 ^ 31 := by rwa [← List.length_map, hitems]
    obtain ⟨queue, hpop, hshape', hfreed, -⟩ := hshape.pop hlen
    rw [performs_pop hfront hcell] at hpop
    have hrest : performs (popAccesses a) s.queue = .ok queue := by
      cases hperforms : performs (popAccesses a) s.queue with
      | error fault =>
        rw [hperforms] at hpop
        cases hpop
      | ok queue' =>
        rw [hperforms] at hpop
        cases hpop
        rfl
    unfold Queued.startPop
    simp only [hfront, State.load_of_heap hcell]
    refine hi.setCall hsync ⟨item, popAccesses a⟩ (.worker hpc hitems.symm) hrest
      ⟨cells, hshape', rfl, ?_⟩
    simp [hnodes, hfreed]

theorem threadHandleReq (hi : Refines s t) (hsync : Sync t) (hfew : t.workQueue.length < 2 ^ 31)
    (h : s.threadHandleReq k w ret = some s') :
    ∃ t', (t' = t ∨ Dispatch.threadHandleReq k w ret t = some t') ∧ Refines s' t' := by
  unfold Queued.threadHandleReq at h
  by_cases hempty : ∃ back, t.worker k = .isempty back
  · obtain ⟨back, hpc⟩ := hempty
    simp only [hi.worker_eq, hpc, hi.isempty hsync hpc, Option.some.injEq] at h
    subst h
    refine ⟨t.goto k (if stequeIsempty t.workQueue then .wait else .pop back),
      .inr (by unfold Dispatch.threadHandleReq; rw [hpc]), ?_⟩
    refine hi.frame ?_ rfl fun x call items hcall hcalling => ?_
    · rw [hi.server]
      rfl
    · cases hcalling with
      | boss hpc' => exact .boss hpc'
      | @worker j back' _ _ hpc' hq =>
        refine .worker (?_ : _ = WorkerPc.pop back') hq
        rw [goto_of_ne, hpc']
        rintro rfl
        simp [hpc] at hpc'
  by_cases hpop : ∃ back, t.worker k = .pop back
  · obtain ⟨back, hpc⟩ := hpop
    have hlocks : t.locks (.worker k) := by simp [Server.locks, hpc, WorkerPc.locked]
    rw [hi.worker_eq, hpc] at h
    rcases hcall : s.inCall (.worker k) with _ | ⟨item, _ | ⟨a, rest⟩⟩
    · simp only [hcall, Option.some.injEq] at h
      subst h
      exact ⟨t, .inl rfl, hi.startPop hsync hfew hpc hcall⟩
    · simp only [hcall, Option.some.injEq] at h
      subst h
      obtain ⟨items, hcalling, hholds⟩ := hi.returning hcall
      cases hcalling with
      | worker hpc' hq =>
        refine ⟨{ t with workQueue := items, popped := t.popped ++ [(item, k)] }.goto k
          (.unlock item), .inr ?_, ?_⟩
        · unfold Dispatch.threadHandleReq
          rw [hpc]
          simp only [hq, stequePop]
        · refine hi.returns hsync hlocks ?_ hholds
          rw [hi.server]
          rfl
    · simp only [hcall, Option.some.injEq] at h
      subst h
      exact ⟨t, .inl rfl, hi.access hsync hcall⟩
  · have hempty : ∀ back, s.server.worker k ≠ .isempty back := fun back h =>
      hempty ⟨back, hi.worker_eq ▸ h⟩
    have hpop : ∀ back, s.server.worker k ≠ .pop back := fun back h =>
      hpop ⟨back, hi.worker_eq ▸ h⟩
    have hstep : (Dispatch.threadHandleReq k w ret s.server).map (fun server => { s with server })
        = some s' := by
      cases hworker : s.server.worker k with
      | isempty back => exact absurd hworker (hempty back)
      | pop back => exact absurd hworker (hpop back)
      | _ => simpa only [hworker] using h
    obtain ⟨server, hserver, rfl⟩ := Option.map_eq_some_iff.mp hstep
    have hboth : Dispatch.threadHandleReq k w ret { s.server with workQueue := t.workQueue } = _ :=
      threadHandleReq_queue hempty hpop t.workQueue
    rw [← hi.server, hserver] at hboth
    refine ⟨_, .inr hboth, hi.frame rfl rfl fun x call items hcall hcalling => ?_⟩
    obtain ⟨hboss, hothers⟩ := threadHandleReq_frame hboth
    cases hcalling with
    | boss hpc => exact .boss (hboss.trans hpc)
    | @worker j _ _ _ hpc hq =>
      have hj : j ≠ k := by
        rintro rfl
        exact hpop _ (by rw [hi.worker_eq, hpc])
      exact .worker ((hothers j hj).trans hpc) hq

end Refines

/-! ### Runs -/

/-- The boss is never past its requests. -/
theorem boss_lt {s : Server c}
    (h : Trans.Reach (Dispatch.step c) (fun _ _ => True) (Server.init c) s) :
    s.boss.enqueued ≤ c.requests.length
      ∧ ((∃ req, s.boss = .lock req ∨ s.boss = .enqueue req) →
        s.boss.enqueued < c.requests.length) := by
  refine h.invariant (I := fun s => s.boss.enqueued ≤ c.requests.length
      ∧ ((∃ req, s.boss = .lock req ∨ s.boss = .enqueue req) →
        s.boss.enqueued < c.requests.length)) (by simp [Server.init, BossPc.enqueued]) ?_
  intro s e s' hi _ hstep
  unfold Dispatch.step at hstep
  split_ifs at hstep
  cases e with
  | boss w =>
    obtain ⟨pc, hpc, hboss⟩ := gfsHandler_cases hstep
    rw [hpc] at hi
    cases hboss with
    | next req hlt => simp [BossPc.enqueued, hlt, hlt.le]
    | lock | enqueue | unlock | signal => simp_all [BossPc.enqueued]
  | worker k w ret =>
    rw [(threadHandleReq_frame hstep).1]
    exact hi
  | spurious x =>
    obtain ⟨m, -, rfl⟩ := Option.map_eq_some_iff.mp hstep
    exact hi

theorem init_refines (c : Config) (this : State π ℕ) :
    Refines (Queued.init c this) (Server.init c) where
  server := rfl
  fault := rfl
  idle := fun _ => ⟨[], ⟨rfl, rfl, rfl⟩, rfl, rfl⟩
  calling := fun x call hcall => by simp [Queued.init] at hcall

theorem queued_reach {this : State π ℕ} (hfew : c.requests.length < 2 ^ 31)
    (h : Trans.Reach (step c) Fresh (Queued.init c this) s) :
    ∃ t, Trans.Reach (Dispatch.step c) (fun _ _ => True) (Server.init c) t ∧ Refines s t := by
  refine h.invariant (I := fun s => ∃ t, Trans.Reach (Dispatch.step c) (fun _ _ => True)
    (Server.init c) t ∧ Refines s t) ⟨_, .refl, init_refines c this⟩ ?_
  rintro s ⟨e, node⟩ s' ⟨t, ht, hi⟩ hfresh hstep
  obtain ⟨hsync, hservice, hunder⟩ := dispatch_reach ht
  obtain ⟨hle, hlt⟩ := boss_lt ht
  have hlen : t.workQueue.length ≤ t.boss.enqueued := by
    have horder := congrArg List.length hservice.order
    simp only [List.length_append, List.length_range] at horder
    omega
  unfold step at hstep
  split_ifs at hstep
  cases e with
  | boss w =>
    have hroom : ∀ req, t.boss = .enqueue req → t.workQueue.length + 1 < 2 ^ 31 :=
      fun req hreq => by
        have hreq' := hlt ⟨req, .inr hreq⟩
        omega
    obtain ⟨t', ht', hi'⟩ := hi.gfsHandler hsync hroom hfresh hstep
    rcases ht' with rfl | ht'
    · exact ⟨t', ht, hi'⟩
    · refine ⟨t', ht.tail (a := .boss w) trivial ?_, hi'⟩
      simpa [Dispatch.step, hunder] using ht'
  | worker k w ret =>
    obtain ⟨t', ht', hi'⟩ := hi.threadHandleReq hsync (by omega) hstep
    rcases ht' with rfl | ht'
    · exact ⟨t', ht, hi'⟩
    · refine ⟨t', ht.tail (a := .worker k w ret) trivial ?_, hi'⟩
      simpa [Dispatch.step, hunder] using ht'
  | spurious x =>
    obtain ⟨m, hm, rfl⟩ := Option.map_eq_some_iff.mp hstep
    have hm' : t.monitor.wake x = some m := by rwa [hi.server]
    refine ⟨{ t with monitor := m }, ht.tail (a := .spurious x) trivial ?_, hi.frame ?_ rfl ?_⟩
    · simp [Dispatch.step, hunder, hm']
    · rw [hi.server]
    · intro y call items _ hcalling
      cases hcalling with
      | boss hpc => exact .boss hpc
      | worker hpc hq => exact .worker hpc hq

/-- Each run of the server with its queue on the heap, where a call to the queue is made statement
by statement and the threads take steps in between, is a run of the server with a list for its
queue.  No call goes wrong, a thread that is in one holds the mutex and is alone in it, and between
calls the nodes from `front` on hold the list, with each node that was allocated on it or freed
once, in its turn. -/
theorem work_queue_refines {this : State π ℕ} (hfew : c.requests.length < 2 ^ 31)
    (h : Trans.Reach (step c) Fresh (Queued.init c this) s) :
    s.fault = none
      ∧ (∀ x y, s.inCall x ≠ none → s.inCall y ≠ none → x = y)
      ∧ (∀ x, s.inCall x ≠ none → s.server.monitor.owner = some x)
      ∧ ∃ t, Trans.Reach (Dispatch.step c) (fun _ _ => True) (Server.init c) t
        ∧ t = { s.server with workQueue := t.workQueue }
        ∧ ((∀ x, s.inCall x = none) → ∃ cells : List (π × ℕ),
          Linked.Seg s.queue.heap s.queue.front cells none ∧ (cells.map Prod.fst).Nodup
            ∧ s.queue.back = cells.getLast?.map Prod.fst ∧ s.queue.N = cells.length
            ∧ cells.map Prod.snd = t.workQueue
            ∧ s.allocated = s.queue.freed ++ cells.map Prod.fst) := by
  obtain ⟨t, ht, hi⟩ := queued_reach hfew h
  obtain ⟨hsync, -, -⟩ := dispatch_reach ht
  have hlocks : ∀ x, s.inCall x ≠ none → t.locks x := fun x hx => by
    obtain ⟨call, hcall⟩ := Option.ne_none_iff_exists'.mp hx
    obtain ⟨items, queue, hcalling, -⟩ := hi.calling x call hcall
    exact hcalling.locks
  refine ⟨hi.fault, fun x y hx hy => hsync.excludes.eq (hlocks x hx) (hlocks y hy), fun x hx => ?_,
    t, ht, hi.server, fun hidle => ?_⟩
  · have hown := (hsync.excludes x).mp (hlocks x hx)
    rwa [hi.server] at hown
  · obtain ⟨cells, hshape, hitems, hnodes⟩ := hi.idle hidle
    exact ⟨cells, hshape.nodes, hshape.nodes.nodup, hshape.back, hshape.size, hitems, hnodes⟩

/-- The boss is in its second call, and `malloc` has given it the node that the worker freed. -/
def secondEnqueue : List (Event oneFound × ℕ) :=
  List.replicate 3 (.boss none, 7) ++ List.replicate 7 (.boss none, 8)
    ++ List.replicate 9 (.worker ⟨0, Nat.one_pos⟩ none 5, 8) ++ List.replicate 4 (.boss none, 7)

theorem work_queue_refines_second : ∃ s : Queued oneFound ℕ,
    s.allocated = [7, 7] ∧ s.server.monitor.owner = some .boss ∧ s.fault = none := by
  have hrun : ((Trans.exec (step oneFound) (fun s e => (s.queue.heap e.2).isNone) secondEnqueue
      (Queued.init oneFound ⟨none, some 4, 3, fun _ => none, []⟩)).any fun s =>
      decide (s.allocated = [7, 7]) && (s.inCall .boss).isSome) = true := by
    decide +kernel
  obtain ⟨s, hs, hat⟩ := (Option.any_eq_true _ _).mp hrun
  simp only [Bool.and_eq_true, decide_eq_true_eq, Option.isSome_iff_ne_none] at hat
  obtain ⟨hfault, -, hown, -⟩ := work_queue_refines (c := oneFound) (by decide)
    (.exec (fun _ _ => Option.isNone_iff_eq_none.mp) _ .refl hs)
  exact ⟨s, hat.1, hown .boss hat.2, hfault⟩

end FileServices.WorkQueue
