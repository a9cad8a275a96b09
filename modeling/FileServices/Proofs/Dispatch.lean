import FileServices.Proofs.DispatchSync

/-!
# What becomes of the requests of the server

A request is popped once, in its turn, and answered and freed once by the worker that popped it.
A worker whose file is missing, or cannot be looked at, answers its request too, but leaves its
loop.
-/

namespace FileServices.Dispatch

open CString
open Downloader (Thread)

variable {c : Config} {s s' : Server c} {k : Fin c.nthreads} {w : Option (Thread c.nthreads)}
  {ret : ℤ}

/-! ### The requests -/

/-- How many requests the boss has put on the queue. -/
def BossPc.enqueued : BossPc → ℕ
  | .next req | .lock req | .enqueue req => req
  | .unlock req | .signal req => req + 1

/-- The request the worker has popped and not freed. -/
def WorkerPc.req : WorkerPc → Option ℕ
  | .unlock req | .signal req | .contentGet req | .notFound req | .fstat req | .statError req
  | .header req _ | .pread req _ _ | .send req _ _ _ | .free req | .freeLast req => some req
  | _ => none

/-- The worker has called `gfs_sendheader` for its request. -/
def WorkerPc.headed : WorkerPc → Bool
  | .pread _ _ _ | .send _ _ _ _ | .free _ | .freeLast _ => true
  | _ => false

structure Service (s : Server c) : Prop where
  order : s.popped.map Prod.fst ++ s.workQueue = List.range s.boss.enqueued
  serving : ∀ k req, (s.worker k).req = some req → (req, k) ∈ s.popped
    ∧ (s.headers req).length = (s.worker k).headed.toNat ∧ s.freed req = 0
  served : ∀ req k, (req, k) ∈ s.popped → (s.worker k).req = some req
    ∨ (s.headers req).length = 1 ∧ s.freed req = 1 ∧ ∀ j, (s.worker j).req ≠ some req
  fresh : ∀ req, req ∉ s.popped.map Prod.fst → s.headers req = [] ∧ s.freed req = 0

theorem service_init (c : Config) : Service (Server.init c) where
  order := rfl
  serving := fun _ _ h => nomatch h
  served := fun _ _ h => nomatch h
  fresh := fun _ _ => ⟨rfl, rfl⟩

theorem Service.nodup (hi : Service s) : (s.popped.map Prod.fst ++ s.workQueue).Nodup :=
  hi.order ▸ List.nodup_range

/-- A request has one worker. -/
theorem Service.unique (hi : Service s) {req : ℕ} {j : Fin c.nthreads}
    (hk : (s.worker k).req = some req) (hj : (s.worker j).req = some req) : j = k := by
  have hnodup := (List.nodup_append.mp hi.nodup).1
  exact congrArg Prod.snd (List.inj_on_of_nodup_map hnodup (hi.serving j req hj).1
    (hi.serving k req hk).1 rfl)

/-- A step of worker `k` to `x` in which the request that it serves, if any, may be answered. -/
theorem Service.move (hi : Service s) {pc x : WorkerPc} (hpc : s.worker k = pc)
    (hworker : s'.worker = Function.update s.worker k x) (hreq : x.req = pc.req)
    (hboss : s'.boss = s.boss) (hpopped : s'.popped = s.popped)
    (hqueue : s'.workQueue = s.workQueue) (hfreed : s'.freed = s.freed)
    (hheaders : s'.headers = s.headers ∧ x.headed = pc.headed
      ∨ ∃ req call, pc.req = some req ∧ pc.headed = false ∧ x.headed = true
        ∧ s'.headers = Function.update s.headers req (s.headers req ++ [call])) : Service s' := by
  subst hpc
  have hreqs : ∀ j, (s'.worker j).req = (s.worker j).req := fun j => by
    by_cases hj : j = k
    · rw [hj, hworker, Function.update_self, hreq]
    · rw [hworker, Function.update_of_ne hj]
  have hsame : ∀ req, (∀ j, (s.worker j).req = some req → j ≠ k) →
      s'.headers req = s.headers req := fun req hne => by
    rcases hheaders with ⟨hh, -⟩ | ⟨r, call, hr, -, -, hh⟩
    · rw [hh]
    · rw [hh, Function.update_of_ne fun e : req = r => hne k (by rw [hr, e]) rfl]
  refine ⟨by rw [hpopped, hqueue, hboss]; exact hi.order, fun j req hj => ?_, fun req j hj => ?_,
    fun req hreq => ?_⟩
  · rw [hreqs] at hj
    obtain ⟨hmem, hlen, hfree⟩ := hi.serving j req hj
    refine ⟨hpopped ▸ hmem, ?_, by rw [hfreed]; exact hfree⟩
    by_cases hjk : j = k
    · subst hjk
      rw [hworker, Function.update_self]
      rcases hheaders with ⟨hh, hx⟩ | ⟨r, call, hr, hold, hnew, hh⟩
      · rw [hh, hx, hlen]
      · obtain rfl := Option.some.inj (hr.symm.trans hj)
        rw [hh, Function.update_self, List.length_append, hlen, hold, hnew]
        rfl
    · rw [hworker, Function.update_of_ne hjk, ← hlen,
        hsame req fun i hi' e => hjk (by rw [← e]; exact hi.unique hi' hj)]
  · rw [hpopped] at hj
    rw [hreqs, hfreed]
    refine (hi.served req j hj).imp_right fun ⟨hlen, hfree, hnone⟩ => ⟨?_, hfree, fun i => ?_⟩
    · rw [hsame req fun i hi' => absurd hi' (hnone i), hlen]
    · rw [hreqs]
      exact hnone i
  · rw [hpopped] at hreq
    obtain ⟨hnil, hfree⟩ := hi.fresh req hreq
    refine ⟨?_, by rw [hfreed]; exact hfree⟩
    rw [hsame req fun i hi' => absurd (List.mem_map.mpr ⟨_, (hi.serving i req hi').1, rfl⟩) hreq,
      hnil]

/-- The worker `k` pops the request at the front of the queue. -/
theorem Service.pop (hi : Service s) {req : ℕ} {q : List ℕ} (hnone : (s.worker k).req = none)
    (hq : s.workQueue = req :: q) : Service
      ({ s with workQueue := q, popped := s.popped ++ [(req, k)] }.goto k (.unlock req)) := by
  have hnodup := hi.nodup
  rw [hq] at hnodup
  have hfresh : req ∉ s.popped.map Prod.fst := fun hmem =>
    (List.nodup_append.mp hnodup).2.2 _ hmem _ List.mem_cons_self rfl
  obtain ⟨hnil, hfree⟩ := hi.fresh req hfresh
  have hothers : ∀ j, (s.worker j).req ≠ some req := fun j hj =>
    hfresh (List.mem_map.mpr ⟨_, (hi.serving j req hj).1, rfl⟩)
  refine ⟨?_, fun j r hj => ?_, fun r j hj => ?_, fun r hr => ?_⟩
  · have horder := hi.order
    rw [hq] at horder
    simpa [Server.goto] using horder
  · by_cases hjk : j = k
    · subst hjk
      rw [goto_self] at hj ⊢
      obtain rfl := Option.some.inj hj
      exact ⟨List.mem_append_right _ List.mem_cons_self,
        by simp [Server.goto, hnil, WorkerPc.headed], hfree⟩
    · rw [goto_of_ne hjk] at hj ⊢
      obtain ⟨hmem, hrest⟩ := hi.serving j r hj
      exact ⟨List.mem_append_left _ hmem, hrest⟩
  · rcases List.mem_append.mp hj with hj | hj
    · refine (hi.served r j hj).imp (fun hj' => ?_) fun hfreed => ?_
      · have hjk : j ≠ k := by
          rintro rfl
          rw [hnone] at hj'
          cases hj'
        rw [goto_of_ne hjk]
        exact hj'
      · obtain ⟨hlen, hfreed, hno⟩ := hfreed
        refine ⟨hlen, hfreed, fun i => ?_⟩
        by_cases hik : i = k
        · rw [hik, goto_self]
          rintro he
          obtain rfl := Option.some.inj he
          exact hfresh (List.mem_map.mpr ⟨_, hj, rfl⟩)
        · rw [goto_of_ne hik]
          exact hno i
    · obtain ⟨rfl, rfl⟩ := Prod.mk.inj (List.mem_singleton.mp hj)
      exact .inl (by rw [goto_self]; rfl)
  · have hr' : r ∉ s.popped.map Prod.fst := fun hmem => hr (by
      rw [Server.goto, List.map_append]
      exact List.mem_append_left _ hmem)
    exact hi.fresh r hr'

/-- The worker `k` frees its request, which has been answered. -/
theorem Service.free (hi : Service s) {req : ℕ} {x : WorkerPc} (hreq : (s.worker k).req = some req)
    (hheaded : (s.worker k).headed = true) (hx : x.req = none) :
    Service ((s.free req).goto k x) := by
  obtain ⟨hmem, hlen, hfree⟩ := hi.serving k req hreq
  rw [hheaded] at hlen
  have hothers : ∀ j, j ≠ k → (s.worker j).req ≠ some req := fun j hj h => hj (hi.unique hreq h)
  have hfreed : ∀ r, r ≠ req → ((s.free req).goto k x).freed r = s.freed r := fun r hr =>
    Function.update_of_ne hr ..
  refine ⟨hi.order, fun j r hj => ?_, fun r j hj => ?_, fun r hr => ?_⟩
  · by_cases hjk : j = k
    · rw [hjk, goto_self, hx] at hj
      cases hj
    · rw [goto_of_ne hjk] at hj ⊢
      have hr : r ≠ req := fun e => hothers j hjk (e ▸ hj)
      rw [hfreed r hr]
      exact hi.serving j r hj
  · by_cases hr : r = req
    · subst hr
      refine .inr ⟨hlen, ?_, fun i => ?_⟩
      · exact (Function.update_self ..).trans (by rw [hfree])
      · by_cases hik : i = k
        · rw [hik, goto_self, hx]
          nofun
        · rw [goto_of_ne hik]
          exact hothers i hik
    · rw [hfreed r hr]
      refine (hi.served r j hj).imp (fun hj' => ?_) fun ⟨hlen, hfreed, hno⟩ =>
        ⟨hlen, hfreed, fun i => ?_⟩
      · have hjk : j ≠ k := by
          rintro rfl
          exact hr (Option.some.inj (hj'.symm.trans hreq))
        rw [goto_of_ne hjk]
        exact hj'
      · by_cases hik : i = k
        · rw [hik, goto_self, hx]
          nofun
        · rw [goto_of_ne hik]
          exact hno i
  · have hne : r ≠ req := by
      rintro rfl
      exact hr (List.mem_map.mpr ⟨_, hmem, rfl⟩)
    rw [hfreed r hne]
    exact hi.fresh r hr

/-! ### The steps -/

theorem Service.threadHandleReq (hi : Service s) (hsync : Sync s)
    (h : threadHandleReq k w ret s = some s') : Service s' := by
  have hknow := hsync.knows k
  obtain ⟨pc, hpc, hstep⟩ := threadHandleReq_cases h
  rw [hpc] at hknow
  cases hstep with
  | underflow back hq => exact absurd hq hknow
  | pop back hq => exact hi.pop (by rw [hpc]; rfl) hq
  | notFound req | statError req | header req =>
    exact hi.move hpc rfl rfl rfl rfl rfl rfl (.inr ⟨req, _, rfl, rfl, rfl, rfl⟩)
  | free req | freeLast req => exact hi.free (by rw [hpc]; rfl) (by rw [hpc]; rfl) rfl
  | _ => exact hi.move hpc rfl rfl rfl rfl rfl rfl (.inl ⟨rfl, rfl⟩)

/-- What the boss leaves to the workers. -/
theorem gfsHandler_frame (h : gfsHandler w s = some s') :
    s'.worker = s.worker ∧ s'.underflow = s.underflow := by
  obtain ⟨pc, -, hstep⟩ := gfsHandler_cases h
  cases hstep <;> exact ⟨rfl, rfl⟩

theorem Service.gfsHandler (hi : Service s) (h : gfsHandler w s = some s') : Service s' := by
  have horder := hi.order
  obtain ⟨pc, hpc, hstep⟩ := gfsHandler_cases h
  rw [hpc] at horder
  cases hstep with
  | enqueue req =>
    refine { hi with order := ?_ }
    change s.popped.map Prod.fst ++ (s.workQueue ++ [req]) = List.range (req + 1)
    rw [← List.append_assoc, horder, List.range_succ]
    rfl
  | _ => exact { hi with order := horder }

theorem Service.next (hi : Service s) (hsync : Sync s) {e : Event c} (h : step c e s = some s') :
    Service s' := by
  unfold step at h
  split_ifs at h
  cases e with
  | boss w => exact hi.gfsHandler h
  | worker k w ret => exact hi.threadHandleReq hsync h
  | spurious t =>
    obtain ⟨m, -, rfl⟩ := Option.map_eq_some_iff.mp h
    exact { hi with order := hi.order }

/-- No worker pops an empty queue, so that the process goes on. -/
theorem underflow_step (hsync : Sync s) (hi : s.underflow = false) {e : Event c}
    (h : step c e s = some s') : s'.underflow = false := by
  unfold step at h
  split_ifs at h
  cases e with
  | boss w => exact (gfsHandler_frame h).2.trans hi
  | worker k w ret =>
    have hknow := hsync.knows k
    obtain ⟨pc, hpc, hstep⟩ := threadHandleReq_cases h
    rw [hpc] at hknow
    cases hstep with
    | underflow back hq => exact absurd hq hknow
    | _ => exact hi
  | spurious t =>
    obtain ⟨m, -, rfl⟩ := Option.map_eq_some_iff.mp h
    exact hi

/-! ### Runs -/

theorem dispatch_reach (h : Trans.Reach (step c) (fun _ _ => True) (Server.init c) s) :
    Sync s ∧ Service s ∧ s.underflow = false :=
  h.invariant (I := fun s => Sync s ∧ Service s ∧ s.underflow = false)
    ⟨sync_init c, service_init c, rfl⟩
    fun _ _ _ ⟨hsync, hi, hunder⟩ _ hstep =>
      ⟨hsync.next hstep, hi.next hsync hstep, underflow_step hsync hunder hstep⟩

/-- Whatever the files are like, requests are popped in their order and each by one worker, nobody
pops an empty queue, a request that was popped is answered and freed once, and while a worker
sleeps beside a queue that is not empty another one has been woken and has yet to pop. -/
theorem requests_dispatched (h : Trans.Reach (step c) (fun _ _ => True) (Server.init c) s) :
    (s.popped.map Prod.fst ++ s.workQueue = List.range s.boss.enqueued
        ∧ (s.popped.map Prod.fst).Nodup)
      ∧ (s.underflow = false ∧ ∀ k back, s.worker k = .pop back → s.workQueue ≠ [])
      ∧ (∀ req k, (req, k) ∈ s.popped →
          (s.worker k).req = some req ∧ (s.headers req).length = (s.worker k).headed.toNat
            ∧ s.freed req = 0
          ∨ (s.headers req).length = 1 ∧ s.freed req = 1 ∧ ∀ j, (s.worker j).req ≠ some req)
      ∧ (∀ req, req ∉ s.popped.map Prod.fst → s.headers req = [] ∧ s.freed req = 0)
      ∧ (s.workQueue ≠ [] → s.boss.pending = false → s.monitor.asleep.Nonempty →
          ∃ k, Thread.worker k ∉ s.monitor.asleep
            ∧ (s.worker k = .waiting ∨ s.worker k = .isempty true ∨ s.worker k = .pop true)) := by
  obtain ⟨hsync, hi, hunder⟩ := dispatch_reach h
  refine ⟨⟨hi.order, (List.nodup_append.mp hi.nodup).1⟩, ⟨hunder, fun k back hpc => ?_⟩,
    fun req k hmem => ?_, hi.fresh, hsync.exists_woken⟩
  · have hknow := hsync.knows k
    rwa [hpc] at hknow
  · refine (hi.served req k hmem).imp_left fun hreq => ⟨hreq, ?_⟩
    exact (hi.serving k req hreq).2

/-- One worker, and two requests of which the first is for a file that is not there. -/
def oneMissing : Config where
  nthreads := 1
  requests := [ascii "/gone", ascii "/f"]
  contentGet := fun path => if path = ascii "/f" then 3 else -1
  nthreads_pos := Nat.one_pos

/-- The worker has left with the first request, and the second one is on the queue. -/
def leavesOnMissing : List (Event oneMissing) :=
  List.replicate 10 (.boss none) ++ List.replicate 8 (.worker ⟨0, Nat.one_pos⟩ none 0)

/-- The request for the missing file has been answered and freed. -/
theorem requests_dispatched_oneMissing : ∃ s : Server oneMissing,
    s.workQueue = [1] ∧ (s.headers 0).length = 1 ∧ s.freed 0 = 1 := by
  have hrun : ((Trans.exec (step oneMissing) (fun _ _ => true) leavesOnMissing
      (Server.init oneMissing)).any fun s =>
      decide (s.workQueue = [1]) && (decide ((0, ⟨0, Nat.one_pos⟩) ∈ s.popped)
        && decide ((s.worker ⟨0, Nat.one_pos⟩).req = none))) = true := by
    decide +kernel
  obtain ⟨s, hs, hat⟩ := (Option.any_eq_true _ _).mp hrun
  simp only [Bool.and_eq_true, decide_eq_true_eq] at hat
  obtain ⟨hq, hmem, hnone⟩ := hat
  obtain ⟨-, -, hserved, -⟩ := requests_dispatched (.exec (fun _ _ _ => trivial) _ .refl hs)
  rcases hserved 0 _ hmem with ⟨hreq, -⟩ | ⟨hlen, hfreed, -⟩
  · rw [hnone] at hreq
    cases hreq
  · exact ⟨s, hq, hlen, hfreed⟩

/-! ### Workers that leave -/

/-- The file that is asked for is there, and can be looked at. -/
def Finds (s : Server c) : Event c → Prop
  | .worker k _ ret => (∀ req, s.worker k = .contentGet req → c.contentGet (c.path req) ≠ -1)
    ∧ ∀ req, s.worker k = .fstat req → ret ≠ -1
  | _ => True

/-- The worker is in its service loop. -/
def WorkerPc.inLoop : WorkerPc → Bool
  | .freeLast _ | .returned => false
  | _ => true

/-- The worker is in its service loop and not on its way out. -/
def WorkerPc.stays : WorkerPc → Bool
  | .notFound _ | .statError _ | .freeLast _ | .returned => false
  | _ => true

theorem WorkerPc.inLoop_of_stays {pc : WorkerPc} (h : pc.stays = true) : pc.inLoop = true := by
  cases pc <;> simp_all [WorkerPc.stays, WorkerPc.inLoop]

theorem stays_move {x : WorkerPc} (hi : ∀ k, (s.worker k).stays = true)
    (hworker : s'.worker = Function.update s.worker k x) (hx : x.stays = true) :
    ∀ k, (s'.worker k).stays = true := fun j => by
  by_cases hj : j = k
  · rwa [hj, hworker, Function.update_self]
  · rw [hworker, Function.update_of_ne hj]
    exact hi j

theorem stays_step (hi : ∀ k, (s.worker k).stays = true) {e : Event c} (hfinds : Finds s e)
    (h : step c e s = some s') : ∀ k, (s'.worker k).stays = true := by
  unfold step at h
  split_ifs at h
  cases e with
  | boss w =>
    rw [(gfsHandler_frame h).1]
    exact hi
  | worker k w ret =>
    have hstays := hi k
    obtain ⟨pc, hpc, hstep⟩ := threadHandleReq_cases h
    rw [hpc] at hstays
    cases hstep with
    | underflow => exact hi
    | missing req hget => exact absurd hget (hfinds.1 req hpc)
    | unstated req hret => exact absurd hret (hfinds.2 req hpc)
    | notFound | statError | freeLast => cases hstays
    | _ => exact stays_move hi rfl rfl
  | spurious t =>
    obtain ⟨m, -, rfl⟩ := Option.map_eq_some_iff.mp h
    exact hi

/-- As long as every file that is asked for is found, the workers stay in their loop. -/
theorem pool_keeps_workers (h : Trans.Reach (step c) Finds (Server.init c) s) :
    (∀ k, (s.worker k).inLoop = true)
      ∧ (s.workQueue ≠ [] → ∃ k, (s.worker k).inLoop = true) := by
  have hstays := h.invariant (I := fun s => ∀ k, (s.worker k).stays = true) (fun _ => rfl)
    fun _ _ _ hi hfinds hstep => stays_step hi hfinds hstep
  exact ⟨fun k => WorkerPc.inLoop_of_stays (hstays k),
    fun _ => ⟨⟨0, c.nthreads_pos⟩, WorkerPc.inLoop_of_stays (hstays _)⟩⟩

/-- One worker, and two requests for a file that is there. -/
def oneFound : Config where
  nthreads := 1
  requests := [ascii "/f", ascii "/f"]
  contentGet := fun _ => 3
  nthreads_pos := Nat.one_pos

def Event.succeeds : Event c → Bool
  | .worker _ _ ret => ret ≠ -1
  | _ => true

/-- The first request for a file of five bytes has been served. -/
theorem pool_keeps_workers_oneFound : ∃ s : Server oneFound,
    s.freed 0 = 1 ∧ ∃ k, (s.worker k).inLoop = true := by
  have hrun : ((Trans.exec (step oneFound) (fun _ => Event.succeeds)
      (List.replicate 10 (Event.boss none)
        ++ List.replicate 11 (Event.worker ⟨0, Nat.one_pos⟩ none 5))
      (Server.init oneFound)).any fun s =>
      decide (s.freed 0 = 1) && decide (s.workQueue = [1])) = true := by
    decide +kernel
  obtain ⟨s, hs, hat⟩ := (Option.any_eq_true _ _).mp hrun
  simp only [Bool.and_eq_true, decide_eq_true_eq] at hat
  refine ⟨s, hat.1, (pool_keeps_workers (.exec (fun s e he => ?_) _ .refl hs)).2 (by simp [hat.2])⟩
  cases e with
  | worker k w ret =>
    refine ⟨fun _ _ => ?_, fun _ _ => of_decide_eq_true he⟩
    change (3 : ℤ) ≠ -1
    decide
  | boss w | spurious t => trivial

/-- The request for the missing file takes the only worker along. -/
theorem worker_lost : ¬ ∀ (c : Config) (s : Server c),
    Trans.Reach (step c) (fun _ _ => True) (Server.init c) s →
      (∀ k, (s.worker k).inLoop = true)
        ∧ (s.workQueue ≠ [] → ∃ k, (s.worker k).inLoop = true) := by
  intro h
  have hrun : ((Trans.exec (step oneMissing) (fun _ _ => true) leavesOnMissing
      (Server.init oneMissing)).any fun s =>
      decide (s.worker ⟨0, Nat.one_pos⟩ = .returned) && decide (s.workQueue = [1])) = true := by
    decide +kernel
  obtain ⟨s, hs, hat⟩ := (Option.any_eq_true _ _).mp hrun
  simp only [Bool.and_eq_true, decide_eq_true_eq] at hat
  obtain ⟨k, hk⟩ := (h oneMissing s (.exec (fun _ _ _ => trivial) _ .refl hs)).2 (by simp [hat.2])
  obtain rfl : k = ⟨0, Nat.one_pos⟩ := Fin.ext (Nat.lt_one_iff.mp k.isLt)
  rw [hat.1] at hk
  cases hk

end FileServices.Dispatch
