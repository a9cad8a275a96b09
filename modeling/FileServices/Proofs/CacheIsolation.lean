import FileServices.Proofs.CacheProxy
import FileServices.Proofs.CacheWorker

/-!
# Who writes to a segment

A worker of the cache writes to a segment for the request of the thread that holds it, as long as
no client goes away before the last chunk.  When one does, `processResponse` gives the segment
back while the worker is still in its copy loop, and the next request lets the worker on.
-/

namespace FileServices.Cache

open CString Handoff

variable {c : Config} {s s' : State c} {gone : Bool}

/-! ### Runs -/

/-- The steps in which the calls return what `SendsLast` and `Reads` allow. -/
def Allowed (gone : Bool) (s : State c) : Event c → Prop
  | .proxy i ret => SendsLast gone s i ret
  | .worker j ret => Reads gone s j ret
  | .spurious _ => True

theorem seats_step {ph : Fin c.nsegments → Phase c} (hi : Seats gone s ph) {e : Event c}
    (hok : Allowed gone s e) (h : step c e s = some s') : ∃ ph', Seats gone s' ph' := by
  cases e with
  | proxy i ret => exact hi.handleWithCache hok h
  | worker j ret =>
    simp only [step] at h
    split_ifs at h
    exact hi.workerRoutine hok h
  | spurious i =>
    obtain ⟨m, -, rfl⟩ := Option.map_eq_some_iff.mp h
    exact ⟨ph, hi.keep (fun i => .inl rfl) (fun j => .inl rfl) rfl rfl rfl⟩

theorem seats_reach (h : Trans.Reach (step c) (Allowed gone) (State.init c) s) :
    ∃ ph, Seats gone s ph :=
  h.invariant (I := fun s => ∃ ph, Seats gone s ph) ⟨_, seats_init⟩
    fun _ _ _ ⟨_, hi⟩ hok hstep => seats_step hi hok hstep

/-! ### Isolation -/

/-- The segment a worker's next step writes to or posts a semaphore of, and the request that the
worker serves. -/
def WorkerPc.touches {n : ℕ} : WorkerPc n → Option (Fin n × ℕ)
  | .missing r g _ => some (g, r)
  | .copy _ _ .loop | .copy _ _ .waitCachesem | .copy _ _ .pread => none
  | .copy r job _ => some (job.shm, r)
  | _ => none

/-- What a worker does to a segment, it does for the request of the thread that holds it. -/
def Isolated (s : State c) : Prop :=
  ∀ j g r, (s.worker j).touches = some (g, r) →
    ∃ i, (s.proxy i).pc.shm = some g ∧ (s.proxy i).request = r

/-- Each call of `gfs_send` sends the whole buffer, or the client has gone away. -/
def ClientGoes (s : State c) : Event c → Prop
  | .proxy i ret => ∀ g n len, (s.proxy i).pc = .send g n len → ret = len ∨ ret = 0
  | _ => True

/-- A client that goes away does so only when the last chunk of the file is sent to it. -/
def GoesLast (s : State c) : Event c → Prop
  | .proxy i ret => ∀ g n len, (s.proxy i).pc = .send g n len → ret = 0 →
    (s.seg g).filesize ≤ n + len
  | _ => True

theorem allowed_of_goesLast {e : Event c} (hgoes : ClientGoes s e) (hlast : GoesLast s e) :
    Allowed true s e := by
  cases e with
  | proxy i ret =>
    intro g n len hpc
    rcases hgoes g n len hpc with h | h
    · exact .inl h
    · exact .inr ⟨rfl, h, hlast g n len hpc h⟩
  | worker j ret => exact fun _ _ _ => .inl rfl
  | spurious i => trivial

theorem Seats.isolated {ph : Fin c.nsegments → Phase c} (hi : Seats gone s ph) : Isolated s := by
  intro j g r htouch
  have hat : (s.worker j).shm = some g := by
    cases hw : s.worker j with
    | missing r' g' mpc =>
      simp only [hw, WorkerPc.touches, Option.some.injEq, Prod.mk.injEq] at htouch
      exact congrArg some htouch.1
    | copy r' job cpc => cases cpc <;> simp_all [WorkerPc.touches, WorkerPc.shm]
    | _ => simp [hw, WorkerPc.touches] at htouch
  obtain ⟨i, hserves⟩ := hi.serving hat
  refine ⟨i, (hi.holder i g).mpr ?_, ?_⟩
  · rcases hserves with ⟨hph, -⟩ | ⟨hph, -⟩ <;> rw [hph] <;> rfl
  · rcases hserves with ⟨-, -, hopening⟩ | ⟨-, content, w, job, pc, hw, -⟩
    · cases hw : s.worker j with
      | missing r' g' mpc =>
        rw [hw] at hopening
        simp only [hw, WorkerPc.touches, Option.some.injEq, Prod.mk.injEq] at htouch
        exact hopening.1.symm.trans htouch.2
      | copy r' job cpc =>
        rw [hw] at hopening
        rw [hw] at htouch
        cases cpc <;> simp only [WorkerPc.touches, Option.some.injEq, Prod.mk.injEq, reduceCtorEq]
          at htouch <;> exact hopening.1.symm.trans htouch.2
      | _ => simp [hw, WorkerPc.touches] at htouch
    · rw [hw] at htouch
      cases pc <;> simp only [WorkerPc.touches, Option.some.injEq, Prod.mk.injEq, reduceCtorEq]
        at htouch <;> exact htouch.2

/-- In every run in which a client that goes away does so at the last chunk, requests that share a
segment are isolated. -/
theorem segments_isolated
    (h : Trans.Reach (step c) (fun s e => ClientGoes s e ∧ GoesLast s e) (State.init c) s) :
    Isolated s := by
  obtain ⟨ph, hi⟩ := seats_reach (h.mono fun s e ⟨hgoes, hlast⟩ => allowed_of_goesLast hgoes hlast)
  exact hi.isolated

/-! ### A worker that is left behind -/

/-- One thread of each kind and one segment, with a file that takes two chunks. -/
def twoChunks : Config where
  nproxies := 1
  nworkers := 1
  nsegments := 1
  names := fun _ => ascii "Shm_0"
  segsize := 128
  items := [⟨3, ascii "/f"⟩]
  file := fun _ => List.replicate 200 0
  paths := [ascii "/f", ascii "/f"]
  nworkers_pos := Nat.one_pos
  nsegments_pos := Nat.one_pos
  names_injective := fun g g' _ => Subsingleton.elim g g'
  segsize_ge := le_rfl
  segsize_lt := by norm_num
  file_lt := fun _ => by
    rw [List.length_replicate]
    norm_num
  paths_lt := by decide

def goesLast (s : State c) : Event c → Bool
  | .proxy i ret =>
    match (s.proxy i).pc with
    | .send g n len => (ret = len ∨ ret = 0) ∧ (ret = 0 → (s.seg g).filesize ≤ n + len)
    | _ => true
  | _ => true

theorem goesLast_spec {e : Event c} (h : goesLast s e = true) : ClientGoes s e ∧ GoesLast s e := by
  cases e with
  | proxy i ret =>
    refine ⟨fun g n len hpc => ?_, fun g n len hpc => ?_⟩
    · simp only [goesLast, hpc, decide_eq_true_eq] at h
      exact h.1
    · simp only [goesLast, hpc, decide_eq_true_eq] at h
      exact h.2
  | worker j ret => exact ⟨trivial, trivial⟩
  | spurious i => exact ⟨trivial, trivial⟩

/-- The client of the first request goes away when its last chunk is sent to it, and the second
request is being served. -/
def goesAtEnd : List (Event twoChunks) :=
  List.replicate 11 (Event.proxy ⟨0, Nat.one_pos⟩ 0)
    ++ List.replicate 14 (Event.worker ⟨0, Nat.one_pos⟩ 128)
    ++ List.replicate 8 (Event.proxy ⟨0, Nat.one_pos⟩ 128)
    ++ List.replicate 6 (Event.worker ⟨0, Nat.one_pos⟩ 72)
    ++ List.replicate 21 (Event.proxy ⟨0, Nat.one_pos⟩ 0)
    ++ List.replicate 4 (Event.worker ⟨0, Nat.one_pos⟩ 128)

theorem segments_isolated_twoChunks : ∃ s : State twoChunks,
    (s.worker ⟨0, Nat.one_pos⟩).touches = some (⟨0, Nat.one_pos⟩, 1) ∧ Isolated s := by
  have hrun : ((Trans.exec (step twoChunks) goesLast goesAtEnd (State.init twoChunks)).any fun s =>
      decide ((s.worker ⟨0, Nat.one_pos⟩).touches = some (⟨0, Nat.one_pos⟩, 1))) = true := by
    decide +kernel
  obtain ⟨s, hs, hat⟩ := (Option.any_eq_true _ _).mp hrun
  exact ⟨s, of_decide_eq_true hat,
    segments_isolated (.exec (fun _ _ he => goesLast_spec he) _ .refl hs)⟩

/-- The first chunk cannot be sent, and the segment is handed to the second request while the
worker for the first one waits to put its second chunk there. -/
def leftBehind : List (Event twoChunks) :=
  List.replicate 11 (.proxy ⟨0, Nat.one_pos⟩ 0) ++ List.replicate 14 (.worker ⟨0, Nat.one_pos⟩ 128)
    ++ List.replicate 23 (.proxy ⟨0, Nat.one_pos⟩ 0)
    ++ List.replicate 2 (.worker ⟨0, Nat.one_pos⟩ 72)

/-- No call of `gfs_send` sends anything. -/
def Event.leaves : Event c → Bool
  | .proxy _ ret => ret = 0
  | _ => true

theorem clientGoes_of_leaves {e : Event c} (h : e.leaves = true) : ClientGoes s e := by
  cases e with
  | proxy i ret => exact fun _ _ _ _ => .inr (of_decide_eq_true h)
  | worker j ret | spurious i => trivial

/-- A client that goes away in the middle of a file breaks the isolation. -/
theorem segment_overwritten : ¬ ∀ (c : Config) (s : State c),
    Trans.Reach (step c) ClientGoes (State.init c) s → Isolated s := by
  intro h
  have hrun : ((Trans.exec (step twoChunks) (fun _ => Event.leaves) leftBehind
      (State.init twoChunks)).any fun s =>
      decide ((s.worker ⟨0, Nat.one_pos⟩).touches = some (⟨0, Nat.one_pos⟩, 0))
        && decide ((s.proxy ⟨0, Nat.one_pos⟩).request = 1)) = true := by
    decide +kernel
  obtain ⟨s, hs, hat⟩ := (Option.any_eq_true _ _).mp hrun
  simp only [Bool.and_eq_true, decide_eq_true_eq] at hat
  have hreach : Trans.Reach (step twoChunks) ClientGoes (State.init twoChunks) s :=
    Trans.Reach.exec (fun _ _ he => clientGoes_of_leaves he) leftBehind .refl hs
  -- the segment is held for request 1, and the worker serves request 0
  obtain ⟨i, -, hi⟩ := h twoChunks s hreach _ _ _ hat.1
  obtain rfl : i = ⟨0, Nat.one_pos⟩ := Fin.ext (Nat.lt_one_iff.mp i.isLt)
  omega

end FileServices.Cache
