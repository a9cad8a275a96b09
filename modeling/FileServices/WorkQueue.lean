import FileServices.Dispatch
import FileServices.StequeHeap

/-!
# The work queue of the server on the heap

The server of `Dispatch` with its queue as the pointers of `steque.c`.  A call that changes the
queue is made statement by statement, so that the other threads can take steps in between.
-/

namespace FileServices.WorkQueue

open Dispatch
open Downloader (Thread)
open StequeHeap (Fault State stequeInit)

variable {π : Type} [DecidableEq π] {c : Config}

/-- A statement of `steque_enqueue` or `steque_pop`. -/
inductive Access (π : Type)
  | fill (node : π) (item : ℕ)
  | link (node : π)
  | setBack (node : π)
  | advance | clearBack
  | free (node : π)
  | count (d : ℤ)
  deriving DecidableEq

def Access.perform (this : State π ℕ) : Access π → Except Fault (State π ℕ)
  | .fill node item => .ok (this.store node ⟨item, none⟩)
  | .link node =>
    match this.back with
    | none => .ok { this with front := some node }
    | some back => this.setNext (some back) (some node)
  | .setBack node => .ok { this with back := some node }
  | .advance => (this.load this.front).map fun node => { this with front := node.next }
  | .clearBack => .ok (if this.front.isNone then { this with back := none } else this)
  | .free node => this.free node
  | .count d => this.setN (this.N + d)

def performs : List (Access π) → State π ℕ → Except Fault (State π ℕ)
  | [], this => .ok this
  | a :: as, this => (a.perform this).bind (performs as)

/-- `steque_enqueue` once `malloc` has returned `node`. -/
def enqueueAccesses (node : π) (item : ℕ) : List (Access π) :=
  [.fill node item, .link node, .setBack node, .count 1]

/-- `steque_pop` once it has `node` and `ans`. -/
def popAccesses (node : π) : List (Access π) := [.advance, .clearBack, .free node, .count (-1)]

/-- A call that a thread is in: what is put on the queue or taken off it, and what is left to do. -/
structure InCall (π : Type) where
  item : ℕ
  rest : List (Access π)

/-- The server with the pointers of its queue, the calls that its threads are in, and the addresses
that `malloc` has returned in them.  The list of `server` stays empty. -/
structure Queued (c : Config) (π : Type) where
  server : Server c
  queue : State π ℕ
  inCall : Thread c.nthreads → Option (InCall π)
  allocated : List π
  fault : Option Fault

/-- The server after `steque_init`, with what the memory held before. -/
def Queued.init (c : Config) (this : State π ℕ) : Queued c π where
  server := .init c
  queue := { stequeInit this with freed := [] }
  inCall := fun _ => none
  allocated := []
  fault := none

namespace Queued

def setCall (s : Queued c π) (t : Thread c.nthreads) (call : Option (InCall π)) : Queued c π :=
  { s with inCall := Function.update s.inCall t call }

/-- Thread `t` makes the access `a`, with `rest` left of its call. -/
def access (s : Queued c π) (t : Thread c.nthreads) (item : ℕ) (a : Access π)
    (rest : List (Access π)) : Queued c π :=
  match a.perform s.queue with
  | .ok queue => { s with queue }.setCall t (some ⟨item, rest⟩)
  | .error fault => { s with fault := some fault }

/-- A step of the boss, where `malloc` returns `node`. -/
def gfsHandler (w : Option (Thread c.nthreads)) (node : π) (s : Queued c π) :
    Option (Queued c π) :=
  match s.server.boss with
  | .enqueue req =>
    match s.inCall .boss with
    | none =>
      some ({ s with allocated := s.allocated ++ [node] }.setCall .boss
        (some ⟨req, enqueueAccesses node req⟩))
    | some ⟨item, a :: rest⟩ => some (s.access .boss item a rest)
    | some ⟨_, []⟩ =>
      some ({ s with server := { s.server with boss := .unlock req } }.setCall .boss none)
  | _ => (Dispatch.gfsHandler w s.server).map fun server => { s with server }

/-- The start of `steque_pop`. -/
def startPop (k : Fin c.nthreads) (s : Queued c π) : Queued c π :=
  match s.queue.front with
  | none => { s with fault := some .exit }
  | some node =>
    match s.queue.load (some node) with
    | .ok cell => s.setCall (.worker k) (some ⟨cell.item, popAccesses node⟩)
    | .error fault => { s with fault := some fault }

def threadHandleReq (k : Fin c.nthreads) (w : Option (Thread c.nthreads)) (ret : ℤ)
    (s : Queued c π) : Option (Queued c π) :=
  match s.server.worker k with
  | .isempty back =>
    let server := s.server.goto k
      (if StequeHeap.stequeIsempty s.queue ≠ 0 then .wait else .pop back)
    some { s with server }
  | .pop _ =>
    match s.inCall (.worker k) with
    | none => some (s.startPop k)
    | some ⟨item, a :: rest⟩ => some (s.access (.worker k) item a rest)
    | some ⟨item, []⟩ =>
      let server := { s.server with popped := s.server.popped ++ [(item, k)] }.goto k (.unlock item)
      some ({ s with server }.setCall (.worker k) none)
  | _ => (Dispatch.threadHandleReq k w ret s.server).map fun server => { s with server }

end Queued

/-- An event of the server, with the address that `malloc` returns in it. -/
def step (c : Config) (e : Event c × π) (s : Queued c π) : Option (Queued c π) :=
  if s.fault.isSome then none
  else
    match e.1 with
    | .boss w => s.gfsHandler w e.2
    | .worker k w ret => s.threadHandleReq k w ret
    | .spurious t =>
      (s.server.monitor.wake t).map fun m => { s with server := { s.server with monitor := m } }

/-- `malloc` does not return the address of a node that is in use. -/
def Fresh (s : Queued c π) (e : Event c × π) : Prop := s.queue.heap e.2 = none

end FileServices.WorkQueue
