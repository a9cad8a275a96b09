import FileServices.SharedMemory

/-!
# The proxy is shut down while it runs

`_sig_handler` runs on one thread of the proxy and takes no lock: until it calls `exit` the other
threads go on, and so does the cache.  A step of it is one call on the queue or one `shm_unlink`.
A call on the queue is taken whole, on either side: what becomes of the queue where the handler
makes one while a thread is inside another is not modelled.
-/

namespace FileServices.Cache

open CString

variable {c : Config}

/-- The status with which a pop from an empty steque ends the process. -/
def stequeFailure : ℤ := -1

/-- Where `_sig_handler` stands.  `isempty` and `destroyPop` are the calls in `steque_destroy`. -/
inductive HandlerPc (nsegments : ℕ)
  | stequeSize (z : ℕ)
  | pop (z : ℕ)
  | shmUnlink (z : ℕ) (shm : Fin nsegments)
  | isempty
  | destroyPop
  | gfserverStop
  deriving DecidableEq

/-- The two processes with the names of the segments, which are in `state` themselves. -/
structure Stopping (c : Config) where
  state : State c
  shm : Shm
  handler : Option (HandlerPc c.nsegments)
  unlinked : List (Fin c.nsegments)
  /-- The status with which the proxy has exited. -/
  exited : Option ℤ

def Stopping.init (c : Config) (nsegments : ℕ) (t : Shm) : Stopping c :=
  ⟨State.init c, (initSharedMemory nsegments c.segsize t).shm, none, [], none⟩

/-- A step of `_sig_handler`, the first of which is the signal itself. -/
def Stopping.sigHandler (signo : ℤ) (x : Stopping c) : Option (Stopping c) :=
  match x.handler with
  | none =>
    if signo = sigterm ∨ signo = sigint then some { x with handler := some (.stequeSize 0) }
    else none
  | some (.stequeSize z) =>
    some { x with handler := some (if z < stequeSize x.state.shmQueue then .pop z else .isempty) }
  | some (.pop z) =>
    match stequePop x.state.shmQueue with
    | none => some { x with exited := some stequeFailure }
    | some (shm, shmQueue) =>
      some { x with state := { x.state with shmQueue }, handler := some (.shmUnlink z shm) }
  | some (.shmUnlink z shm) =>
    some { x with
      shm := shmUnlink (cstr (x.state.seg shm).shmId) x.shm
      handler := some (.stequeSize (z + 1))
      unlinked := x.unlinked ++ [shm] }
  | some .isempty =>
    some { x with
      handler := some (if stequeIsempty x.state.shmQueue then .gfserverStop else .destroyPop) }
  | some .destroyPop =>
    match stequePop x.state.shmQueue with
    | none => some { x with exited := some stequeFailure }
    | some (_, shmQueue) =>
      some { x with state := { x.state with shmQueue }, handler := some .isempty }
  | some .gfserverStop => some { x with exited := some signo }

/-- A step of a thread of the proxy.  It may find the queue empty that it has just seen an item
in. -/
def Stopping.handleWithCache (i : Fin c.nproxies) (ret : ℤ) (x : Stopping c) :
    Option (Stopping c) :=
  match (x.state.proxy i).pc with
  | .pop =>
    match stequePop x.state.shmQueue with
    | none => some { x with exited := some stequeFailure }
    | some _ => (Cache.handleWithCache i ret x.state).map fun state => { x with state }
  | _ => (Cache.handleWithCache i ret x.state).map fun state => { x with state }

/-- The worker is about to open a segment under a name that is gone. -/
def Stopping.unnamed (x : Stopping c) (j : Fin c.nworkers) : Bool :=
  match x.state.worker j with
  | .shmOpen _ msg _ => (x.shm.name (cstr msg.shmId)).isNone
  | _ => false

inductive StopEvent (c : Config)
  | thread (e : Event c)
  | handler

/-- A step of the two processes, where `signo` is the signal that the proxy gets at some time. -/
def Stopping.step (signo : ℤ) : StopEvent c → Stopping c → Option (Stopping c)
  | .handler, x => if x.exited.isSome then none else x.sigHandler signo
  | .thread (.proxy i ret), x => if x.exited.isSome then none else x.handleWithCache i ret
  | .thread (.spurious i), x =>
    if x.exited.isSome then none
    else (Cache.step c (.spurious i) x.state).map fun state => { x with state }
  | .thread (.worker j ret), x =>
    if x.unnamed j then
      if x.state.crashed then none else some { x with state := { x.state with crashed := true } }
    else (Cache.step c (.worker j ret) x.state).map fun state => { x with state }

end FileServices.Cache
