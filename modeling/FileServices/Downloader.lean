import FileServices.Lib.Monitor
import FileServices.Lib.Trans
import FileServices.Steque

/-!
# The multithreaded client

`main` puts the requests on a queue and waits until all are done, and the workers take them off.
The boss and the workers share one mutex and one condition variable.  A step is one call on
these, or one access to the data they guard.  Requests are named by their place in the workload,
since two of them may ask for the same path.
-/

namespace FileServices.Downloader

/-- The boss is the thread of `main`. -/
inductive Thread (nthreads : ℕ)
  | boss
  | worker (k : Fin nthreads)
  deriving DecidableEq

/-- Where the boss stands: in iteration `i` of the loop that enqueues, in the wait for the
requests to be done, or past it. -/
inductive MainPc
  | next (i : ℕ) | lock (i : ℕ) | enqueue (i : ℕ) | unlock (i : ℕ) | signal (i : ℕ)
  | lockDone | test | wait | waiting
  | unlockDone | broadcast | join (j : ℕ) | returned
  deriving DecidableEq

/-- Where a worker stands in an iteration, with the request it took off the queue. -/
inductive WorkerPc
  | next | lock | isempty | checkDone | unlockReturn | wait | waiting | pop
  | unlockPop (req : ℕ) | signal (req : ℕ) | perform (req : ℕ)
  | lockDone | count | unlockDone | broadcast | returned
  deriving DecidableEq

/-- The local variables of `thread_handle_req`. -/
structure Worker where
  i : ℕ
  pc : WorkerPc

/-- The global variables of the program and its threads, with the requests that have been
performed, and by whom. -/
structure Pool (nthreads : ℕ) where
  monitor : Monitor (Thread nthreads)
  workQueue : List ℕ
  nrequestsDone : ℕ
  boss : MainPc
  worker : Fin nthreads → Worker
  performed : List (ℕ × Fin nthreads)
  /-- `steque_pop` ended the process. -/
  underflow : Bool

variable {nthreads : ℕ}

def Pool.init (nthreads : ℕ) : Pool nthreads where
  monitor := .init
  workQueue := []
  nrequestsDone := 0
  boss := .next 0
  worker := fun _ => ⟨0, .next⟩
  performed := []
  underflow := false

/-- A step of the boss, where `w` is the thread a signal is to wake. -/
def main (nrequests : ℕ) (w : Option (Thread nthreads)) (s : Pool nthreads) :
    Option (Pool nthreads) :=
  match s.boss with
  | .next i => some { s with boss := if i < nrequests then .lock i else .lockDone }
  | .lock i => (s.monitor.lock .boss).map fun m => { s with monitor := m, boss := .enqueue i }
  | .enqueue i =>
    some { s with workQueue := stequeEnqueue s.workQueue i, boss := .unlock i }
  | .unlock i => some { s with monitor := s.monitor.unlock, boss := .signal i }
  | .signal i =>
    (s.monitor.signal w).map fun m => { s with monitor := m, boss := .next (i + 1) }
  | .lockDone => (s.monitor.lock .boss).map fun m => { s with monitor := m, boss := .test }
  | .test =>
    some { s with boss := if s.nrequestsDone ≠ nrequests then .wait else .unlockDone }
  | .wait => some { s with monitor := s.monitor.sleep .boss, boss := .waiting }
  | .waiting => (s.monitor.resume .boss).map fun m => { s with monitor := m, boss := .test }
  | .unlockDone => some { s with monitor := s.monitor.unlock, boss := .broadcast }
  | .broadcast => some { s with monitor := s.monitor.broadcast, boss := .join 0 }
  | .join j =>
    if h : j < nthreads then
      if (s.worker ⟨j, h⟩).pc = .returned then some { s with boss := .join (j + 1) } else none
    else some { s with boss := .returned }
  | .returned => none

def Pool.goto (s : Pool nthreads) (k : Fin nthreads) (pc : WorkerPc) : Pool nthreads :=
  { s with worker := Function.update s.worker k { s.worker k with pc } }

/-- A step of worker `k`. -/
def threadHandleReq (nrequests : ℕ) (k : Fin nthreads) (w : Option (Thread nthreads))
    (s : Pool nthreads) : Option (Pool nthreads) :=
  match (s.worker k).pc with
  | .next => some (s.goto k (if (s.worker k).i < nrequests then .lock else .returned))
  | .lock => (s.monitor.lock (.worker k)).map fun m => { s with monitor := m }.goto k .isempty
  | .isempty => some (s.goto k (if stequeIsempty s.workQueue then .checkDone else .pop))
  | .checkDone =>
    some (s.goto k (if s.nrequestsDone = nrequests then .unlockReturn else .wait))
  | .unlockReturn => some ({ s with monitor := s.monitor.unlock }.goto k .returned)
  | .wait => some ({ s with monitor := s.monitor.sleep (.worker k) }.goto k .waiting)
  | .waiting =>
    (s.monitor.resume (.worker k)).map fun m => { s with monitor := m }.goto k .isempty
  | .pop =>
    match stequePop s.workQueue with
    | none => some { s with underflow := true }
    | some (req, q) => some ({ s with workQueue := q }.goto k (.unlockPop req))
  | .unlockPop req => some ({ s with monitor := s.monitor.unlock }.goto k (.signal req))
  | .signal req =>
    (s.monitor.signal w).map fun m => { s with monitor := m }.goto k (.perform req)
  | .perform req =>
    some ({ s with performed := (req, k) :: s.performed }.goto k .lockDone)
  | .lockDone => (s.monitor.lock (.worker k)).map fun m => { s with monitor := m }.goto k .count
  | .count => some ({ s with nrequestsDone := s.nrequestsDone + 1 }.goto k .unlockDone)
  | .unlockDone => some ({ s with monitor := s.monitor.unlock }.goto k .broadcast)
  | .broadcast =>
    some { s with
      monitor := s.monitor.broadcast
      worker := Function.update s.worker k ⟨(s.worker k).i + 1, .next⟩ }
  | .returned => none

/-- A thread takes a step, or a sleeper wakes up by itself. -/
inductive Event (nthreads : ℕ)
  | run (t : Thread nthreads) (w : Option (Thread nthreads))
  | spurious (t : Thread nthreads)

def step (nrequests : ℕ) (e : Event nthreads) (s : Pool nthreads) : Option (Pool nthreads) :=
  if s.underflow then none
  else
    match e with
    | .run .boss w => main nrequests w s
    | .run (.worker k) w => threadHandleReq nrequests k w s
    | .spurious t => (s.monitor.wake t).map fun m => { s with monitor := m }

end FileServices.Downloader
