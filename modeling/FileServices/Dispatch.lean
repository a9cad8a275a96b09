import FileServices.Cache
import FileServices.Downloader
import FileServices.Gfclient

/-!
# The multithreaded server

`gfs_handler` puts the requests that the boss is handed on a queue, and the workers take them off
and answer them.  A step is one call on the mutex or the condition variable, one access to the
queue, or one call by which a request is served.  Requests are named by their place in the order
in which they come.
-/

namespace FileServices.Dispatch

open CString
open Cache (size)
open Downloader (Thread)

/-- The number of workers, the paths that are asked for, and what `content_get` has for them. -/
structure Config where
  nthreads : ℕ
  requests : List Bytes
  contentGet : Bytes → ℤ
  /-- `main` makes it 1 where it is less. -/
  nthreads_pos : 0 < nthreads

def Config.path (c : Config) (req : ℕ) : Bytes := c.requests.getD req []

/-- Where the boss stands: at its next request, or in `gfs_handler` with request `req`. -/
inductive BossPc
  | next (req : ℕ) | lock (req : ℕ) | enqueue (req : ℕ) | unlock (req : ℕ) | signal (req : ℕ)
  deriving DecidableEq

/-- Where a worker stands, with the request it serves and its local variables.  In `isempty` and
`pop` it is noted whether it is back from the wait. -/
inductive WorkerPc
  | lock | isempty (back : Bool) | wait | waiting | pop (back : Bool)
  | unlock (req : ℕ) | signal (req : ℕ)
  | contentGet (req : ℕ) | notFound (req : ℕ)
  | fstat (req : ℕ) | statError (req : ℕ) | header (req : ℕ) (fileLen : ℕ)
  | pread (req : ℕ) (fileLen totalBtsSent : ℕ)
  | send (req : ℕ) (fileLen totalBtsSent btsRead : ℕ)
  | free (req : ℕ)
  /-- Past the loop. -/
  | freeLast (req : ℕ) | returned
  deriving DecidableEq

/-- The global variables of the program and its threads, with what has become of each request. -/
structure Server (c : Config) where
  /-- `mutex` with `cond`. -/
  monitor : Monitor (Thread c.nthreads)
  workQueue : List ℕ
  boss : BossPc
  worker : Fin c.nthreads → WorkerPc
  /-- The requests in the order in which they were popped, and by whom. -/
  popped : List (ℕ × Fin c.nthreads)
  /-- The calls of `gfs_sendheader` for each request. -/
  headers : ℕ → List (GfStatus × ℕ)
  /-- How often each request has been freed. -/
  freed : ℕ → ℕ
  /-- `steque_pop` ended the process. -/
  underflow : Bool

variable {c : Config}

def Server.init (c : Config) : Server c where
  monitor := .init
  workQueue := []
  boss := .next 0
  worker := fun _ => .lock
  popped := []
  headers := fun _ => []
  freed := fun _ => 0
  underflow := false

/-- A step of the boss, where `w` is the thread a signal is to wake. -/
def gfsHandler (w : Option (Thread c.nthreads)) (s : Server c) : Option (Server c) :=
  match s.boss with
  | .next req => if req < c.requests.length then some { s with boss := .lock req } else none
  | .lock req => (s.monitor.lock .boss).map fun m => { s with monitor := m, boss := .enqueue req }
  | .enqueue req =>
    some { s with workQueue := stequeEnqueue s.workQueue req, boss := .unlock req }
  | .unlock req => some { s with monitor := s.monitor.unlock, boss := .signal req }
  | .signal req =>
    (s.monitor.signal w).map fun m => { s with monitor := m, boss := .next (req + 1) }

def Server.goto (s : Server c) (k : Fin c.nthreads) (pc : WorkerPc) : Server c :=
  { s with worker := Function.update s.worker k pc }

/-- A call of `gfs_sendheader` for request `req`. -/
def Server.sendheader (s : Server c) (req : ℕ) (status : GfStatus) (fileLen : ℕ) : Server c :=
  { s with headers := Function.update s.headers req (s.headers req ++ [(status, fileLen)]) }

def Server.free (s : Server c) (req : ℕ) : Server c :=
  { s with freed := Function.update s.freed req (s.freed req + 1) }

/-- A step of worker `k`, in which `fstat`, `pread` or `gfs_send` returns `ret` (`fstat` the size
of the file where it does not fail). -/
def threadHandleReq (k : Fin c.nthreads) (w : Option (Thread c.nthreads)) (ret : ℤ)
    (s : Server c) : Option (Server c) :=
  match s.worker k with
  | .lock =>
    (s.monitor.lock (.worker k)).map fun m => { s with monitor := m }.goto k (.isempty false)
  | .isempty back => some (s.goto k (if stequeIsempty s.workQueue then .wait else .pop back))
  | .wait => some ({ s with monitor := s.monitor.sleep (.worker k) }.goto k .waiting)
  | .waiting =>
    (s.monitor.resume (.worker k)).map fun m => { s with monitor := m }.goto k (.isempty true)
  | .pop _ =>
    match stequePop s.workQueue with
    | none => some { s with underflow := true }
    | some (req, q) =>
      some ({ s with workQueue := q, popped := s.popped ++ [(req, k)] }.goto k (.unlock req))
  | .unlock req => some ({ s with monitor := s.monitor.unlock }.goto k (.signal req))
  | .signal req =>
    (s.monitor.signal w).map fun m => { s with monitor := m }.goto k (.contentGet req)
  | .contentGet req =>
    some (s.goto k (if c.contentGet (c.path req) = -1 then .notFound req else .fstat req))
  | .notFound req => some ((s.sendheader req .fileNotFound 0).goto k (.freeLast req))
  | .fstat req => some (s.goto k (if ret = -1 then .statError req else .header req (size ret)))
  | .statError req => some ((s.sendheader req .error 0).goto k (.freeLast req))
  | .header req fileLen =>
    some ((s.sendheader req .ok fileLen).goto k (.pread req fileLen 0))
  | .pread req fileLen totalBtsSent =>
    some (s.goto k (if 0 < size ret then .send req fileLen totalBtsSent (size ret) else .free req))
  | .send req fileLen totalBtsSent _ =>
    let totalBtsSent := (totalBtsSent + size ret) % 2 ^ 64
    some (s.goto k (if fileLen > totalBtsSent then .pread req fileLen totalBtsSent else .free req))
  | .free req => some ((s.free req).goto k .lock)
  | .freeLast req => some ((s.free req).goto k .returned)
  | .returned => none

/-- A thread takes a step, or a sleeper wakes up by itself. -/
inductive Event (c : Config)
  | boss (w : Option (Thread c.nthreads))
  | worker (k : Fin c.nthreads) (w : Option (Thread c.nthreads)) (ret : ℤ)
  | spurious (t : Thread c.nthreads)

def step (c : Config) (e : Event c) (s : Server c) : Option (Server c) :=
  if s.underflow then none
  else
    match e with
    | .boss w => gfsHandler w s
    | .worker k w ret => threadHandleReq k w ret s
    | .spurious t => (s.monitor.wake t).map fun m => { s with monitor := m }

end FileServices.Dispatch
