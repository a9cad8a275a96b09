import FileServices.Handlers
import FileServices.Lib.Table
import FileServices.Lib.Threads
import FileServices.SendResponse

/-!
# The descriptors of the proxy and of the cache

`sendResponse` opens and maps the segment that its message names, and `handle_with_cache` opens
the message queue, each in every call.  A step of a thread is a call that takes a place in a table
of its process, sends the message or reads a part of the file, with what the thread does until the
next one.
-/

namespace FileServices.Descriptors

open CString SendResponse

/-! ### The process -/

/-- What holds an entry: the process since before it served anything, or one of its calls. -/
inductive Holder
  | before
  | call (n : ℕ)
  deriving DecidableEq

def Holder.isCall : Holder → Bool
  | .before => false
  | .call _ => true

/-- The tables of a process, and the calls of `sendResponse` or `handle_with_cache` in it. -/
structure Process where
  fds : Table Holder
  maps : Table Holder
  /-- The number of the next call. -/
  next : ℕ
  returned : List ℕ
  /-- `shm_open`, `mmap` or `mq_open` has failed. -/
  failed : Bool
  crashed : Bool
  deriving DecidableEq

/-- A table with the places that are taken from the beginning. -/
def initially (taken : List Bool) : Table Holder :=
  ⟨taken.map fun b => if b then some .before else none⟩

def Process.init (fds maps : List Bool) : Process where
  fds := initially fds
  maps := initially maps
  next := 0
  returned := []
  failed := false
  crashed := false

/-- `shm_open` of a segment that there is, and `mq_open`: the descriptor, or `none` for -1. -/
def Process.open (p : Process) (call : ℕ) : Option ℕ × Process :=
  match p.fds.take (.call call) with
  | none => (none, { p with failed := true })
  | some (fd, fds) => (some fd, { p with fds })

/-- `mmap` of what the descriptor is for: the place of the mapping, or `none` for `MAP_FAILED`. -/
def Process.mmap (p : Process) (call : ℕ) : Option ℕ → Option ℕ × Process
  | none => (none, { p with failed := true })
  | some _ =>
    match p.maps.take (.call call) with
    | none => (none, { p with failed := true })
    | some (place, maps) => (some place, { p with maps })

def Process.finish (p : Process) (call : ℕ) : Process :=
  { p with returned := p.returned ++ [call] }

/-! ### The cache -/

/-- Where a worker stands, with the number of its call. -/
inductive WorkerPc
  | receive
  | mmap (call : ℕ) (fildes : ℤ) (segsize : ℕ) (shmfd : Option ℕ)
  | copy (call segsize filsize : ℕ) (s : Copying)
  deriving DecidableEq

/-- What the system gives to a worker: the message with what `simplecache_get` finds for it, the
size of the file with what is in the segment, or the part of the file that `pread` reads. -/
inductive WorkerEvent
  | shmOpen (fildes : ℤ) (segsize : ℕ)
  | mmap (filsize : ℕ) (data : Bytes)
  | pread (read : Option Bytes)
  deriving DecidableEq

/-- The head of the copy loop, with the end of the call behind it. -/
def copyFile (p : Process) (call segsize filsize : ℕ) (s : Copying) : Process × WorkerPc :=
  match copyHead filsize s with
  | some _ => (p.finish call, .receive)
  | none => (p, .copy call segsize filsize s)

/-- `sendResponse`, as `workerRoutine` calls it for a message. -/
def sendResponse (p : Process) (pc : WorkerPc) (e : WorkerEvent) : Option (Process × WorkerPc) :=
  if p.crashed then none
  else
    match pc, e with
    | .receive, .shmOpen fildes segsize =>
      let call := p.next
      let (shmfd, p) := { p with next := p.next + 1 }.open call
      some (p, .mmap call fildes segsize shmfd)
    | .mmap call fildes segsize shmfd, .mmap filsize data =>
      match p.mmap call shmfd with
      -- The next line of the source stores through `MAP_FAILED`.
      | (none, p) => some ({ p with crashed := true }, .mmap call fildes segsize shmfd)
      | (some _, p) =>
        if fildes < 0 then some (p.finish call, .receive)
        else some (copyFile p call segsize filsize (.start segsize data))
    | .copy call segsize filsize s, .pread read =>
      match copyBody segsize s read with
      | .more s => some (copyFile p call segsize filsize s)
      | .stop ⟨.crashed, s⟩ => some ({ p with crashed := true }, .copy call segsize filsize s)
      | .stop _ => some (p.finish call, .receive)
    | _, _ => none

/-! ### The proxy -/

/-- Where a thread of the proxy stands, with the number of its call. -/
inductive ProxyPc
  | idle
  | mqSend (call : ℕ) (msgqueue : Option ℕ)
  | processResponse (call : ℕ) (sent : Bool)
  deriving DecidableEq

inductive ProxyEvent
  | mqOpen
  | mqSend
  | processResponse (o : Handlers.CacheCalls) (n : ℕ)

/-- `handle_with_cache`.  Only for a message that was sent does the cache post `filelen_sem`, on
which `processResponse` waits. -/
def handleWithCache (p : Process) (pc : ProxyPc) (e : ProxyEvent) : Option (Process × ProxyPc) :=
  match pc, e with
  | .idle, .mqOpen =>
    let call := p.next
    let (msgqueue, p) := { p with next := p.next + 1 }.open call
    some (p, .mqSend call msgqueue)
  | .mqSend call msgqueue, .mqSend => some (p, .processResponse call msgqueue.isSome)
  | .processResponse call true, .processResponse o n =>
    (Handlers.handleWithCache o n).map fun _ => (p.finish call, .idle)
  | _, _ => none

end FileServices.Descriptors
