import FileServices.Lib.Monitor
import FileServices.Lib.Trans
import FileServices.Simplecache
import FileServices.Steque

/-!
# The proxy and the cache

A thread of the proxy takes a segment of shared memory off a queue, names it in a message to the
cache, and sends on to its client what a worker of the cache puts into it.  A step is one call on
a lock, a semaphore, the message queue or the network, or one access to shared memory.
-/

namespace FileServices.Cache

open CString

/-! ### Data -/

def maxRequestLen : ℕ := 128

/-- `mq_maxmsg` of the message queue. -/
def mqMaxmsg : ℕ := 10

def gfOk : ℕ := 200

def gfFileNotFound : ℕ := 400

/-- `strncpy` of a C string into an array of `n` bytes. -/
def strncpy (n : ℕ) (src : Bytes) : Bytes :=
  (cstr src).take n ++ List.replicate (n - (cstr src).length) 0

structure ReqStruct where
  path : Bytes
  shmId : Bytes
  segsize : ℕ
  deriving DecidableEq

structure ShmDetails where
  proxysem : ℕ
  cachesem : ℕ
  filelenSem : ℕ
  shmId : Bytes
  segsize : ℕ
  filesize : ℕ
  status : ℕ
  readLen : ℕ
  data : Bytes

/-- The two processes as they are started: the threads of each, the names and the size of the
segments, the table of the cache, the files behind its descriptors, and the paths that clients
are going to ask for. -/
structure Config where
  nproxies : ℕ
  nworkers : ℕ
  nsegments : ℕ
  names : Fin nsegments → Bytes
  segsize : ℕ
  items : List Item
  file : ℤ → Bytes
  paths : List Bytes
  nworkers_pos : 0 < nworkers
  nsegments_pos : 0 < nsegments
  names_injective : Function.Injective names
  segsize_ge : maxRequestLen ≤ segsize
  /-- `ftruncate` takes an `off_t`. -/
  segsize_lt : segsize < 2 ^ 63
  file_lt : ∀ fd, (file fd).length < 2 ^ 63
  paths_lt : ∀ path ∈ paths, path.length < maxRequestLen ∧ 0 ∉ path

/-- The stages of `queueMemory`. -/
inductive QueuePc
  | readLen | filesize | lock | enqueue | unlock | broadcast
  deriving DecidableEq

/-- The two branches of `processResponse` that go through `queueMemory`. -/
inductive Branch
  | sent (bytesTransferred : ℕ)
  | notFound
  deriving DecidableEq

/-- Where a thread of the proxy stands, with the segment it works on and its local variables. -/
inductive ProxyPc (nsegments : ℕ)
  | idle | lock | isempty | wait | waiting | pop
  | unlock (shm : Fin nsegments) | broadcast (shm : Fin nsegments) | fill (shm : Fin nsegments)
  | initFilelen (shm : Fin nsegments) (request : ReqStruct)
  | initProxysem (shm : Fin nsegments) (request : ReqStruct)
  | initCachesem (shm : Fin nsegments) (request : ReqStruct)
  | mqSend (shm : Fin nsegments) (request : ReqStruct)
  | waitFilelen (shm : Fin nsegments) | status (shm : Fin nsegments)
  | header (shm : Fin nsegments)
  | loop (shm : Fin nsegments) (bytesTransferred : ℕ)
  | waitProxysem (shm : Fin nsegments) (bytesTransferred : ℕ)
  | load (shm : Fin nsegments) (bytesTransferred : ℕ)
  | send (shm : Fin nsegments) (bytesTransferred : ℕ) (readLen : ℕ)
  | postCachesem (shm : Fin nsegments) (bytesTransferred : ℕ)
  | queue (shm : Fin nsegments) (branch : Branch) (pc : QueuePc)
  | notFound
  deriving DecidableEq

structure Proxy (nsegments : ℕ) where
  /-- The number of the request it handles. -/
  request : ℕ
  pc : ProxyPc nsegments

/-- The local variables of `sendResponse` for a file that was found. -/
structure Copy (nsegments : ℕ) where
  shm : Fin nsegments
  fildes : ℤ
  segsize : ℕ
  filsize : ℕ
  bytesRead : ℕ
  offset : ℕ
  buffer : Bytes

inductive CopyPc
  | filesize | status | postFilelen | loop | waitCachesem | pread
  | readLen (nbytes : ℕ) | data (nbytes : ℕ) | postProxysem (nbytes : ℕ)
  deriving DecidableEq

inductive MissingPc
  | filesize | status | postFilelen
  deriving DecidableEq

/-- Where a worker of the cache stands, with the number of the request whose message it took. -/
inductive WorkerPc (nsegments : ℕ)
  | receive
  | lookup (request : ℕ) (msg : ReqStruct)
  | shmOpen (request : ℕ) (msg : ReqStruct) (fildes : ℤ)
  | missing (request : ℕ) (shm : Fin nsegments) (pc : MissingPc)
  | seek (request : ℕ) (shm : Fin nsegments) (fildes : ℤ) (segsize : ℕ)
  | copy (request : ℕ) (job : Copy nsegments) (pc : CopyPc)

/-- What happens at the connection to a client: a header or some data is sent, or the handler
returns. -/
inductive Sent
  | header (status fileLen : ℕ)
  | data (bytes : Bytes)
  | returned (value : ℤ)
  deriving DecidableEq

structure State (c : Config) where
  /-- `shm_mutex` with `shm_cond`. -/
  monitor : Monitor (Fin c.nproxies)
  shmQueue : List (Fin c.nsegments)
  seg : Fin c.nsegments → ShmDetails
  /-- Each message with the number of the request it was sent for. -/
  msgqueue : List (ℕ × ReqStruct)
  /-- The number of the next request to be handed to a thread of the proxy. -/
  next : ℕ
  proxy : Fin c.nproxies → Proxy c.nsegments
  worker : Fin c.nworkers → WorkerPc c.nsegments
  /-- What each request's client has seen. -/
  sent : ℕ → List Sent
  /-- The cache left its buffer behind, which ends the process. -/
  crashed : Bool

variable {c : Config}

/-- The state `initSharedMemory` leaves. -/
def State.init (c : Config) : State c where
  monitor := .init
  shmQueue := List.finRange c.nsegments
  seg := fun g => ⟨0, 0, 0, c.names g, c.segsize, 0, 0, 0, List.replicate c.segsize 0⟩
  msgqueue := []
  next := 0
  proxy := fun _ => ⟨0, .idle⟩
  worker := fun _ => .receive
  sent := fun _ => []
  crashed := false

/-! ### The proxy -/

def State.goto (s : State c) (i : Fin c.nproxies) (pc : ProxyPc c.nsegments) : State c :=
  { s with proxy := Function.update s.proxy i { s.proxy i with pc } }

def State.put (s : State c) (g : Fin c.nsegments) (shm : ShmDetails) : State c :=
  { s with seg := Function.update s.seg g shm }

def State.tell (s : State c) (i : Fin c.nproxies) (e : Sent) : State c :=
  { s with
    sent := Function.update s.sent (s.proxy i).request (s.sent (s.proxy i).request ++ [e]) }

/-- `handle_with_cache` returns its `int bytes_sent`. -/
def State.finish (s : State c) (i : Fin c.nproxies) (value : ℤ) : State c :=
  (s.tell i (.returned (value.bmod (2 ^ 32)))).goto i .idle

/-- `size_t` arithmetic. -/
def size (z : ℤ) : ℕ := (z % 2 ^ 64).toNat

def queueMemory (i : Fin c.nproxies) (mem : Fin c.nsegments) (branch : Branch) (s : State c) :
    QueuePc → Option (State c)
  | .readLen =>
    some ((s.put mem { s.seg mem with readLen := 0 }).goto i (.queue mem branch .filesize))
  | .filesize =>
    some ((s.put mem { s.seg mem with filesize := 0 }).goto i (.queue mem branch .lock))
  | .lock =>
    (s.monitor.lock i).map fun m => { s with monitor := m }.goto i (.queue mem branch .enqueue)
  | .enqueue =>
    some ({ s with shmQueue := stequeEnqueue s.shmQueue mem }.goto i (.queue mem branch .unlock))
  | .unlock =>
    some ({ s with monitor := s.monitor.unlock }.goto i (.queue mem branch .broadcast))
  | .broadcast =>
    let s := { s with monitor := s.monitor.broadcast }
    match branch with
    | .sent bytesTransferred => some (s.finish i bytesTransferred)
    | .notFound => some (s.goto i .notFound)

/-- A step of `processResponse`, where `ret` is what `gfs_send` or `gfs_sendheader` returns. -/
def processResponse (i : Fin c.nproxies) (ret : ℤ) (s : State c) : Option (State c) :=
  match (s.proxy i).pc with
  | .waitFilelen g =>
    if 0 < (s.seg g).filelenSem then
      some ((s.put g { s.seg g with filelenSem := (s.seg g).filelenSem - 1 }).goto i (.status g))
    else none
  | .status g =>
    if (s.seg g).status = 200 then some (s.goto i (.header g))
    else if (s.seg g).status = 404 then some (s.goto i (.queue g .notFound .readLen))
    else some (s.finish i 0)
  | .header g => some ((s.tell i (.header gfOk (s.seg g).filesize)).goto i (.loop g 0))
  | .loop g bytesTransferred =>
    some (s.goto i (if bytesTransferred < (s.seg g).filesize then .waitProxysem g bytesTransferred
      else .queue g (.sent bytesTransferred) .readLen))
  | .waitProxysem g bytesTransferred =>
    if 0 < (s.seg g).proxysem then
      some ((s.put g { s.seg g with proxysem := (s.seg g).proxysem - 1 }).goto i
        (.load g bytesTransferred))
    else none
  | .load g bytesTransferred => some (s.goto i (.send g bytesTransferred (s.seg g).readLen))
  | .send g bytesTransferred readLen =>
    if size ret ≤ 0 then some (s.goto i (.queue g (.sent bytesTransferred) .readLen))
    else
      some ((s.tell i (.data (((s.seg g).data.take readLen).take ret.toNat))).goto i
        (.postCachesem g ((bytesTransferred + size ret) % 2 ^ 64)))
  | .postCachesem g bytesTransferred =>
    some ((s.put g { s.seg g with cachesem := (s.seg g).cachesem + 1 }).goto i
      (.loop g bytesTransferred))
  | .queue g branch pc => queueMemory i g branch s pc
  | .notFound => some ((s.tell i (.header gfFileNotFound 0)).finish i (size ret))
  | _ => none

/-- A step of a thread of the proxy: it is handed the next request, or takes a step in handling
the one it has. -/
def handleWithCache (i : Fin c.nproxies) (ret : ℤ) (s : State c) : Option (State c) :=
  match (s.proxy i).pc with
  | .idle =>
    if s.next < c.paths.length then
      some { s with
        next := s.next + 1
        proxy := Function.update s.proxy i ⟨s.next, .lock⟩ }
    else none
  | .lock => (s.monitor.lock i).map fun m => { s with monitor := m }.goto i .isempty
  | .isempty => some (s.goto i (if stequeIsempty s.shmQueue then .wait else .pop))
  | .wait => some ({ s with monitor := s.monitor.sleep i }.goto i .waiting)
  | .waiting => (s.monitor.resume i).map fun m => { s with monitor := m }.goto i .isempty
  | .pop =>
    (stequePop s.shmQueue).map fun p => { s with shmQueue := p.2 }.goto i (.unlock p.1)
  | .unlock g => some ({ s with monitor := s.monitor.unlock }.goto i (.broadcast g))
  | .broadcast g => some ({ s with monitor := s.monitor.broadcast }.goto i (.fill g))
  | .fill g =>
    some (s.goto i (.initFilelen g ⟨strncpy maxRequestLen (c.paths.getD (s.proxy i).request []),
      (s.seg g).shmId, (s.seg g).segsize⟩))
  | .initFilelen g request =>
    some ((s.put g { s.seg g with filelenSem := 0 }).goto i (.initProxysem g request))
  | .initProxysem g request =>
    some ((s.put g { s.seg g with proxysem := 0 }).goto i (.initCachesem g request))
  | .initCachesem g request =>
    some ((s.put g { s.seg g with cachesem := 1 }).goto i (.mqSend g request))
  | .mqSend g request =>
    if s.msgqueue.length < mqMaxmsg then
      some ({ s with msgqueue := s.msgqueue ++ [((s.proxy i).request, request)] }.goto i
        (.waitFilelen g))
    else none
  | _ => processResponse i ret s

/-! ### The cache -/

/-- `shm_open` finds the segment with the name. -/
def shmOpen (c : Config) (segId : Bytes) : Option (Fin c.nsegments) :=
  (List.finRange c.nsegments).find? fun g => c.names g = segId

def State.work (s : State c) (j : Fin c.nworkers) (pc : WorkerPc c.nsegments) : State c :=
  { s with worker := Function.update s.worker j pc }

/-- A step of `sendResponse` for a file that was found, where `ret` is what `pread` returns. -/
def copyFile (j : Fin c.nworkers) (ret : ℤ) (request : ℕ) (job : Copy c.nsegments)
    (s : State c) : CopyPc → Option (State c)
  | .filesize =>
    some ((s.put job.shm { s.seg job.shm with filesize := job.filsize }).work j
      (.copy request job .status))
  | .status =>
    some ((s.put job.shm { s.seg job.shm with status := 200 }).work j
      (.copy request job .postFilelen))
  | .postFilelen =>
    some ((s.put job.shm { s.seg job.shm with filelenSem := (s.seg job.shm).filelenSem + 1 }).work j
      (.copy request job .loop))
  | .loop =>
    some (s.work j (if job.bytesRead < job.filsize then .copy request job .waitCachesem
      else .receive))
  | .waitCachesem =>
    if 0 < (s.seg job.shm).cachesem then
      some ((s.put job.shm { s.seg job.shm with cachesem := (s.seg job.shm).cachesem - 1 }).work j
        (.copy request job .pread))
    else none
  | .pread =>
    let left := (c.file job.fildes).drop job.offset
    if -1 ≤ ret ∧ ret ≤ min job.segsize left.length then
      if size ret ≤ 0 then some (s.work j .receive)
      else
        some (s.work j (.copy request
          { job with buffer := left.take ret.toNat ++ job.buffer.drop ret.toNat }
          (.readLen (size ret))))
    else none
  | .readLen nbytes =>
    some ((s.put job.shm { s.seg job.shm with readLen := nbytes }).work j
      (.copy request job (.data nbytes)))
  | .data nbytes =>
    if nbytes ≤ job.segsize then
      some ((s.put job.shm { s.seg job.shm with
        data := job.buffer.take nbytes ++ (s.seg job.shm).data.drop nbytes }).work j
        (.copy request job (.postProxysem nbytes)))
    else some { s with crashed := true }
  | .postProxysem nbytes =>
    some ((s.put job.shm { s.seg job.shm with proxysem := (s.seg job.shm).proxysem + 1 }).work j
      (.copy request { job with
        bytesRead := (job.bytesRead + nbytes) % 2 ^ 64
        offset := (job.offset + nbytes) % 2 ^ 64 } .loop))

/-- A step of `sendResponse` for a file that was not found. -/
def answerMissing (j : Fin c.nworkers) (request : ℕ) (shm : Fin c.nsegments) (s : State c) :
    MissingPc → Option (State c)
  | .filesize =>
    some ((s.put shm { s.seg shm with filesize := size (-1) }).work j
      (.missing request shm .status))
  | .status =>
    some ((s.put shm { s.seg shm with status := 404 }).work j (.missing request shm .postFilelen))
  | .postFilelen =>
    some ((s.put shm { s.seg shm with filelenSem := (s.seg shm).filelenSem + 1 }).work j .receive)

/-- A step of `sendResponse`. -/
def sendResponse (j : Fin c.nworkers) (ret : ℤ) (s : State c) : Option (State c) :=
  match s.worker j with
  | .shmOpen request msg fildes =>
    match shmOpen c msg.shmId with
    | none => some { s with crashed := true }
    | some shm =>
      some (s.work j (if fildes < 0 then .missing request shm .filesize
        else .seek request shm fildes msg.segsize))
  | .missing request shm pc => answerMissing j request shm s pc
  | .seek request shm fildes segsize =>
    some (s.work j (.copy request ⟨shm, fildes, segsize, (c.file fildes).length, 0, 0,
      List.replicate segsize 0⟩ .filesize))
  | .copy request job pc => copyFile j ret request job s pc
  | _ => none

/-- A step of a worker of the cache. -/
def workerRoutine (j : Fin c.nworkers) (ret : ℤ) (s : State c) : Option (State c) :=
  match s.worker j with
  | .receive =>
    match s.msgqueue with
    | [] => none
    | (request, msg) :: rest => some ({ s with msgqueue := rest }.work j (.lookup request msg))
  | .lookup request msg =>
    some (s.work j (.shmOpen request msg (simplecacheGet c.items msg.path)))
  | _ => sendResponse j ret s

/-! ### The system -/

/-- A thread takes a step, in which a call of it returns `ret`, or a sleeper wakes up by itself. -/
inductive Event (c : Config)
  | proxy (i : Fin c.nproxies) (ret : ℤ)
  | worker (j : Fin c.nworkers) (ret : ℤ)
  | spurious (i : Fin c.nproxies)

def step (c : Config) : Event c → State c → Option (State c)
  | .proxy i ret, s => handleWithCache i ret s
  | .worker j ret, s => if s.crashed then none else workerRoutine j ret s
  | .spurious i, s => (s.monitor.wake i).map fun m => { s with monitor := m }

end FileServices.Cache
