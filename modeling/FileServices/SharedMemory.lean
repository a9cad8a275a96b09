import FileServices.ReqStruct

/-!
# The segments from start to shutdown

`initSharedMemory` makes the segments of the proxy and puts them into `shm_queue`, and the handler
of its signals is to remove their names again.
-/

namespace FileServices.Cache

open CString

/-! ### Shared memory objects -/

/-- The objects of shared memory with what is in them, and the names that open them.  Objects are
numbered as they are made, and removing the last name of one leaves its mappings in place. -/
structure Shm where
  name : Bytes → Option ℕ
  seg : ℕ → ShmDetails
  next : ℕ
  name_lt : ∀ b g, name b = some g → g < next

/-- A new object, before it is given a size. -/
def ShmDetails.new : ShmDetails := ⟨0, 0, 0, [], 0, 0, 0, 0, []⟩

/-- No shared memory at all. -/
def Shm.empty : Shm := ⟨fun _ => none, fun _ => .new, 0, nofun⟩

def Shm.put (t : Shm) (g : ℕ) (shm : ShmDetails) : Shm :=
  { t with seg := Function.update t.seg g shm }

def shmUnlink (memName : Bytes) (t : Shm) : Shm where
  name := Function.update t.name memName none
  seg := t.seg
  next := t.next
  name_lt := fun b g hg => by
    rw [Function.update_apply] at hg
    split_ifs at hg
    exact t.name_lt b g hg

/-- A new object under a name. -/
def Shm.create (t : Shm) (memName : Bytes) : Shm where
  name := Function.update t.name memName (some t.next)
  seg := Function.update t.seg t.next .new
  next := t.next + 1
  name_lt := fun b g hg => by
    rw [Function.update_apply] at hg
    split_ifs at hg
    · obtain rfl := Option.some.inj hg
      exact Nat.lt_succ_self _
    · exact Nat.lt_succ_of_lt (t.name_lt b g hg)

/-- `shm_open` with `O_RDWR | O_CREAT`. -/
def shmOpenCreat (memName : Bytes) (t : Shm) : ℕ × Shm :=
  match t.name memName with
  | some g => (g, t)
  | none => (t.next, t.create memName)

/-- `ftruncate` to `segsize` bytes of data; what is added is zero. -/
def ftruncate (g segsize : ℕ) (t : Shm) : Shm :=
  t.put g { t.seg g with
    data := (t.seg g).data.take segsize ++ List.replicate (segsize - (t.seg g).data.length) 0 }

/-! ### Starting -/

/-- The objects and the queue of pointers to those mapped. -/
structure SharedMemory where
  shm : Shm
  shmQueue : List ℕ

/-- An iteration of `initSharedMemory` all of whose calls succeed. -/
def initSegment (segsize : ℕ) (s : SharedMemory) (m : ℕ) : SharedMemory :=
  let name := memName m
  let t := shmUnlink name s.shm
  let (shmid, t) := shmOpenCreat name t
  let t := ftruncate shmid segsize t
  let t := t.put shmid { t.seg shmid with
    shmId := cstr name, segsize := segsize, filesize := 0, readLen := 0, status := 0 }
  ⟨t, stequeEnqueue s.shmQueue shmid⟩

/-- The first `m` iterations. -/
def initSegments (segsize : ℕ) (t : Shm) (m : ℕ) : SharedMemory :=
  (List.range m).foldl (initSegment segsize) ⟨t, []⟩

/-- The iterations `initSharedMemory` makes: it takes the `unsigned int nsegments` as an `int`. -/
def segments (nsegments : ℕ) : ℕ := ((nsegments : ℤ).bmod (2 ^ 32)).toNat

def initSharedMemory (nsegments segsize : ℕ) (t : Shm) : SharedMemory :=
  initSegments segsize t (segments nsegments)

/-! ### Shutdown -/

def sigint : ℤ := 2

def sigterm : ℤ := 15

/-- The names the loop of `_sig_handler` unlinks from `z` on, and what it leaves in the queue. -/
def unlinkSegments (seg : ℕ → ShmDetails) : ℕ → List ℕ → List Bytes × List ℕ
  | _, [] => ([], [])
  | z, g :: queue =>
    if z < stequeSize (g :: queue) then
      let r := unlinkSegments seg (z + 1) queue
      (cstr (seg g).shmId :: r.1, r.2)
    else ([], g :: queue)

/-- `_sig_handler`: the calls of `shm_unlink`, and what they and the queue come to. -/
def sigHandler (signo : ℤ) (s : SharedMemory) : List Bytes × SharedMemory :=
  if signo = sigterm ∨ signo = sigint then
    let r := unlinkSegments s.shm.seg 0 s.shmQueue
    (r.1, ⟨r.1.foldl (fun t name => shmUnlink name t) s.shm, stequeDestroy r.2⟩)
  else ([], s)

end FileServices.Cache
