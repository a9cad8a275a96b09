import FileServices.Cache
import FileServices.Lib.Mem

/-!
# The request in memory

A `req_struct` as the bytes that go through the message queue, and the C strings that
`workerRoutine` takes out of it.
-/

namespace FileServices.Cache

open CString

/-- Where `shm_id` is, and where `segsize` is with the padding before it. -/
def shmIdOffset : ℕ := maxRequestLen

def segsizeOffset : ℕ := 144

/-- `sizeof(req_struct)`. -/
def reqStructSize : ℕ := segsizeOffset + 8

/-- `snprintf(memName, 10, "Shm_%d", m)`. -/
def memName (m : ℕ) : Bytes := (ascii "Shm_" ++ decimal m).take 9

/-- A `size_t` in memory. -/
def sizeBytes (n : ℕ) : Bytes := (List.range 8).map fun k => UInt8.ofNat (n / 256 ^ k)

/-- `request_data` filled by `strncpy`, `strcpy` and an assignment, over what was on the stack. -/
def requestData (stack path shmId : Bytes) (segsize : ℕ) : Bytes :=
  let record := poke stack 0 (strncpy maxRequestLen path)
  let record := poke record shmIdOffset (cstr shmId ++ [0])
  poke record segsizeOffset (sizeBytes segsize)

/-- `mq_receive` into `mq_msg`. -/
def mqReceive (mqMsg msg : Bytes) : Bytes := poke mqMsg 0 msg

/-- The string that goes to `simplecache_get`. -/
def msgPath (mqMsg : Bytes) : Option Bytes := stringAt mqMsg 0

/-- The string that goes to `shm_open`. -/
def msgShmId (mqMsg : Bytes) : Option Bytes := stringAt mqMsg shmIdOffset

end FileServices.Cache
