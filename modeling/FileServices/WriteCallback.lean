import FileServices.Lib.Cells

/-!
# The buffer that `write_callback` fills

`handle_with_curl` starts with an array of one byte, and each call of `write_callback` has it made
longer by what the call has been given.  The request for the longer array may fail.
-/

namespace FileServices.WriteCallback

open CString Cells

/-- `struct customdata`: the array that `response` points to, where it is not NULL, and the length
of what it holds. -/
structure Customdata where
  response : Option Buffer
  filesize : ℕ
  deriving DecidableEq

/-- `realloc(ptr, n)`, where `granted` says whether there is memory left.  No array has `2 ^ 63`
bytes or more, and what is new in it has not been written. -/
def realloc (granted : Bool) (ptr : Option Buffer) (n : ℕ) : Option Buffer :=
  if granted ∧ n < 2 ^ 63 then
    let old := ptr.getD []
    some (old.take n ++ declared (n - old.length))
  else none

/-- A call by curl, with what becomes of its `realloc`.  The data are an array, too. -/
structure Callback where
  size : ℕ
  nmemb : ℕ
  data : Bytes
  granted : Bool
  data_length : data.length = size * nmemb
  data_lt : data.length < 2 ^ 63

/-- `chunk` before the first call. -/
def initialChunk (granted : Bool) : Customdata where
  response := realloc granted none 1
  filesize := 0

/-- The array that the call is given. -/
def Customdata.grown (mem : Customdata) (call : Callback) : Option Buffer :=
  let realsize := call.size * call.nmemb % 2 ^ 64
  realloc call.granted mem.response ((mem.filesize + realsize + 1) % 2 ^ 64)

/-- `write_callback`: the number it returns, and what it leaves in `chunk`. -/
def writeCallback (mem : Customdata) (call : Callback) : Except Fault (ℕ × Customdata) :=
  let realsize := call.size * call.nmemb % 2 ^ 64
  match mem.grown call with
  | none => .ok (0, mem)
  | some ptr =>
    (store ptr mem.filesize (call.data.take realsize)).bind fun ptr =>
      let filesize := (mem.filesize + realsize) % 2 ^ 64
      (store ptr filesize [0]).map fun ptr => (realsize, ⟨some ptr, filesize⟩)

/-- The calls of one transfer, one after the other, and those of them that `realloc` gave memory. -/
def performed : Customdata → List Callback → List Callback →
    Except Fault (Customdata × List Callback)
  | mem, done, [] => .ok (mem, done)
  | mem, done, call :: calls =>
    (writeCallback mem call).bind fun r =>
      performed r.2 (if (mem.grown call).isSome then done ++ [call] else done) calls

end FileServices.WriteCallback
