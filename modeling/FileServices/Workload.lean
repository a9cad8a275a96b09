import FileServices.Lib.Cells
import FileServices.Lib.Trans

/-!
# The workload of the clients

`workload_init` reads the words of a file into an array, and `workload_get_path` hands them out in
turn to any number of threads.
-/

namespace FileServices.Workload

open CString Cells

/-! ### Reading the file -/

/-- `fscanf(file_handle, "%s", ..)`: the next word and what follows it, `none` for `EOF`. -/
def fscanf (file : Bytes) : Option (Bytes × Bytes) :=
  match file.dropWhile isSpace with
  | [] => none
  | b :: text => some ((b :: text).takeWhile fun c => !isSpace c,
      (b :: text).dropWhile fun c => !isSpace c)

theorem fscanf_lt {file word rest : Bytes} (h : fscanf file = some (word, rest)) :
    rest.length < file.length := by
  unfold fscanf at h
  rcases hs : file.dropWhile isSpace with _ | ⟨b, text⟩
  · simp [hs] at h
  · simp only [hs, Option.some.injEq, Prod.mk.injEq] at h
    have hb : isSpace b = false := by
      have := List.head?_dropWhile_not isSpace file
      rw [hs] at this
      simpa using this
    have hlen : (b :: text).length ≤ file.length :=
      hs ▸ (List.dropWhile_sublist isSpace).length_le
    have hrest : rest.length ≤ text.length := by
      rw [← h.2, List.dropWhile_cons_of_pos (by simp [hb])]
      exact (List.dropWhile_sublist _).length_le
    rw [List.length_cons] at hlen
    omega

/-- The words that `fscanf` reads until the end of the file. -/
def words (file : Bytes) : List Bytes :=
  match _h : fscanf file with
  | none => []
  | some (word, rest) => word :: words rest
termination_by file.length
decreasing_by exact fscanf_lt _h

/-- The local variables of `workload_init`, and `gWorkloadPathArray`. -/
structure Reading where
  i : ℕ
  tempBuf : Buffer
  gWorkloadPathArray : List (Option Bytes)

/-- An iteration: the word goes into `temp_buf`, and a copy of the string there into the array. -/
def readWord (s : Reading) (word : Bytes) : Except Fault Reading :=
  (store s.tempBuf 0 (word ++ [0])).bind fun tempBuf =>
    (load 0 tempBuf).bind fun path =>
      if s.i < s.gWorkloadPathArray.length then
        .ok ⟨s.i + 1, tempBuf, s.gWorkloadPathArray.set s.i (some path)⟩
      else .error (.writeOutside s.i)

structure Paths where
  gWorkloadPathArray : List (Option Bytes)
  gUniqueWorkloadPaths : ℕ

/-- `workload_init` on a file that can be opened. -/
def workloadInit (file : Bytes) : Except Fault Paths :=
  ((words file).foldlM readWord ⟨0, declared 256, List.replicate 100 none⟩).map fun s =>
    ⟨s.gWorkloadPathArray, s.i % 2 ^ 16⟩

/-! ### Handing out the paths -/

inductive CallFault
  | divisionByZero
  | outside (index : ℤ)
  deriving DecidableEq

/-- The index that an entry comes to, and the pointer there. -/
def lookup (w : Paths) (entry : ℤ) : Except CallFault (ℤ × Option Bytes) :=
  if w.gUniqueWorkloadPaths = 0 then .error .divisionByZero
  else
    let index := entry.tmod w.gUniqueWorkloadPaths
    if 0 ≤ index ∧ index < w.gWorkloadPathArray.length then
      .ok (index, w.gWorkloadPathArray.getD index.toNat none)
    else .error (.outside index)

/-- A call of `workload_get_path` that has returned: which it was in the order of the increments,
the index it used, and the pointer. -/
structure Call where
  number : ℕ
  index : ℤ
  path : Option Bytes

/-- The `int` counter with the number of its increments, the entries of the threads that are in a
call, and the calls that have returned. -/
structure Calls (nthreads : ℕ) where
  counter : ℤ
  made : ℕ
  entry : Fin nthreads → Option (ℕ × ℤ)
  returned : List Call
  fault : Option CallFault

def Calls.init (nthreads : ℕ) : Calls nthreads := ⟨0, 0, fun _ => none, [], none⟩

/-- `__sync_fetch_and_add`, or the rest of the call. -/
inductive Action (nthreads : ℕ)
  | fetchAndAdd (i : Fin nthreads)
  | index (i : Fin nthreads)

/-- An `int` after an atomic increment. -/
def increment (counter : ℤ) : ℤ := (counter + 1).bmod (2 ^ 32)

def Calls.enter {nthreads : ℕ} (s : Calls nthreads) (i : Fin nthreads) : Calls nthreads :=
  { s with
    counter := increment s.counter
    made := s.made + 1
    entry := Function.update s.entry i (some (s.made, s.counter)) }

def Calls.leave {nthreads : ℕ} (s : Calls nthreads) (i : Fin nthreads) (call : Call) :
    Calls nthreads :=
  { s with
    entry := Function.update s.entry i none
    returned := s.returned ++ [call] }

/-- A step of `workload_get_path` in sequential mode.  A fault ends the process. -/
def workloadGetPath {nthreads : ℕ} (w : Paths) :
    Action nthreads → Calls nthreads → Option (Calls nthreads)
  | .fetchAndAdd i, s =>
    match s.fault, s.entry i with
    | none, none => some (s.enter i)
    | _, _ => none
  | .index i, s =>
    match s.fault, s.entry i with
    | none, some (number, entry) =>
      match lookup w entry with
      | .ok (index, path) => some (s.leave i ⟨number, index, path⟩)
      | .error fault => some { s with fault := some fault }
    | _, _ => none

end FileServices.Workload
