import FileServices.SendResponse
import FileServices.Lib.Threads

/-!
# Workers on one descriptor

`simplecache_get` gives every worker that is to serve a file the same descriptor, and with it the
one offset that the kernel keeps for it.  A step is a call on the descriptor, with what the worker
does until the next one.
-/

namespace FileServices.SharedOffset

open CString SendResponse

/-! ### The kernel -/

/-- An open file: its content, and the offset that all who have the descriptor share. -/
structure OpenFile where
  content : Bytes
  offset : ℕ
  deriving DecidableEq

inductive Whence
  | seekSet | seekEnd
  deriving DecidableEq

/-- `lseek`: the offset it returns is where it has put the shared one. -/
def lseek (file : OpenFile) (off : ℕ) (whence : Whence) : ℕ × OpenFile :=
  let offset := match whence with
    | .seekSet => off
    | .seekEnd => file.content.length + off
  (offset, { file with offset })

/-- `pread`, if it can return `ret`: what it puts into the buffer, `none` for -1.  It neither looks
at the shared offset nor moves it. -/
def pread (file : OpenFile) (count offset : ℕ) (ret : ℤ) : Option (Option Bytes) :=
  let left := file.content.drop offset
  if ret = -1 then some none
  else if 0 ≤ ret ∧ ret ≤ min count left.length then some (some (left.take ret.toNat))
  else none

/-! ### The workers -/

/-- The file, and whether a worker has ended the process. -/
structure Process where
  file : OpenFile
  crashed : Bool
  deriving DecidableEq

inductive Pc
  | lookup
  | size (segsize : ℕ) (data : Bytes)
  | copy (segsize filsize : ℕ) (s : Copying)
  deriving DecidableEq

/-- A worker, with the sizes it has announced and the chunks it has published. -/
structure Thread where
  pc : Pc
  announced : List ℕ
  chunks : List Bytes
  deriving DecidableEq

/-- A call on the descriptor: for a request with its segment, for the size, or for a part of the
file, where `pread` returns `ret`. -/
inductive Call
  | get (segsize : ℕ) (data : Bytes)
  | size
  | pread (ret : ℤ)

def Thread.start : Thread := ⟨.lookup, [], []⟩

/-- The head of the copy loop. -/
def loopHead (segsize filsize : ℕ) (s : Copying) : Pc :=
  match copyHead filsize s with
  | some _ => .lookup
  | none => .copy segsize filsize s

/-- `workerRoutine` with `simplecache_get` and `sendResponse`, up to the next call. -/
def workerStep (p : Process) (t : Thread) (call : Call) : Option (Process × Thread) :=
  if p.crashed then none
  else
    match t.pc, call with
    | .lookup, .get segsize data =>
      some ({ p with file := (lseek p.file 0 .seekSet).2 }, { t with pc := .size segsize data })
    | .size segsize data, .size =>
      let (filsize, file) := lseek p.file 0 .seekEnd
      some ({ p with file },
        { t with
          pc := loopHead segsize filsize (.start segsize data)
          announced := t.announced ++ [filsize] })
    | .copy segsize filsize s, .pread ret =>
      (pread p.file segsize s.offset ret).map fun read =>
        match copyBody segsize s read with
        | .more s' => (p, { t with
            pc := loopHead segsize filsize s'
            chunks := t.chunks ++ s'.posted.drop s.posted.length })
        | .stop ⟨.crashed, s'⟩ =>
          ({ p with crashed := true }, { t with pc := .copy segsize filsize s' })
        | .stop _ => (p, { t with pc := .lookup })
    | _, _ => none

end FileServices.SharedOffset
