import FileServices.Lib.Trans
import FileServices.Buffered

/-!
# Calls on any files at the same time

gRPC serves each call of `storeFile`, `fetchFile` and `deleteFile` on a thread of its own, and the
program has no lock.  The calls take their steps in any order, each on the file that it has open:
a name that is removed leaves the calls that have opened it with the file.  A fetch reads each
chunk from the file as it is then: what the stream reads ahead of the chunk is left out.
-/

namespace FileServices.Calls

open CString
open Dfs (StatusCode Sender Turn)
open Buffered (File)

/-- What a call is for, with the messages that `Read` gives one after the other. -/
inductive Task
  | store (filename : Option Bytes) (messages : List Bytes)
  | fetch (filepath : Bytes)
  | delete (filepath : Bytes)

/-- The calls, and the files there are before them.  Paths that lead to one file have one
`entry`. -/
structure Config (N : Type*) where
  mountPath : Bytes
  entry : Bytes → N
  ncalls : ℕ
  task : Fin ncalls → Task
  disk : Disk N UInt8

variable {N : Type*}

def Config.wrapPath (c : Config N) (filepath : Bytes) : Bytes := c.mountPath ++ filepath

/-- The path that a call gives to the system. -/
def Config.path (c : Config N) (k : Fin c.ncalls) : Bytes :=
  match c.task k with
  | .store filename _ => c.wrapPath (filename.getD [])
  | .fetch filepath | .delete filepath => c.wrapPath filepath

def Config.file (c : Config N) (k : Fin c.ncalls) : N := c.entry (c.path k)

/-- Where a call stands.  A stream that has failed is `none`, as it takes and gives nothing. -/
inductive Pc
  | start
  | reading (stream : Option File) (rest : List Bytes)
  | stated (stSize : ℕ)
  | sending (ino : Option ℕ) (t : Sender)
  | removing
  | returned (status : StatusCode) (sent : List Bytes)
  deriving DecidableEq

/-- The files with the calls, and those that have returned in the order in which they did. -/
structure State (c : Config N) where
  disk : Disk N UInt8
  pc : Fin c.ncalls → Pc
  returned : List (Fin c.ncalls)

def State.init (c : Config N) : State c := ⟨c.disk, fun _ => .start, []⟩

variable {c : Config N}

def State.goto (s : State c) (k : Fin c.ncalls) (pc : Pc) : State c :=
  { s with pc := Function.update s.pc k pc }

/-- The call returns. -/
def State.done (s : State c) (k : Fin c.ncalls) (status : StatusCode) (sent : List Bytes) :
    State c :=
  { s with returned := s.returned ++ [k] }.goto k (.returned status sent)

/-- The stream is closed, or given up: what it has yet to hand on is written. -/
def State.close (s : State c) : Option File → State c
  | none => s
  | some file => { s with disk := (file.flush file.pending.length s.disk).2 }

/-- A step of `fetchFile`: `stat`, the opening, or an iteration. -/
def fetchFile (k : Fin c.ncalls) (turn : Turn) (s : State c) : Option (State c) :=
  match s.pc k with
  | .start =>
    match if turn = .throws then none else s.disk.read (c.file k) with
    | none => some (s.done k .notFound [])
    | some content => some (s.goto k (.stated content.length))
  | .stated stSize =>
    let ino := if turn = .throws then none else s.disk.dir (c.file k)
    some (s.goto k (.sending ino (.start stSize ino.isSome)))
  | .sending ino t =>
    match t.head with
    | some (status, sent) => some (s.done k status sent)
    | none =>
      match Dfs.fetchBody ((ino.map s.disk.data).getD []) t turn with
      | .more t => some (s.goto k (.sending ino t))
      | .stop (status, sent) => some (s.done k status sent)
  | _ => none

variable [DecidableEq N]

/-- A step of `storeFile`: the opening, an iteration, or the close. -/
def storeFile (messages : List Bytes) (k : Fin c.ncalls) (turn : Turn) (s : State c) :
    Option (State c) :=
  match s.pc k with
  | .start =>
    if turn = .throws then some (s.goto k (.reading none messages))
    else
      let (ino, disk) := s.disk.openWrite (c.file k)
      some ({ s with disk }.goto k (.reading (some ⟨ino, 0, []⟩) messages))
  | .reading stream (m :: ms) =>
    match turn with
    | .goes => some (s.goto k (.reading (stream.map fun file =>
        { file with pending := file.pending ++ m }) ms))
    | .isCancelled => some ((s.close stream).done k .deadlineExceeded [])
    | .throws => some ((s.close stream).done k .cancelled [])
  | .reading stream [] => some ((s.close stream).done k .ok [])
  | _ => none

/-- A step of `deleteFile`: the test of the context with `stat`, or the removal. -/
def deleteFile (k : Fin c.ncalls) (turn : Turn) (s : State c) : Option (State c) :=
  match s.pc k with
  | .start =>
    if turn = .isCancelled then some (s.done k .deadlineExceeded [])
    else
      match if turn = .throws then none else s.disk.read (c.file k) with
      | none => some (s.done k .notFound [])
      | some _ => some (s.goto k .removing)
  | .removing =>
    if turn = .goes ∧ (s.disk.dir (c.file k)).isSome then
      some ({ s with disk := s.disk.unlink (c.file k) }.done k .ok [])
    else some (s.done k .cancelled [])
  | _ => none

/-- A call takes a step, the system writes some of what a stream has yet to hand on, or it does
not take it. -/
inductive Event (c : Config N)
  | run (k : Fin c.ncalls) (turn : Turn)
  | flush (k : Fin c.ncalls) (n : ℕ)
  | lose (k : Fin c.ncalls)

def step (c : Config N) (e : Event c) (s : State c) : Option (State c) :=
  match e with
  | .run k turn =>
    match c.task k with
    | .store _ messages => storeFile messages k turn s
    | .fetch _ => fetchFile k turn s
    | .delete _ => deleteFile k turn s
  | .flush k n =>
    match s.pc k with
    | .reading (some file) rest =>
      let (file, disk) := file.flush n s.disk
      some ({ s with disk }.goto k (.reading (some file) rest))
    | _ => none
  | .lose k =>
    match s.pc k with
    | .reading (some _) rest => some (s.goto k (.reading none rest))
    | _ => none

end FileServices.Calls
