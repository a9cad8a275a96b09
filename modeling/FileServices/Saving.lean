import FileServices.Buffered
import FileServices.Downloader
import FileServices.Lib.Path
import FileServices.OpenFile

/-!
# What the workers of the multithreaded client save

A worker that has taken a request off the queue makes up a local name with a number behind it,
opens that file, and has `gfc_perform` write to it.  The number comes from a counter that all
workers share and none of them locks, and what `gfc_perform` returns goes through a variable that
they share as well.  A step is one access to one of these or one call on a file, and the calls that
write, close and remove a file work.  A file is known by where its path leads, and no directory is
a link.
-/

namespace FileServices.Saving

open CString Downloader
open Buffered (File)

/-- What `gfc_perform`, which is given only as an object file, does for a request: the data that it
hands to `writecb`, what it returns, and whether the status is `GF_OK` then. -/
structure Answer where
  chunks : List Bytes
  returncode : ℤ
  ok : Bool

structure Config where
  nthreads : ℕ
  nrequests : ℕ
  /-- The path that `workload_get_path` returns for a request. -/
  path : ℕ → Bytes
  answer : ℕ → Answer
  disk : Disk (Path.Place Bytes) UInt8
  nthreads_pos : 0 < nthreads
  path_string : ∀ r, 0 ∉ path r

variable {c : Config}

/-- `"-%06d"`. -/
def suffix (counter : ℕ) : Bytes :=
  ascii "-" ++ (List.replicate (6 - (decimal counter).length) 48 ++ decimal counter)

/-- The string that `localPath` prints. -/
def localPath (reqPath : Bytes) (counter : ℕ) : Bytes := reqPath.tail ++ suffix counter

def localFile (reqPath : Bytes) (counter : ℕ) : Path.Place Bytes :=
  Path.resolve (localPath reqPath counter)

/-- Where a worker stands in `set_request_main_code`. -/
inductive SaverPc
  | load
  | store (counter : ℕ)
  | openFile (localPath : Bytes)
  | perform (localPath : Bytes) (file : File) (chunks : List Bytes)
  | test (localPath : Bytes) (file : File)
  | fclose (localPath : Bytes) (file : File) (failed : Bool)
  | unlink (localPath : Bytes)
  | status (localPath : Bytes)

/-- The threads with the regular files on the disk, and the number that each request has taken. -/
structure State (c : Config) where
  pool : Pool c.nthreads
  counter : ℕ
  returncode : ℤ
  disk : Disk (Path.Place Bytes) UInt8
  saver : Fin c.nthreads → SaverPc
  taken : List (ℕ × ℕ)
  exited : Bool

def State.init (c : Config) : State c := ⟨.init c.nthreads, 0, 0, c.disk, fun _ => .load, [], false⟩

def State.goto (s : State c) (k : Fin c.nthreads) (pc : SaverPc) : State c :=
  { s with saver := Function.update s.saver k pc }

/-- `set_request_main_code` returns. -/
def State.done (s : State c) (k : Fin c.nthreads) : Option (State c) :=
  (threadHandleReq c.nrequests k none s.pool).map fun pool => { s with pool }.goto k .load

/-- A step of `set_request_main_code`, where `mkdirs` and `fopen` are what the calls in `openFile`
come to. -/
def setRequestMainCode (k : Fin c.nthreads) (req : ℕ) (mkdirs : List (Option ℕ)) (fopen : Bool)
    (s : State c) : Option (State c) :=
  match s.saver k with
  | .load => some ({ s with taken := s.taken ++ [(req, s.counter)] }.goto k (.store s.counter))
  | .store counter =>
    some ({ s with counter := counter + 1 }.goto k (.openFile (localPath (c.path req) counter)))
  | .openFile name =>
    match OpenFile.openFile (name ++ [0]) mkdirs with
    | .stop (.fopen path _) =>
      if fopen then
        let (ino, disk) := s.disk.openWrite (Path.resolve path)
        some ({ s with disk }.goto k (.perform name ⟨ino, 0, []⟩ (c.answer req).chunks))
      else some { s with exited := true }
    | .stop .exit => some { s with exited := true }
    -- The loop is not through, or has left the string, which ends in the array.
    | .more _ | .stop .outside => none
  | .perform name file (chunk :: chunks) =>
    some (s.goto k (.perform name { file with pending := file.pending ++ chunk } chunks))
  | .perform name file [] =>
    some ({ s with returncode := (c.answer req).returncode }.goto k (.test name file))
  | .test name file => some (s.goto k (.fclose name file (s.returncode < 0)))
  | .fclose name file failed =>
    let (_, disk) := file.flush file.pending.length s.disk
    some ({ s with disk }.goto k (if failed then .unlink name else .status name))
  | .unlink name =>
    some ({ s with disk := s.disk.unlink (Path.resolve name) }.goto k (.status name))
  | .status name =>
    if (c.answer req).ok then s.done k
    else { s with disk := s.disk.unlink (Path.resolve name) }.done k

/-- A thread takes a step, or the system writes some of what a `FILE` has. -/
inductive Event (c : Config)
  | pool (e : Downloader.Event c.nthreads)
  | save (k : Fin c.nthreads) (mkdirs : List (Option ℕ)) (fopen : Bool)
  | flush (k : Fin c.nthreads) (n : ℕ)

/-- The step would be the whole of `set_request_main_code`. -/
def performs {nthreads : ℕ} (pool : Pool nthreads) : Downloader.Event nthreads → Bool
  | .run (.worker k) _ =>
    match (pool.worker k).pc with
    | .perform _ => true
    | _ => false
  | _ => false

def step (c : Config) (e : Event c) (s : State c) : Option (State c) :=
  if s.exited then none
  else
    match e with
    | .pool e =>
      if performs s.pool e then none
      else (Downloader.step c.nrequests e s.pool).map fun pool => { s with pool }
    | .save k mkdirs fopen =>
      match (s.pool.worker k).pc with
      | .perform req => setRequestMainCode k req mkdirs fopen s
      | _ => none
    | .flush k n =>
      match s.saver k with
      | .perform name file chunks =>
        let (file, disk) := file.flush n s.disk
        some ({ s with disk }.goto k (.perform name file chunks))
      | _ => none

/-- What is to be on the disk for a request. -/
def Config.result (c : Config) (r : ℕ) : Option Bytes :=
  if (c.answer r).returncode < 0 ∨ (c.answer r).ok = false then none
  else some (c.answer r).chunks.flatten

end FileServices.Saving
