import FileServices.Lib.Path
import FileServices.LocalPath
import FileServices.OpenFile
import FileServices.Request
import FileServices.Workload

/-!
# The client of `gflib`

The request loop in `main` of `gfclient_download.c`, with the regular files on the disk and the
number of descriptors that are open.  A request makes its file, has `gfc_perform` write to it, and
removes the file again where the answer was not complete.  A file is known by where its path leads
from the working directory: two paths may lead to one file, and no directory is a link.
-/

namespace FileServices.Download

open CString

/-- What the system and the server do in a request: what `mkdir` returns, whether there is anything
else that keeps `fopen` from its file, what the file holds in the end where `fwrite` or `fclose`
has not stored all of the data, whether each of the two calls of `unlink` works, the result of
`getaddrinfo`, and what the socket is ready to take and gives. -/
structure Exchange where
  mkdirs : List (Option ℕ)
  fopen : Bool
  short : Option Bytes
  unlinks : Bool × Bool
  getaddrinfo : ℤ
  sends : List ℤ
  recvs : List (Option Bytes)
  recvs_le : ∀ packet ∈ recvs.reduceOption, packet.length ≤ bufsize

/-- A request after `gfc_perform`, and what it returned. -/
structure Report where
  gfr : GfcRequest
  returncode : ℤ
  deriving DecidableEq

/-- Each report is of one request, so that their number is the counter of `localPath` and of
`workload_get_path`. -/
structure Client where
  disk : Path.Place Bytes → Option Bytes
  fds : ℕ
  reports : List Report

/-- What keeps the loop from its next request. -/
inductive Ending
  | exit (code : ℤ)
  | undefined
  | waiting
  deriving DecidableEq

def Client.put (s : Client) (name : Bytes) (file : Option Bytes) : Client :=
  { s with disk := Function.update s.disk (Path.resolve name) file }

/-- `openFile`, where `room` descriptors can be open. -/
def openLocal (room : ℕ) (localPath : Bytes) (e : Exchange) (s : Client) : Except Ending Client :=
  match OpenFile.openFile (localPath ++ [0]) e.mkdirs with
  | .more _ => .error .waiting
  | .stop .exit => .error (.exit 1)
  | .stop .outside => .error .undefined
  | .stop (.fopen name _) =>
    if e.fopen ∧ s.fds < room then .ok { s.put name (some []) with fds := s.fds + 1 }
    else .error (.exit 1)

/-- `gfc_perform`.  It does not close its socket. -/
def perform (room : ℕ) (reqPath : Bytes) (e : Exchange) (s : Client) :
    Except Ending (Report × Client) :=
  if room ≤ s.fds then .error (.exit 14)
  else
    let s := { s with fds := s.fds + 1 }
    if e.getaddrinfo ≠ 0 then .ok (⟨freshRequest, 2⟩, s)
    else
      match sendRequest reqPath e.sends with
      | .more _ => .error .waiting
      | .stop .undefined => .error .undefined
      | .stop .exit27 => .error (.exit 27)
      | .stop (.sent _) =>
        match gfcPerform freshRequest e.recvs with
        | .more _ => .error .waiting
        | .stop .undefined => .error .undefined
        | .stop (.returned gfr code) => .ok (⟨gfr, code⟩, s)

/-- What a file holds that has been given the data. -/
def Exchange.stored (e : Exchange) (data : Bytes) : Bytes := e.short.getD data

/-- What is left on the disk once `gfc_perform` has returned, with the file closed.  The results of
`fwrite` and `fclose` are not looked at, and `unlink` may fail. -/
def Client.settle (s : Client) (localPath : Bytes) (e : Exchange) (r : Report) : Client :=
  let s := { s.put localPath (some (e.stored r.gfr.written.flatten)) with fds := s.fds - 1 }
  let s := if r.returncode < 0 ∧ e.unlinks.1 then s.put localPath none else s
  let s := if r.gfr.status ≠ .ok ∧ e.unlinks.2 then s.put localPath none else s
  { s with reports := s.reports ++ [r] }

def request (room : ℕ) (reqPath : Bytes) (e : Exchange) (s : Client) : Except Ending Client :=
  if 256 < reqPath.length then .error (.exit 1)
  else
    let localPath := LocalPath.localPath reqPath s.reports.length
    (openLocal room localPath e s).bind fun s =>
      (perform room reqPath e s).map fun (r, s) => s.settle localPath e r

/-- The loop over the requests, of which there are as many as exchanges. -/
def requestLoop (room : ℕ) (w : Workload.Paths) : List Exchange → Client → Except Ending Client
  | [], s => .ok s
  | e :: es, s =>
    match Workload.lookup w s.reports.length with
    | .error _ | .ok (_, none) => .error .undefined
    | .ok (_, some reqPath) => (request room reqPath e s).bind (requestLoop room w es)

/-- What `gfserver_serve` sends where it does not take a request. -/
def invalidAnswer : Bytes := ascii "GETFILE INVALID\r\n\r\n"

end FileServices.Download
