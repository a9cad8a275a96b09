import FileServices.Cache
import FileServices.Lib.Loop

/-!
# The copy loop of a worker

How a worker of the multithreaded server sends the file that it has opened, after the header.
Each iteration reads at the offset that the client has got to and sends what was read.
-/

namespace FileServices.Worker

open CString
open Cache (size)

/-- `BUFSIZE`. -/
def bufsize : ℕ := 512

/-- What the calls of an iteration come to: what `pread` puts into the buffer at each offset
(`none` is -1), and what `gfs_send` returns for each length. -/
structure Turn where
  pread : ℕ → Option Bytes
  gfsSend : ℕ → ℤ

/-- A call of `gfs_send`: the length it is given, and `total_bts_sent` before and after it. -/
structure SendCall where
  btsRead : ℕ
  before : ℕ
  after : ℕ
  deriving DecidableEq

/-- `total_bts_sent`, what is on the socket after the header, and the calls of `gfs_send`. -/
structure Copying where
  totalBtsSent : ℕ
  wire : Bytes
  calls : List SendCall
  deriving DecidableEq

/-- An iteration.  The buffer is cleared before it is read into, and the test comes last. -/
def copyBody (fileLen : ℕ) (s : Copying) (turn : Turn) : Loop.Outcome Copying Copying :=
  let read := turn.pread s.totalBtsSent
  let buf := read.getD [] ++ List.replicate (bufsize - (read.getD []).length) 0
  let btsRead := size (read.elim (-1) fun data => data.length)
  if 0 < btsRead then
    let ret := turn.gfsSend btsRead
    let totalBtsSent := (s.totalBtsSent + size ret) % 2 ^ 64
    let s := Copying.mk totalBtsSent (s.wire ++ buf.take ret.toNat)
      (s.calls ++ [⟨btsRead, s.totalBtsSent, totalBtsSent⟩])
    if fileLen > totalBtsSent then .more s else .stop s
  else .stop s

/-- The loop of `thread_handle_req` on a file of which `fstat` gives the length. -/
def copyLoop (fileLen : ℕ) (turns : List Turn) : Loop.Outcome Copying Copying :=
  Loop.run (fun _ => none) (copyBody fileLen) ⟨0, [], []⟩ turns

end FileServices.Worker
