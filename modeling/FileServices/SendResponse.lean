import FileServices.Cache
import FileServices.Lib.Loop

/-!
# The copy loop of a cache worker

How `sendResponse` brings a file that it has opened into the segment of a request.  Each iteration
reads at an offset of its own and publishes what it takes `pread` to have read.
-/

namespace FileServices.SendResponse

open CString
open Cache (size)

/-- What an iteration publishes: what `pread` has put into the buffer, the value stored into
`read_len`, and the length of the `memcpy` into the segment. -/
structure Part where
  given : Bytes
  readLen : ℕ
  copied : ℕ
  deriving DecidableEq

/-- The local variables of the loop, the data of the segment, what was published, and what the
proxy finds in the segment at each `sem_post`. -/
structure Copying where
  bytesRead : ℕ
  offset : ℕ
  buffer : Bytes
  data : Bytes
  parts : List Part
  posted : List Bytes
  deriving DecidableEq

/-- How the loop is left: the file is through, a read gave no bytes, or a copy ran over the end of
the buffer and of the segment. -/
inductive Ending
  | finished | failed | crashed
  deriving DecidableEq

structure Left where
  ending : Ending
  state : Copying
  deriving DecidableEq

/-- An iteration, where `read` is what `pread` puts into the buffer (`none` is -1). -/
def copyBody (segsize : ℕ) (s : Copying) (read : Option Bytes) : Loop.Outcome Copying Left :=
  let given := read.getD []
  let nbytes := size (read.elim (-1) fun data => data.length)
  if nbytes ≤ 0 then .stop ⟨.failed, s⟩
  else
    let s := { s with
      buffer := given ++ s.buffer.drop given.length
      parts := s.parts ++ [⟨given, nbytes, nbytes⟩] }
    if nbytes ≤ segsize then
      let data := s.buffer.take nbytes ++ s.data.drop nbytes
      .more { s with
        data
        bytesRead := (s.bytesRead + nbytes) % 2 ^ 64
        offset := (s.offset + nbytes) % 2 ^ 64
        posted := s.posted ++ [data.take nbytes] }
    else .stop ⟨.crashed, s⟩

def copyHead (filsize : ℕ) (s : Copying) : Option Left :=
  if s.bytesRead < filsize then none else some ⟨.finished, s⟩

/-- The state before the loop, over what is in the segment. -/
def Copying.start (segsize : ℕ) (data : Bytes) : Copying :=
  ⟨0, 0, List.replicate segsize 0, data, [], []⟩

/-- Where the loop is, or what it has left. -/
def stateOf : Loop.Outcome Copying Left → Copying
  | .more s => s
  | .stop l => l.state

/-- The loop after the first `n` results of `pread`. -/
def copyLoop (segsize filsize : ℕ) (data : Bytes) (reads : ℕ → Option Bytes) (n : ℕ) : Copying :=
  stateOf (Loop.run (copyHead filsize) (copyBody segsize) (.start segsize data)
    ((List.range n).map reads))

end FileServices.SendResponse
