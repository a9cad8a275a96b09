import FileServices.Cache
import FileServices.Lib.Loop

/-!
# The callbacks of the proxy

`handle_with_curl`, `handle_with_file` and `handle_with_cache`, each over what the calls that it
makes return.  A call that a loop repeats has one result for each time it is made; a handler is
run on the first `n` of them, and is `none` where it asks for one more.
-/

namespace FileServices.Handlers

open CString
open Cache (gfOk gfFileNotFound size)

/-- A call into the server's library: a header, or `len` bytes from `start` on in the buffer. -/
inductive Call
  | sendheader (status fileLen : ℕ)
  | send (start : ℤ) (len : ℕ)
  deriving DecidableEq

/-- What a handler has called when it returns, and the `ssize_t` it returns. -/
structure Answer where
  calls : List Call
  value : ℤ
  deriving DecidableEq

def serverFailure : ℤ := -1

/-- A `size_t` as an `ssize_t`. -/
def ssize (n : ℕ) : ℤ := (n : ℤ).bmod (2 ^ 64)

/-- The variables of a copy loop: the calls made so far and the bytes counted. -/
structure Sending where
  calls : List Call
  bytes : ℕ
  deriving DecidableEq

/-- The test of a copy loop. -/
def sendHead (total : ℕ) (s : Sending) : Option Sending := if s.bytes < total then none else some s

/-- An iteration that keeps the result `ret i` of `gfs_send` in a `size_t` and gives up on 0. -/
def sendBody {ι : Type*} (call : ℕ → ι → Call) (ret : ι → ℤ) (s : Sending) (i : ι) :
    Loop.Outcome Sending Sending :=
  let calls := s.calls ++ [call s.bytes i]
  if size (ret i) = 0 then .stop { s with calls }
  else .more { calls, bytes := (s.bytes + size (ret i)) % 2 ^ 64 }

/-! ### From a web server -/

/-- What curl and the library return to `handle_with_curl`. -/
structure CurlCalls where
  /-- 0 is `CURLE_OK`. -/
  result : ℕ
  responseCode : ℕ
  /-- -1 where curl does not know it. -/
  contentLength : ℤ
  /-- What `write_callback` has put into `chunk.response`. -/
  response : Bytes
  /-- The length of the header that `gfs_sendheader` sends. -/
  headerLen : ℕ
  gfsSend : ℕ → ℤ
  response_lt : response.length < 2 ^ 63
  headerLen_lt : headerLen < 2 ^ 31
  gfsSend_le : ∀ k, -1 ≤ gfsSend k ∧ gfsSend k ≤ response.length

/-- `struct customdata`: the bytes of the allocation, and how many of them have been filled. -/
structure Customdata where
  response : Bytes
  filesize : ℕ
  deriving DecidableEq

/-- `write_callback`, where `realloc` does not fail. -/
def writeCallback (mem : Customdata) (data : Bytes) : Customdata where
  response := mem.response.take mem.filesize ++ data ++ [0]
  filesize := mem.filesize + data.length

/-- `chunk` when curl has passed on the body; there is no value yet in what `malloc` gave. -/
def received (value : UInt8) (chunks : List Bytes) : Customdata :=
  chunks.foldl writeCallback ⟨[value], 0⟩

def Customdata.filled (mem : Customdata) : Bytes := mem.response.take mem.filesize

/-- What the calls of `gfs_send` put on the socket for the values they return; `none` where one is
given bytes outside the buffer. -/
def bodySent (buffer : Bytes) : List Call → List ℤ → Option Bytes
  | [], _ => some []
  | .sendheader _ _ :: calls, rets => bodySent buffer calls rets
  | .send _ _ :: _, [] => none
  | .send start len :: calls, ret :: rets =>
    if 0 ≤ start ∧ start + len ≤ buffer.length then
      (bodySent buffer calls rets).map ((buffer.drop start.toNat).take ret.toNat ++ ·)
    else none

/-- The loop of `handle_with_curl`, which takes `bytes_sent` off the start of the buffer. -/
def curlBody (filesize : ℕ) : Sending → ℤ → Loop.Outcome Sending Sending :=
  sendBody (fun bytesSent _ => .send (-bytesSent) filesize) id

def handleWithCurl (o : CurlCalls) (n : ℕ) : Option Answer :=
  if o.result = 0 then
    if o.responseCode = 200 then
      (Loop.run (sendHead o.response.length) (curlBody o.response.length)
        ⟨[.sendheader gfOk (size o.contentLength)], 0⟩ ((List.range n).map o.gfsSend)).result.map
        fun s => ⟨s.calls, ssize s.bytes⟩
    else if o.responseCode = 404 then some ⟨[.sendheader gfFileNotFound 0], o.headerLen⟩
    else some ⟨[], serverFailure⟩
  else some ⟨[], 0⟩

/-! ### From a directory -/

/-- `BUFSIZE` of `handle_with_file`. -/
def bufsize : ℕ := 1219

inductive Opened
  | fildes
  | enoent
  | failed
  deriving DecidableEq

/-- What the system and the library return to `handle_with_file`. -/
structure FileCalls where
  opened : Opened
  /-- `st_size`, where `fstat` does not fail. -/
  fstat : Option ℕ
  headerLen : ℕ
  read : ℕ → ℤ
  gfsSend : ℕ → ℤ
  fstat_lt : ∀ size ∈ fstat, size < 2 ^ 63
  headerLen_lt : headerLen < 2 ^ 31
  read_le : ∀ k, -1 ≤ read k ∧ read k ≤ bufsize
  gfsSend_le : ∀ k, 1 ≤ read k → -1 ≤ gfsSend k ∧ gfsSend k ≤ read k

/-- An iteration of the loop of `handle_with_file`, over the results of `read` and `gfs_send`; it
leaves with `SERVER_FAILURE` as `none`. -/
def fileBody (s : Sending) : ℤ × ℤ → Loop.Outcome Sending (List Call × Option ℕ)
  | (readLen, writeLen) =>
    if readLen ≤ 0 then .stop (s.calls, none)
    else
      let calls := s.calls ++ [.send 0 readLen.toNat]
      if writeLen ≠ readLen then .stop (calls, none)
      else .more { calls, bytes := (s.bytes + size writeLen) % 2 ^ 64 }

def fileHead (fileLen : ℕ) (s : Sending) : Option (List Call × Option ℕ) :=
  if s.bytes < fileLen then none else some (s.calls, some s.bytes)

def handleWithFile (o : FileCalls) (n : ℕ) : Option Answer :=
  match o.opened with
  | .enoent => some ⟨[.sendheader gfFileNotFound 0], o.headerLen⟩
  | .failed => some ⟨[], serverFailure⟩
  | .fildes =>
    match o.fstat with
    | none => some ⟨[], serverFailure⟩
    | some fileLen =>
      (Loop.run (fileHead fileLen) fileBody ⟨[.sendheader gfOk fileLen], 0⟩
        ((List.range n).map fun k => (o.read k, o.gfsSend k))).result.map
        fun r => ⟨r.1, r.2.elim serverFailure ssize⟩

/-! ### From the cache -/

/-- What `handle_with_cache` finds in the segment, and what the library returns to it. -/
structure CacheCalls where
  status : ℕ
  filesize : ℕ
  headerLen : ℕ
  readLen : ℕ → ℕ
  gfsSend : ℕ → ℤ
  filesize_lt : filesize < 2 ^ 63
  headerLen_lt : headerLen < 2 ^ 31
  readLen_lt : ∀ k, readLen k < 2 ^ 63
  gfsSend_le : ∀ k, -1 ≤ gfsSend k ∧ gfsSend k ≤ readLen k

/-- The loop of `processResponse`. -/
def responseBody : Sending → ℕ × ℤ → Loop.Outcome Sending Sending :=
  sendBody (fun _ i => .send 0 i.1) Prod.snd

/-- The calls `processResponse` makes and the `size_t` it returns. -/
def processResponse (o : CacheCalls) (n : ℕ) : Option Sending :=
  if o.status = 200 then
    (Loop.run (sendHead o.filesize) responseBody ⟨[.sendheader gfOk o.filesize], 0⟩
      ((List.range n).map fun k => (o.readLen k, o.gfsSend k))).result
  else if o.status = 404 then some ⟨[.sendheader gfFileNotFound 0], o.headerLen⟩
  else some ⟨[], 0⟩

/-- What `processResponse` returns goes into an `int`. -/
def handleWithCache (o : CacheCalls) (n : ℕ) : Option Answer :=
  (processResponse o n).map fun s => ⟨s.calls, (s.bytes : ℤ).bmod (2 ^ 32)⟩

/-! ### The contract -/

def Call.isHeader : Call → Bool
  | .sendheader _ _ => true
  | .send _ _ => false

/-- One header and a non-negative number, or no header and a negative one. -/
def Answer.Kept (a : Answer) : Prop :=
  a.calls.countP Call.isHeader = 1 ∧ 0 ≤ a.value
    ∨ a.calls.countP Call.isHeader = 0 ∧ a.value < 0

/-- The handler returns and keeps to the contract. -/
def KeepsContract (handler : ℕ → Option Answer) : Prop := ∃ n a, handler n = some a ∧ a.Kept

end FileServices.Handlers
