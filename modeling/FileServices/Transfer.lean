import FileServices.Dfs
import FileServices.Lib.Trans

/-!
# The warm-up programs

`transferserver` sends a file to everyone who connects, `transferclient` saves what it receives,
and `echoserver` sends a message back.  Each call of the system returns as the environment has it;
a `read` or `send` that does not fail moves at least one byte where there is one.
-/

namespace FileServices.Transfer

open CString
open Dfs (writeAt)

/-- `BUFSIZE`. -/
def bufsize : ℕ := 512

/-! ### `transferserver` -/

/-- Where `send_file` stands, with its local variables.  `bytes_to_send` is the length of what has
been read into the buffer. -/
inductive SendFilePc
  | read
  | send (buf : Bytes) (bytesLeft bytesSent : ℕ)
  deriving DecidableEq

/-- The offset of the open file and what has been put on the socket. -/
structure SendFile where
  offset : ℕ
  wire : Bytes
  pc : SendFilePc
  deriving DecidableEq

inductive SendFileEnd
  | returned (wire : Bytes)
  | exit (code : ℤ)
  deriving DecidableEq

/-- How many of `available` bytes a call moves that returns `result`. -/
def moved (result : ℤ) (available : ℕ) : ℕ := min (max 1 result.toNat) available

/-- `send_file` up to its next call, once the call it is in has returned. -/
def sendFileBody (content : Bytes) (s : SendFile) (result : ℤ) :
    Loop.Outcome SendFile SendFileEnd :=
  match s.pc with
  | .read =>
    if result < 0 then .stop (.exit 6)
    else
      let available := (content.drop s.offset).take bufsize
      let buf := available.take (moved result available.length)
      if buf.length = 0 then .stop (.returned s.wire)
      else .more { s with offset := s.offset + buf.length, pc := .send buf buf.length 0 }
  | .send buf bytesLeft bytesSent =>
    if result = -1 then .stop (.exit 8)
    else
      let packet := (buf.drop bytesSent).take bytesLeft
      let packetSize := moved result packet.length
      let wire := s.wire ++ packet.take packetSize
      let bytesSent := bytesSent + packetSize
      let bytesLeft := bytesLeft - packetSize
      if bytesSent ≠ buf.length then .more { s with wire, pc := .send buf bytesLeft bytesSent }
      else .more { s with wire, pc := .read }

def SendFile.start : SendFile := ⟨0, [], .read⟩

/-- `send_file` over what its calls return. -/
def sendFile (content : Bytes) (results : List ℤ) : Loop.Outcome SendFile SendFileEnd :=
  Loop.run (fun _ => none) (sendFileBody content) .start results

/-- Where `main` of `transferserver` stands in its serving loop. -/
inductive Transferserver
  | accept
  | open
  | sendFile (s : SendFile)
  | exited (code : ℤ)
  deriving DecidableEq

/-- What `sleep` and `close` return is not looked at. -/
def Transferserver.step (content : Bytes) : Transferserver → ℤ → Transferserver
  | .accept, result => if result < 0 then .exited 8 else .open
  | .open, result => if result < 0 then .exited 19 else .sendFile .start
  | .sendFile s, result =>
    match sendFileBody content s result with
    | .more s => .sendFile s
    | .stop (.returned _) => .accept
    | .stop (.exit code) => .exited code
  | .exited code, _ => .exited code

/-- The states of `transferserver` in a run where its calls return `results`. -/
def transferserver (content : Bytes) (results : ℕ → ℤ) : ℕ → Transferserver :=
  Trans.states (Transferserver.step content) .accept results

/-- The calls of the system that the servers make in their loops. -/
inductive Syscall
  | accept | open | read | recv | send
  deriving DecidableEq

/-- The call that the server is in, as long as it runs. -/
def Transferserver.call : Transferserver → Option Syscall
  | .accept => some .accept
  | .open => some .open
  | .sendFile s =>
    match s.pc with
    | .read => some .read
    | .send _ _ _ => some .send
  | .exited _ => none

/-! ### `transferclient` -/

/-- The output file, and the offset at which the next `write` goes into it. -/
structure Transferclient where
  file : Bytes
  pos : ℕ
  deriving DecidableEq

/-- An iteration of the receiving loop. -/
def receiveBody (s : Transferclient) : Option Bytes → Loop.Outcome Transferclient Bytes
  | none | some [] => .stop s.file
  | some packet => .more ⟨writeAt s.file s.pos packet, s.pos + packet.length⟩

/-- `transferclient` over what `recv` returns, from what there is of its output file.  The file is
opened to read and write, and created where there is none. -/
def transferclient (old : Option Bytes) (recvs : List (Option Bytes)) :
    Loop.Outcome Transferclient Bytes :=
  Loop.run (fun _ => none) receiveBody ⟨old.getD [], 0⟩ recvs

/-! ### `echoserver` -/

/-- What a call returns, and what `recv` has put in the buffer. -/
structure Answer where
  result : ℤ
  data : Bytes
  deriving DecidableEq

inductive EchoserverPc
  | accept
  | recv
  | send (buffer : Bytes) (recvMsgLen : ℤ)
  | exited (code : ℤ)
  deriving DecidableEq

/-- Where `main` of `echoserver` stands in its serving loop, and what it has sent back on each
connection. -/
structure Echoserver where
  pc : EchoserverPc
  sent : List Bytes
  deriving DecidableEq

def Echoserver.step (s : Echoserver) (answer : Answer) : Echoserver :=
  match s.pc with
  | .accept => if answer.result < 0 then { s with pc := .exited 1 } else { s with pc := .recv }
  | .recv =>
    if answer.result ≤ 0 then { s with pc := .exited 1 }
    else { s with pc := .send answer.data answer.result }
  | .send buffer recvMsgLen =>
    let sent := s.sent ++ [(buffer.take recvMsgLen.toNat).take answer.result.toNat]
    if answer.result ≠ recvMsgLen then { pc := .exited 1, sent } else { pc := .accept, sent }
  | .exited _ => s

/-- The states of `echoserver` in a run where its calls return `answers`. -/
def echoserver (answers : ℕ → Answer) : ℕ → Echoserver :=
  Trans.states Echoserver.step ⟨.accept, []⟩ answers

def Echoserver.call (s : Echoserver) : Option Syscall :=
  match s.pc with
  | .accept => some .accept
  | .recv => some .recv
  | .send _ _ => some .send
  | .exited _ => none

end FileServices.Transfer
