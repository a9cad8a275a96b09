import FileServices.Lib.Loop
import FileServices.Lib.CString

/-!
# The GETFILE client

The receive loop of `gfc_perform` (`gfclient.c`) as a loop over the results of `recv`.  The C
library calls it makes on the 512-byte buffer are the ones of `CString`; whatever C leaves
undefined (a read past the buffer, a word too long for `header_status`, a huge length handed to
the callback) ends the run as `undefined`.
-/

namespace FileServices

open CString

/-- `gfstatus_t`. -/
inductive GfStatus
  | ok
  | fileNotFound
  | error
  | invalid
  deriving DecidableEq

/-- The fields of `gfcrequest_t` the receive loop uses.  `written` lists the buffers passed to
`write_func`, which is registered or NULL. -/
structure GfcRequest where
  bytesReceived : ℕ
  fileLength : ℕ
  status : GfStatus
  writeFunc : Bool
  written : List Bytes
  deriving DecidableEq

/-- `gfc_create`. -/
def gfcCreate : GfcRequest where
  bytesReceived := 0
  fileLength := 0
  status := .invalid
  writeFunc := false
  written := []

/-- `gfc_set_writefunc` with a callback. -/
def gfcSetWritefunc (gfr : GfcRequest) : GfcRequest := { gfr with writeFunc := true }

/-- `get_return_code`. -/
def getReturnCode (status : GfStatus) (bytesReceived fileLength : ℕ) : ℤ :=
  if status = .error ∨ status = .fileNotFound ∨ (status = .ok ∧ bytesReceived = fileLength) then 0
  else -1

/-- The header delimiter. -/
def crlf2 : Bytes := ascii "\r\n\r\n"

/-- `BUFSIZE`. -/
def bufsize : ℕ := 512

/-- The buffer after `clear_buffer` and a `recv` that stored `packet`. -/
def fillBuffer (packet : Bytes) : Bytes := packet ++ List.replicate (bufsize - packet.length) 0

/-- The size of `header_status`. -/
def headerStatusSize : ℕ := 16

/-- `%s` stores more than `header_status` holds. -/
def overflows (args : List Arg) : Bool :=
  args.any fun
    | .str s => headerStatusSize < s.length + 1
    | .size _ => false

/-- How the first packet is taken: as an answer that ends the loop, or as an OK header. -/
inductive Header
  | undefined
  | reply (status : GfStatus)
  | ok (len : ℕ)
  deriving DecidableEq

/-- The status of a header without a length. -/
def replyStatus (headerStatus : Bytes) : GfStatus :=
  if headerStatus = ascii "FILE_NOT_FOUND" then .fileNotFound
  else if headerStatus = ascii "INVALID" then .invalid
  else .error

/-- The two `sscanf` calls on the header line and the branches on what they return: two
conversions, one, or fewer. -/
def decodeLine (line : Bytes) : Header :=
  let withLength := (sscanf line (ascii "GETFILE %s %zu\r\n\r\n")).2
  if overflows withLength then .undefined
  else
    match withLength with
    | [.str headerStatus, .size len] =>
      if headerStatus = ascii "OK" then .ok len else .reply .invalid
    | _ =>
      let withoutLength := (sscanf line (ascii "GETFILE %s\r\n\r\n")).2
      if overflows withoutLength then .undefined
      else
        match withoutLength with
        | [.str headerStatus] => .reply (replyStatus headerStatus)
        | _ => .reply .invalid

/-- The checks on the first packet, from `strstr` to the status. -/
def decodeHeader (packet : Bytes) : Header :=
  let buffer := fillBuffer packet
  match strstr buffer (ascii "GETFILE") with
  | none => .undefined
  | some false => .reply .invalid
  | some true =>
    match strstr buffer crlf2 with
    | none => .undefined
    | some false => .reply .invalid
    | some true =>
      match strtok buffer crlf2 with
      | .outside => .undefined
      | .null => .reply .invalid
      | .token bufferHeader _ => decodeLine bufferHeader

/-- The header printed again, whose length is taken for the one received. -/
def printedHeader (fileLength : ℕ) : Bytes :=
  ascii "GETFILE OK " ++ decimal fileLength ++ crlf2

/-- `size_t` addition. -/
def sizeAdd (a b : ℕ) : ℕ := (a + b) % 2 ^ 64

/-- `size_t` subtraction. -/
def sizeSub (a b : ℕ) : ℕ := (a + (2 ^ 64 - b)) % 2 ^ 64

/-- A call of `write_func` with `data`. -/
def GfcRequest.write (gfr : GfcRequest) (data : Bytes) : GfcRequest :=
  { gfr with written := gfr.written ++ [data] }

/-- What `gfc_perform` comes to. -/
inductive Result
  | undefined
  | returned (gfr : GfcRequest) (code : ℤ)
  deriving DecidableEq

/-- The `return` after the loop. -/
def gfcReturn (gfr : GfcRequest) : Result :=
  .returned gfr (getReturnCode gfr.status gfr.bytesReceived gfr.fileLength)

/-- The variables of the receive loop. -/
structure RecvState where
  gfr : GfcRequest
  headerRcvd : Bool
  len : ℕ
  deriving DecidableEq

/-- The test at the end of an iteration. -/
def gfcTest (s : RecvState) : Loop.Outcome RecvState Result :=
  if s.len = s.gfr.bytesReceived then .stop (gfcReturn s.gfr) else .more s

/-- An iteration that still waits for the header. -/
def gfcFirst (gfr : GfcRequest) (packet : Bytes) : Loop.Outcome RecvState Result :=
  if packet = [] then .stop (gfcReturn { gfr with status := .error })
  else
    match decodeHeader packet with
    | .undefined => .stop .undefined
    | .reply status => .stop (gfcReturn { gfr with status := status })
    | .ok len =>
      let header := printedHeader len
      let gfr := { gfr with
        status := .ok
        fileLength := len
        bytesReceived := sizeAdd gfr.bytesReceived (sizeSub packet.length header.length) }
      if gfr.writeFunc = false then gfcTest ⟨gfr, true, len⟩
      else if packet.length < header.length then .stop .undefined
      else gfcTest ⟨gfr.write (packet.drop header.length), true, len⟩

/-- An iteration after the header. -/
def gfcContent (s : RecvState) (packet : Bytes) : Loop.Outcome RecvState Result :=
  if packet = [] ∧ s.gfr.bytesReceived < s.len then
    .stop (gfcReturn { s.gfr with status := .ok })
  else if s.gfr.writeFunc = false then .stop .undefined
  else gfcTest { s with gfr := { s.gfr.write packet with
    bytesReceived := sizeAdd s.gfr.bytesReceived packet.length } }

/-- One iteration.  A failed `recv` makes `memcpy` copy `(size_t)-1` bytes. -/
def gfcBody (s : RecvState) : Option Bytes → Loop.Outcome RecvState Result
  | none => .stop .undefined
  | some packet => if s.headerRcvd then gfcContent s packet else gfcFirst s.gfr packet

/-- The loop and the return of `gfc_perform`, over the results of `recv` (`none` is -1, an empty
packet the end of the stream).  `len` is not read before the header sets it. -/
def gfcPerform (gfr : GfcRequest) (recvs : List (Option Bytes)) : Loop.Outcome RecvState Result :=
  Loop.run (fun _ => none) gfcBody ⟨gfr, false, 0⟩ recvs

/-- `gfc_perform` from the result of `getaddrinfo`, which is 0 where the address is resolved. -/
def gfcPerformAt (getaddrinfo : ℤ) (gfr : GfcRequest) (recvs : List (Option Bytes)) :
    Loop.Outcome RecvState Result :=
  if getaddrinfo ≠ 0 then .stop (.returned gfr 2) else gfcPerform gfr recvs

/-- A fresh request with a write callback. -/
def freshRequest : GfcRequest := gfcSetWritefunc gfcCreate

/-- A stream delivered as `pieces`, after which every `recv` reports its end. -/
def Ends (pieces : List Bytes) (r : Result) : Prop :=
  ∃ k, gfcPerform freshRequest (pieces.map some ++ List.replicate k (some [])) = .stop r

end FileServices
