import FileServices.Gfclient

/-!
# The receive loop with its calls

The loop of `gfc_perform` once more, with a log of what each iteration received and handed on.
The callback is whatever was registered: it returns for every offset and length it is called
with, so a header longer than the packet it came in does not end the run here.
-/

namespace FileServices

open CString

/-- What an iteration received, the length it gave to `memcpy`, the offset and the length it gave
to `write_func` if it called it, and two fields of the request after it. -/
structure Iteration where
  packetBytesRcvd : ℤ
  memcpyLen : ℕ
  writeFunc : Option (ℕ × ℕ)
  bytesReceived : ℕ
  status : GfStatus
  deriving DecidableEq

/-- The fields of the request, the variables of the loop, and the iterations so far. -/
structure Receiver where
  bytesReceived : ℕ
  fileLength : ℕ
  status : GfStatus
  writeFunc : Bool
  headerRcvd : Bool
  len : ℕ
  log : List Iteration
  deriving DecidableEq

/-- How the loop is left. -/
inductive Received
  | undefined (log : List Iteration)
  | returned (s : Receiver)
  deriving DecidableEq

/-- The loop's first state on a request. -/
def Receiver.start (gfr : GfcRequest) : Receiver where
  bytesReceived := gfr.bytesReceived
  fileLength := gfr.fileLength
  status := gfr.status
  writeFunc := gfr.writeFunc
  headerRcvd := false
  len := 0
  log := []

/-- An iteration that received `packet` is done, with this call of `write_func`. -/
def Receiver.record (s : Receiver) (packet : Bytes) (call : Option (ℕ × ℕ)) : Receiver :=
  { s with
    log := s.log ++ [⟨packet.length, packet.length, call, s.bytesReceived, s.status⟩] }

/-- The state after an OK header. -/
def Receiver.header (s : Receiver) (len : ℕ) (packet : Bytes) : Receiver :=
  let header := printedHeader len
  let s := { s with
    status := .ok
    fileLength := len
    headerRcvd := true
    len := len
    bytesReceived := sizeAdd s.bytesReceived (sizeSub packet.length header.length) }
  s.record packet
    (if s.writeFunc then some (header.length, sizeSub packet.length header.length) else none)

/-- The state after a packet of content. -/
def Receiver.content (s : Receiver) (packet : Bytes) : Receiver :=
  { s with bytesReceived := sizeAdd s.bytesReceived packet.length }.record packet
    (some (0, packet.length))

/-- The state after the last iteration of a loop that is left with a status. -/
def Receiver.answer (s : Receiver) (status : GfStatus) (packet : Bytes) : Receiver :=
  { s with status := status }.record packet none

/-- The test at the end of an iteration. -/
def receiveTest (s : Receiver) : Loop.Outcome Receiver Received :=
  if s.len = s.bytesReceived then .stop (.returned s) else .more s

/-- An iteration that still waits for the header. -/
def receiveFirst (s : Receiver) (packet : Bytes) : Loop.Outcome Receiver Received :=
  if packet = [] then .stop (.returned (s.answer .error packet))
  else
    match decodeHeader packet with
    | .undefined => .stop (.undefined (s.record packet none).log)
    | .reply status => .stop (.returned (s.answer status packet))
    | .ok len => receiveTest (s.header len packet)

/-- An iteration after the header. -/
def receiveContent (s : Receiver) (packet : Bytes) : Loop.Outcome Receiver Received :=
  if packet = [] ∧ s.bytesReceived < s.len then .stop (.returned (s.answer .ok packet))
  else if s.writeFunc = false then .stop (.undefined (s.record packet none).log)
  else receiveTest (s.content packet)

/-- One iteration.  A failed `recv` gives `memcpy` the length `(size_t)-1`. -/
def receiveBody (s : Receiver) : Option Bytes → Loop.Outcome Receiver Received
  | none => .stop (.undefined
      (s.log ++ [⟨-1, sizeSub 0 1, none, s.bytesReceived, s.status⟩]))
  | some packet => if s.headerRcvd then receiveContent s packet else receiveFirst s packet

/-- The loop on a fresh request with a write callback, over the results of `recv`. -/
def receive (recvs : List (Option Bytes)) : Loop.Outcome Receiver Received :=
  Loop.run (fun _ => none) receiveBody (.start freshRequest) recvs

/-- The iterations of a run. -/
def iterations : Loop.Outcome Receiver Received → List Iteration
  | .more s => s.log
  | .stop (.undefined log) => log
  | .stop (.returned s) => s.log

/-! ### The words stored through `%s` -/

/-- The strings among what a call of `sscanf` stored. -/
def strings (args : List Arg) : List Bytes :=
  args.filterMap fun
    | .str s => some s
    | .size _ => none

/-- What the two `sscanf` calls on the header line store in `header_status`.  The second is made
where the first has not made two conversions. -/
def statusWords (bufferHeader : Bytes) : List Bytes :=
  let first := sscanf bufferHeader (ascii "GETFILE %s %zu\r\n\r\n")
  strings first.2 ++ if first.1 ≠ 2
    then strings (sscanf bufferHeader (ascii "GETFILE %s\r\n\r\n")).2 else []

/-- The header line of a first packet: `null` where a mark or the line is missing, and the packet
is refused, and `outside` where a search runs off the buffer. -/
def bufferHeader (packet : Bytes) : Token :=
  let buffer := fillBuffer packet
  match strstr buffer (ascii "GETFILE"), strstr buffer crlf2 with
  | none, _ => .outside
  | some false, _ => .null
  | some true, none => .outside
  | some true, some false => .null
  | some true, some true => strtok buffer crlf2

/-- What is stored in `header_status` on a first packet. -/
def headerStatus (packet : Bytes) : Option (List Bytes) :=
  match bufferHeader packet with
  | .outside => none
  | .null => some []
  | .token line _ => some (statusWords line)

end FileServices
