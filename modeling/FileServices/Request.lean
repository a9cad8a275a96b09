import FileServices.Gfserver

/-!
# A request at both ends

`gfc_perform` prints the request into `req_header` and sends it; `gfserver_serve` takes it apart
with three calls of `strtok` and goes on to use what they return.
-/

namespace FileServices

open CString

/-! ### The client -/

/-- The size of `req_header`. -/
def reqHeaderSize : ℕ := 256

/-- `req_header` after the `sprintf`, unless the request with its NUL is written past its end. -/
def formatRequest (path : Bytes) : Option Bytes :=
  let text := requestHeader path ++ [0]
  if text.length ≤ reqHeaderSize then some text else none

/-- `total_bytes_sent`, and the bytes on the wire, each with its place in `req_header`. -/
structure RequestState where
  total : ℕ
  wire : List (UInt8 × ℕ)
  deriving DecidableEq

/-- How the request loop ends: a failed `send` ends the process. -/
inductive Requested
  | undefined
  | exit27
  | sent (s : RequestState)
  deriving DecidableEq

/-- An iteration of the request loop.  Every `send` is given the whole of `request`. -/
def requestBody (request : Bytes) (s : RequestState) (k : ℤ) :
    Loop.Outcome RequestState Requested :=
  let packetBytesSent := sendResult k request
  if packetBytesSent < 0 then .stop .exit27
  else .more
    { total := s.total + packetBytesSent.toNat
      wire := s.wire ++ request.zipIdx.take packetBytesSent.toNat }

/-- The request loop, over what the socket is ready to take at each `send`. -/
def sendLoop (request : Bytes) (ks : List ℤ) : Loop.Outcome RequestState Requested :=
  Loop.run (fun s => if s.total < request.length then none else some (.sent s))
    (requestBody request) ⟨0, []⟩ ks

/-- `gfc_perform` up to the end of the request loop. -/
def sendRequest (path : Bytes) (ks : List ℤ) : Loop.Outcome RequestState Requested :=
  match formatRequest path with
  | none => .stop .undefined
  | some reqHeader => sendLoop (cstr reqHeader) ks

/-! ### The server -/

/-- What is passed to `strcmp`, and then to the handler, by the combined test and the call after
it.  A NULL passed to `strcmp` is the last of them. -/
def pointerUses (scheme method path : Option Bytes) : List (Option Bytes) :=
  if scheme ≠ some (ascii "GETFILE") then [scheme]
  else if method ≠ some (ascii "GET") then [scheme, method]
  else if path = none then [scheme, method, path]
  else if path ≠ some (ascii "/") then [scheme, method, path]
  else [scheme, method, path, path]

/-- The pointers used on a buffer, unless a `strtok` runs off it. -/
def tokenUses (buffer : Bytes) : Option (List (Option Bytes)) :=
  let scheme := strtok buffer (ascii " ")
  let method := scheme.next (ascii " ")
  let path := method.next crlf2
  if scheme = .outside ∨ method = .outside ∨ path = .outside then none
  else some (pointerUses scheme.pointer method.pointer path.pointer)

/-- The pointers used on a connection, over the result of its `recv`. -/
def connectionUses : Option Bytes → Option (List (Option Bytes))
  | none => tokenUses (fillBuffer [])
  | some packet => if packet = [] then some [] else tokenUses (fillBuffer packet)

end FileServices
