import FileServices.Gfclient

/-!
# The GETFILE server

`gfserver.c`: the request parser of `gfserver_serve`, and the two calls a handler answers with.
-/

namespace FileServices

open CString

/-! ### Requests -/

/-- The request `gfc_perform` prints into `req_header`. -/
def requestHeader (path : Bytes) : Bytes := ascii "GETFILE GET " ++ path ++ crlf2

/-- What the server does with a connection before it is back at `accept`. -/
inductive Served
  | undefined
  | closed
  | invalid
  | handled (path : Option Bytes)
  deriving DecidableEq

/-- The combined test on the three tokens.  A NULL `scheme` or `method` that reaches `strcmp` is
undefined; a NULL `path` passes. -/
def checkTokens : Token → Token → Token → Served
  | .outside, _, _ => .undefined
  | _, .outside, _ => .undefined
  | _, _, .outside => .undefined
  | .null, _, _ => .undefined
  | .token scheme _, method, path =>
    if scheme ≠ ascii "GETFILE" then .invalid
    else
      match method with
      | .token method _ =>
        if method ≠ ascii "GET" then .invalid
        else
          match path with
          | .token path _ => if path ≠ ascii "/" then .invalid else .handled (some path)
          | _ => .handled none
      | _ => .undefined

/-- The three `strtok` calls on the buffer, and the test. -/
def parseRequest (buffer : Bytes) : Served :=
  let scheme := strtok buffer (ascii " ")
  let method := scheme.next (ascii " ")
  let path := method.next crlf2
  checkTokens scheme method path

/-- One connection, over its only `recv`.  The result is kept in a `size_t`, so that -1 counts as
data and leaves the cleared buffer to the parser. -/
def serveConnection : Option Bytes → Served
  | none => parseRequest (fillBuffer [])
  | some packet => if packet = [] then .closed else parseRequest (fillBuffer packet)

/-! ### Responses -/

/-- `total_bytes_sent`, and what the socket took. -/
structure SendState where
  total : ℕ
  wire : Bytes
  deriving DecidableEq

/-- `send` on a socket ready to take `k` bytes (or failing, when `k` is negative). -/
def sendResult (k : ℤ) (data : Bytes) : ℤ := min k data.length

/-- An iteration of the loop in `gfs_send`. -/
def gfsSendBody (data : Bytes) (s : SendState) (k : ℤ) : Loop.Outcome SendState SendState :=
  let bytesSent := sendResult k (data.drop s.total)
  if bytesSent ≤ 0 then .stop s
  else .more
    { total := s.total + bytesSent.toNat
      wire := s.wire ++ (data.drop s.total).take bytesSent.toNat }

/-- `gfs_send`, over what the socket is ready to take at each `send`; it returns `total`. -/
def gfsSend (data : Bytes) (ks : List ℤ) : Loop.Outcome SendState SendState :=
  Loop.run (fun s => if s.total < data.length then none else some s) (gfsSendBody data) ⟨0, []⟩ ks

/-- The `ssize_t` that `gfs_send` returns. -/
def SendState.result (s : SendState) : ℤ := (s.total : ℤ).bmod (2 ^ 64)

/-- A file sent with a call of `gfs_send` for each piece of it, and what it puts on the socket. -/
def gfsSends : List Bytes → List (List ℤ) → Option Bytes
  | [], _ => some []
  | _ :: _, [] => none
  | data :: pieces, ks :: kss =>
    match gfsSend data ks with
    | .more _ => none
    | .stop s => (gfsSends pieces kss).map (s.wire ++ ·)

/-- The text `gfs_sendheader` sends for a status, if it has a case for it. -/
def headerText : GfStatus → ℕ → Option Bytes
  | .fileNotFound, _ => some (ascii "GETFILE FILE_NOT_FOUND \r\n\r\n")
  | .ok, fileLen => some (ascii "GETFILE OK " ++ decimal fileLen ++ ascii " \r\n\r\n")
  | .error, _ => some (ascii "GETFILE ERROR \r\n\r\n")
  | .invalid, _ => none

/-- `gfs_sendheader`: the bytes its one `send` puts on the socket, and the value it returns. -/
def gfsSendheader (status : GfStatus) (fileLen : ℕ) (k : ℤ) : Bytes × ℤ :=
  match headerText status fileLen with
  | none => ([], 0)
  | some text => (text.take (sendResult k text).toNat, sendResult k text)

end FileServices
