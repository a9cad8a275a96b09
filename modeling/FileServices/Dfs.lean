import FileServices.Lib.CString
import FileServices.Lib.Loop

/-!
# The file service

The calls of `DFSClientNodeP1` and the methods of `DFSServiceImpl` that answer them.  A call of
the system that can fail, and what gRPC hands over, is an argument; an exception ends the `try`
block it is thrown in.
-/

namespace FileServices.Dfs

open CString

/-! ### Files and streams -/

/-- The codes of `grpc::StatusCode` that the program names, and the others. -/
inductive StatusCode
  | ok | cancelled | deadlineExceeded | notFound | internal
  | other (code : ℕ)
  deriving DecidableEq

structure File where
  content : Bytes
  mtime : ℤ
  deriving DecidableEq

/-- What the program reads of a `struct stat`. -/
structure Stat where
  stSize : ℕ
  stMtime : ℤ

/-- One of the two machines: its mount path, its regular files and its directories by path. -/
structure Host where
  mountPath : Bytes
  file : Bytes → Option File
  dir : Bytes → Option Stat

def Host.wrapPath (h : Host) (filepath : Bytes) : Bytes := h.mountPath ++ filepath

def Host.stat (h : Host) (path : Bytes) : Option Stat :=
  match h.file path with
  | some f => some ⟨f.content.length, f.mtime⟩
  | none => h.dir path

def Host.put (h : Host) (path : Bytes) (f : Option File) : Host :=
  { h with file := Function.update h.file path f }

/-- What an open file gives to read. -/
def Host.content (h : Host) (path : Bytes) : Bytes := ((h.file path).map File.content).getD []

/-- A write at a position, where a hole reads as zeros. -/
def writeAt (content : Bytes) (pos : ℕ) (data : Bytes) : Bytes :=
  if data = [] then content
  else content.take pos ++ List.replicate (pos - content.length) 0 ++ data
    ++ content.drop (pos + data.length)

/-- An `ofstream`: the path it is open on, its position, and whether the last call succeeded. -/
structure Ofstream where
  path : Option Bytes
  pos : ℕ
  good : Bool
  deriving DecidableEq

def Ofstream.closed : Ofstream := ⟨none, 0, true⟩

/-- `open(path, ios::out)`, which creates or truncates the file, where the system lets it. -/
def Ofstream.open (now : ℤ) (opens : Bool) (path : Bytes) (h : Host) : Host × Ofstream :=
  if opens then (h.put path (some ⟨[], now⟩), ⟨some path, 0, true⟩)
  else (h, ⟨none, 0, false⟩)

/-- `write(data)`, of which the system takes at most `room` bytes. -/
def Ofstream.write (now : ℤ) (room : ℕ) (data : Bytes) (h : Host) (f : Ofstream) :
    Host × Ofstream :=
  match f.path with
  | none => (h, { f with good := false })
  | some path =>
    if f.good then
      (h.put path ((h.file path).map fun file =>
          ⟨writeAt file.content f.pos (data.take room), now⟩),
        ⟨some path, f.pos + (data.take room).length, data.length ≤ room⟩)
    else (h, f)

/-- An `ifstream`: its position, and whether a read can still give anything. -/
structure Ifstream where
  pos : ℕ
  good : Bool
  deriving DecidableEq

/-- `read` of `n` bytes and `gcount`; a read that comes to the end of the file is the last. -/
def Ifstream.read (content : Bytes) (n : ℕ) (f : Ifstream) : Bytes × Ifstream :=
  if f.good then
    let data := (content.drop f.pos).take n
    (data, ⟨f.pos + data.length, data.length = n⟩)
  else ([], f)

/-- The size of `fileContent`. -/
def chunkSize : ℕ := 1024

/-- `int` arithmetic. -/
def int (z : ℤ) : ℤ := z.bmod (2 ^ 32)

/-! ### Sending a file -/

/-- The variables of a sending loop, and the messages it has written. -/
structure Sender where
  filesize : ℤ
  bytesRead : ℤ
  stream : Ifstream
  sent : List Bytes
  deriving DecidableEq

def Sender.start (stSize : ℕ) (opens : Bool) : Sender := ⟨int stSize, 0, ⟨0, opens⟩, []⟩

/-- A chunk is read and written; what `Write` returns is not looked at. -/
def Sender.chunk (content : Bytes) (t : Sender) : Sender :=
  let (data, stream) := t.stream.read content chunkSize
  { t with
    bytesRead := int (t.bytesRead + data.length)
    stream := stream
    sent := t.sent ++ [data] }

/-- What the calls in an iteration of a sending loop come to. -/
inductive Turn
  | goes | isCancelled | throws
  deriving DecidableEq

/-- The test of both loops, with what is there to return. -/
def Sender.head (t : Sender) : Option (StatusCode × List Bytes) :=
  if t.bytesRead < t.filesize then none else some (.ok, t.sent)

/-- An iteration of `fetchFile`. -/
def fetchBody (content : Bytes) (t : Sender) : Turn →
    Loop.Outcome Sender (StatusCode × List Bytes)
  | .goes => .more (t.chunk content)
  | .isCancelled => .stop (.deadlineExceeded, t.sent)
  | .throws => .stop (.internal, t.sent)

/-- `fetchFile`: the status and the messages. -/
def fetchFile (h : Host) (filepath : Bytes) (opens : Bool) (turns : List Turn) :
    Loop.Outcome Sender (StatusCode × List Bytes) :=
  match h.stat (h.wrapPath filepath) with
  | none => .stop (.notFound, [])
  | some filestat =>
    Loop.run Sender.head (fetchBody (h.content (h.wrapPath filepath)))
      (.start filestat.stSize opens) turns

/-- An iteration of `Store`, which does not ask whether it is cancelled. -/
def storeBody (content : Bytes) (t : Sender) : Turn →
    Loop.Outcome Sender (StatusCode × List Bytes)
  | .throws => .stop (.cancelled, t.sent)
  | _ => .more (t.chunk content)

/-- `Store` up to `WritesDone`. -/
def storeSend (h : Host) (filename : Bytes) (opens : Bool) (turns : List Turn) :
    Loop.Outcome Sender (StatusCode × List Bytes) :=
  match h.stat (h.wrapPath filename) with
  | none => .stop (.notFound, [])
  | some filestat =>
    Loop.run Sender.head (storeBody (h.content (h.wrapPath filename)))
      (.start filestat.stSize opens) turns

/-- `Store` of a path, for what `stat` gives and what there is to read, and the status of
`Finish`. -/
def store (filestat : Option Stat) (content : Bytes) (opens : Bool) (finish : StatusCode)
    (turns : List Turn) : Loop.Outcome Sender (StatusCode × List Bytes) :=
  match filestat with
  | none => .stop (.notFound, [])
  | some filestat =>
    match Loop.run Sender.head (storeBody content) (.start filestat.stSize opens) turns with
    | .stop (.ok, sent) => .stop (finish, sent)
    | outcome => outcome

/-- The bytes of the messages for which `Write` returned true. -/
def written (writes : ℕ → Bool) (sent : List Bytes) : ℕ :=
  ((sent.zipIdx.filter fun m => writes m.2).map fun m => m.1.length).sum

/-! ### Receiving a file -/

/-- A message that `Read` has given, and what the other calls of the iteration come to. -/
structure Recv where
  data : Bytes
  isCancelled : Bool
  opens : Bool
  room : ℕ
  deriving DecidableEq

/-- An iteration of `storeFile`. -/
def storeRead (now : ℤ) (h : Host) (f : Ofstream) :
    Option Recv → Host × Loop.Outcome Ofstream StatusCode
  | none => (h, .stop .cancelled)
  | some r =>
    if r.isCancelled then (h, .stop .deadlineExceeded)
    else
      let (h, f) := f.write now r.room r.data h
      (h, .more f)

/-- An iteration of `Fetch`, which opens the file for the first message. -/
def fetchRead (now : ℤ) (path : Bytes) (h : Host) (f : Ofstream) :
    Option Recv → Host × Loop.Outcome Ofstream StatusCode
  | none => (h, .stop .cancelled)
  | some r =>
    let (h, f) := if f.path.isSome then (h, f) else Ofstream.open now r.opens path h
    let (h, f) := f.write now r.room r.data h
    (h, .more f)

/-- The loop over what `Read` gives (`none` is an exception), with what is returned after it. -/
def receive (read : Host → Ofstream → Option Recv → Host × Loop.Outcome Ofstream StatusCode)
    (final : StatusCode) : Host → Ofstream → List (Option Recv) → Host × StatusCode
  | h, _, [] => (h, final)
  | h, f, r :: rs =>
    match read h f r with
    | (h, .more f) => receive read final h f rs
    | (h, .stop status) => (h, status)

/-- `storeFile`, with the file name that is in the metadata. -/
def storeFile (now : ℤ) (h : Host) (filename : Option Bytes) (opens : Bool)
    (recvs : List (Option Recv)) : Host × StatusCode :=
  let (h, f) := Ofstream.open now opens (h.wrapPath (filename.getD [])) h
  receive (storeRead now) .ok h f recvs

/-- The code `Fetch` returns for the status `Finish` gives. -/
def fetchCode : StatusCode → StatusCode
  | .internal => .cancelled
  | status => status

/-- `Fetch` of what the server sends. -/
def fetch (now : ℤ) (h : Host) (filename : Bytes) (recvs : List (Option Recv))
    (status : StatusCode) : Host × StatusCode :=
  receive (fetchRead now (h.wrapPath filename)) (fetchCode status) h .closed recvs

/-! ### Deleting and listing -/

/-- `deleteFile`, which tests whether it is cancelled and may not be able to remove the file. -/
def deleteFile (h : Host) (filepath : Bytes) (isCancelled removes : Bool) : Host × StatusCode :=
  if isCancelled then (h, .deadlineExceeded)
  else
    match h.stat (h.wrapPath filepath) with
    | none => (h, .notFound)
    | some _ =>
      if removes then (h.put (h.wrapPath filepath) none, .ok) else (h, .cancelled)

structure Item where
  filename : Bytes
  mtime : ℕ
  deriving DecidableEq

/-- The loop of `listFiles` over what `readdir` gives and `IsCancelled` says.  A field of type
`uint64` takes the time. -/
def listItems (h : Host) : List (Bytes × Bool) → List Item → StatusCode × List Item
  | [], items => (.ok, items)
  | (filename, isCancelled) :: entries, items =>
    if isCancelled then (.deadlineExceeded, items)
    else
      match h.stat (h.wrapPath filename) with
      | none => listItems h entries items
      | some fileInfo =>
        listItems h entries (items ++ [⟨filename, (fileInfo.stMtime % 2 ^ 64).toNat⟩])

def listFiles (h : Host) (entries : List (Bytes × Bool)) : StatusCode × List Item :=
  listItems h entries []

/-- `file_map->insert`, which leaves a key that is there alone.  The time goes into an `int`. -/
def insertItem (fileMap : Bytes → Option ℤ) (item : Item) : Bytes → Option ℤ :=
  if (fileMap item.filename).isSome then fileMap
  else Function.update fileMap item.filename (some (int item.mtime))

/-- `List`, for the response of `listFiles`. -/
def list (status : StatusCode) (items : List Item) (fileMap : Bytes → Option ℤ) :
    StatusCode × (Bytes → Option ℤ) :=
  if status = .ok then (.ok, items.foldl insertItem fileMap) else (status, fileMap)

/-- `List` with the answer of `listFiles`, where the connection delivers it. -/
def listing (h : Host) (entries : List (Bytes × Bool)) (fileMap : Bytes → Option ℤ) :
    StatusCode × (Bytes → Option ℤ) :=
  let (status, items) := listFiles h entries
  list status items fileMap

/-! ### Attributes -/

/-- `statResponse`, of which the size is a `uint32` and the times are `uint64`. -/
structure StatResponse where
  filsize : ℕ := 0
  mTime : ℕ := 0
  cTime : ℕ := 0
  deriving DecidableEq

/-- `getFileAttrs`, with the `st_ctime` of the file. -/
def getFileAttrs (h : Host) (filename : Bytes) (isCancelled : Bool) (stCtime : ℤ) :
    StatusCode × StatResponse :=
  if isCancelled then (.deadlineExceeded, {})
  else
    match h.stat (h.wrapPath filename) with
    | none => (.notFound, {})
    | some fileInfo =>
      (.ok, ⟨fileInfo.stSize % 2 ^ 32, (fileInfo.stMtime % 2 ^ 64).toNat,
        (stCtime % 2 ^ 64).toNat⟩)

/-- What `status.error_code()` is printed as. -/
def StatusCode.code : StatusCode → ℕ
  | .ok => 0
  | .cancelled => 1
  | .deadlineExceeded => 4
  | .notFound => 5
  | .internal => 13
  | .other code => code

/-- `Stat`: the code and the lines it prints. -/
def stat (filename : Bytes) (status : StatusCode) (response : StatResponse) :
    StatusCode × List Bytes :=
  let requesting := ascii "Requesting for stat of " ++ filename
  if status = .ok then
    (.ok, [requesting, ascii "File size =" ++ decimal response.filsize,
      ascii "File m_time =" ++ decimal response.mTime,
      ascii "File c_time =" ++ decimal response.cTime])
  else (status, [requesting, ascii "Error code :" ++ decimal status.code])

/-! ### One call at a time -/

/-- Names as the calls are given: printable, and of one file in the mount directory. -/
structure Name where
  bytes : Bytes
  printable : ∀ b ∈ bytes, 0x21 ≤ b ∧ b ≤ 0x7e
  ne_nil : bytes ≠ []
  no_slash : 0x2f ∉ bytes
  ne_dot : bytes ≠ ascii "."
  ne_dotDot : bytes ≠ ascii ".."

inductive Call
  | store (name : Name)
  | fetch (name : Name)
  | delete (name : Name)
  /-- With the entries that `readdir` gives. -/
  | list (entries : List Bytes) (fileMap : Bytes → Option ℤ)

structure World where
  client : Host
  server : Host

inductive Reply
  | code (status : StatusCode)
  | listing (status : StatusCode) (fileMap : Bytes → Option ℤ)

/-- A message that arrives, and is written. -/
def Recv.whole (data : Bytes) : Recv := ⟨data, false, true, data.length⟩

/-- A call where no call of the system fails and gRPC delivers what is sent, given `k` iterations
of the sending loop at the time `now`. -/
def World.perform (k : ℕ) (now : ℤ) (w : World) : Call → Option (World × Reply)
  | .store name =>
    match storeSend w.client name.bytes true (List.replicate k .goes) with
    | .stop (.ok, sent) =>
      let (server, status) :=
        storeFile now w.server (some name.bytes) true (sent.map fun m => some (.whole m))
      some ({ w with server }, .code status)
    | .stop (code, _) => some (w, .code code)
    | .more _ => none
  | .fetch name =>
    match fetchFile w.server name.bytes true (List.replicate k .goes) with
    | .stop (status, sent) =>
      let (client, code) :=
        fetch now w.client name.bytes (sent.map fun m => some (.whole m)) status
      some ({ w with client }, .code code)
    | .more _ => none
  | .delete name =>
    let (server, status) := deleteFile w.server name.bytes false true
    some ({ w with server }, .code status)
  | .list entries fileMap =>
    let (status, items) := listFiles w.server (entries.map fun e => (e, false))
    let (code, fileMap) := list status items fileMap
    some (w, .listing code fileMap)

end FileServices.Dfs
