import FileServices.Dfs
import FileServices.Lib.Mem
import FileServices.Lib.Regex

/-!
# The watcher of the mounted directory

`InotifyWatcher` of the DFS client reads events into a buffer, and has its node store or delete the
files that they are about.
-/

namespace FileServices.Inotify

open CString RegularExpression Regex
open Dfs (int)

def inModify : UInt32 := 0x2

def inCreate : UInt32 := 0x100

def inDelete : UInt32 := 0x200

/-- `event_flags` in `Mount`. -/
def eventFlags : UInt32 := inCreate ||| inModify ||| inDelete

/-! ### The callback -/

inductive Call
  | store (filename : Bytes)
  | delete (filename : Bytes)
  deriving DecidableEq

/-- The bytes that `.` stands for. -/
def dot : List UInt8 := ((List.range 256).map UInt8.ofNat).filter fun b => b ≠ 10 ∧ b ≠ 13

def extensions : List Bytes :=
  [ascii "jpg", ascii "png", ascii "gif", ascii "txt", ascii "xlsx", ascii "docx", ascii "md",
    ascii "psd"]

/-- `".*\\.(jpg|png|gif|txt|xlsx|docx|md|psd)$"`.  It is matched against the whole of a text, where
`$` takes nothing. -/
def extensionRegex : RegularExpression UInt8 :=
  (letter dot).star * (lit (ascii ".") * (anyOf (extensions.map lit) * 1))

/-- `filename.substr(filename.find_last_of("/") + 1)`: all of it where there is no slash. -/
def basename (filename : Bytes) : Bytes := filename.rtakeWhile (· ≠ 47)

/-- `InotifyEventCallback`, as what it calls on the node.  The expression is well formed, and so
there is no `std::regex_error` to catch. -/
def inotifyEventCallback (filename : Bytes) (mask : UInt32) : List Call :=
  if extensionRegex.rmatch filename then
    (if mask &&& inCreate ≠ 0 then [.store (basename filename)] else [])
      ++ (if mask &&& inModify ≠ 0 then [.store (basename filename)] else [])
      ++ if mask &&& inDelete ≠ 0 then [.delete (basename filename)] else []
  else []

/-! ### The loop over a buffer of events -/

/-- Where the fields of an `inotify_event` are. -/
def maskOffset : ℕ := 4

def lenOffset : ℕ := 12

def nameOffset : ℕ := 16

/-- The test on an event and the call of the callback; `none` where it reads outside the buffer.
The name is looked at for a mask that has one of the flags only. -/
def notify (eventType : UInt32) (mountPath buffer : Bytes) (event : ℕ) (mask : UInt32) :
    Option (List Call) :=
  if eventType &&& mask ≠ 0 then
    match buffer[event + nameOffset]? with
    | none => none
    | some first =>
      if first ≠ 46 then
        (stringAt buffer (event + nameOffset)).map fun name =>
          inotifyEventCallback (mountPath ++ name) mask
      else some []
  else some []

/-- The calls for an event, and `used`. -/
def handle (eventSize : ℕ) (eventType : UInt32) (mountPath buffer : Bytes) (event : ℕ) :
    Option (List Call × ℕ) :=
  (uint32At buffer (event + maskOffset)).bind fun mask =>
    (notify eventType mountPath buffer event mask).bind fun calls =>
      (uint32At buffer (event + lenOffset)).map fun len => (calls, eventSize + len.toNat)

/-- `index`, the events that the loop has been at, and the calls on the node so far. -/
structure Watch where
  index : ℤ
  visited : List ℤ
  calls : List Call
  deriving DecidableEq

def watchHead (len : ℤ) (s : Watch) : Option (Option Watch) :=
  if s.index < len then none else some (some s)

/-- An iteration.  It ends with `none` where it reads outside the buffer. -/
def watchBody (eventSize : ℕ) (eventType : UInt32) (mountPath buffer : Bytes) (s : Watch)
    (_ : Unit) : Loop.Outcome Watch (Option Watch) :=
  if s.index < 0 then .stop none
  else
    match handle eventSize eventType mountPath buffer s.index.toNat with
    | none => .stop none
    | some (calls, used) =>
      .more ⟨int (s.index + used), s.visited ++ [s.index], s.calls ++ calls⟩

/-- The callback that the node is given can take the variables from `s` to `s'`. -/
def Handles (eventSize : ℕ) (eventType : UInt32) (mountPath buffer : Bytes) (len : ℤ)
    (s s' : Watch) : Prop :=
  Loop.Stops (watchHead len) (watchBody eventSize eventType mountPath buffer) s (fun _ => ())
    (some s')

/-- `InotifyWatcherCallback` of the node, by how often it runs what it is given. -/
def Runs (callback : Watch → Watch → Prop) : ℕ → Watch → Watch → Prop
  | 0, s, s' => s' = s
  | runs + 1, s, s' => ∃ t, callback s t ∧ Runs callback runs t s'

/-- A turn of `InotifyWatcher` after `read` has returned `len` and left `buffer`, with the variables
at `s` behind it.  `DFS_I_EVENT_SIZE` and the node's part in it are open. -/
def InotifyWatcher (eventSize : ℕ) (eventType : UInt32) (mountPath : Bytes) (len : ℤ)
    (buffer : Bytes) (runs : ℕ) (s : Watch) : Prop :=
  Runs (Handles eventSize eventType mountPath buffer (int len)) runs ⟨0, [], []⟩ s

end FileServices.Inotify
