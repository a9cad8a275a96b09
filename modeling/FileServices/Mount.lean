import FileServices.Proofs.Inotify

/-!
# Mounted directories

Any number of clients have mounted a directory each and share one server.  The users change their
files, the system queues an event for each change, and the watcher of each client reads events and
has its node store or delete what they are about.  While it stores a file the users go on to change
theirs, and that one too.  The node is a class that is derived from `DFSClientNode`.

The users do not rename files, and the system drops no event: what follows when its queue overflows
is not modelled.
-/

namespace FileServices.Mount

open CString
open Inotify (Record Watch InotifyWatcher encode eventFlags inCreate inModify inDelete)
open Dfs (Name Host World)

/-- A node with the server that it talks to: the contents of the server's files, what `Store` may
come to while the directory goes from one state to the next, and `Delete`. -/
structure Node where
  Server : Type
  files : Server → Name → Option Bytes
  /-- The files that it can store from a directory. -/
  Stores : Host → Name → Prop
  Stored : List Host → Name → Server → Server → Prop
  delete : Name → Server → Server
  files_stored : ∀ {h hs name s s'}, Stores h name → (∀ h' ∈ hs, h'.map name = h.map name) →
    Stored (h :: hs) name s s' → files s'
      = (h.map name).elim (files s) fun content => Function.update (files s) name (some content)
  stored_others : ∀ {hs name s s'}, Stored hs name s s' → ∀ n ≠ name, files s' n = files s n
  exists_stored : ∀ {h hs name} (s), Stores h name → (∀ h' ∈ hs, h'.map name = h.map name) →
    ∃ s', Stored (h :: hs) name s s'
  files_delete : ∀ name s, files (delete name s) = Function.update (files s) name none

/-! ### What the users do -/

inductive Change
  | create
  | modify (content : Bytes)
  | remove

def Change.mask : Change → UInt32
  | .create => inCreate
  | .modify _ => inModify
  | .remove => inDelete

/-- A change where there is a file to change, or none to create. -/
def Change.apply (change : Change) (now : ℤ) (name : Name) (h : Host) : Option Host :=
  let path := h.wrapPath name.bytes
  match change, h.file path with
  | .create, none => some (h.put path (some ⟨[], now⟩))
  | .modify content, some _ => some (h.put path (some ⟨content, now⟩))
  | .remove, some _ => some (h.put path none)
  | _, _ => none

/-- The events that wait after a further one, which may be merged with one that is equal to it. -/
def Queued (unread : List Record) (r : Record) (unread' : List Record) : Prop :=
  unread' = unread ++ [r] ∨ unread.getLast? = some r ∧ unread' = unread

/-! ### The system -/

/-- A client: its files, the events that wait to be read, the calls that are still to return for
those that have been read, where the first of them is a `Store` that has begun the states that the
files have been in since, and the names of the files that have been changed. -/
structure Client where
  host : Host
  unread : List Record
  calls : List Inotify.Call
  storing : Option (List Host)
  changed : List Name

structure System (node : Node) (nclients : ℕ) where
  client : Fin nclients → Client
  server : node.Server

variable {node : Node} {nclients : ℕ}

def System.put (s : System node nclients) (i : Fin nclients) (c : Client) : System node nclients :=
  { s with client := Function.update s.client i c }

inductive Event (nclients : ℕ)
  | change (i : Fin nclients) (name : Name) (change : Change)
  | read (i : Fin nclients)
  | call (i : Fin nclients)
  | stored (i : Fin nclients)

/-- What the users and the watchers do.  A watcher that is through with the events that it has read
reads some of those that wait, over what its buffer held. -/
inductive Step : Event nclients → System node nclients → System node nclients → Prop
  | change {s : System node nclients} {i : Fin nclients} {name : Name} {change : Change} {now : ℤ}
      {host : Host} {r : Record} {unread : List Record}
      (happly : change.apply now name (s.client i).host = some host)
      (hname : r.name = name.bytes) (hmask : r.mask = change.mask)
      (hlen : r.bytes.length ≤ Inotify.readMax) (hqueued : Queued (s.client i).unread r unread) :
      Step (.change i name change) s (s.put i { s.client i with
        host, unread
        storing := (s.client i).storing.map (· ++ [host])
        changed := name :: (s.client i).changed })
  | read {s : System node nclients} {i : Fin nclients} {count runs : ℕ} {stale : Bytes}
      {watch : Watch} (hcalls : (s.client i).calls = []) (hcount : 0 < count)
      (hle : count ≤ (s.client i).unread.length) (hruns : 0 < runs)
      (hlen : (encode ((s.client i).unread.take count)).length ≤ Inotify.readMax)
      (hwatch : InotifyWatcher Inotify.eventSizeof eventFlags (s.client i).host.mountPath
        (encode ((s.client i).unread.take count)).length
        (encode ((s.client i).unread.take count) ++ stale) runs watch) :
      Step (.read i) s (s.put i { s.client i with
        unread := (s.client i).unread.drop count
        calls := watch.calls })
  | delete {s : System node nclients} {i : Fin nclients} {name : Name} {calls : List Inotify.Call}
      (hcalls : (s.client i).calls = .delete name.bytes :: calls) :
      Step (.call i) s
        { s.put i { s.client i with calls } with server := node.delete name s.server }
  | store {s : System node nclients} {i : Fin nclients} {name : Name} {calls : List Inotify.Call}
      (hcalls : (s.client i).calls = .store name.bytes :: calls)
      (hstoring : (s.client i).storing = none) :
      Step (.call i) s (s.put i { s.client i with storing := some [(s.client i).host] })
  | stored {s : System node nclients} {i : Fin nclients} {name : Name} {calls : List Inotify.Call}
      {hs : List Host} {server : node.Server}
      (hcalls : (s.client i).calls = .store name.bytes :: calls)
      (hstoring : (s.client i).storing = some hs)
      (hserver : node.Stored hs name s.server server) :
      Step (.stored i) s { s.put i { s.client i with calls, storing := none } with server }

/-- The files that the events are reported for. -/
def Reported (name : Name) : Prop :=
  name.bytes.head? ≠ some 46 ∧ ∃ e ∈ Inotify.extensions, ascii "." ++ e <:+ name.bytes

instance (name : Name) : Decidable (Reported name) := inferInstanceAs (Decidable (_ ∧ _))

/-- Each file that is reported is changed by one client only, and the node can store what it is
told to. -/
def Admissible (owner : Name → Fin nclients) (s : System node nclients) : Event nclients → Prop
  | .change i name _ => Reported name → owner name = i
  | .read _ | .stored _ => True
  | .call i => ∀ name calls, (s.client i).calls = .store name.bytes :: calls →
    node.Stores (s.client i).host name

/-- What a number of steps lead to. -/
def Runs (owner : Name → Fin nclients) : System node nclients → System node nclients → Prop :=
  Relation.ReflTransGen fun s s' => ∃ e, Admissible owner s e ∧ Step e s s'

/-- Everything that has been read has been dealt with, and nothing waits. -/
def Client.Idle (c : Client) : Prop := c.unread = [] ∧ c.calls = []

/-- The directory has just been mounted. -/
structure Client.Fresh (c : Client) : Prop where
  idle : c.Idle
  storing : c.storing = none
  changed : c.changed = []
  slash : ascii "/" <:+ c.host.mountPath
  oneLine : Inotify.OneLine c.host.mountPath

/-! ### The node of the class `DFSClientNodeP1` -/

/-- What the file of the name holds from state to state once it has been opened: when it is removed
nobody changes it any more. -/
def opened (name : Name) (content : Bytes) : List Host → List Bytes
  | [] => []
  | h :: hs =>
    match h.file (h.wrapPath name.bytes) with
    | some file => file.content :: opened name file.content hs
    | none => content :: hs.map fun _ => content

/-- `Store` while the directory goes through the states `hs`, where no call of the system fails but
for what the users do, at the time `now`.  It calls `stat` in the first of them and opens the file
in one of them, and each read gives what that holds in one from there on. -/
def ClientNodeP1Store (now : ℤ) (hs : List Host) (name : Name) (server server' : Host) : Prop :=
  match hs with
  | [] => False
  | first :: _ =>
    match first.stat (first.wrapPath name.bytes) with
    | none => server' = server
    | some filestat => ∃ before h after reads sent, hs = before ++ h :: after
      ∧ (∀ content ∈ reads,
        content ∈ opened name (h.content (h.wrapPath name.bytes)) (h :: after))
      ∧ Loop.run Dfs.Sender.head (fun t content => .more (t.chunk content))
        (.start filestat.stSize (h.file (h.wrapPath name.bytes)).isSome) reads = .stop (.ok, sent)
      ∧ server' = (Dfs.storeFile now server (some name.bytes) true
        (sent.map fun m => some (.whole m))).1

def clientNodeP1Delete (now : ℤ) (name : Name) (server : Host) : Host :=
  ((World.mk server server).perform 0 now (.delete name)).elim server fun r => r.1.server

end FileServices.Mount
