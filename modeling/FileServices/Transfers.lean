import FileServices.Transfer

/-!
# The file server and its clients

The server sends its file to the clients in the order in which they have connected, one after the
other, and never closes the file that it has opened for each.  A client writes over its output
file from the start on, until `recv` returns 0, as it does where the server has closed the
connection or is gone.  A step is one call, and a call may move a part of its data.
-/

namespace FileServices.Transfers

open CString Transfer

/-- The file, what is in the output file of each client before, and how many descriptors the
server has for connections and files. -/
structure Config where
  nclients : ℕ
  content : Bytes
  old : Fin nclients → Bytes
  room : ℕ

variable {c : Config}

/-- Where a client stands, with its output file.  One that has left has been killed, or its `recv`
has failed. -/
inductive ClientPc
  | connect
  | recv (s : Transferclient)
  | ended (file : Bytes)
  | left (file : Bytes)
  deriving DecidableEq

/-- The processes, the connections that wait to be accepted, and what the server has put on each.
`served` are those that it has closed. -/
structure State (c : Config) where
  server : Transferserver
  connectionSocketFd : Option (Fin c.nclients)
  files : ℕ
  accepted : List (Fin c.nclients)
  served : List (Fin c.nclients)
  backlog : List (Fin c.nclients)
  client : Fin c.nclients → ClientPc
  wire : Fin c.nclients → Bytes

def State.init (c : Config) : State c :=
  ⟨.accept, none, 0, [], [], [], fun _ => .connect, fun _ => []⟩

def State.goto (s : State c) (i : Fin c.nclients) (pc : ClientPc) : State c :=
  { s with client := Function.update s.client i pc }

def running : Transferserver → Bool
  | .exited _ => false
  | _ => true

/-- The server's end of the connection is closed. -/
def State.closed (s : State c) (i : Fin c.nclients) : Bool :=
  i ∈ s.served || !running s.server

/-- A step of `main` of `transferclient`, where `recv` returns `n`. -/
def State.transferclient (s : State c) (i : Fin c.nclients) (n : ℕ) : Option (State c) :=
  match s.client i with
  | .connect =>
    if running s.server then
      some ({ s with backlog := s.backlog ++ [i] }.goto i (.recv ⟨c.old i, 0⟩))
    else none
  | .recv f =>
    let arrived := (s.wire i).drop f.pos
    if n ≤ min Transfer.bufsize arrived.length ∧ (n = 0 → arrived = [] ∧ s.closed i = true) then
      match Transfer.receiveBody f (some (arrived.take n)) with
      | .more f => some (s.goto i (.recv f))
      | .stop file => some (s.goto i (.ended file))
    else none
  | .ended _ | .left _ => none

/-- A step of `main` of `transferserver`, where its call returns `result`. -/
def State.transferserver (s : State c) (result : ℤ) : Option (State c) :=
  let server := s.server.step c.content result
  match s.server, s.connectionSocketFd with
  | .accept, _ =>
    if result < 0 then some { s with server }
    else
      match s.backlog with
      | [] => none
      | i :: backlog =>
        if s.files < c.room then
          some { s with
            server, backlog, connectionSocketFd := some i, accepted := s.accepted ++ [i] }
        else none
  | .open, _ =>
    if result < 0 then some { s with server }
    else if s.files + 1 < c.room then some { s with server, files := s.files + 1 }
    else none
  | .sendFile _, some i =>
    match server with
    | .sendFile t => some { s with server, wire := Function.update s.wire i t.wire }
    | .accept => some { s with server, served := s.served ++ [i] }
    | _ => some { s with server }
  | _, _ => none

inductive Event (c : Config)
  | client (i : Fin c.nclients) (n : ℕ)
  | leave (i : Fin c.nclients)
  | server (result : ℤ)

def step (c : Config) : Event c → State c → Option (State c)
  | .client i n, s => s.transferclient i n
  | .leave i, s =>
    match s.client i with
    | .recv f => some (s.goto i (.left f.file))
    | _ => none
  | .server result, s => s.transferserver result

end FileServices.Transfers
