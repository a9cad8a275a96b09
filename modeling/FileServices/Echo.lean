import FileServices.Transfer

/-!
# The echo server and its clients

Each client connects, sends its message, prints what one `recv` gives it and closes its socket.
The server takes the clients in the order in which they have connected and keeps a socket open for
each.  A step is one call on a socket; `send` may move a part of its data, and `recv` may give a
part of what has arrived.
-/

namespace FileServices.Echo

open CString Transfer

/-- `BUFSIZE` of both programs. -/
def bufsize : ℕ := 256

/-- The clients with their messages, and how many sockets the server has descriptors for. -/
structure Config where
  nclients : ℕ
  message : Fin nclients → Bytes
  room : ℕ
  message_string : ∀ i, 0 ∉ message i

variable {c : Config}

/-- Where a client stands.  One that has left has exited with 1, or has been killed. -/
inductive ClientPc
  | connect | send | recv
  | printed (out : Bytes)
  | left
  deriving DecidableEq

/-- The client has closed its socket. -/
def ClientPc.closed : ClientPc → Bool
  | .printed _ | .left => true
  | _ => false

/-- The client has yet to send its message. -/
def ClientPc.sends : ClientPc → Bool
  | .connect | .send => true
  | _ => false

/-- The processes, the connections that wait to be accepted, and what is on its way on each. -/
structure State (c : Config) where
  server : Echoserver
  clientSocketFd : Option (Fin c.nclients)
  accepted : List (Fin c.nclients)
  backlog : List (Fin c.nclients)
  client : Fin c.nclients → ClientPc
  toServer : Fin c.nclients → Bytes
  toClient : Fin c.nclients → Bytes

def State.init (c : Config) : State c :=
  ⟨⟨.accept, []⟩, none, [], [], fun _ => .connect, fun _ => [], fun _ => []⟩

def State.goto (s : State c) (i : Fin c.nclients) (pc : ClientPc) : State c :=
  { s with client := Function.update s.client i pc }

/-- A step of `main` of `echoclient`, where its call moves `n` bytes. -/
def State.echoclient (s : State c) (i : Fin c.nclients) (n : ℕ) : Option (State c) :=
  match s.client i with
  | .connect =>
    match s.server.pc with
    | .exited _ => none
    | _ => some ({ s with backlog := s.backlog ++ [i] }.goto i .send)
  -- What `send` returns is not looked at, and where it fails it has moved nothing.
  | .send =>
    if n ≤ (c.message i).length then
      some ({ s with
        toServer := Function.update s.toServer i ((c.message i).take n) }.goto i .recv)
    else none
  | .recv =>
    if 0 < n ∧ n ≤ min (bufsize - 1) (s.toClient i).length then
      some ({ s with
        toClient := Function.update s.toClient i ((s.toClient i).drop n) }.goto i
          (.printed (cstr ((s.toClient i).take n))))
    else none
  | .printed _ | .left => none

/-- A step of `main` of `echoserver`, where its call returns `result`. -/
def State.echoserver (s : State c) (result : ℤ) : Option (State c) :=
  match s.server.pc, s.clientSocketFd with
  | .accept, _ =>
    if result < 0 then some { s with server := s.server.step ⟨result, []⟩ }
    else
      match s.backlog with
      | [] => none
      | i :: backlog =>
        if s.accepted.length < c.room then
          some { s with
            server := s.server.step ⟨result, []⟩
            clientSocketFd := some i
            accepted := s.accepted ++ [i]
            backlog := backlog }
        else none
  | .recv, some i =>
    let available := min bufsize (s.toServer i).length
    -- Nothing is received where the client has closed its socket and all has been read.
    if result ≤ available ∧ (result = 0 → available = 0 ∧ (s.client i).closed = true) then
      some { s with
        server := s.server.step ⟨result, (s.toServer i).take result.toNat⟩
        toServer := Function.update s.toServer i ((s.toServer i).drop result.toNat) }
    else none
  | .send buffer recvMsgLen, some i =>
    if result ≤ recvMsgLen then
      some { s with
        server := s.server.step ⟨result, []⟩
        toClient := Function.update s.toClient i
          (s.toClient i ++ (buffer.take recvMsgLen.toNat).take result.toNat) }
    else none
  | _, _ => none

inductive Event (c : Config)
  | client (i : Fin c.nclients) (n : ℕ)
  | leave (i : Fin c.nclients)
  | server (result : ℤ)

def step (c : Config) : Event c → State c → Option (State c)
  | .client i n, s => s.echoclient i n
  | .leave i, s => if (s.client i).closed then none else some (s.goto i .left)
  | .server result, s => s.echoserver result

/-- The call moves all that there is, or all that there is room for. -/
def movesAll (s : State c) : Event c → Bool
  | .client i n =>
    match s.client i with
    | .send => n = (c.message i).length
    | .recv => n = min (bufsize - 1) (s.toClient i).length
    | _ => true
  | .server result =>
    match s.server.pc, s.clientSocketFd with
    | .recv, some i => result = (min bufsize (s.toServer i).length : ℕ)
    | .send _ recvMsgLen, _ => result = recvMsgLen
    | _, _ => true
  | .leave _ => true

end FileServices.Echo
