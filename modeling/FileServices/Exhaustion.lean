import FileServices.Cache

/-!
# The proxy and the cache run out of descriptors

`handle_with_cache` opens the message queue for each request and `sendResponse` opens and maps the
segment for each message, and neither closes what it has opened.  With no descriptor left
`mq_open` fails, the request is not sent and the thread waits for the answer all the same; the
cache stores through `MAP_FAILED`.
-/

namespace FileServices.Cache

variable {c : Config}

/-- How many descriptors each process has for what it never closes. -/
structure Room where
  proxy : ℕ
  cache : ℕ

/-- The two processes with the requests for which they have taken a descriptor. -/
structure Spent (c : Config) where
  state : State c
  opened : List ℕ
  mapped : List ℕ

def Spent.init (c : Config) : Spent c := ⟨State.init c, [], []⟩

/-- A step of a thread of the proxy.  It calls `mq_open` where it is handed a request, and `ret`
is the descriptor or -1 there. -/
def Spent.handleWithCache (room : Room) (i : Fin c.nproxies) (ret : ℤ) (x : Spent c) :
    Option (Spent c) :=
  match (x.state.proxy i).pc with
  | .idle =>
    if 0 ≤ ret then
      if x.opened.length < room.proxy then
        (Cache.handleWithCache i ret x.state).map fun s =>
          { x with state := s, opened := x.state.next :: x.opened }
      else none
    else (Cache.handleWithCache i ret x.state).map fun s => { x with state := s }
  | .mqSend g _ =>
    if (x.state.proxy i).request ∈ x.opened then
      (Cache.handleWithCache i ret x.state).map fun s => { x with state := s }
    -- `mq_send` on -1 fails, which is printed.
    else some { x with state := x.state.goto i (.waitFilelen g) }
  | _ => (Cache.handleWithCache i ret x.state).map fun s => { x with state := s }

/-- A step of a worker of the cache.  Where it opens and maps the segment, `ret` is the descriptor
or -1, also for a segment that is opened and cannot be mapped. -/
def Spent.workerRoutine (room : Room) (j : Fin c.nworkers) (ret : ℤ) (x : Spent c) :
    Option (Spent c) :=
  match x.state.worker j with
  | .shmOpen request _ _ =>
    if 0 ≤ ret then
      if x.mapped.length < room.cache then
        (Cache.workerRoutine j ret x.state).map fun s =>
          { x with state := s, mapped := request :: x.mapped }
      else none
    else some { x with state := { x.state with crashed := true } }
  | _ => (Cache.workerRoutine j ret x.state).map fun s => { x with state := s }

def Spent.step (room : Room) : Event c → Spent c → Option (Spent c)
  | .proxy i ret, x => x.handleWithCache room i ret
  | .worker j ret, x => if x.state.crashed then none else x.workerRoutine room j ret
  | .spurious i, x => (Cache.step c (.spurious i) x.state).map fun s => { x with state := s }

end FileServices.Cache
