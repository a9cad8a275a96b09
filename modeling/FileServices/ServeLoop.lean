import FileServices.Gfserver

/-!
# What the server holds

`gfserver_serve` makes a context for each connection before it accepts it, and leaves an iteration
of its loop in one of three ways.  The context and the socket of a connection are named by its
place in the order in which connections are accepted.
-/

namespace FileServices.ServeLoop

open CString

/-- What comes to pass on a connection: what `recv` gives (`none` is -1) and, where the handler is
called, how often it calls `gfs_abort` and whether it sets its context to NULL to keep it. -/
structure Connection where
  recv : Option Bytes
  aborts : ℕ
  keeps : Bool
  deriving DecidableEq

/-- The contexts with the socket that each one names, how often they have been freed and the
sockets closed, and the contexts that a handler has kept. -/
structure Server where
  accepted : ℕ
  clientSocketFd : ℕ → Option ℕ
  freed : ℕ → ℕ
  closed : ℕ → ℕ
  kept : ℕ → Bool

def Server.init : Server where
  accepted := 0
  clientSocketFd := fun _ => none
  freed := fun _ => 0
  closed := fun _ => 0
  kept := fun _ => false

def Server.close (s : Server) (fd : ℕ) : Server :=
  { s with closed := Function.update s.closed fd (s.closed fd + 1) }

/-- `free`, which does nothing on NULL. -/
def Server.free (s : Server) : Option ℕ → Server
  | none => s
  | some ctx => { s with freed := Function.update s.freed ctx (s.freed ctx + 1) }

def gfsAbort (ctx : ℕ) (s : Server) : Server := (s.clientSocketFd ctx).elim s s.close

/-- A call of the handler on the context `ctx`: what it leaves in `context`. -/
def handlerfunc (c : Connection) (ctx : ℕ) (s : Server) : Option ℕ × Server :=
  let s := (gfsAbort ctx)^[c.aborts] s
  if c.keeps then (none, { s with kept := Function.update s.kept ctx true }) else (some ctx, s)

/-- An iteration of the loop of `gfserver_serve`, up to the next `accept`.  It is `none` where the
parser reads what it must not. -/
def serveOne (s : Server) (c : Connection) : Option Server :=
  let context := s.accepted
  let clientSocketFd := s.accepted
  let s := { s with accepted := s.accepted + 1 }
  match serveConnection c.recv with
  | .undefined => none
  | .closed => some s
  | .invalid => some s
  | .handled _ =>
    let s := { s with
      clientSocketFd := Function.update s.clientSocketFd context (some clientSocketFd) }
    let (context, s) := handlerfunc c context s
    some (s.free context)

/-- The server when it has been through the connections and is back at `accept`. -/
def gfserverServe (cs : List Connection) : Option Server := cs.foldlM serveOne .init

end FileServices.ServeLoop
