import FileServices.Dispatch

/-!
# What the clients of the multithreaded server get

The server with what its workers read into their buffers and put on the socket of each request.
-/

namespace FileServices.Dispatch

open CString
open Cache (size)
open Downloader (Thread)

/-- What is behind each descriptor, and what `gfs_sendheader` puts on a socket. -/
structure Outside where
  file : ℤ → Bytes
  header : GfStatus → ℕ → Bytes

/-- The server with the local `buf` of each worker and what is on the socket of each request. -/
structure Answering (c : Config) where
  server : Server c
  buf : Fin c.nthreads → Bytes
  wire : ℕ → Bytes

variable {c : Config}

def Answering.init (c : Config) : Answering c := ⟨.init c, fun _ => [], fun _ => []⟩

/-- The content of the file that is asked for. -/
def Config.content (c : Config) (o : Outside) (req : ℕ) : Bytes :=
  o.file (c.contentGet (c.path req))

/-- `BUFSIZE`. -/
def bufsize : ℕ := 512

/-- `buf` after `clear_buffer` and a `pread` that returned `ret`. -/
def fillBuf (content : Bytes) (offset : ℕ) (ret : ℤ) : Bytes :=
  (content.drop offset).take ret.toNat
    ++ List.replicate (bufsize - ((content.drop offset).take ret.toNat).length) 0

def Answering.put (s : Answering c) (req : ℕ) (data : Bytes) : Answering c :=
  { s with wire := Function.update s.wire req (s.wire req ++ data) }

/-- What a step of worker `k` does to its buffer and to the sockets, where `ret` is what `pread` or
`gfs_send` returns. -/
def Answering.work (o : Outside) (k : Fin c.nthreads) (ret : ℤ) (s : Answering c) : Answering c :=
  match s.server.worker k with
  | .notFound req => s.put req (o.header .fileNotFound 0)
  | .statError req => s.put req (o.header .error 0)
  | .header req fileLen => s.put req (o.header .ok fileLen)
  | .pread req _ totalBtsSent =>
    { s with buf := Function.update s.buf k (fillBuf (c.content o req) totalBtsSent ret) }
  | .send req _ _ _ => s.put req ((s.buf k).take ret.toNat)
  | _ => s

def Answering.act (o : Outside) (s : Answering c) : Event c → Answering c
  | .worker k _ ret => s.work o k ret
  | _ => s

def answer (o : Outside) (e : Event c) (s : Answering c) : Option (Answering c) :=
  (step c e s.server).map fun server => { s.act o e with server }

/-- What a call for one request returns: `fstat` gives the size of the file or fails, `pread` gives
some of what is left where something is, and `gfs_send` sends some of what it is given. -/
def Works (content : Bytes) (req : ℕ) (ret : ℤ) : WorkerPc → Prop
  | .fstat r => r = req → ret = -1 ∨ ret = content.length
  | .pread r _ totalBtsSent => r = req → 0 ≤ ret
    ∧ ret ≤ min bufsize (content.length - totalBtsSent)
    ∧ (totalBtsSent < content.length → 1 ≤ ret)
  | .send r _ _ btsRead => r = req → 1 ≤ ret ∧ ret ≤ btsRead
  | _ => True

def Undisturbed (o : Outside) (req : ℕ) (s : Answering c) : Event c → Prop
  | .worker k _ ret => Works (c.content o req) req ret (s.server.worker k)
  | _ => True

/-! ### The answers -/

/-- The first `n` bytes of the file have gone out behind its header. -/
structure Sent (o : Outside) (s : Answering c) (req n : ℕ) : Prop where
  found : c.contentGet (c.path req) ≠ -1
  headers : s.server.headers req = [(.ok, (c.content o req).length)]
  wire : s.wire req = o.header .ok (c.content o req).length ++ (c.content o req).take n

/-- The answer is that the file is not there, or that it cannot be looked at. -/
def Refused (o : Outside) (s : Answering c) (req : ℕ) : Prop :=
  (c.contentGet (c.path req) = -1 ∧ s.server.headers req = [(.fileNotFound, 0)]
      ∧ s.wire req = o.header .fileNotFound 0)
    ∨ (c.contentGet (c.path req) ≠ -1 ∧ s.server.headers req = [(.error, 0)]
      ∧ s.wire req = o.header .error 0)

end FileServices.Dispatch
