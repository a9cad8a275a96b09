import FileServices.Dfs
import FileServices.Lib.Path

/-!
# The paths that requests lead to

The four methods of `DFSServiceImpl` that take a file name from the network, by the calls of the
system that each makes with a path.  A call gets the path as a C string, so a name counts up to its
first null byte.
-/

namespace FileServices.Dfs

open CString

/-- A call of the system with a path: `stat`, the `open` of an `ifstream` or an `ofstream`, which
truncates, and `remove`. -/
inductive SystemCall
  | stat (path : Bytes)
  | openIn (path : Bytes)
  | openOut (path : Bytes)
  | remove (path : Bytes)
  deriving DecidableEq

def SystemCall.path : SystemCall → Bytes
  | .stat path | .openIn path | .openOut path | .remove path => path

/-- A request with what its other calls come to; the name of a store is in the metadata. -/
inductive FileRequest
  | fetchFile (filepath : Bytes)
  | storeFile (filename : Option Bytes) (opens : Bool) (recvs : List (Option Recv))
  | getFileAttrs (filename : Bytes) (isCancelled : Bool)
  | deleteFile (filepath : Bytes) (isCancelled removes : Bool)

def FileRequest.filename : FileRequest → Bytes
  | .fetchFile filepath => filepath
  | .storeFile filename _ _ => filename.getD []
  | .getFileAttrs filename _ => filename
  | .deleteFile filepath _ _ => filepath

def FileRequest.calls (h : Host) : FileRequest → List SystemCall
  | .fetchFile filepath =>
    let wrappedPath := cstr (h.wrapPath filepath)
    if (h.stat wrappedPath).isNone then [.stat wrappedPath]
    else [.stat wrappedPath, .openIn wrappedPath]
  | .storeFile filename _ _ => [.openOut (cstr (h.wrapPath (filename.getD [])))]
  | .getFileAttrs filename isCancelled =>
    if isCancelled then [] else [.stat (cstr (h.wrapPath filename))]
  | .deleteFile filepath isCancelled _ =>
    let wrappedPath := cstr (h.wrapPath filepath)
    if isCancelled then []
    else if (h.stat wrappedPath).isNone then [.stat wrappedPath]
    else [.stat wrappedPath, .remove wrappedPath]

/-- The server's files after a request. -/
def FileRequest.serve (now : ℤ) (h : Host) : FileRequest → Host
  | .fetchFile _ | .getFileAttrs _ _ => h
  | .storeFile filename opens recvs => (Dfs.storeFile now h (filename.map cstr) opens recvs).1
  | .deleteFile filepath isCancelled removes =>
    (Dfs.deleteFile h (cstr filepath) isCancelled removes).1

/-- A mount path that ends in `/`. -/
structure IsMount (mountPath : Bytes) : Prop where
  slash : ∃ dir, mountPath = dir ++ [0x2f]
  no_null : ∀ b ∈ mountPath, b ≠ 0

/-- The path resolves to one strictly below the mount path. -/
def InMount (mountPath path : Bytes) : Prop :=
  (Path.resolve path).StrictlyBelow (Path.resolve mountPath)

/-- No `..` of the name climbs above its start, and it names something there. -/
def StaysBelow (filename : Bytes) : Prop :=
  (Path.Place.start.walk (Path.components (cstr filename))).StrictlyBelow .start

end FileServices.Dfs
