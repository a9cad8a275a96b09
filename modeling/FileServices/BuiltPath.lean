import FileServices.Cache
import FileServices.Lib.Cells

/-!
# The names that the handlers build

`handle_with_curl` puts the server and the path of a request together to a URL, and
`handle_with_file` its directory and the path to a file name, each in an array of its own.
-/

namespace FileServices.BuiltPath

open CString Cells

/-- `PATH_MAX`. -/
def pathMax : ℕ := 4096

/-- `BUFSIZE` of `handle_with_file`. -/
def bufsize : ℕ := 1219

/-- `strncpy(buffer, front, n)` and `strncat(buffer, path, n)` on an array of `n` bytes. -/
def built (n : ℕ) (front path : Bytes) : Except Fault Buffer :=
  (store (declared n) 0 (Cache.strncpy n front)).bind fun buffer => strncat buffer path n

/-- `url` of `handle_with_curl`. -/
def url (server path : Bytes) : Except Fault Buffer := built pathMax server path

/-- `buffer` of `handle_with_file`, with which it calls `open`. -/
def fileName (dataDir path : Bytes) : Except Fault Buffer := built bufsize dataDir path

end FileServices.BuiltPath
