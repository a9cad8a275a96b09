import FileServices.Lib.CString

/-!
# The files that the client of `gflib` saves to

Each request of the workload is saved under the path asked for with a number behind it, which
counts the requests.
-/

namespace FileServices.LocalPath

open CString

/-- `PATH_BUFFER_SIZE`. -/
def pathBufferSize : ℕ := 256

/-- `"_%06d"`. -/
def suffix (counter : ℕ) : Bytes :=
  ascii "_" ++ (List.replicate (6 - (decimal counter).length) 48 ++ decimal counter)

/-- The string that `localPath` leaves in its buffer: `snprintf` cuts it to what fits. -/
def localPath (reqPath : Bytes) (counter : ℕ) : Bytes :=
  (reqPath.tail ++ suffix counter).take (pathBufferSize - 1)

/-- The local names of the request loop in `main`, from a value of the counter on.  The number of
requests is an `int`, and so the counter does not overflow. -/
def requestLoop (counter : ℕ) : List Bytes → List Bytes
  | [] => []
  | reqPath :: paths =>
    if 256 < reqPath.length then []
    else localPath reqPath counter :: requestLoop (counter + 1) paths

end FileServices.LocalPath
