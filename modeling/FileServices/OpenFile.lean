import FileServices.Lib.CString
import FileServices.Lib.Loop

/-!
# The directories that the clients make

`openFile` cuts the path of a file at one separator after the other, and makes the directory that
the string then names.  The cut is undone before the next one.
-/

namespace FileServices.OpenFile

open CString

/-- `'/'`. -/
def slash : UInt8 := 47

/-- `EEXIST`. -/
def eexist : ℕ := 17

/-- The array and the local variables of `openFile`, the arguments of the calls of `mkdir` so far,
and the last index that has been read. -/
structure Opening where
  path : Bytes
  prev : ℕ
  dirs : List Bytes
  last : ℕ
  deriving DecidableEq

/-- How the loop is left: for the call of `fopen`, by `exit`, or by a search that does not end in
the array. -/
inductive Ending
  | fopen (name : Bytes) (s : Opening)
  | exit
  | outside
  deriving DecidableEq

def Opening.start (path : Bytes) : Opening := ⟨path, 0, [], 0⟩

/-- A call takes the string at the start of the array, and reads up to its terminator. -/
def Opening.argument (s : Opening) : Bytes × Opening :=
  (cstr s.path, { s with last := max s.last (cstr s.path).length })

def openHead (s : Opening) : Option Ending :=
  match strchr s.path (s.prev + 1) slash with
  | .found _ => none
  | .null i =>
    let s := { s with last := max s.last i }
    some (.fopen s.argument.1 s.argument.2)
  | .outside => some .outside

/-- An iteration, where `mkdir` succeeds (`none`) or fails with an error number. -/
def openBody (s : Opening) (mkdir : Option ℕ) : Loop.Outcome Opening Ending :=
  match strchr s.path (s.prev + 1) slash with
  | .found cur =>
    let s := { s with path := s.path.set cur 0, last := max s.last cur }
    let (name, s) := s.argument
    let s := { s with dirs := s.dirs ++ [name] }
    if mkdir.any (· ≠ eexist) then .stop .exit
    else .more { s with path := s.path.set cur slash, prev := cur }
  | _ => .stop .outside

/-- `openFile` on the array that is passed to it, over what the calls of `mkdir` return. -/
def openFile (path : Bytes) (mkdirs : List (Option ℕ)) : Loop.Outcome Opening Ending :=
  Loop.run openHead openBody (.start path) mkdirs

end FileServices.OpenFile
