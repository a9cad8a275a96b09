import FileServices.Lib.Bisect
import FileServices.Lib.Lines
import FileServices.Simplecache

/-!
# The table of keys and descriptors

`content_init` of the servers and `simplecache_init` of the cache read it from a file, and
`content_get` and `simplecache_get` look keys up in it.  The programs differ in `MAX_KEYLEN`.
-/

namespace FileServices.Content

open CString

/-- `MAX_KEYLEN` of the servers and of the cache. -/
inductive Library
  | content | simplecache
  deriving DecidableEq

def Library.maxKeylen : Library → ℕ
  | .content => 256
  | .simplecache => 1024

/-! ### Reading the file -/

/-- `nitems`, `capacity`, the array with a cell for each item it has room for, what is left of
the file, and the paths that have been opened. -/
structure Reading where
  nitems : ℕ
  capacity : ℕ
  items : List (Option Item)
  rest : Bytes
  opened : List Bytes

/-- How the loop ends: past the end of the array or of an `int`, before the start of a key, with
a file that cannot be opened, or at the end of the file. -/
inductive Init
  | overrun
  | underrun
  | exit
  | table (s : Reading)

/-- The loop goes on as long as `fgets` does not return NULL. -/
def initHead (lib : Library) (s : Reading) : Option Init :=
  if (fgets (lib.maxKeylen - 1) s.rest).1 = [] then some (.table s) else none

def blanks : Bytes := ascii " \t"

/-- The key and the path of a line, the last character of which is taken off; a path of NULL is
`none`. -/
def separate (line : Bytes) : Bytes × Option Bytes :=
  let (key, ptr) := strsep line.dropLast blanks
  (key, ptr.map fun ptr => (strsep ptr blanks).1)

/-- The item is in its cell, and the array has room for the next one. -/
def Reading.add (s : Reading) (item : Item) (path rest : Bytes) : Loop.Outcome Reading Init :=
  let s := { s with
    nitems := s.nitems + 1
    items := s.items.set s.nitems (some item)
    rest := rest
    opened := s.opened ++ [path] }
  if s.nitems = s.capacity then
    if 2 ^ 31 ≤ s.capacity * 2 then .stop .overrun
    else .more { s with
      capacity := s.capacity * 2
      items := s.items ++ List.replicate s.capacity none }
  else .more s

/-- An iteration, in which `open` gives a descriptor for each path or fails, as it does on NULL. -/
def initBody (lib : Library) (s : Reading) (opens : Bytes → Option ℕ) :
    Loop.Outcome Reading Init :=
  let (line, rest) := fgets (lib.maxKeylen - 1) s.rest
  if s.items.length ≤ s.nitems then .stop .overrun
  else if cstr line = [] then .stop .underrun
  else
    match separate (cstr line) with
    | (_, none) => .stop .exit
    | (key, some path) =>
      match opens path with
      | none => .stop .exit
      | some fildes => s.add ⟨fildes, key⟩ path rest

def Reading.start (text : Bytes) : Reading := ⟨0, 16, List.replicate 16 none, text, []⟩

/-- `content_init` and `simplecache_init` up to the sort, for a file with this text. -/
def init (lib : Library) (text : Bytes) (opens : List (Bytes → Option ℕ)) :
    Loop.Outcome Reading Init :=
  Loop.run (initHead lib) (initBody lib) (.start text) opens

/-- The items that have been read. -/
def Reading.table (s : Reading) : List Item := (s.items.take s.nitems).filterMap id

/-- `qsort` leaves the items in some order by their keys. -/
structure Qsorted (items sorted : List Item) : Prop where
  perm : sorted.Perm items
  sorted : sorted.Pairwise fun a b => strcmp a.key b.key ≠ .gt

/-! ### Looking up a key -/

/-- How a look-up ends: with a read outside the table, or with a descriptor. -/
inductive Get
  | outside
  | returned (fildes : ℤ)
  deriving DecidableEq

def get : Bisect.Found Item → Get
  | .outside => .outside
  | .absent => .returned (-1)
  | .found item => .returned item.fildes

/-- `content_get` and `simplecache_get`, run for `n` iterations of their loop. -/
def contentGet (items : List Item) (key : Bytes) (n : ℕ) : Option Get :=
  (Bisect.search (fun item => strcmp (cstr key) item.key) items n).result.map get

end FileServices.Content
