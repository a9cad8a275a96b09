import FileServices.Lib.Disk
import FileServices.Dfs

/-!
# A file that is written through a buffer

What a program writes to a `FILE` or an `ofstream` waits in it, until the system takes it some
time, at the close at the latest.
-/

namespace FileServices.Buffered

open CString

variable {N : Type*}

/-- An open file, with the data that it has yet to write at its position. -/
structure File where
  ino : ℕ
  pos : ℕ
  pending : Bytes
  deriving DecidableEq

/-- The system takes the first `n` bytes that the file has yet to write. -/
def File.flush (n : ℕ) (file : File) (disk : Disk N UInt8) : File × Disk N UInt8 :=
  let data := file.pending.take n
  (⟨file.ino, file.pos + data.length, file.pending.drop n⟩,
    disk.modify file.ino fun content => Dfs.writeAt content file.pos data)

end FileServices.Buffered
