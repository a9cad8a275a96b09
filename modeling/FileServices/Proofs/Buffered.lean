import FileServices.Buffered
import FileServices.Proofs.DfsTransfer

/-!
# What the system takes of a buffer

A write at the end of a file adds its data to it, and one that starts inside of the file leaves it
at least as long as the data reaches.
-/

namespace FileServices.Buffered

open CString

variable {N : Type*} {file : File} {d : Disk N UInt8} {name : N} {written content data : Bytes}

theorem length_writeAt {pos : ℕ} (hpos : pos ≤ content.length) :
    pos + data.length ≤ (Dfs.writeAt content pos data).length := by
  unfold Dfs.writeAt
  split_ifs with hnil
  · simpa [hnil] using hpos
  · simp only [List.length_append, List.length_take, List.length_replicate]
    omega

theorem onlyAt_flush (h : ∀ other, d.dir other = some file.ino → other = name) (n : ℕ) :
    d.OnlyAt name (file.flush n d).2 :=
  Disk.onlyAt_modify h fun content => Dfs.writeAt content file.pos (file.pending.take n)

theorem read_flush (n : ℕ) (hdir : d.dir name = some file.ino) (hread : d.read name = some written)
    (hpos : written.length = file.pos) :
    (file.flush n d).2.read name = some (written ++ file.pending.take n) := by
  unfold File.flush
  rw [Disk.read_modify hdir, hread, Option.map_some, ← hpos, Dfs.writeAt_end]

end FileServices.Buffered
