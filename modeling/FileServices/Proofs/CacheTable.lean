import FileServices.Proofs.Cache
import FileServices.Proofs.ContentFile

/-!
# From the file that the cache reads to what the clients are sent

The cache is started with a file of keys and paths and opens each path.  What the client of a
request is sent then follows from the rows alone: the file of a row that has the requested path as
its key, or the header that says that there is none.
-/

namespace FileServices.Cache

open CString Content

variable {c : Config} {s : State c} {rows : List Row} {opens : ℕ → Bytes → Option ℕ} {fd : ℕ → ℕ}
  {files : Bytes → Bytes} {t : Reading} {lib : Library}

/-! ### The table -/

/-- Rows that fit their lines are read until the end of the file. -/
theorem stops_rows (hopens : ∀ i row, rows[i]? = some row → opens i row.path = some (fd i))
    (hlen : rows.length < 2 ^ 30) (hfits : ∀ row ∈ rows, row.Fits lib) :
    ∃ t, Loop.Stops (initHead lib) (initBody lib) (.start (fileText rows none)) opens (.table t)
      ∧ t.table = rowItems fd rows := by
  have hopens' : ∀ i row, (rows ++ (none : Option Row).toList)[i]? = some row →
      opens i row.path = some (fd i) := by
    simpa only [Option.toList_none, List.append_nil] using hopens
  obtain ⟨t, ht, hrest, -, htable⟩ := after_rows hopens' hlen le_rfl fun row hrow =>
    hfits row (List.mem_of_mem_take hrow)
  rw [List.drop_length] at hrest
  rw [List.take_length] at htable
  have hhead : initHead lib t = some (.table t) := by
    refine if_pos ?_
    rw [hrest, fgets_eq_nil_iff (by have := maxKeylen_gt lib; omega)]
    rfl
  exact ⟨t, Loop.stops_iff.mpr ⟨_, t, ht, .inl hhead⟩, htable⟩

theorem mem_rowItems {item : Item} (h : item ∈ rowItems fd rows) :
    ∃ i row, rows[i]? = some row ∧ item = ⟨fd i, row.key⟩ := by
  obtain ⟨i, hi, rfl⟩ := List.mem_mapIdx.mp h
  exact ⟨i, rows[i], List.getElem?_eq_getElem hi, rfl⟩

theorem key_mem_rowItems {row : Row} (h : row ∈ rows) :
    ∃ item ∈ rowItems fd rows, item.key = row.key := by
  obtain ⟨i, hi, rfl⟩ := List.getElem_of_mem h
  exact ⟨⟨fd i, rows[i].key⟩, List.mem_mapIdx.mpr ⟨i, hi, rfl⟩, rfl⟩

/-! ### The answers -/

/-- The client has been sent the file of a row with the key, or there is no such row and it has
been told so. -/
def ServedBy (rows : List Row) (files : Bytes → Bytes) (key : Bytes) (log : List Sent) : Prop :=
  (∃ row ∈ rows, row.key = key ∧ ∃ chunks : List Bytes, chunks.flatten = files row.path
    ∧ log = .header gfOk (files row.path).length :: chunks.map .data
      ++ [.returned (((files row.path).length : ℤ).bmod (2 ^ 32))])
  ∨ (∀ row ∈ rows, row.key ≠ key) ∧ ∃ value, log = [.header gfFileNotFound 0, .returned value]

/-- The table has the items of the rows, in the order of their keys. -/
theorem answered_servedBy (hsorted : Qsorted (rowItems fd rows) c.items)
    (hfile : ∀ i row, rows[i]? = some row → c.file (fd i) = files row.path) {r : ℕ}
    {log : List Sent} (h : Answered c r log) : ServedBy rows files (c.path r) log := by
  have hkey : cstr (c.path r) = c.path r := cstr_eq_self (c.path_lt r).2
  obtain ⟨-, found, -, hget, habsent, hpresent⟩ := contentGet_spec hsorted (c.path r)
  rw [hkey] at habsent hpresent
  unfold Answered Config.answer at h
  rw [hget] at h
  by_cases hnone : found = -1
  · rw [hnone, if_pos (by decide)] at h
    refine .inr ⟨fun row hrow hmatch => ?_, h⟩
    obtain ⟨item, hitem, hrow⟩ := key_mem_rowItems hrow
    exact habsent.mp hnone item hitem (hrow.trans hmatch)
  · obtain ⟨item, hitem, hmatch, rfl⟩ := hpresent hnone
    obtain ⟨i, row, hrow, rfl⟩ := mem_rowItems hitem
    rw [if_neg (by omega)] at h
    simp only [hfile i row hrow] at h
    exact .inl ⟨row, List.mem_of_getElem? hrow, hmatch, h⟩

/-- The cache has read its table from a file of rows and has opened each row's path.  Then, over
every interleaving in which no call fails, each client is sent a beginning of what the rows say,
the whole of it once its handler has returned, and where the threads come to rest all have been
sent that. -/
theorem served_by_rows (hopens : ∀ i row, rows[i]? = some row → opens i row.path = some (fd i))
    (hlen : rows.length < 2 ^ 30) (hfits : ∀ row ∈ rows, row.Fits .simplecache)
    (hinit : Loop.Stops (initHead .simplecache) (initBody .simplecache)
      (.start (fileText rows none)) opens (.table t)) (hsorted : Qsorted t.table c.items)
    (hfile : ∀ i row, rows[i]? = some row → c.file (fd i) = files row.path) (h : Reachable s) :
    (∀ r, ∃ full, ServedBy rows files (c.path r) full ∧ s.sent r <+: full)
      ∧ (∀ r < s.next, (∀ i, (s.proxy i).pc ≠ .idle → (s.proxy i).request ≠ r) →
        ServedBy rows files (c.path r) (s.sent r))
      ∧ (Quiescent s → ∀ r < s.next, ServedBy rows files (c.path r) (s.sent r)) := by
  obtain ⟨t', hinit', htable⟩ := stops_rows hopens hlen hfits
  obtain rfl := Init.table.inj (hinit.unique hinit')
  rw [htable] at hsorted
  have hs := h.sound
  refine ⟨fun r => ?_, fun r hr hreturned => ?_, fun hq r hr => ?_⟩
  · obtain ⟨full, hfull, hprefix⟩ := hs.begins r
    exact ⟨full, answered_servedBy hsorted hfile hfull, hprefix⟩
  · exact answered_servedBy hsorted hfile (hs.log.answered r hr hreturned)
  · obtain ⟨hidle, -⟩ := hs.quiescent hq
    exact answered_servedBy hsorted hfile
      (hs.log.answered r hr fun i hpc => absurd (hidle i) hpc)

def oneRow : Row :=
  ⟨ascii "/f", 32, ascii "hi", by decide, by decide, by decide, by decide, by decide⟩

def openOne (_ : ℕ) (_ : Bytes) : Option ℕ := some 3

def oneFile (_ : Bytes) : Bytes := List.replicate 200 0

theorem served_by_rows_twoChunks : ∃ s : State twoChunks, Reachable s ∧ s.next = 1
    ∧ ServedBy [oneRow] oneFile (ascii "/f") (s.sent 0) := by
  obtain ⟨s, hreach, hnext, hidle⟩ := twoChunks_returns
  have hfits : ∀ row ∈ [oneRow], row.Fits .simplecache := by
    simp only [List.mem_singleton, forall_eq]
    unfold Row.Fits
    decide
  have hopens : ∀ i row, [oneRow][i]? = some row → openOne i row.path = some 3 := fun _ _ _ => rfl
  have hlen : [oneRow].length < 2 ^ 30 := Nat.one_lt_two_pow (by decide)
  obtain ⟨t, hinit, htable⟩ := stops_rows hopens hlen hfits
  have hsorted : Qsorted t.table twoChunks.items := by
    rw [htable]
    exact ⟨List.Perm.refl _, List.pairwise_singleton _ _⟩
  have hfile : ∀ (i : ℕ) (row : Row), [oneRow][i]? = some row →
      twoChunks.file (3 : ℕ) = oneFile row.path := fun _ _ _ => rfl
  obtain ⟨-, hserved, -⟩ := served_by_rows hopens hlen hfits hinit hsorted hfile hreach
  exact ⟨s, hreach, hnext, hserved 0 (by omega) fun i hpc => absurd (hidle i) hpc⟩

end FileServices.Cache
