import FileServices.BuiltPath
import FileServices.Proofs.ReqStruct

/-!
# Names that fit their arrays

`strncpy` writes no terminator where the string fills the array, and the bound of `strncat` is on
what it appends and not on where it ends; so the two give what they are for just when both strings
and the terminator fit (`paths_built_iff`).
-/

namespace FileServices.BuiltPath

open CString Cells

variable {n : ℕ} {front path server dataDir : Bytes}

/-- `strncpy` writes every cell. -/
theorem store_strncpy (n : ℕ) (src : Bytes) :
    store (declared n) 0 (Cache.strncpy n src) = .ok ((Cache.strncpy n src).map some) := by
  have hlen := Cache.length_strncpy n src
  rw [store_eq (by rw [declared, List.length_replicate]; omega), hlen, declared]
  simp

theorem holds_built_iff (hfront : 0 ∉ front) (hpath : 0 ∉ path) :
    Holds (built n front path) (front ++ path) ↔ front.length + path.length < n := by
  rw [built, store_strncpy]
  rcases Nat.lt_or_ge front.length n with hlt | hge
  · obtain ⟨z, hz⟩ := Cache.strncpy_of_lt hfront hlt
    have hlen : (front.map some ++ some 0 :: z.map some).length = n := by
      have := Cache.length_strncpy n front
      rw [hz] at this
      simpa using this
    have hiff := @strncat_string front n path (z.map some) hfront hpath hlen.le
    rw [hlen] at hiff
    rw [hz, List.map_append, List.map_cons]
    exact hiff
  · have hfull : 0 ∉ front.take n := fun h0 => hfront (List.mem_of_mem_take h0)
    have hcopy : Cache.strncpy n front = front.take n := Cache.strncpy_of_le hfront hge
    refine iff_of_false ?_ (by omega)
    rintro ⟨buf, hbuf, -⟩
    rw [hcopy] at hbuf
    simp only [Except.bind, strncat, load_full hfull] at hbuf
    cases hbuf

/-- For every server, directory and path, the strings that are requested and opened are the ones
that are meant, and no access is outside the arrays or of a byte that is not written, just when
both parts and the terminator fit. -/
theorem paths_built_iff (hserver : 0 ∉ server) (hdir : 0 ∉ dataDir) (hpath : 0 ∉ path) :
    (Holds (url server path) (server ++ path) ↔ server.length + path.length < 4096)
      ∧ (Holds (fileName dataDir path) (dataDir ++ path) ↔ dataDir.length + path.length < 1219) :=
  ⟨holds_built_iff hserver hpath, holds_built_iff hdir hpath⟩

theorem paths_built_iff_short :
    (Holds (url (ascii "localhost") (ascii "/a")) (ascii "localhost" ++ ascii "/a") ↔
        (ascii "localhost").length + (ascii "/a").length < 4096)
      ∧ (Holds (fileName (ascii ".") (ascii "/a")) (ascii "." ++ ascii "/a") ↔
        (ascii ".").length + (ascii "/a").length < 1219) :=
  paths_built_iff (by decide) (by decide) (by decide)

/-- One byte too many: the terminator of the file name falls behind the array. -/
theorem fileName_outside : ¬ Holds
    (fileName (List.replicate 1200 97) (ascii "/" ++ List.replicate 18 97))
    (List.replicate 1200 97 ++ (ascii "/" ++ List.replicate 18 97)) := by
  have h97 : ∀ k, (0 : UInt8) ∉ List.replicate k 97 := fun k h =>
    absurd (List.eq_of_mem_replicate h) (by decide)
  have hpath : (0 : UInt8) ∉ ascii "/" ++ List.replicate 18 97 := fun h =>
    (List.mem_append.mp h).elim (by decide) (h97 18)
  rw [fileName, holds_built_iff (h97 1200) hpath, List.length_append, List.length_replicate,
    List.length_replicate]
  decide

end FileServices.BuiltPath
