import FileServices.Proofs.CacheSession
import FileServices.Proofs.Content
import FileServices.ReqStruct

/-!
# What a request carries

`strncpy` leaves no NUL behind a path that fills its field, and the path then goes on into the
name of the segment, which stands right behind it.
-/

namespace FileServices.Cache

open CString Content

variable {stack mqMsg path shmId : Bytes} {segsize : ℕ}

/-! ### The fields -/

theorem length_strncpy (n : ℕ) (src : Bytes) : (strncpy n src).length = n := by
  unfold strncpy
  rw [List.length_append, List.length_take, List.length_replicate]
  omega

theorem strncpy_of_le {n : ℕ} {src : Bytes} (hnul : 0 ∉ src) (hle : n ≤ src.length) :
    strncpy n src = src.take n := by
  rw [strncpy, cstr_eq_self hnul, Nat.sub_eq_zero_of_le hle, List.replicate_zero, List.append_nil]

/-- The message that is received starts with the path's field and the name of the segment. -/
theorem mqReceive_requestData (stack mqMsg path : Bytes) (segsize : ℕ)
    (hname : shmId.length < 10) (hnul : 0 ∉ shmId) :
    ∃ z, mqReceive mqMsg (requestData stack path shmId segsize)
      = strncpy maxRequestLen path ++ shmId ++ 0 :: z := by
  have hlen := length_strncpy maxRequestLen path
  have hfields : (strncpy maxRequestLen path ++ (shmId ++ [0])).length ≤ segsizeOffset := by
    have hsize : maxRequestLen = 128 := rfl
    have hoffset : segsizeOffset = 144 := rfl
    rw [List.length_append, List.length_append, hlen, List.length_singleton]
    omega
  unfold mqReceive requestData
  dsimp only
  rw [poke_zero stack, show shmIdOffset = (strncpy maxRequestLen path).length from hlen.symm,
    poke_length, cstr_eq_self hnul]
  obtain ⟨c, hc⟩ := poke_behind ((stack.drop (strncpy maxRequestLen path).length).drop
    (shmId ++ [0]).length) (sizeBytes segsize) hfields
  rw [hc, poke_zero]
  generalize mqMsg.drop _ = rest
  exact ⟨c ++ rest, by simp only [List.append_assoc, List.cons_append, List.nil_append]⟩

theorem msgShmId_eq (stack mqMsg path : Bytes) (segsize : ℕ) (hname : shmId.length < 10)
    (hnul : 0 ∉ shmId) :
    msgShmId (mqReceive mqMsg (requestData stack path shmId segsize)) = some shmId := by
  obtain ⟨z, hz⟩ := mqReceive_requestData stack mqMsg path segsize hname hnul
  unfold msgShmId
  rw [hz, show shmIdOffset = (strncpy maxRequestLen path).length from
    (length_strncpy maxRequestLen path).symm]
  exact stringAt_length _ z hnul

/-- What the worker takes for the path has the name of the segment at its end where the path fills
its field. -/
theorem msgPath_eq (stack mqMsg : Bytes) (segsize : ℕ) (hpath : 0 ∉ path)
    (hname : shmId.length < 10) (hnul : 0 ∉ shmId) :
    msgPath (mqReceive mqMsg (requestData stack path shmId segsize))
      = some (if path.length < maxRequestLen then path
        else path.take maxRequestLen ++ shmId) := by
  obtain ⟨z, hz⟩ := mqReceive_requestData stack mqMsg path segsize hname hnul
  unfold msgPath
  rw [hz]
  split_ifs with hlt
  · obtain ⟨y, hy⟩ := strncpy_of_lt hpath hlt
    rw [hy, List.append_assoc, List.append_assoc, List.cons_append]
    exact stringAt_zero _ hpath
  · rw [strncpy_of_le hpath (not_lt.mp hlt)]
    refine stringAt_zero z fun h0 => ?_
    rcases List.mem_append.mp h0 with h0 | h0
    · exact hpath (List.mem_of_mem_take h0)
    · exact hnul h0

/-- The requests of the cache's model carry their paths in the record too. -/
theorem msgPath_message (c : Config) (r : ℕ) (g : Fin c.nsegments) (stack mqMsg : Bytes)
    (hname : (c.names g).length < 10) (hnul : 0 ∉ c.names g) :
    msgPath (mqReceive mqMsg (requestData stack (c.path r) (c.names g) c.segsize))
      = some (cstr (c.message r g).path) := by
  obtain ⟨hlen, hpath⟩ := c.path_lt r
  rw [msgPath_eq stack mqMsg c.segsize hpath hname hnul, if_pos hlen, Config.message,
    cstr_strncpy hlen hpath]

/-! ### The segments -/

theorem memName_fits (m : ℕ) : (memName m).length < 10 ∧ 0 ∉ memName m := by
  constructor
  · unfold memName
    rw [List.length_take]
    omega
  · intro h0
    rcases List.mem_append.mp (List.mem_of_mem_take h0) with h0 | h0
    · revert h0
      decide
    · have := isDigit_of_mem_decimal h0
      revert this
      decide

/-! ### The request -/

/-- For every path and every segment, the worker looks up the path, finds an item that has it for
its key where the table has one, and opens the segment, just when the path is shorter than its
field or goes on behind it with the segment's name. -/
theorem request_carried_iff (stack mqMsg : Bytes) (segsize : ℕ) (hpath : 0 ∉ path)
    (hname : shmId.length < 10) (hnul : 0 ∉ shmId) :
    let msg := mqReceive mqMsg (requestData stack path shmId segsize)
    (msgPath msg = some path ∧ msgShmId msg = some shmId
      ∧ ∀ items sorted, Qsorted items sorted → ∀ item ∈ items, item.key = path →
        ∃ key n, msgPath msg = some key ∧ ∃ found ∈ items, found.key = path
          ∧ contentGet sorted key n = some (.returned found.fildes)) ↔
      path.length < maxRequestLen ∨ path.drop maxRequestLen = shmId := by
  intro msg
  have hmsg : msgPath msg = some path ↔
      path.length < maxRequestLen ∨ path.drop maxRequestLen = shmId := by
    rw [msgPath_eq stack mqMsg segsize hpath hname hnul, Option.some_inj]
    split_ifs with hlt
    · exact iff_of_true rfl (.inl hlt)
    · rw [or_iff_right hlt]
      conv_lhs => rhs; rw [← List.take_append_drop maxRequestLen path]
      rw [List.append_cancel_left_eq, eq_comm]
  rw [← hmsg]
  refine ⟨And.left, fun hcarried => ⟨hcarried, msgShmId_eq stack mqMsg path segsize hname hnul, ?_⟩⟩
  intro items sorted hsorted item hitem hkey
  obtain ⟨n, fd, hget, -, habsent, hfound⟩ := contentGet_spec hsorted path
  rw [cstr_eq_self hpath] at habsent hfound
  have hne : fd ≠ -1 := fun hfd => habsent.mp hfd item hitem hkey
  obtain ⟨found, hmem, hkey', rfl⟩ := hfound hne
  exact ⟨path, n, hcarried, found, hmem, hkey', hget⟩

theorem request_carried_iff_hi :
    let unset := List.replicate reqStructSize 0xff
    let msg := mqReceive unset (requestData unset (ascii "/hi") (memName 0) 5712)
    (msgPath msg = some (ascii "/hi") ∧ msgShmId msg = some (memName 0)
      ∧ ∀ items sorted, Qsorted items sorted → ∀ item ∈ items, item.key = ascii "/hi" →
        ∃ key n, msgPath msg = some key ∧ ∃ found ∈ items, found.key = ascii "/hi"
          ∧ contentGet sorted key n = some (.returned found.fildes)) ↔
      (ascii "/hi").length < maxRequestLen ∨ (ascii "/hi").drop maxRequestLen = memName 0 :=
  request_carried_iff _ _ 5712 (by decide) (memName_fits 0).1 (memName_fits 0).2

/-- A path of 128 bytes is looked up with the name of the segment at its end, and its key in the
table is not found. -/
theorem request_runs_on :
    let path : Bytes := List.replicate 128 0x61
    let unset := List.replicate reqStructSize 0xff
    let msg := mqReceive unset (requestData unset path (memName 0) 5712)
    msgPath msg = some (path ++ ascii "Shm_0") ∧ msgPath msg ≠ some path
      ∧ contentGet [⟨3, path⟩] (path ++ ascii "Shm_0") 1 = some (.returned (-1)) := by
  intro path unset msg
  have hlen : path.length = maxRequestLen := List.length_replicate
  have hnul : 0 ∉ path := by simp [path]
  have hname : memName 0 = ascii "Shm_0" := by decide
  have hmsg : msgPath msg = some (path ++ ascii "Shm_0") := by
    rw [msgPath_eq unset unset 5712 hnul (memName_fits 0).1 (memName_fits 0).2,
      if_neg hlen.ge.not_gt, List.take_of_length_le hlen.le, hname]
  refine ⟨hmsg, fun h => ?_, by decide⟩
  rw [hmsg, Option.some_inj, List.append_right_eq_self] at h
  revert h
  decide

end FileServices.Cache
