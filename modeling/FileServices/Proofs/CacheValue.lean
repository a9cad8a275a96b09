import FileServices.Proofs.Handlers

/-!
# The value `handle_with_cache` returns

`processResponse` counts in a `size_t`, and its result goes through an `int` on the way out.  A
transfer of 2^31 bytes and more is all on the socket when the count turns into another number.
-/

namespace FileServices.Handlers

open Cache (gfOk size)

variable {o : CacheCalls} {n k : ℕ}

/-- The `n` parts that the segment has held are sent, and they are the whole file. -/
structure Completes (o : CacheCalls) (n : ℕ) : Prop where
  status : o.status = 200
  sent : ∀ k < n, 1 ≤ o.gfsSend k ∧ sum o.gfsSend k < o.filesize
  whole : o.filesize ≤ sum o.gfsSend n

/-- The calls of such a transfer. -/
def transferred (o : CacheCalls) (n : ℕ) : List Call :=
  .sendheader gfOk o.filesize :: (List.range n).map fun k => .send 0 (o.readLen k)

theorem Completes.sum_nonneg (h : Completes o n) (hk : k ≤ n) : 0 ≤ sum o.gfsSend k :=
  Finset.sum_nonneg fun j hj => by
    have := (h.sent j ((Finset.mem_range.mp hj).trans_le hk)).1
    omega

/-- The loop has made its calls, and counts what they sent. -/
theorem Completes.after (h : Completes o n) : ∀ {k : ℕ}, k ≤ n →
    Loop.after (sendHead o.filesize) responseBody ⟨[.sendheader gfOk o.filesize], 0⟩
        (fun k => (o.readLen k, o.gfsSend k)) k
      = some ⟨transferred o k, (sum o.gfsSend k).toNat⟩
  | 0, _ => rfl
  | k + 1, hk => by
    obtain ⟨hpos, hlt⟩ := h.sent k hk
    have hsum := h.sum_nonneg (Nat.le_of_succ_le hk)
    have hlen := o.filesize_lt
    have hsend := o.gfsSend_le k
    have hread := o.readLen_lt k
    have hsize : size (o.gfsSend k) = (o.gfsSend k).toNat := by
      simp only [size]
      omega
    have hhead : (sum o.gfsSend k).toNat < o.filesize := by omega
    refine Loop.after_succ.mpr ⟨_, h.after (Nat.le_of_succ_le hk), if_pos hhead, ?_⟩
    simp only [responseBody, sendBody, hsize]
    rw [if_neg (by omega), sum_succ, transferred, transferred, List.range_succ, List.map_append]
    congr 2
    omega

theorem Completes.stops (h : Completes o n) :
    Loop.Stops (sendHead o.filesize) responseBody ⟨[.sendheader gfOk o.filesize], 0⟩
      (fun k => (o.readLen k, o.gfsSend k)) ⟨transferred o n, (sum o.gfsSend n).toNat⟩ := by
  have hwhole := h.whole
  have hend : ¬ (sum o.gfsSend n).toNat < o.filesize := by omega
  exact Loop.stops_iff.mpr ⟨n, _, h.after le_rfl, .inl (if_neg hend)⟩

/-- A complete transfer is answered, whatever the value. -/
theorem Completes.answer (h : Completes o n) : ∃ m, handleWithCache o m
    = some ⟨transferred o n, (sum o.gfsSend n).bmod (2 ^ 32)⟩ := by
  obtain ⟨m, hm⟩ := h.stops
  have hsum := h.sum_nonneg le_rfl
  refine ⟨m, ?_⟩
  simp only [handleWithCache, processResponse, h.status, if_true, hm, Loop.Outcome.result,
    Option.map_some, Int.toNat_of_nonneg hsum]

/-- Every transfer that completes is answered with a value that is not negative and is the number
of bytes sent, just when these are fewer than 2^31. -/
theorem cache_value_iff (h : Completes o n) :
    (∃ m a, handleWithCache o m = some a ∧ a.calls = transferred o n
      ∧ 0 ≤ a.value ∧ a.value = sum o.gfsSend n) ↔ sum o.gfsSend n < 2 ^ 31 := by
  constructor
  · rintro ⟨m, a, ha, -, -, hvalue⟩
    obtain ⟨s, -, rfl⟩ := Option.map_eq_some_iff.mp ha
    rw [← hvalue]
    have hlt : (s.bytes : ℤ).bmod (2 ^ 32) < 2 ^ 31 := Int.bmod_lt (by norm_num)
    simpa using hlt
  · intro hlt
    obtain ⟨m, hm⟩ := h.answer
    have hsum := h.sum_nonneg le_rfl
    rw [Int.bmod_eq_of_le (by omega) (by omega)] at hm
    exact ⟨m, _, hm, rfl, hsum, rfl⟩

/-- Files that are sent in parts of 4096 bytes. -/
def inParts (filesize : ℕ) (hlt : filesize < 2 ^ 63) : CacheCalls where
  status := 200
  filesize := filesize
  headerLen := 0
  readLen _ := 4096
  gfsSend _ := 4096
  filesize_lt := hlt
  headerLen_lt := by norm_num
  readLen_lt _ := by norm_num
  gfsSend_le _ := by norm_num

theorem completes_inParts (n : ℕ) (hlt : n * 4096 < 2 ^ 63) :
    Completes (inParts (n * 4096) hlt) n := by
  have hsum : ∀ k, sum (inParts (n * 4096) hlt).gfsSend k = k * 4096 := fun k => by
    simp [sum, inParts]
  refine ⟨rfl, fun k hk => ⟨by simp [inParts], ?_⟩, ?_⟩
  · rw [hsum]
    simp only [inParts]
    push_cast
    omega
  · rw [hsum]
    simp [inParts]

theorem cache_value_iff_parts :
    let o := inParts (2 * 4096) (by norm_num)
    (∃ m a, handleWithCache o m = some a ∧ a.calls = transferred o 2
      ∧ 0 ≤ a.value ∧ a.value = sum o.gfsSend 2) ↔ sum o.gfsSend 2 < 2 ^ 31 :=
  cache_value_iff (completes_inParts 2 (by norm_num))

/-- A file of 2^31 bytes is sent whole, and answered with a failure. -/
theorem cache_value_wraps :
    let o := inParts (2 ^ 19 * 4096) (by norm_num)
    Completes o (2 ^ 19) ∧ ∃ m, handleWithCache o m = some ⟨transferred o (2 ^ 19), -2 ^ 31⟩ := by
  intro o
  have h : Completes o (2 ^ 19) := completes_inParts (2 ^ 19) (by norm_num)
  obtain ⟨m, hm⟩ := h.answer
  have hsum : sum o.gfsSend (2 ^ 19) = 2 ^ 31 := by
    simp [sum, o, inParts]
  refine ⟨h, m, ?_⟩
  rw [hm, hsum]
  rfl

end FileServices.Handlers
