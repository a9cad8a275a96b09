import FileServices.SharedMemory
import FileServices.Proofs.ReqStruct

/-!
# Names that a segment keeps, and names that nobody removes

Each iteration of `initSharedMemory` makes a new object under the name of its index.  Up to 100000
of them the names differ (`segments_named_iff`), and what is made is what the model of the two
processes starts from; the next name is cut to that of an earlier segment, which loses it.  The
loop in `_sig_handler` counts up to the length of a queue that it shortens (`removed_iff`).
-/

namespace FileServices.Cache

open CString

/-! ### The names -/

theorem length_decimal_le {m : ℕ} (hm : m < 100000) : (decimal m).length ≤ 5 := by
  unfold decimal
  split_ifs with h0
  · simp
  · rw [List.length_map, List.length_reverse, Nat.digits_length_le_iff (by decide)]
    exact hm

/-- A name whose index has at most five digits is not cut. -/
theorem memName_of_lt {m : ℕ} (hm : m < 100000) : memName m = ascii "Shm_" ++ decimal m := by
  have hlen := length_decimal_le hm
  have hshm : (ascii "Shm_").length = 4 := by decide
  refine List.take_of_length_le ?_
  rw [List.length_append]
  omega

theorem memName_inj {m k : ℕ} (hm : m < 100000) (hk : k < 100000) (h : memName m = memName k) :
    m = k := by
  rw [memName_of_lt hm, memName_of_lt hk] at h
  rw [← decimalValue_decimal m, List.append_cancel_left h, decimalValue_decimal]

theorem memName_cut : memName 100000 = memName 10000 := by decide +kernel

theorem nodup_memName_iff {n : ℕ} : ((List.range n).map memName).Nodup ↔ n ≤ 100000 := by
  constructor
  · intro h
    by_contra hlt
    have h5 : 10000 ∈ List.range n := List.mem_range.mpr (by omega)
    have h6 : 100000 ∈ List.range n := List.mem_range.mpr (by omega)
    exact absurd (List.inj_on_of_nodup_map h h6 h5 memName_cut) (by decide)
  · intro hle
    refine List.Nodup.map_on (fun m hm k hk h => ?_) List.nodup_range
    exact memName_inj ((List.mem_range.mp hm).trans_le hle) ((List.mem_range.mp hk).trans_le hle) h

/-! ### An iteration -/

/-- A segment that `initSharedMemory` has filled in. -/
def ShmDetails.made (segsize : ℕ) (name : Bytes) : ShmDetails :=
  ⟨0, 0, 0, name, segsize, 0, 0, 0, List.replicate segsize 0⟩

variable {segsize nsegments m : ℕ} {s : SharedMemory} {t : Shm}

@[simp] theorem put_name (g : ℕ) (shm : ShmDetails) : (t.put g shm).name = t.name := rfl

@[simp] theorem put_next (g : ℕ) (shm : ShmDetails) : (t.put g shm).next = t.next := rfl

@[simp] theorem put_seg (g : ℕ) (shm : ShmDetails) :
    (t.put g shm).seg = Function.update t.seg g shm := rfl

/-- The name was just removed, so that the object is new. -/
theorem shmOpenCreat_unlinked (memName : Bytes) (t : Shm) :
    shmOpenCreat memName (shmUnlink memName t)
      = (t.next, (shmUnlink memName t).create memName) := by
  have hnone : (shmUnlink memName t).name memName = none := Function.update_self ..
  simp only [shmOpenCreat, hnone]
  rfl

theorem initSegment_name : (initSegment segsize s m).shm.name
    = Function.update s.shm.name (memName m) (some s.shm.next) := by
  simp only [initSegment, shmOpenCreat_unlinked, ftruncate, put_name]
  exact Function.update_idem ..

theorem initSegment_next : (initSegment segsize s m).shm.next = s.shm.next + 1 := by
  simp only [initSegment, shmOpenCreat_unlinked, ftruncate, put_next]
  rfl

theorem initSegment_seg : (initSegment segsize s m).shm.seg
    = Function.update s.shm.seg s.shm.next (.made segsize (memName m)) := by
  simp only [initSegment, shmOpenCreat_unlinked, ftruncate, put_seg, Shm.create,
    Function.update_self, Function.update_idem, cstr_eq_self (memName_fits m).2]
  simp [shmUnlink, ShmDetails.new, ShmDetails.made]

theorem initSegment_shmQueue :
    (initSegment segsize s m).shmQueue = s.shmQueue ++ [s.shm.next] := by
  simp only [initSegment, shmOpenCreat_unlinked, stequeEnqueue]

/-! ### The loop -/

/-- What `m` iterations leave: the object of each is in the queue and knows its name, a name opens
the last object made under it, and no name opens an object made under another. -/
structure Made (segsize : ℕ) (t : Shm) (m : ℕ) (s : SharedMemory) : Prop where
  next : s.shm.next = t.next + m
  shmQueue : s.shmQueue = (List.range m).map fun k => t.next + k
  seg : ∀ k < m, s.shm.seg (t.next + k) = .made segsize (memName k)
  name : ∀ k < m, (∀ j < m, memName j = memName k → j ≤ k) →
    s.shm.name (memName k) = some (t.next + k)
  name_of : ∀ b, ∀ k < m, s.shm.name b = some (t.next + k) → b = memName k

theorem Made.zero (segsize : ℕ) (t : Shm) : Made segsize t 0 ⟨t, []⟩ :=
  ⟨rfl, rfl, nofun, nofun, nofun⟩

theorem Made.step (h : Made segsize t m s) : Made segsize t (m + 1) (initSegment segsize s m) where
  next := by rw [initSegment_next, h.next, Nat.add_assoc]
  shmQueue := by
    rw [initSegment_shmQueue, h.shmQueue, h.next, List.range_succ, List.map_append,
      List.map_singleton]
  seg := fun k hk => by
    rw [initSegment_seg, h.next, Function.update_apply]
    rcases Nat.lt_succ_iff_lt_or_eq.mp hk with hlt | rfl
    · rw [if_neg (by omega), h.seg k hlt]
    · rw [if_pos rfl]
  name := fun k hk hlast => by
    rw [initSegment_name, h.next, Function.update_apply]
    rcases Nat.lt_succ_iff_lt_or_eq.mp hk with hlt | rfl
    · have hne : memName k ≠ memName m := fun heq =>
        absurd (hlast m (Nat.lt_succ_self m) heq.symm) (by omega)
      rw [if_neg hne]
      exact h.name k hlt fun j hj => hlast j (Nat.lt_succ_of_lt hj)
    · rw [if_pos rfl]
  name_of := fun b k hk hb => by
    rw [initSegment_name, h.next, Function.update_apply] at hb
    split_ifs at hb with heq
    · have : m = k := Nat.add_left_cancel (Option.some.inj hb)
      rw [heq, this]
    · rcases Nat.lt_succ_iff_lt_or_eq.mp hk with hlt | rfl
      · exact h.name_of b k hlt hb
      · have := s.shm.name_lt b _ hb
        rw [h.next] at this
        omega

theorem Made.opens (h : Made segsize t m s) (hle : m ≤ 100000) {g : ℕ} (hg : g ∈ s.shmQueue) :
    s.shm.name (s.shm.seg g).shmId = some g := by
  rw [h.shmQueue] at hg
  obtain ⟨k, hk, rfl⟩ := List.mem_map.mp hg
  have hlt := List.mem_range.mp hk
  rw [h.seg k hlt]
  exact h.name k hlt fun j hj heq => (memName_inj (hj.trans_le hle) (hlt.trans_le hle) heq).le

/-- The name of the next index is not that of a segment that is there. -/
theorem Made.kept (h : Made segsize t m s) (hlt : m < 100000) {g : ℕ} (hg : g ∈ s.shmQueue) :
    s.shm.name (memName m) ≠ some g := fun hname => by
  rw [h.shmQueue] at hg
  obtain ⟨k, hk, rfl⟩ := List.mem_map.mp hg
  have hkm := List.mem_range.mp hk
  have := memName_inj hlt (hkm.trans hlt) (h.name_of (memName m) k hkm hname)
  omega

theorem initSegments_made (segsize : ℕ) (t : Shm) :
    ∀ m, Made segsize t m (initSegments segsize t m)
  | 0 => .zero segsize t
  | m + 1 => by
    rw [initSegments, List.range_succ, List.foldl_append]
    exact (initSegments_made segsize t m).step

theorem initSegments_names (segsize : ℕ) (t : Shm) (m : ℕ) :
    ((initSegments segsize t m).shmQueue.map fun g => ((initSegments segsize t m).shm.seg g).shmId)
      = (List.range m).map memName := by
  have h := initSegments_made segsize t m
  rw [h.shmQueue, List.map_map]
  refine List.map_congr_left fun k hk => ?_
  rw [Function.comp_apply, h.seg k (List.mem_range.mp hk)]
  rfl

/-! ### `initSharedMemory` -/

theorem segments_eq (h : nsegments < 2 ^ 32) :
    segments nsegments = if nsegments < 2 ^ 31 then nsegments else 0 := by
  unfold segments
  rw [Int.bmod_def]
  split_ifs <;> omega

theorem initSharedMemory_made (nsegments segsize : ℕ) (t : Shm) :
    Made segsize t (segments nsegments) (initSharedMemory nsegments segsize t) :=
  initSegments_made segsize t (segments nsegments)

/-- The names of the queued segments differ, each segment is what its name opens, and no iteration
removes the name of a segment that is there. -/
structure SegmentsNamed (nsegments segsize : ℕ) (t : Shm) : Prop where
  distinct : ((initSharedMemory nsegments segsize t).shmQueue.map
    fun g => ((initSharedMemory nsegments segsize t).shm.seg g).shmId).Nodup
  opens : ∀ g ∈ (initSharedMemory nsegments segsize t).shmQueue,
    (initSharedMemory nsegments segsize t).shm.name
      ((initSharedMemory nsegments segsize t).shm.seg g).shmId = some g
  kept : ∀ m < segments nsegments, ∀ g ∈ (initSegments segsize t m).shmQueue,
    (initSegments segsize t m).shm.name (memName m) ≠ some g

theorem named_iff_segments : SegmentsNamed nsegments segsize t ↔ segments nsegments ≤ 100000 := by
  constructor
  · intro h
    have := h.distinct
    rwa [initSharedMemory, initSegments_names, nodup_memName_iff] at this
  · intro hle
    refine ⟨?_, fun g hg => ?_, fun m hm g hg hname => ?_⟩
    · rwa [initSharedMemory, initSegments_names, nodup_memName_iff]
    · exact (initSharedMemory_made nsegments segsize t).opens hle hg
    · exact (initSegments_made segsize t m).kept (hm.trans_le hle) hg hname

/-- Every count of segments that `webproxy` admits keeps the names apart, up to 100000; a count
that the `int` parameter makes negative leaves the queue empty. -/
theorem segments_named_iff (segsize : ℕ) (t : Shm) (hpos : 1 ≤ nsegments)
    (hlt : nsegments < 2 ^ 32) :
    SegmentsNamed nsegments segsize t ↔ nsegments ≤ 100000 ∨ 2 ^ 31 ≤ nsegments := by
  rw [named_iff_segments, segments_eq hlt]
  split_ifs <;> omega

theorem segments_named_iff_four : SegmentsNamed 4 5014 .empty ↔ 4 ≤ 100000 ∨ 2 ^ 31 ≤ 4 :=
  segments_named_iff 5014 _ (by decide) (by decide)

/-- The name of the segment with the index 100000 is cut to that of the one with 10000. -/
theorem segments_cut : ¬ SegmentsNamed 100001 5014 .empty := by
  rw [named_iff_segments, segments_eq (by decide)]
  decide

/-- What is left is what the model of the two processes starts from. -/
theorem initSharedMemory_init (c : Config) (t : Shm) (hcount : segments nsegments = c.nsegments)
    (hnames : ∀ g, c.names g = memName g) :
    (initSharedMemory nsegments c.segsize t).shmQueue
        = (State.init c).shmQueue.map (fun g => t.next + g.val)
      ∧ ∀ g : Fin c.nsegments, (initSharedMemory nsegments c.segsize t).shm.seg (t.next + g)
        = (State.init c).seg g := by
  have h := initSharedMemory_made nsegments c.segsize t
  constructor
  · rw [h.shmQueue, hcount, ← List.map_coe_finRange_eq_range, List.map_map]
    rfl
  · intro g
    rw [h.seg g (by rw [hcount]; exact g.isLt), ← hnames g]
    rfl

/-! ### Shutdown -/

/-- Every second segment is left over: the loop ends where its count meets what is left. -/
theorem unlinkSegments_eq (seg : ℕ → ShmDetails) : ∀ (z : ℕ) (queue : List ℕ),
    unlinkSegments seg z queue = ((queue.take ((queue.length - z + 1) / 2)).map
      (fun g => cstr (seg g).shmId), queue.drop ((queue.length - z + 1) / 2))
  | z, [] => by simp [unlinkSegments]
  | z, g :: queue => by
    rw [unlinkSegments]
    split_ifs with hz
    · have hhalf : ((g :: queue).length - z + 1) / 2 = (queue.length - (z + 1) + 1) / 2 + 1 := by
        rw [stequeSize, List.length_cons] at hz
        rw [List.length_cons]
        omega
      rw [unlinkSegments_eq seg (z + 1) queue, hhalf]
      simp
    · have hhalf : ((g :: queue).length - z + 1) / 2 = 0 := by
        rw [stequeSize] at hz
        omega
      rw [hhalf]
      simp

/-- The handler removes the name of each queued segment once and leaves the queue empty. -/
def Removed (signo : ℤ) (s : SharedMemory) : Prop :=
  (sigHandler signo s).1.Perm (s.shmQueue.map fun g => cstr (s.shm.seg g).shmId)
    ∧ (sigHandler signo s).2.shmQueue = []

theorem removed_iff_length {signo : ℤ} (hsig : signo = sigint ∨ signo = sigterm) :
    Removed signo s ↔ s.shmQueue.length ≤ 1 := by
  rw [Removed, sigHandler, if_pos hsig.symm, unlinkSegments_eq]
  simp only [stequeDestroy_eq, and_true, Nat.sub_zero]
  constructor
  · intro hperm
    have := hperm.length_eq
    rw [List.length_map, List.length_map, List.length_take] at this
    omega
  · intro hle
    rw [List.take_of_length_le (by omega)]

/-- Whatever is queued when the signal comes, half of the segments lose their names; so it is all
of them just when there is at most one. -/
theorem removed_iff (signo : ℤ) (s : SharedMemory) (hsig : signo = sigint ∨ signo = sigterm) :
    Removed signo s ↔ s.shmQueue.length ≤ 1 := removed_iff_length hsig

theorem removed_iff_one : Removed sigterm (initSharedMemory 1 5014 .empty) ↔
    (initSharedMemory 1 5014 .empty).shmQueue.length ≤ 1 :=
  removed_iff sigterm _ (.inr rfl)

/-- Four segments, all of them queued: two keep their names. -/
theorem removed_half : ¬ Removed sigint (initSharedMemory 4 5014 .empty) := by
  rw [removed_iff_length (.inl rfl), (initSharedMemory_made ..).shmQueue]
  decide

end FileServices.Cache
