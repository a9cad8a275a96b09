import FileServices.SendResponse
import FileServices.Proofs.CacheSession

/-!
# What a cache worker publishes

While no read fails, an iteration publishes what it has read and the counters are its sum.  A read
that fails is taken for `2 ^ 64 - 1` bytes, for the variable it goes into has no negative values
(`copyLoop_faithful_iff`).
-/

namespace FileServices.SendResponse

open CString
open Cache (size size_natCast)

variable {segsize filsize n : ℕ} {data given : Bytes} {s t : Copying} {reads : ℕ → Option Bytes}

/-! ### An iteration -/

/-- The state after an iteration that has read `given`. -/
def Copying.next (s : Copying) (given : Bytes) : Copying where
  bytesRead := (s.bytesRead + given.length) % 2 ^ 64
  offset := (s.offset + given.length) % 2 ^ 64
  buffer := given ++ s.buffer.drop given.length
  data := given ++ s.data.drop given.length
  parts := s.parts ++ [⟨given, given.length, given.length⟩]
  posted := s.posted ++ [given]

theorem copyBody_end (s : Copying) : copyBody segsize s (some []) = .stop ⟨.failed, s⟩ := by
  simp [copyBody, size]

/-- What was read is what is published. -/
theorem copyBody_read (s : Copying) (hne : given ≠ []) (hseg : given.length ≤ segsize)
    (hlt : given.length < 2 ^ 63) : copyBody segsize s (some given) = .more (s.next given) := by
  have hpos : 0 < given.length := List.length_pos_of_ne_nil hne
  have hsize : size given.length = given.length := size_natCast (by omega)
  simp only [copyBody, Option.getD_some, Option.elim_some, hsize, if_neg (Nat.not_le.mpr hpos),
    if_pos hseg, List.take_left, Copying.next]

/-- A read that fails is published as the largest `size_t`. -/
theorem copyBody_error (s : Copying) : (stateOf (copyBody segsize s none)).parts
    = s.parts ++ [⟨[], 2 ^ 64 - 1, 2 ^ 64 - 1⟩] := by
  have hsize : size (-1) = 2 ^ 64 - 1 := by decide
  simp only [copyBody, Option.getD_none, Option.elim_none, hsize]
  rw [if_neg (by decide)]
  split_ifs <;> rfl

/-! ### The loop -/

/-- The bytes that the first `n` reads have given. -/
def readSoFar (reads : ℕ → Option Bytes) (n : ℕ) : ℕ :=
  ∑ m ∈ Finset.range n, ((reads m).getD []).length

theorem readSoFar_succ (reads : ℕ → Option Bytes) (n : ℕ) :
    readSoFar reads (n + 1) = readSoFar reads n + ((reads n).getD []).length :=
  Finset.sum_range_succ _ n

theorem readSoFar_mono (reads : ℕ → Option Bytes) {m n : ℕ} (h : m ≤ n) :
    readSoFar reads m ≤ readSoFar reads n :=
  Finset.sum_le_sum_of_subset (Finset.range_mono h)

/-- What `pread` can return for a buffer of `segsize` bytes. -/
def Reads (segsize : ℕ) (reads : ℕ → Option Bytes) : Prop :=
  ∀ n given, reads n = some given → given.length ≤ segsize ∧ given.length < 2 ^ 63

/-- The loop is back at its head after `n` reads that gave something. -/
structure Running (reads : ℕ → Option Bytes) (n : ℕ) (t : Copying) : Prop where
  bytesRead : t.bytesRead = readSoFar reads n
  offset : t.offset = readSoFar reads n
  parts : t.parts = (List.range n).map fun m =>
    ⟨(reads m).getD [], ((reads m).getD []).length, ((reads m).getD []).length⟩
  some_of_lt : ∀ m < n, ∃ given, reads m = some given ∧ given ≠ []

theorem Running.start (reads : ℕ → Option Bytes) (segsize : ℕ) (data : Bytes) :
    Running reads 0 (.start segsize data) :=
  ⟨rfl, rfl, rfl, nofun⟩

theorem Running.next (h : Running reads n t) (hfil : filsize < 2 ^ 63)
    (hhead : t.bytesRead < filsize) (hread : reads n = some given) (hne : given ≠ [])
    (hlt : given.length < 2 ^ 63) : Running reads (n + 1) (t.next given) := by
  have hsum : readSoFar reads n + given.length < 2 ^ 64 := by
    have := h.bytesRead
    omega
  refine ⟨?_, ?_, ?_, fun m hm => ?_⟩
  · rw [Copying.next, h.bytesRead, readSoFar_succ, hread, Option.getD_some, Nat.mod_eq_of_lt hsum]
  · rw [Copying.next, h.offset, readSoFar_succ, hread, Option.getD_some, Nat.mod_eq_of_lt hsum]
  · rw [Copying.next, h.parts, List.range_succ, List.map_append, List.map_singleton, hread,
      Option.getD_some]
  · rcases Nat.lt_succ_iff_lt_or_eq.mp hm with hlt | rfl
    · exact h.some_of_lt m hlt
    · exact ⟨given, hread, hne⟩

/-- No read that the loop takes fails: one that does comes after a read at the end of the file, or
after as many bytes as the file is said to have. -/
def NoError (filsize : ℕ) (reads : ℕ → Option Bytes) : Prop :=
  ∀ n, reads n = none → (∃ m < n, reads m = some []) ∨ filsize ≤ readSoFar reads n

theorem Running.no_error (h : Running reads n t) (hhead : t.bytesRead < filsize)
    (hok : NoError filsize reads) : ∃ given, reads n = some given := by
  rw [← Option.ne_none_iff_exists']
  intro hnone
  rcases hok n hnone with ⟨m, hm, hend⟩ | hle
  · obtain ⟨given, hgiven, hne⟩ := h.some_of_lt m hm
    rw [hend] at hgiven
    exact hne (Option.some.inj hgiven).symm
  · rw [← h.bytesRead] at hle
    omega

section

variable (hreads : Reads segsize reads) (hfil : filsize < 2 ^ 63)
include hreads hfil

/-- The next read ends the loop with nothing changed, or an iteration publishes it. -/
theorem Running.turn (h : Running reads n t) (hok : NoError filsize reads) :
    (∃ r : Left, Loop.run (copyHead filsize) (copyBody segsize) t [reads n] = .stop r ∧ r.state = t)
      ∨ ∃ t', Running reads (n + 1) t' ∧ Loop.run (copyHead filsize) (copyBody segsize) t [reads n]
        = Loop.run (copyHead filsize) (copyBody segsize) t' [] := by
  by_cases hhead : t.bytesRead < filsize
  · have hnone : copyHead filsize t = none := if_pos hhead
    obtain ⟨given, hread⟩ := h.no_error hhead hok
    rw [hread]
    by_cases hne : given = []
    · subst hne
      exact .inl ⟨_, Loop.run_cons_stop hnone (copyBody_end t) [], rfl⟩
    · obtain ⟨hseg, hlt⟩ := hreads n given hread
      exact .inr ⟨_, h.next hfil hhead hread hne hlt,
        Loop.run_cons_more hnone (copyBody_read t hne hseg hlt) []⟩
  · have hsome : copyHead filsize t = some ⟨.finished, t⟩ := if_neg hhead
    exact .inl ⟨_, Loop.run_of_head hsome _, rfl⟩

/-- Where the loop is after `n` results, while no read fails: at its head, or out of it. -/
theorem copyLoop_states (data : Bytes) (hok : NoError filsize reads) : ∀ n,
    (∃ t, Running reads n t ∧ Loop.run (copyHead filsize) (copyBody segsize) (.start segsize data)
        ((List.range n).map reads) = Loop.run (copyHead filsize) (copyBody segsize) t [])
      ∨ ∃ m, ∃ r : Left, Running reads m r.state ∧ Loop.run (copyHead filsize) (copyBody segsize)
        (.start segsize data) ((List.range n).map reads) = .stop r
  | 0 => .inl ⟨_, .start reads segsize data, rfl⟩
  | n + 1 => by
    rw [List.range_succ, List.map_append, List.map_singleton]
    rcases copyLoop_states data hok n with ⟨t, ht, hrun⟩ | ⟨m, r, hr, hrun⟩
    · rw [Loop.run_append_of_eq hrun]
      rcases ht.turn hreads hfil hok with ⟨r, hstop, rfl⟩ | ⟨t', ht', hmore⟩
      · exact .inr ⟨n, r, ht, hstop⟩
      · exact .inl ⟨t', ht', hmore⟩
    · exact .inr ⟨m, r, hr, Loop.run_stop_append hrun _⟩

end

theorem stateOf_run_nil (t : Copying) :
    stateOf (Loop.run (copyHead filsize) (copyBody segsize) t []) = t := by
  by_cases hhead : t.bytesRead < filsize
  · have hnone : copyHead filsize t = none := if_pos hhead
    rw [Loop.run_nil hnone, stateOf]
  · have hsome : copyHead filsize t = some ⟨.finished, t⟩ := if_neg hhead
    rw [Loop.run_of_head hsome, stateOf]

/-! ### What is published -/

/-- What is published is what was read, it fits the segment, and so do the copies; the counters do
not exceed what was read. -/
structure Within (segsize : ℕ) (s : Copying) : Prop where
  readLen : ∀ p ∈ s.parts, p.readLen ≤ segsize ∧ p.readLen = p.given.length
  copied : ∀ p ∈ s.parts, p.copied ≤ segsize
  bytesRead : s.bytesRead ≤ (s.parts.map fun p => p.given.length).sum
  offset : s.offset ≤ (s.parts.map fun p => p.given.length).sum

/-- At every time, and the counters never decrease. -/
structure Faithful (segsize filsize : ℕ) (data : Bytes) (reads : ℕ → Option Bytes) : Prop where
  within : ∀ n, Within segsize (copyLoop segsize filsize data reads n)
  bytesRead_mono : ∀ n, (copyLoop segsize filsize data reads n).bytesRead
    ≤ (copyLoop segsize filsize data reads (n + 1)).bytesRead
  offset_mono : ∀ n, (copyLoop segsize filsize data reads n).offset
    ≤ (copyLoop segsize filsize data reads (n + 1)).offset

theorem Running.within (h : Running reads n t) (hreads : Reads segsize reads) :
    Within segsize t := by
  have hpart : ∀ p ∈ t.parts, p.readLen ≤ segsize ∧ p.readLen = p.given.length
      ∧ p.copied ≤ segsize := by
    intro p hp
    rw [h.parts] at hp
    obtain ⟨m, hm, rfl⟩ := List.mem_map.mp hp
    obtain ⟨given, hgiven, -⟩ := h.some_of_lt m (List.mem_range.mp hm)
    rw [hgiven]
    exact ⟨(hreads m given hgiven).1, rfl, (hreads m given hgiven).1⟩
  have hsum : (t.parts.map fun p => p.given.length).sum = readSoFar reads n := by
    rw [h.parts, List.map_map, readSoFar, ← List.sum_toFinset _ List.nodup_range,
      List.toFinset_range]
    rfl
  refine ⟨fun p hp => ⟨(hpart p hp).1, (hpart p hp).2.1⟩, fun p hp => (hpart p hp).2.2, ?_, ?_⟩
  · rw [h.bytesRead, hsum]
  · rw [h.offset, hsum]

theorem faithful_of_noError (data : Bytes) (hreads : Reads segsize reads) (hfil : filsize < 2 ^ 63)
    (hok : NoError filsize reads) : Faithful segsize filsize data reads := by
  have hstep : ∀ n, Within segsize (copyLoop segsize filsize data reads n)
      ∧ (copyLoop segsize filsize data reads n).bytesRead
        ≤ (copyLoop segsize filsize data reads (n + 1)).bytesRead
      ∧ (copyLoop segsize filsize data reads n).offset
        ≤ (copyLoop segsize filsize data reads (n + 1)).offset := by
    intro n
    unfold copyLoop
    rw [List.range_succ, List.map_append, List.map_singleton]
    rcases copyLoop_states hreads hfil data hok n with ⟨t, ht, hrun⟩ | ⟨m, r, hr, hrun⟩
    · rw [Loop.run_append_of_eq hrun, hrun, stateOf_run_nil]
      refine ⟨ht.within hreads, ?_⟩
      rcases ht.turn hreads hfil hok with ⟨r, hstop, rfl⟩ | ⟨t', ht', hmore⟩
      · rw [hstop]
        exact ⟨le_rfl, le_rfl⟩
      · rw [hmore, stateOf_run_nil, ht.bytesRead, ht'.bytesRead, ht.offset, ht'.offset]
        exact ⟨readSoFar_mono reads n.le_succ, readSoFar_mono reads n.le_succ⟩
    · rw [Loop.run_stop_append hrun, hrun]
      exact ⟨hr.within hreads, le_rfl, le_rfl⟩
  exact ⟨fun n => (hstep n).1, fun n => (hstep n).2.1, fun n => (hstep n).2.2⟩

/-- The loop comes to its head after reads that all gave something before the end of the file. -/
theorem running_of_reads (data : Bytes) (hreads : Reads segsize reads) (hfil : filsize < 2 ^ 63) :
    ∀ n, (∀ m < n, ∃ given, reads m = some given ∧ given ≠ []) →
      (∀ m < n, readSoFar reads m < filsize) →
      ∃ t, Running reads n t ∧ Loop.run (copyHead filsize) (copyBody segsize) (.start segsize data)
        ((List.range n).map reads) = Loop.run (copyHead filsize) (copyBody segsize) t []
  | 0, _, _ => ⟨_, .start reads segsize data, rfl⟩
  | n + 1, hgive, hmore => by
    obtain ⟨t, ht, hrun⟩ := running_of_reads data hreads hfil n
      (fun m hm => hgive m (Nat.lt_succ_of_lt hm)) fun m hm => hmore m (Nat.lt_succ_of_lt hm)
    obtain ⟨given, hread, hne⟩ := hgive n (Nat.lt_succ_self n)
    obtain ⟨hseg, hlt⟩ := hreads n given hread
    have hhead : t.bytesRead < filsize := ht.bytesRead ▸ hmore n (Nat.lt_succ_self n)
    have hnone : copyHead filsize t = none := if_pos hhead
    refine ⟨_, ht.next hfil hhead hread hne hlt, ?_⟩
    rw [List.range_succ, List.map_append, List.map_singleton, Loop.run_append_of_eq hrun, hread]
    exact Loop.run_cons_more hnone (copyBody_read t hne hseg hlt) []

/-- A read that fails in the loop is published. -/
theorem noError_of_faithful (hreads : Reads segsize reads) (hfil : filsize < 2 ^ 63)
    (h : Faithful segsize filsize data reads) : NoError filsize reads := by
  intro n
  induction n using Nat.strong_induction_on with
  | h n ih =>
    intro hnone
    by_contra hbad
    rw [not_or, not_exists, not_le] at hbad
    obtain ⟨hend, hlt⟩ := hbad
    have hmore : ∀ m < n, readSoFar reads m < filsize := fun m hm =>
      (readSoFar_mono reads hm.le).trans_lt hlt
    have hgive : ∀ m < n, ∃ given, reads m = some given ∧ given ≠ [] := by
      intro m hm
      rcases hread : reads m with _ | given
      · rcases ih m hm hread with ⟨k, hk, hk0⟩ | hle
        · exact absurd ⟨hk.trans hm, hk0⟩ (hend k)
        · exact absurd (hmore m hm) (Nat.not_lt.mpr hle)
      · refine ⟨given, rfl, ?_⟩
        rintro rfl
        exact hend m ⟨hm, hread⟩
    obtain ⟨t, ht, hrun⟩ := running_of_reads data hreads hfil n hgive hmore
    have hhead : copyHead filsize t = none := if_pos (ht.bytesRead ▸ hlt)
    have hparts : (copyLoop segsize filsize data reads (n + 1)).parts
        = t.parts ++ [⟨[], 2 ^ 64 - 1, 2 ^ 64 - 1⟩] := by
      unfold copyLoop
      rw [List.range_succ, List.map_append, List.map_singleton, Loop.run_append_of_eq hrun, hnone,
        ← copyBody_error t, Loop.run]
      simp only [hhead]
      rcases copyBody segsize t none with t' | r
      · exact congrArg Copying.parts (stateOf_run_nil t')
      · rfl
    have hlast := ((h.within (n + 1)).readLen ⟨[], 2 ^ 64 - 1, 2 ^ 64 - 1⟩ (by
      rw [hparts]
      simp)).2
    exact absurd hlast (by decide)

/-- For every segment, file and sequence of results of `pread`, what is published is what was read
and stays inside the segment just when no read fails that the loop takes. -/
theorem copyLoop_faithful_iff (data : Bytes) (hreads : Reads segsize reads)
    (hfil : filsize < 2 ^ 63) :
    Faithful segsize filsize data reads ↔
      ∀ n, reads n = none → (∃ m < n, reads m = some []) ∨ filsize ≤ readSoFar reads n :=
  ⟨noError_of_faithful hreads hfil, faithful_of_noError data hreads hfil⟩

theorem copyLoop_faithful_iff_one : Faithful 128 1 [] (fun _ => some [65]) ↔
    ∀ n, (some [65] : Option Bytes) = none →
      (∃ m < n, (some [65] : Option Bytes) = some []) ∨ 1 ≤ readSoFar (fun _ => some [65]) n :=
  copyLoop_faithful_iff [] (fun _ _ h => Option.some.inj h ▸ (by decide)) (by decide)

/-- The first read fails: `read_len` becomes `2 ^ 64 - 1`, and so long a copy follows. -/
theorem copyLoop_error : ¬ Faithful 128 1 [] fun _ => none := by
  intro h
  have := noError_of_faithful (fun _ _ h => absurd h (by simp)) (by decide) h 0 rfl
  simp [readSoFar] at this

/-! ### The worker of the system -/

section Worker

variable {c : Cache.Config} {j : Fin c.nworkers} {ret : ℤ} {w w₁ : Cache.State c} {request : ℕ}
  {job : Cache.Copy c.nsegments}

/-- What `pread` puts into the buffer when it returns `ret`. -/
def readOf (job : Cache.Copy c.nsegments) (ret : ℤ) : Option Bytes :=
  if ret = -1 then none else some (((c.file job.fildes).drop job.offset).take ret.toNat)

/-- The variables of a worker's loop, and the data of its segment. -/
def copyingOf (w : Cache.State c) (job : Cache.Copy c.nsegments) : Copying :=
  ⟨job.bytesRead, job.offset, job.buffer, (w.seg job.shm).data, [], []⟩

theorem size_readOf (hret : -1 ≤ ret)
    (hle : ret ≤ min job.segsize ((c.file job.fildes).drop job.offset).length) :
    size ((readOf job ret).elim (-1) fun data => data.length) = size ret
      ∧ ((readOf job ret).getD []).length = ret.toNat
      ∧ (readOf job ret).getD [] = ((c.file job.fildes).drop job.offset).take ret.toNat := by
  unfold readOf
  split_ifs with h
  · subst h
    exact ⟨rfl, rfl, by simp⟩
  · have hlen : (((c.file job.fildes).drop job.offset).take ret.toNat).length = ret.toNat := by
      rw [List.length_take]
      omega
    refine ⟨?_, by rw [Option.getD_some, hlen], rfl⟩
    rw [Option.elim_some, hlen, Int.toNat_of_nonneg (by omega)]

theorem sendResponse_copy {pc : Cache.CopyPc} (ret : ℤ) (hpc : w.worker j = .copy request job pc) :
    Cache.sendResponse j ret w = Cache.copyFile j ret request job w pc := by
  simp only [Cache.sendResponse, hpc]

theorem sendResponse_readLen (hpc : w.worker j = .copy request job (.readLen n)) :
    ∃ w', Cache.sendResponse j 0 w = some w' ∧ w'.worker j = .copy request job (.data n)
      ∧ w'.seg job.shm = { w.seg job.shm with readLen := n } :=
  ⟨_, sendResponse_copy 0 hpc, Function.update_self .., Function.update_self ..⟩

theorem sendResponse_data (hpc : w.worker j = .copy request job (.data n))
    (hle : n ≤ job.segsize) :
    ∃ w', Cache.sendResponse j 0 w = some w' ∧ w'.worker j = .copy request job (.postProxysem n)
      ∧ w'.seg job.shm = { w.seg job.shm with
        data := job.buffer.take n ++ (w.seg job.shm).data.drop n } := by
  rw [sendResponse_copy 0 hpc, Cache.copyFile, if_pos hle]
  exact ⟨_, rfl, Function.update_self .., Function.update_self ..⟩

theorem sendResponse_outside (hpc : w.worker j = .copy request job (.data n))
    (hlt : ¬ n ≤ job.segsize) :
    ∃ w', Cache.sendResponse j 0 w = some w' ∧ w'.crashed = true := by
  rw [sendResponse_copy 0 hpc, Cache.copyFile, if_neg hlt]
  exact ⟨_, rfl, rfl⟩

theorem sendResponse_postProxysem (hpc : w.worker j = .copy request job (.postProxysem n)) :
    ∃ w', Cache.sendResponse j 0 w = some w' ∧ w'.worker j = .copy request { job with
        bytesRead := (job.bytesRead + n) % 2 ^ 64, offset := (job.offset + n) % 2 ^ 64 } .loop
      ∧ w'.seg job.shm = { w.seg job.shm with proxysem := (w.seg job.shm).proxysem + 1 } :=
  ⟨_, sendResponse_copy 0 hpc, Function.update_self .., Function.update_self ..⟩

/-- A worker of the system that reads takes an iteration of the loop. -/
theorem sendResponse_turn (hpc : w.worker j = .copy request job .pread)
    (hread : Cache.sendResponse j ret w = some w₁) :
    match copyBody job.segsize (copyingOf w job) (readOf job ret) with
    | .stop ⟨.failed, _⟩ => w₁.worker j = .receive
    | .stop _ => ∃ w₂ w₃, Cache.sendResponse j 0 w₁ = some w₂ ∧ Cache.sendResponse j 0 w₂ = some w₃
      ∧ w₃.crashed = true
    | .more t => ∃ w₂ w₃ w₄, Cache.sendResponse j 0 w₁ = some w₂
      ∧ Cache.sendResponse j 0 w₂ = some w₃ ∧ Cache.sendResponse j 0 w₃ = some w₄
      ∧ w₄.worker j = .copy request
        { job with bytesRead := t.bytesRead, offset := t.offset, buffer := t.buffer } .loop
      ∧ (w₄.seg job.shm).data = t.data ∧ (w₄.seg job.shm).readLen = size ret
      ∧ (w₄.seg job.shm).proxysem = (w.seg job.shm).proxysem + 1 := by
  rw [sendResponse_copy ret hpc, Cache.copyFile] at hread
  split_ifs at hread with hret hzero
  · obtain rfl := Option.some.inj hread
    obtain ⟨hsize, -, -⟩ := size_readOf hret.1 hret.2
    simp only [copyBody, hsize, if_pos hzero]
    exact Function.update_self ..
  · obtain ⟨hsize, hlen, hgiven⟩ := size_readOf hret.1 hret.2
    have hpc₁ : w₁.worker j = .copy request
        { job with buffer := (readOf job ret).getD [] ++ job.buffer.drop ret.toNat }
        (.readLen (size ret)) := by
      rw [← Option.some.inj hread, hgiven]
      exact Function.update_self ..
    have hseg₁ : w₁.seg = w.seg := by
      rw [← Option.some.inj hread]
      rfl
    obtain ⟨w₂, h₂, hpc₂, hseg₂⟩ := sendResponse_readLen hpc₁
    simp only [copyBody, hsize, if_neg hzero, hlen]
    split_ifs with hle
    · obtain ⟨w₃, h₃, hpc₃, hseg₃⟩ := sendResponse_data hpc₂ hle
      obtain ⟨w₄, h₄, hpc₄, hseg₄⟩ := sendResponse_postProxysem hpc₃
      refine ⟨w₂, w₃, w₄, h₂, h₃, h₄, hpc₄, ?_⟩
      rw [hseg₄, hseg₃, hseg₂, hseg₁]
      exact ⟨rfl, rfl, rfl⟩
    · obtain ⟨w₃, h₃, hcrash⟩ := sendResponse_outside hpc₂ hle
      exact ⟨w₂, w₃, h₂, h₃, hcrash⟩

end Worker

end FileServices.SendResponse
