import FileServices.Proofs.Buffered
import FileServices.Proofs.Download
import FileServices.Proofs.Downloader
import FileServices.Proofs.LocalPath
import FileServices.Saving

/-!
# When two downloads save to one file

Two requests have one file only where they have taken the same number, which two workers do where
neither has stored the counter when the other one loads it.  A request that has its file to itself
leaves its answer in it, as long as the worker finds what its own `gfc_perform` has returned.
-/

namespace FileServices.Saving

open CString Downloader
open Buffered (File onlyAt_flush read_flush)

variable {c : Config} {s s' : State c} {k : Fin c.nthreads} {r : ℕ}

/-! ### The names -/

/-- The number is there in the name of a file. -/
theorem number_of_localFile {p q : Bytes} {i j : ℕ} (h : localFile p i = localFile q j) : i = j :=
  LocalPath.number_of_resolve (by decide) (by decide) h

theorem notMem_suffix {b : UInt8} (hdash : b ≠ 45) (hdigit : isDigit b = false) (n : ℕ) :
    b ∉ suffix n := by
  intro h
  rcases List.mem_append.mp h with h | h
  · exact hdash (List.mem_singleton.mp h)
  · rw [LocalPath.isDigit_of_mem_suffix h] at hdigit
    cases hdigit

theorem localPath_string (c : Config) (r n : ℕ) :
    localPath (c.path r) n ≠ [] ∧ 0 ∉ localPath (c.path r) n := by
  unfold localPath
  refine ⟨by simp [suffix, ascii], fun h => ?_⟩
  rcases List.mem_append.mp h with h | h
  · exact c.path_string r (List.mem_of_mem_tail h)
  · exact notMem_suffix (by decide) (by decide) n h

/-! ### Who has a request -/

/-- A step of the pool that is not the whole of a download. -/
theorem pool_step {n m : ℕ} {p p' : Pool m} {e : Downloader.Event m}
    (h : Downloader.step n e p = some p') (hperf : performs p e = false) :
    p'.performed = p.performed
      ∧ ∀ k r, ((p.worker k).pc = .perform r → (p'.worker k).pc = .perform r)
        ∧ ((p'.worker k).pc = .perform r →
          (p.worker k).pc = .perform r ∨ (p.worker k).pc = .signal r) := by
  unfold Downloader.step at h
  split_ifs at h with hunder
  rcases e with ⟨_ | j, w⟩ | t
  · obtain ⟨pc, -, hstep⟩ := main_cases h
    cases hstep <;> exact ⟨rfl, fun _ _ => ⟨id, .inl⟩⟩
  · obtain ⟨pc, hpc, hstep⟩ := threadHandleReq_cases h
    have hj : ∀ r, pc ≠ .perform r := by
      rintro r rfl
      simp [performs, hpc] at hperf
    have hworker : ∀ {x : Worker}, p'.worker = Function.update p.worker j x →
        (∀ r, x.pc = .perform r → pc = .signal r) → ∀ k r,
        ((p.worker k).pc = .perform r → (p'.worker k).pc = .perform r)
          ∧ ((p'.worker k).pc = .perform r →
            (p.worker k).pc = .perform r ∨ (p.worker k).pc = .signal r) := by
      intro x hx hfrom k r
      rw [hx]
      by_cases hk : k = j
      · subst hk
        rw [Function.update_self]
        exact ⟨fun h => absurd (hpc.symm.trans h) (hj r), fun h => .inr (hpc.trans (hfrom r h))⟩
      · rw [Function.update_of_ne hk]
        exact ⟨id, .inl⟩
    cases hstep with
    | perform req => exact absurd rfl (hj req)
    | underflow => exact ⟨rfl, fun _ _ => ⟨id, .inl⟩⟩
    | signal req hm =>
      refine ⟨rfl, hworker rfl fun r hr => ?_⟩
      rw [WorkerPc.perform.inj hr]
    | _ => exact ⟨rfl, hworker rfl (by simp)⟩
  · obtain ⟨monitor, -, rfl⟩ := Option.map_eq_some_iff.mp h
    exact ⟨rfl, fun _ _ => ⟨id, .inl⟩⟩

/-- A request that a worker has in its hands is one of those to be made, no other worker has it,
and it is not performed. -/
theorem hand_alone {n m : ℕ} {p : Pool m} (hi : Tally n p) {k : Fin m}
    (h : (p.worker k).pc.hand = some r) :
    r < n ∧ (∀ j, (p.worker j).pc.hand = some r → j = k) ∧ r ∉ p.performed.map Prod.fst := by
  have hplaces := hi.places r
  have hle := Total.le_total (Worker.holds r) p.worker k
  have hone : Worker.holds r (p.worker k) = 1 := if_pos h
  have hrange := hi.range.le
  unfold Pool.places at hplaces
  refine ⟨?_, fun j hj => ?_, fun hmem => ?_⟩
  · split_ifs at hplaces with hlt <;> omega
  · have htotal : Total.total (Worker.holds r) p.worker = 1 := by
      split_ifs at hplaces <;> omega
    exact ((Total.total_ite_eq_one fun x : Worker => x.pc.hand = some r).mp htotal).unique hj h
  · have hcount := List.count_pos_iff.mpr hmem
    split_ifs at hplaces <;> omega

theorem performed_lt {n m : ℕ} {p : Pool m} (hi : Tally n p)
    (h : r ∈ p.performed.map Prod.fst) : r < n := by
  have hplaces := hi.places r
  have hcount := List.count_pos_iff.mpr h
  have hrange := hi.range.le
  unfold Pool.places at hplaces
  split_ifs at hplaces <;> omega

/-! ### Where the downloads are -/

/-- No two requests have one file. -/
def State.Apart (s : State c) : Prop :=
  ∀ r r' n n', (r, n) ∈ s.taken → (r', n') ∈ s.taken →
    localFile (c.path r) n = localFile (c.path r') n' → r = r'

/-- What a worker has found or is to find in the shared variable is below zero just where its own
`gfc_perform` has returned that. -/
def State.Coded (s : State c) : Prop := ∀ k r, (s.pool.worker k).pc = .perform r →
  ∀ name file, s.saver k = .test name file → (s.returncode < 0 ↔ (c.answer r).returncode < 0)

/-- The file that the worker has open. -/
def SaverPc.handle : SaverPc → Option (Bytes × File)
  | .perform name file _ | .test name file | .fclose name file _ => some (name, file)
  | _ => none

/-- The number that the worker's request has taken, with the name made up from it. -/
def SaverPc.Numbered (c : Config) (taken : List (ℕ × ℕ)) (r : ℕ) : SaverPc → Prop
  | .load => ∀ n, (r, n) ∉ taken
  | .store n => (r, n) ∈ taken
  | .openFile name | .perform name _ _ | .test name _ | .fclose name _ _ | .unlink name
  | .status name => ∃ n, (r, n) ∈ taken ∧ name = localPath (c.path r) n

/-- The file has the content but for what is pending and what is to come. -/
def Partly (content : Bytes) (d : Disk (Path.Place Bytes) UInt8) (name : Bytes) (file : File)
    (chunks : List Bytes) : Prop :=
  d.dir (Path.resolve name) = some file.ino ∧ ∃ written, d.read (Path.resolve name) = some written
    ∧ written.length = file.pos ∧ written ++ file.pending ++ chunks.flatten = content

/-- What the worker has of its answer on the disk, where nobody else has its file. -/
def SaverPc.Holds (a : Answer) (d : Disk (Path.Place Bytes) UInt8) : SaverPc → Prop
  | .perform name file chunks => Partly a.chunks.flatten d name file chunks
  | .test name file => Partly a.chunks.flatten d name file []
  | .fclose name file failed =>
    Partly a.chunks.flatten d name file [] ∧ (failed = true ↔ a.returncode < 0)
  | .unlink _ => a.returncode < 0
  | .status name =>
    d.read (Path.resolve name) = if a.returncode < 0 then none else some a.chunks.flatten
  | _ => True

structure Filed (s : State c) : Prop where
  pool : Downloader.Reachable c.nrequests s.pool
  idle : ∀ k, (∀ r, (s.pool.worker k).pc ≠ .perform r) → s.saver k = .load
  numbered : ∀ k r, (s.pool.worker k).pc = .perform r → (s.saver k).Numbered c s.taken r
  taken : ∀ r n, (r, n) ∈ s.taken → (∃ k, (s.pool.worker k).pc = .perform r ∧ s.saver k ≠ .load)
    ∨ r ∈ s.pool.performed.map Prod.fst
  done : ∀ r ∈ s.pool.performed.map Prod.fst, ∃ n, (r, n) ∈ s.taken
  nodup : (s.taken.map Prod.fst).Nodup
  counter : s.counter ≤ s.taken.length
  numbers : ∀ r n, (r, n) ∈ s.taken → n < s.taken.length
  handle : ∀ k name file, (s.saver k).handle = some (name, file) → file.ino < s.disk.fresh
    ∧ ∀ other, s.disk.dir other = some file.ino → other = Path.resolve name
  untouched : ∀ place, (∀ r n, (r, n) ∈ s.taken → localFile (c.path r) n ≠ place) →
    s.disk.read place = c.disk.read place
  holds : s.Apart → ∀ k r, (s.pool.worker k).pc = .perform r →
    (s.saver k).Holds (c.answer r) s.disk
  settled : s.Apart → ∀ r n, (r, n) ∈ s.taken → r ∈ s.pool.performed.map Prod.fst →
    s.disk.read (localFile (c.path r) n) = c.result r

theorem filed_init (c : Config) : Filed (State.init c) where
  pool := .refl
  idle := fun _ _ => rfl
  numbered := fun k r h => by cases h
  taken := by simp [State.init]
  done := by simp [State.init, Pool.init]
  nodup := List.nodup_nil
  counter := Nat.zero_le _
  numbers := by simp [State.init]
  handle := by simp [State.init, SaverPc.handle]
  untouched := fun _ _ => rfl
  holds := fun _ k r h => by cases h
  settled := by simp [State.init]

theorem Filed.tally (hi : Filed s) : Tally c.nrequests s.pool :=
  (hi.pool.sound c.nthreads_pos).tally

/-- The file of another request than `r` is another file. -/
theorem State.Apart.file_ne (h : s.Apart) {r' n n' : ℕ} (hr : (r, n) ∈ s.taken)
    (hr' : (r', n') ∈ s.taken) (hne : r' ≠ r) :
    localFile (c.path r') n' ≠ localFile (c.path r) n := fun heq =>
  hne (h r' r n' n hr' hr heq)

theorem Partly.onlyAt {content name : Bytes} {d d' : Disk (Path.Place Bytes) UInt8} {file : File}
    {chunks : List Bytes} {place : Path.Place Bytes} (h : Partly content d name file chunks)
    (hdisk : d.OnlyAt place d') (hne : Path.resolve name ≠ place) :
    Partly content d' name file chunks := by
  obtain ⟨hdir, written, hread, hrest⟩ := h
  exact ⟨(hdisk.dir _ hne).trans hdir, written, (hdisk.read _ hne).trans hread, hrest⟩

/-- What the system takes of a file is there in the end. -/
theorem Partly.flush {content name : Bytes} {d : Disk (Path.Place Bytes) UInt8} {file : File}
    {chunks : List Bytes} (h : Partly content d name file chunks) (n : ℕ) :
    Partly content (file.flush n d).2 name (file.flush n d).1 chunks := by
  obtain ⟨hdir, written, hread, hpos, hall⟩ := h
  refine ⟨hdir, _, read_flush n hdir hread hpos, ?_, ?_⟩
  · rw [List.length_append, hpos]
    rfl
  · rw [← hall]
    simp [File.flush]

theorem Partly.read_fclose {content name : Bytes} {d : Disk (Path.Place Bytes) UInt8} {file : File}
    (h : Partly content d name file []) :
    (file.flush file.pending.length d).2.read (Path.resolve name) = some content := by
  obtain ⟨hdir, written, hread, hpos, hall⟩ := h
  rw [read_flush _ hdir hread hpos, List.take_length, ← hall, List.flatten_nil, List.append_nil]

/-- A change to a file of which the worker has no part. -/
theorem SaverPc.Holds.onlyAt {pc : SaverPc} {a : Answer} {d d' : Disk (Path.Place Bytes) UInt8}
    {place : Path.Place Bytes} {taken : List (ℕ × ℕ)} (h : pc.Holds a d)
    (hdisk : d.OnlyAt place d') (hnumbered : pc.Numbered c taken r)
    (hne : ∀ n, (r, n) ∈ taken → localFile (c.path r) n ≠ place) : pc.Holds a d' := by
  cases pc with
  | perform own file chunks =>
    obtain ⟨n, hmem, rfl⟩ := hnumbered
    exact Partly.onlyAt h hdisk (hne n hmem)
  | test own file =>
    obtain ⟨n, hmem, rfl⟩ := hnumbered
    exact Partly.onlyAt h hdisk (hne n hmem)
  | fclose own file failed =>
    obtain ⟨n, hmem, rfl⟩ := hnumbered
    exact ⟨h.1.onlyAt hdisk (hne n hmem), h.2⟩
  | status own =>
    obtain ⟨n, hmem, rfl⟩ := hnumbered
    exact (hdisk.read _ (hne n hmem)).trans h
  | unlink own => exact h
  | load | store | openFile => trivial

/-- A worker that has taken a number takes a step, which changes nothing on the disk but under
the name that comes of it. -/
theorem Filed.move (hi : Filed s) {pc : SaverPc} {n : ℕ}
    (hpc : (s.pool.worker k).pc = .perform r) (hmem : (r, n) ∈ s.taken)
    (hpool : s'.pool = s.pool) (htaken : s'.taken = s.taken)
    (hcounter : s'.counter ≤ s.taken.length)
    (hsaver : s'.saver = Function.update s.saver k pc)
    (hdisk : s.disk.OnlyAt (localFile (c.path r) n) s'.disk)
    (hnumbered : pc.Numbered c s.taken r) (hload : pc ≠ .load)
    (hhandle : ∀ name file, pc.handle = some (name, file) → file.ino < s'.disk.fresh
      ∧ ∀ other, s'.disk.dir other = some file.ino → other = Path.resolve name)
    (hholds : s.Apart → pc.Holds (c.answer r) s'.disk) : Filed s' := by
  have halone := hand_alone hi.tally (show (s.pool.worker k).pc.hand = some r by rw [hpc]; rfl)
  have hself : s'.saver k = pc := by rw [hsaver, Function.update_self]
  have hother : ∀ j, j ≠ k → s'.saver j = s.saver j := fun j h => by
    rw [hsaver, Function.update_of_ne h]
  have hreq : ∀ j r', j ≠ k → (s.pool.worker j).pc = .perform r' → r' ≠ r := by
    rintro j r' hj hr' rfl
    exact hj (halone.2.1 j (by rw [hr']; rfl))
  have hapart : s'.Apart → s.Apart := fun h => by
    unfold State.Apart at h
    rwa [htaken] at h
  refine ⟨hpool ▸ hi.pool, fun j hj => ?_, fun j r' hr' => ?_, fun r' n' hmem' => ?_, ?_, ?_, ?_,
    ?_, fun j name file hj => ?_, fun name hname => ?_, fun ha j r' hr' => ?_,
    fun ha r' n' hmem' hdone => ?_⟩
  · rw [hpool] at hj
    rw [hother j fun he => hj r (he ▸ hpc)]
    exact hi.idle j hj
  · rw [hpool] at hr'
    rw [htaken]
    by_cases hjk : j = k
    · subst hjk
      rw [hself, WorkerPc.perform.inj (hr'.symm.trans hpc)]
      exact hnumbered
    · rw [hother j hjk]
      exact hi.numbered j r' hr'
  · rw [htaken] at hmem'
    rw [hpool]
    refine (hi.taken r' n' hmem').imp_left fun ⟨j, hj, hne⟩ => ⟨j, hj, ?_⟩
    by_cases hjk : j = k
    · rw [hjk, hself]
      exact hload
    · rwa [hother j hjk]
  · rw [hpool, htaken]
    exact hi.done
  · rw [htaken]
    exact hi.nodup
  · rwa [htaken]
  · rw [htaken]
    exact hi.numbers
  · by_cases hjk : j = k
    · rw [hjk, hself] at hj
      exact hhandle name file hj
    · rw [hother j hjk] at hj
      obtain ⟨hlt, honly⟩ := hi.handle j name file hj
      exact ⟨hlt.trans_le hdisk.fresh, fun o ho => honly o (hdisk.old _ hlt o ho)⟩
  · rw [htaken] at hname
    rw [hdisk.read name (hname r n hmem).symm]
    exact hi.untouched name hname
  · rw [hpool] at hr'
    by_cases hjk : j = k
    · subst hjk
      rw [hself, WorkerPc.perform.inj (hr'.symm.trans hpc)]
      exact hholds (hapart ha)
    · rw [hother j hjk]
      exact (hi.holds (hapart ha) j r' hr').onlyAt hdisk (hi.numbered j r' hr') fun n' hmem' =>
        (hapart ha).file_ne hmem hmem' (hreq j r' hjk hr')
  · rw [htaken] at hmem'
    rw [hpool] at hdone
    have hne : r' ≠ r := fun he => halone.2.2 (he ▸ hdone)
    rw [hdisk.read _ ((hapart ha).file_ne hmem hmem' hne)]
    exact hi.settled (hapart ha) r' n' hmem' hdone

theorem SaverPc.Numbered.mono {pc : SaverPc} {taken : List (ℕ × ℕ)} {n r' : ℕ}
    (h : pc.Numbered c taken r') (hne : r' ≠ r) : pc.Numbered c (taken ++ [(r, n)]) r' := by
  cases pc with
  | load =>
    intro n' hmem
    rcases List.mem_append.mp hmem with hmem | hmem
    · exact h n' hmem
    · exact hne (Prod.mk.inj (List.mem_singleton.mp hmem)).1
  | store n' => exact List.mem_append_left _ h
  | openFile name | perform name | test name | fclose name | unlink name | status name =>
    obtain ⟨n', hmem, hname⟩ := h
    exact ⟨n', List.mem_append_left _ hmem, hname⟩

/-- The worker takes a number. -/
theorem Filed.load (hi : Filed s) (hpc : (s.pool.worker k).pc = .perform r)
    (hat : s.saver k = .load) :
    Filed ({ s with taken := s.taken ++ [(r, s.counter)] }.goto k (.store s.counter)) := by
  have halone := hand_alone hi.tally (show (s.pool.worker k).pc.hand = some r by rw [hpc]; rfl)
  have hnew : ∀ n, (r, n) ∉ s.taken := by
    have hnumbered := hi.numbered k r hpc
    rwa [hat] at hnumbered
  have hreq : ∀ j r', j ≠ k → (s.pool.worker j).pc = .perform r' → r' ≠ r := by
    rintro j r' hj hr' rfl
    exact hj (halone.2.1 j (by rw [hr']; rfl))
  have hapart : State.Apart ({ s with taken := s.taken ++ [(r, s.counter)] }.goto k
      (.store s.counter)) → s.Apart := fun h r₁ r₂ n₁ n₂ h₁ h₂ =>
    h r₁ r₂ n₁ n₂ (List.mem_append_left _ h₁) (List.mem_append_left _ h₂)
  refine ⟨hi.pool, fun j hj => ?_, fun j r' hr' => ?_, fun r' n' hmem => ?_, fun r' hdone => ?_,
    ?_, ?_, fun r' n' hmem => ?_, fun j name file hj => ?_, fun name hname => ?_,
    fun ha j r' hr' => ?_, fun ha r' n' hmem hdone => ?_⟩
  · have hjk : j ≠ k := fun he => hj r (he ▸ hpc)
    simpa [State.goto, Function.update_of_ne hjk] using hi.idle j hj
  · by_cases hjk : j = k
    · subst hjk
      obtain rfl := WorkerPc.perform.inj (hpc.symm.trans hr')
      simp [State.goto, SaverPc.Numbered]
    · simpa [State.goto, Function.update_of_ne hjk]
        using (hi.numbered j r' hr').mono (hreq j r' hjk hr')
  · rcases List.mem_append.mp hmem with hmem | hmem
    · refine (hi.taken r' n' hmem).imp_left fun ⟨j, hj, hne⟩ => ⟨j, hj, ?_⟩
      have hjk : j ≠ k := fun he => hne (he ▸ hat)
      simpa [State.goto, Function.update_of_ne hjk] using hne
    · obtain ⟨rfl, rfl⟩ := Prod.mk.inj (List.mem_singleton.mp hmem)
      exact .inl ⟨k, hpc, by simp [State.goto]⟩
  · obtain ⟨n, hmem⟩ := hi.done r' hdone
    exact ⟨n, List.mem_append_left _ hmem⟩
  · have hmem : r ∉ s.taken.map Prod.fst := fun h => by
      obtain ⟨⟨r', n⟩, hmem, rfl⟩ := List.mem_map.mp h
      exact hnew n hmem
    simpa [State.goto, List.nodup_append, hi.nodup] using fun a b hab (he : a = r) =>
      hmem (List.mem_map.mpr ⟨(a, b), hab, he⟩)
  · have hle := hi.counter
    simp only [State.goto, List.length_append, List.length_singleton]
    omega
  · have hle := hi.counter
    simp only [State.goto, List.length_append, List.length_singleton] at hmem ⊢
    rcases List.mem_append.mp hmem with hmem | hmem
    · have := hi.numbers r' n' hmem
      omega
    · obtain ⟨rfl, rfl⟩ := Prod.mk.inj (List.mem_singleton.mp hmem)
      omega
  · have hjk : j ≠ k := by
      rintro rfl
      simp [State.goto, SaverPc.handle] at hj
    simp only [State.goto, Function.update_of_ne hjk] at hj
    exact hi.handle j name file hj
  · exact hi.untouched name fun r' n' hmem => hname r' n' (List.mem_append_left _ hmem)
  · by_cases hjk : j = k
    · simp [State.goto, hjk, SaverPc.Holds]
    · simpa [State.goto, Function.update_of_ne hjk] using hi.holds (hapart ha) j r' hr'
  · rcases List.mem_append.mp hmem with hmem | hmem
    · exact hi.settled (hapart ha) r' n' hmem hdone
    · obtain ⟨rfl, rfl⟩ := Prod.mk.inj (List.mem_singleton.mp hmem)
      exact absurd hdone halone.2.2

/-- The worker is through with its request. -/
theorem Filed.finish (hi : Filed s) {disk : Disk (Path.Place Bytes) UInt8} {n : ℕ}
    (hpc : (s.pool.worker k).pc = .perform r) (hmem : (r, n) ∈ s.taken)
    (hdisk : s.disk.OnlyAt (localFile (c.path r) n) disk)
    (hresult : s.Apart → disk.read (localFile (c.path r) n) = c.result r)
    (halive : s.pool.underflow = false) (h : { s with disk }.done k = some s') : Filed s' := by
  have halone := hand_alone hi.tally (show (s.pool.worker k).pc.hand = some r by rw [hpc]; rfl)
  obtain ⟨pool, hp, rfl⟩ := Option.map_eq_some_iff.mp h
  have hreach : Downloader.Reachable c.nrequests pool := by
    refine hi.pool.tail (a := .run (.worker k) none) trivial ?_
    rw [Downloader.step, if_neg (by simp [halive])]
    exact hp
  obtain ⟨wpc, hwpc, hstep⟩ := threadHandleReq_cases hp
  obtain rfl := hpc.symm.trans hwpc
  cases hstep with
  | perform req =>
    have hworker : ∀ j r', (Function.update s.pool.worker k
        { s.pool.worker k with pc := WorkerPc.lockDone } j).pc = .perform r' →
        j ≠ k ∧ (s.pool.worker j).pc = .perform r' ∧ r' ≠ r := by
      intro j r' hj
      by_cases hjk : j = k
      · rw [hjk, Function.update_self] at hj
        cases hj
      · rw [Function.update_of_ne hjk] at hj
        refine ⟨hjk, hj, ?_⟩
        rintro rfl
        exact hjk (halone.2.1 j (by rw [hj]; rfl))
    refine ⟨hreach, fun j hj => ?_, fun j r' hr' => ?_, fun r' n' hmem' => ?_,
      fun r' hdone => ?_, hi.nodup, hi.counter, hi.numbers, fun j name file hj => ?_,
      fun name hname => ?_, fun ha j r' hr' => ?_, fun ha r' n' hmem' hdone => ?_⟩
    · by_cases hjk : j = k
      · simp [State.goto, hjk]
      · simp only [State.goto, Pool.goto, Function.update_of_ne hjk] at hj ⊢
        exact hi.idle j hj
    · obtain ⟨hjk, hj, -⟩ := hworker j r' hr'
      simpa [State.goto, Function.update_of_ne hjk] using hi.numbered j r' hj
    · rcases hi.taken r' n' hmem' with ⟨j, hj, hne⟩ | hdone
      · by_cases hjk : j = k
        · subst hjk
          obtain rfl := WorkerPc.perform.inj (hj.symm.trans hpc)
          exact .inr List.mem_cons_self
        · exact .inl ⟨j, by simpa [State.goto, Pool.goto, Function.update_of_ne hjk] using hj,
            by simpa [State.goto, Function.update_of_ne hjk] using hne⟩
      · exact .inr (List.mem_cons_of_mem _ hdone)
    · rcases List.mem_cons.mp hdone with rfl | hdone
      · exact ⟨n, hmem⟩
      · exact hi.done r' hdone
    · have hjk : j ≠ k := by
        rintro rfl
        simp [State.goto, SaverPc.handle] at hj
      simp only [State.goto, Function.update_of_ne hjk] at hj
      obtain ⟨hlt, honly⟩ := hi.handle j name file hj
      exact ⟨hlt.trans_le hdisk.fresh, fun o ho => honly o (hdisk.old _ hlt o ho)⟩
    · exact (hdisk.read name (hname r n hmem).symm).trans (hi.untouched name hname)
    · obtain ⟨hjk, hj, hne⟩ := hworker j r' hr'
      simp only [State.goto, Function.update_of_ne hjk]
      exact (hi.holds ha j r' hj).onlyAt hdisk (hi.numbered j r' hj) fun n' hmem' =>
        State.Apart.file_ne (s := s) ha hmem hmem' hne
    · by_cases hne : r' = r
      · subst hne
        have hone := List.inj_on_of_nodup_map hi.nodup hmem hmem' rfl
        rw [← (Prod.mk.inj hone).2]
        exact hresult ha
      · have hdone' : r' ∈ s.pool.performed.map Prod.fst :=
          (List.mem_cons.mp hdone).resolve_left hne
        exact (hdisk.read _ (State.Apart.file_ne (s := s) ha hmem hmem' hne)).trans
          (hi.settled ha r' n' hmem' hdone')

/-- A step of the pool that is not the whole of a download. -/
theorem Filed.queue (hi : Filed s) {e : Downloader.Event c.nthreads} {pool : Pool c.nthreads}
    (hperf : performs s.pool e = false)
    (h : Downloader.step c.nrequests e s.pool = some pool) : Filed { s with pool } := by
  obtain ⟨hperformed, hpcs⟩ := pool_step h hperf
  refine ⟨hi.pool.tail trivial h, fun k hk => ?_, fun k r hr => ?_, fun r n hmem => ?_,
    ?_, hi.nodup, hi.counter, hi.numbers, hi.handle, hi.untouched, fun ha k r hr => ?_, ?_⟩
  · exact hi.idle k fun r hr => hk r ((hpcs k r).1 hr)
  · rcases (hpcs k r).2 hr with hold | hsignal
    · exact hi.numbered k r hold
    · -- nobody has taken a number for it yet
      have halone := hand_alone hi.tally
        (show (s.pool.worker k).pc.hand = some r by rw [hsignal]; rfl)
      have hidle : s.saver k = .load := hi.idle k fun r' h' => by simp [hsignal] at h'
      change (s.saver k).Numbered c s.taken r
      rw [hidle]
      intro n hmem
      rcases hi.taken r n hmem with ⟨j, hj, -⟩ | hdone
      · obtain rfl := halone.2.1 j (by rw [hj]; rfl)
        simp [hsignal] at hj
      · exact halone.2.2 hdone
  · rw [hperformed]
    exact (hi.taken r n hmem).imp_left fun ⟨k, hk, hne⟩ => ⟨k, (hpcs k r).1 hk, hne⟩
  · rw [hperformed]
    exact hi.done
  · rcases (hpcs k r).2 hr with hold | hsignal
    · exact hi.holds ha k r hold
    · have hidle : s.saver k = .load := hi.idle k fun r' h' => by simp [hsignal] at h'
      change (s.saver k).Holds (c.answer r) s.disk
      rw [hidle]
      trivial
  · rw [hperformed]
    exact hi.settled

theorem Filed.setRequestMainCode (hi : Filed s) (hcoded : s.Coded)
    (hpc : (s.pool.worker k).pc = .perform r) {mkdirs : List (Option ℕ)} {fopen : Bool}
    (h : setRequestMainCode k r mkdirs fopen s = some s') : Filed s' := by
  have hnumbered := hi.numbered k r hpc
  have hhandle := hi.handle k
  have hholds := fun ha => hi.holds ha k r hpc
  have halive := (hi.pool.sound c.nthreads_pos).underflow
  unfold Saving.setRequestMainCode at h
  cases hat : s.saver k with
  | load =>
    simp only [hat, Option.some.injEq] at h
    exact h ▸ hi.load hpc hat
  | store n =>
    rw [hat] at hnumbered
    simp only [hat, Option.some.injEq] at h
    subst h
    exact hi.move hpc hnumbered rfl rfl (hi.numbers r n hnumbered) rfl Disk.onlyAt_refl
      ⟨n, hnumbered, rfl⟩ (by simp) (by simp [SaverPc.handle]) fun _ => trivial
  | openFile name =>
    rw [hat] at hnumbered
    obtain ⟨n, hmem, rfl⟩ := hnumbered
    simp only [hat] at h
    cases hopen : OpenFile.openFile (localPath (c.path r) n ++ [0]) mkdirs with
    | more o => simp [hopen] at h
    | stop ending =>
      cases ending with
      | fopen path o =>
        obtain ⟨hne, h0⟩ := localPath_string c r n
        obtain rfl := Download.openFile_name hne h0 hopen
        simp only [hopen] at h
        split_ifs at h
        · obtain rfl := Option.some.inj h
          refine hi.move hpc hmem rfl rfl hi.counter rfl Disk.onlyAt_openWrite ⟨n, hmem, rfl⟩
            (by simp) (fun name file heq => ?_) fun _ => ?_
          · cases heq
            exact ⟨Disk.dir_lt _ Disk.dir_openWrite,
              fun other hother => Disk.dir_injective _ hother Disk.dir_openWrite⟩
          · exact ⟨Disk.dir_openWrite, [], Disk.read_openWrite, rfl, rfl⟩
        · obtain rfl := Option.some.inj h
          exact { hi with }
      | exit =>
        simp only [hopen, Option.some.injEq] at h
        subst h
        exact { hi with }
      | outside => simp [hopen] at h
  | perform name file chunks =>
    rw [hat] at hnumbered
    obtain ⟨n, hmem, rfl⟩ := hnumbered
    have hopen := hhandle _ file (by rw [hat]; rfl)
    cases chunks with
    | nil =>
      simp only [hat, Option.some.injEq] at h
      subst h
      refine hi.move hpc hmem rfl rfl hi.counter rfl Disk.onlyAt_refl ⟨n, hmem, rfl⟩ (by simp)
        (fun name file' heq => ?_) fun ha => ?_
      · cases heq
        exact hopen
      · have hkept := hholds ha
        rwa [hat] at hkept
    | cons chunk chunks =>
      simp only [hat, Option.some.injEq] at h
      subst h
      refine hi.move hpc hmem rfl rfl hi.counter rfl Disk.onlyAt_refl ⟨n, hmem, rfl⟩ (by simp)
        (fun name file' heq => ?_) fun ha => ?_
      · cases heq
        exact hopen
      · have hkept := hholds ha
        rw [hat] at hkept
        obtain ⟨hdir, written, hread, hpos, hall⟩ := hkept
        exact ⟨hdir, written, hread, hpos, by simpa using hall⟩
  | test name file =>
    rw [hat] at hnumbered
    obtain ⟨n, hmem, rfl⟩ := hnumbered
    have hopen := hhandle _ file (by rw [hat]; rfl)
    simp only [hat, Option.some.injEq] at h
    subst h
    refine hi.move hpc hmem rfl rfl hi.counter rfl Disk.onlyAt_refl ⟨n, hmem, rfl⟩ (by simp)
      (fun name file' heq => ?_) fun ha => ?_
    · cases heq
      exact hopen
    · have hkept := hholds ha
      rw [hat] at hkept
      exact ⟨hkept, by simpa using hcoded k r hpc _ _ hat⟩
  | fclose name file failed =>
    rw [hat] at hnumbered
    obtain ⟨n, hmem, rfl⟩ := hnumbered
    obtain ⟨-, honly⟩ := hhandle _ file (by rw [hat]; rfl)
    simp only [hat, Option.some.injEq] at h
    subst h
    refine hi.move hpc hmem rfl rfl hi.counter rfl (onlyAt_flush honly _) ?_ ?_ ?_ fun ha => ?_
    · split_ifs <;> exact ⟨n, hmem, rfl⟩
    · split_ifs <;> simp
    · split_ifs <;> simp [SaverPc.handle]
    · have hkept := hholds ha
      rw [hat] at hkept
      obtain ⟨hpart, hfailed⟩ := hkept
      split_ifs with hret
      · exact hfailed.mp hret
      · rw [SaverPc.Holds, if_neg fun hneg => hret (hfailed.mpr hneg)]
        exact hpart.read_fclose
  | unlink name =>
    rw [hat] at hnumbered
    obtain ⟨n, hmem, rfl⟩ := hnumbered
    simp only [hat, Option.some.injEq] at h
    subst h
    refine hi.move hpc hmem rfl rfl hi.counter rfl Disk.onlyAt_unlink ⟨n, hmem, rfl⟩ (by simp)
      (by simp [SaverPc.handle]) fun ha => ?_
    have hneg := hholds ha
    rw [hat] at hneg
    change (c.answer r).returncode < 0 at hneg
    rw [SaverPc.Holds, if_pos hneg]
    exact Disk.read_unlink
  | status name =>
    rw [hat] at hnumbered
    obtain ⟨n, hmem, rfl⟩ := hnumbered
    simp only [hat] at h
    split_ifs at h with hok
    · refine hi.finish hpc hmem Disk.onlyAt_refl (fun ha => ?_) halive h
      have hkept := hholds ha
      rw [hat] at hkept
      change s.disk.read (localFile (c.path r) n) = _ at hkept
      rw [Config.result, hkept]
      simp [hok]
    · refine hi.finish hpc hmem Disk.onlyAt_unlink (fun _ => ?_) halive h
      rw [Config.result, if_pos (.inr (by simpa using hok))]
      exact Disk.read_unlink

theorem Filed.flush (hi : Filed s) {name : Bytes} {file : File} {chunks : List Bytes}
    (hat : s.saver k = .perform name file chunks) (n : ℕ) :
    Filed ({ s with disk := (file.flush n s.disk).2 }.goto k
      (.perform name (file.flush n s.disk).1 chunks)) := by
  obtain ⟨r, hpc⟩ : ∃ r, (s.pool.worker k).pc = .perform r := by
    by_contra hnone
    rw [hi.idle k fun r hr => hnone ⟨r, hr⟩] at hat
    cases hat
  have hnumbered := hi.numbered k r hpc
  rw [hat] at hnumbered
  obtain ⟨m, hmem, rfl⟩ := hnumbered
  obtain ⟨hlt, honly⟩ := hi.handle k _ file (by rw [hat]; rfl)
  refine hi.move hpc hmem rfl rfl hi.counter rfl (onlyAt_flush honly _) ⟨m, hmem, rfl⟩
    (by simp) (fun name file' heq => ?_) fun ha => ?_
  · cases heq
    exact ⟨hlt, honly⟩
  · have hkept := hi.holds ha k r hpc
    rw [hat] at hkept
    exact Partly.flush hkept n

theorem Filed.next (hi : Filed s) (hcoded : s.Coded) {e : Event c} (h : step c e s = some s') :
    Filed s' := by
  unfold step at h
  split_ifs at h
  cases e with
  | pool e =>
    simp only at h
    split_ifs at h with hperf
    obtain ⟨pool, hp, rfl⟩ := Option.map_eq_some_iff.mp h
    exact hi.queue (by simpa using hperf) hp
  | save k mkdirs fopen =>
    simp only at h
    split at h
    · rename_i r hpc
      exact hi.setRequestMainCode hcoded hpc h
    · cases h
  | flush k n =>
    simp only at h
    split at h
    · rename_i name file chunks hat
      obtain rfl := Option.some.inj h
      exact hi.flush hat n
    · cases h

/-! ### What `gfc_perform` has returned -/

/-- No worker stores what its `gfc_perform` has returned while another one has yet to test what it
has stored, unless both values are below zero or neither is. -/
def Kept (s : State c) : Event c → Prop
  | .save k _ _ => ∀ r r' j name file name' file', (s.pool.worker k).pc = .perform r →
    s.saver k = .perform name file [] → j ≠ k → (s.pool.worker j).pc = .perform r' →
    s.saver j = .test name' file' → ((c.answer r).returncode < 0 ↔ (c.answer r').returncode < 0)
  | _ => True

/-- A worker goes on, and not to the test. -/
theorem State.Coded.goto {t : State c} (hi : s.Coded) (hpool : t.pool = s.pool)
    (hcode : t.returncode = s.returncode) (hsaver : t.saver = s.saver) {pc : SaverPc}
    (hpc : ∀ name file, pc ≠ .test name file) : (t.goto k pc).Coded := by
  intro j r hr name file hat
  by_cases hjk : j = k
  · simp [State.goto, hjk, hpc] at hat
  · simp only [State.goto, Function.update_of_ne hjk, hsaver] at hat
    simp only [State.goto, hpool] at hr
    exact hcode ▸ hi j r hr name file hat

theorem State.Coded.done {t : State c} (hi : s.Coded) (hpool : t.pool = s.pool)
    (hcode : t.returncode = s.returncode) (hsaver : t.saver = s.saver)
    (hpc : (s.pool.worker k).pc = .perform r) (h : t.done k = some s') : s'.Coded := by
  obtain ⟨pool, hp, rfl⟩ := Option.map_eq_some_iff.mp h
  obtain ⟨wpc, hwpc, hstep⟩ := threadHandleReq_cases hp
  rw [hpool] at hwpc
  obtain rfl := hpc.symm.trans hwpc
  cases hstep with
  | perform req =>
    intro j r' hr' name file hat
    by_cases hjk : j = k
    · simp [State.goto, hjk] at hat
    · simp only [State.goto, Function.update_of_ne hjk, hsaver] at hat
      simp only [State.goto, Pool.goto, Function.update_of_ne hjk, hpool] at hr'
      exact hcode ▸ hi j r' hr' name file hat

theorem State.Coded.setRequestMainCode (hi : s.Coded) (hpc : (s.pool.worker k).pc = .perform r)
    {mkdirs : List (Option ℕ)} {fopen : Bool} (hkept : Kept s (.save k mkdirs fopen))
    (h : setRequestMainCode k r mkdirs fopen s = some s') : s'.Coded := by
  unfold Saving.setRequestMainCode at h
  cases hat : s.saver k with
  | load | store n | test name file | unlink name =>
    simp only [hat, Option.some.injEq] at h
    exact h ▸ hi.goto rfl rfl rfl (by simp)
  | openFile name =>
    simp only [hat] at h
    split at h
    · split_ifs at h <;> obtain rfl := Option.some.inj h
      · exact hi.goto rfl rfl rfl (by simp)
      · exact hi
    · exact Option.some.inj h ▸ hi
    · cases h
    · cases h
  | perform name file chunks =>
    cases chunks with
    | nil =>
      simp only [hat, Option.some.injEq] at h
      subst h
      intro j r' hr' name' file' hat'
      by_cases hjk : j = k
      · subst hjk
        obtain rfl := WorkerPc.perform.inj (hpc.symm.trans hr')
        exact Iff.rfl
      · simp only [State.goto, Function.update_of_ne hjk] at hat'
        exact hkept r r' j name file name' file' hpc hat hjk hr' hat'
    | cons chunk chunks =>
      simp only [hat, Option.some.injEq] at h
      exact h ▸ hi.goto rfl rfl rfl (by simp)
  | fclose name file failed =>
    simp only [hat, Option.some.injEq] at h
    exact h ▸ hi.goto rfl rfl rfl fun _ _ => by split_ifs <;> simp
  | status name =>
    simp only [hat] at h
    split_ifs at h
    · exact hi.done rfl rfl rfl hpc h
    · refine hi.done ?_ ?_ ?_ hpc h <;> rfl

theorem State.Coded.next (hi : s.Coded) (hfiled : Filed s) {e : Event c} (hkept : Kept s e)
    (h : step c e s = some s') : s'.Coded := by
  unfold step at h
  split_ifs at h
  cases e with
  | pool e =>
    simp only at h
    split_ifs at h with hperf
    obtain ⟨pool, hp, rfl⟩ := Option.map_eq_some_iff.mp h
    obtain ⟨-, hpcs⟩ := pool_step hp (by simpa using hperf)
    intro k r hr name file hat
    rcases (hpcs k r).2 hr with hold | hsignal
    · exact hi k r hold name file hat
    · have hidle : s.saver k = .load := hfiled.idle k fun r' h' => by simp [hsignal] at h'
      cases hidle.symm.trans hat
  | save k mkdirs fopen =>
    simp only at h
    split at h
    · rename_i r hpc
      exact hi.setRequestMainCode hpc hkept h
    · cases h
  | flush k n =>
    simp only at h
    split at h
    · obtain rfl := Option.some.inj h
      exact hi.goto rfl rfl rfl (by simp)
    · cases h

/-! ### Runs -/

theorem filed_of_reach {E : State c → Event c → Prop} (hkept : ∀ s e, E s e → Kept s e)
    (h : Trans.Reach (step c) E (State.init c) s) : Filed s :=
  (h.invariant (I := fun s => Filed s ∧ s.Coded)
    ⟨filed_init c, fun _ _ hpc => by cases hpc⟩
    fun _ _ _ hi hok hstep => ⟨hi.1.next hi.2 hstep, hi.2.next hi.1 (hkept _ _ hok) hstep⟩).1

theorem Filed.lt_nrequests (hi : Filed s) {n : ℕ} (hmem : (r, n) ∈ s.taken) :
    r < c.nrequests := by
  rcases hi.taken r n hmem with ⟨k, hpc, -⟩ | hdone
  · exact (hand_alone hi.tally (show (s.pool.worker k).pc.hand = some r by rw [hpc]; rfl)).1
  · exact performed_lt hi.tally hdone

/-- The numbers are those of the requests. -/
theorem Filed.number_lt (hi : Filed s) {n : ℕ} (hmem : (r, n) ∈ s.taken) : n < c.nrequests := by
  have hsub : s.taken.map Prod.fst ⊆ List.range c.nrequests := fun r' hr' => by
    obtain ⟨⟨r, n⟩, hmem, rfl⟩ := List.mem_map.mp hr'
    exact List.mem_range.mpr (hi.lt_nrequests hmem)
  have hle := (hi.nodup.subperm hsub).length_le
  rw [List.length_map, List.length_range] at hle
  exact (hi.numbers r n hmem).trans_le hle

/-- Once the boss has left its wait, each request whose file is its own has its answer in it, if the
answer was complete, and no other file has been touched. -/
theorem Filed.saved (hi : Filed s) (hpast : s.pool.boss.past) (hapart : s.Apart) :
    ∃ number : ℕ → ℕ, (∀ r < c.nrequests, (r, number r) ∈ s.taken ∧ number r < c.nrequests
        ∧ s.disk.read (localFile (c.path r) (number r)) = c.result r)
      ∧ (∀ r < c.nrequests, ∀ r' < c.nrequests, localFile (c.path r) (number r)
        = localFile (c.path r') (number r') → r = r')
      ∧ ∀ place, (∀ r < c.nrequests, localFile (c.path r) (number r) ≠ place) →
        s.disk.read place = c.disk.read place := by
  have hall : ∀ r < c.nrequests, r ∈ s.pool.performed.map Prod.fst := fun r hr =>
    ((hi.pool.sound c.nthreads_pos).performed hpast).mem_iff.mpr (List.mem_range.mpr hr)
  have hnumber : ∀ r, ∃ n, r < c.nrequests → (r, n) ∈ s.taken := fun r => by
    by_cases hr : r < c.nrequests
    · obtain ⟨n, hmem⟩ := hi.done r (hall r hr)
      exact ⟨n, fun _ => hmem⟩
    · exact ⟨0, fun h => absurd h hr⟩
  choose number hmem using hnumber
  refine ⟨number, fun r hr => ⟨hmem r hr, hi.number_lt (hmem r hr),
    hi.settled hapart r _ (hmem r hr) (hall r hr)⟩, fun r hr r' hr' heq => ?_,
    fun place hplace => ?_⟩
  · by_contra hne
    exact hapart.file_ne (hmem r' hr') (hmem r hr) hne heq
  · refine hi.untouched place fun r n hn => ?_
    have hr := hi.lt_nrequests hn
    have hone := List.inj_on_of_nodup_map hi.nodup hn (hmem r hr) rfl
    rw [(Prod.mk.inj hone).2]
    exact hplace r hr

/-! ### Numbers that are taken one at a time -/

/-- No worker loads the counter while another one has yet to store it. -/
def Alone (s : State c) : Event c → Prop
  | .save k _ _ => s.saver k = .load → ∀ j n, s.saver j ≠ .store n
  | _ => True

/-- The worker that has yet to store the counter is the only one, and the numbers that have been
taken are below the counter or with it. -/
structure Counted (s : State c) : Prop where
  alone : ∀ j j' n n', s.saver j = .store n → s.saver j' = .store n' → j = j'
  store : ∀ j n, s.saver j = .store n → n = s.counter
  taken : ∀ r n, (r, n) ∈ s.taken → n < s.counter ∨ ∃ k, s.saver k = .store n
  numbers : (s.taken.map Prod.snd).Nodup

theorem counted_init (c : Config) : Counted (State.init c) where
  alone := by simp [State.init]
  store := by simp [State.init]
  taken := by simp [State.init]
  numbers := List.nodup_nil

/-- A step that leaves the counter and the numbers, and does not come to or from a store. -/
theorem Counted.pass (hi : Counted s) (hcounter : s'.counter = s.counter)
    (htaken : s'.taken = s.taken)
    (hsaver : ∀ j n, s'.saver j = .store n ↔ s.saver j = .store n) : Counted s' := by
  refine ⟨fun j j' n n' h h' => ?_, fun j n h => ?_, fun r n hmem => ?_, htaken ▸ hi.numbers⟩
  · exact hi.alone j j' n n' ((hsaver j n).mp h) ((hsaver j' n').mp h')
  · exact hcounter ▸ hi.store j n ((hsaver j n).mp h)
  · rw [htaken] at hmem
    rw [hcounter]
    exact (hi.taken r n hmem).imp_right fun ⟨k, hk⟩ => ⟨k, (hsaver k n).mpr hk⟩

theorem goto_store_iff {pc : SaverPc} (hat : ∀ n, s.saver k ≠ .store n) (hpc : ∀ n, pc ≠ .store n)
    (j : Fin c.nthreads) (n : ℕ) : (s.goto k pc).saver j = .store n ↔ s.saver j = .store n := by
  by_cases hjk : j = k
  · simp [State.goto, hjk, hat n, hpc n]
  · simp [State.goto, Function.update_of_ne hjk]

theorem Counted.load (hi : Counted s) (hnone : ∀ j n, s.saver j ≠ .store n) :
    Counted ({ s with taken := s.taken ++ [(r, s.counter)] }.goto k (.store s.counter)) := by
  have hself : ∀ j n, ({ s with taken := s.taken ++ [(r, s.counter)] }.goto k
      (.store s.counter)).saver j = .store n → j = k ∧ n = s.counter := fun j n h => by
    by_cases hjk : j = k
    · subst hjk
      simp only [State.goto, Function.update_self, SaverPc.store.injEq] at h
      exact ⟨rfl, h.symm⟩
    · simp only [State.goto, Function.update_of_ne hjk] at h
      exact absurd h (hnone j n)
  have hbelow : ∀ r n, (r, n) ∈ s.taken → n < s.counter := fun r n hmem =>
    (hi.taken r n hmem).resolve_right fun ⟨j, hj⟩ => hnone j n hj
  refine ⟨fun j j' n n' h h' => (hself j n h).1.trans (hself j' n' h').1.symm,
    fun j n h => (hself j n h).2, fun r' n hmem => ?_, ?_⟩
  · rcases List.mem_append.mp hmem with hmem | hmem
    · exact .inl (hbelow r' n hmem)
    · obtain ⟨rfl, rfl⟩ := Prod.mk.inj (List.mem_singleton.mp hmem)
      exact .inr ⟨k, by simp [State.goto]⟩
  · have hnew : s.counter ∉ s.taken.map Prod.snd := fun h => by
      obtain ⟨⟨r', n⟩, hmem, hn⟩ := List.mem_map.mp h
      exact absurd (hbelow r' n hmem) (hn ▸ lt_irrefl _)
    have hnodup := List.nodup_append.mpr ⟨hi.numbers, List.nodup_singleton s.counter,
      fun a ha b hb hab => hnew (List.mem_singleton.mp hb ▸ hab ▸ ha)⟩
    simpa [State.goto] using hnodup

theorem Counted.store_next (hi : Counted s) {n : ℕ} {name : Bytes} (hat : s.saver k = .store n) :
    Counted ({ s with counter := n + 1 }.goto k (.openFile name)) := by
  have hn := hi.store k n hat
  have hnone : ∀ j m, ({ s with counter := n + 1 }.goto k (.openFile name)).saver j ≠ .store m :=
    fun j m h => by
      by_cases hjk : j = k
      · simp [State.goto, hjk] at h
      · simp only [State.goto, Function.update_of_ne hjk] at h
        exact hjk (hi.alone j k m n h hat)
  refine ⟨fun j j' m m' h => absurd h (hnone j m), fun j m h => absurd h (hnone j m),
    fun r m hmem => .inl ?_, hi.numbers⟩
  change m < n + 1
  rcases hi.taken r m hmem with hlt | ⟨j, hj⟩
  · omega
  · have := hi.store j m hj
    omega

theorem Counted.next (hi : Counted s) {e : Event c} (halone : Alone s e)
    (h : step c e s = some s') : Counted s' := by
  unfold step at h
  split_ifs at h
  cases e with
  | pool e =>
    simp only at h
    split_ifs at h
    obtain ⟨pool, -, rfl⟩ := Option.map_eq_some_iff.mp h
    exact { hi with }
  | save k mkdirs fopen =>
    simp only at h
    split at h
    · unfold setRequestMainCode at h
      cases hat : s.saver k with
      | load =>
        simp only [hat, Option.some.injEq] at h
        exact h ▸ hi.load (halone hat)
      | store n =>
        simp only [hat, Option.some.injEq] at h
        exact h ▸ hi.store_next hat
      | openFile name =>
        simp only [hat] at h
        split at h
        · split_ifs at h
          · obtain rfl := Option.some.inj h
            exact hi.pass rfl rfl (goto_store_iff (by simp [hat]) (by simp))
          · obtain rfl := Option.some.inj h
            exact { hi with }
        · obtain rfl := Option.some.inj h
          exact { hi with }
        · cases h
        · cases h
      | perform name file chunks =>
        have hout : ∀ n, s.saver k ≠ .store n := by simp [hat]
        cases chunks <;> simp only [hat, Option.some.injEq] at h <;> subst h
        · exact hi.pass rfl rfl (goto_store_iff hout (by simp))
        · exact hi.pass rfl rfl (goto_store_iff hout (by simp))
      | test name file =>
        simp only [hat, Option.some.injEq] at h
        exact h ▸ hi.pass rfl rfl (goto_store_iff (by simp [hat]) (by simp))
      | fclose name file failed =>
        simp only [hat, Option.some.injEq] at h
        refine h ▸ hi.pass rfl rfl (goto_store_iff (by simp [hat]) fun n => ?_)
        split_ifs <;> simp
      | unlink name =>
        simp only [hat, Option.some.injEq] at h
        exact h ▸ hi.pass rfl rfl (goto_store_iff (by simp [hat]) (by simp))
      | status name =>
        simp only [hat] at h
        split_ifs at h <;> obtain ⟨pool, -, rfl⟩ := Option.map_eq_some_iff.mp h <;>
          exact hi.pass rfl rfl (goto_store_iff (by simp [hat]) (by simp))
    · cases h
  | flush k n =>
    simp only at h
    split at h
    · rename_i name file chunks hat
      obtain rfl := Option.some.inj h
      exact hi.pass rfl rfl (goto_store_iff (by simp [hat]) (by simp))
    · cases h

theorem Counted.apart (hi : Counted s) : s.Apart := fun r r' n n' hr hr' heq => by
  obtain rfl := number_of_localFile heq
  have hone := List.inj_on_of_nodup_map hi.numbers hr hr' rfl
  exact (Prod.mk.inj hone).1

/-- No two requests of the client would have one file with one number. -/
def Config.Distinct (c : Config) : Prop :=
  ∀ r < c.nrequests, ∀ r' < c.nrequests, ∀ n,
    localFile (c.path r) n = localFile (c.path r') n → r = r'

/-- Two workers download a byte each. -/
def twoWorkers (path : ℕ → Bytes) : Config where
  nthreads := 2
  nrequests := 2
  path := fun r => cstr (path r)
  answer := fun r => ⟨[decimal r], 0, true⟩
  disk := .empty
  nthreads_pos := Nat.two_pos
  path_string := fun r => notMem_cstr (path r)

/-- The boss queues both requests, and each worker does as the other one does, up to the count. -/
def sideBySide (c : Config) (i j : Fin c.nthreads) : List (Event c) :=
  let run (n : ℕ) (t : Thread c.nthreads) := List.replicate n (Event.pool (c := c) (.run t none))
  let both : List (Event c) := [.save i [] true, .save j [] true]
  run 11 .boss ++ run 6 (.worker i) ++ run 6 (.worker j) ++ (List.replicate 8 both).flatten
    ++ run 3 (.worker i) ++ run 3 (.worker j) ++ run 2 .boss

theorem localFile_decimal (r n : ℕ) :
    localFile (ascii "/" ++ decimal r) n = ⟨false, 0, [decimal r ++ suffix n]⟩ := by
  have hslash : (0x2f : UInt8) ∉ decimal r ++ suffix n := fun h => by
    rcases List.mem_append.mp h with h | h
    · exact absurd (isDigit_of_mem_decimal h) (by decide)
    · exact notMem_suffix (by decide) (by decide) n h
  refine Path.resolve_of_notMem hslash ?_
  change 3 ≤ (decimal r ++ suffix n).length
  simp only [suffix, List.length_append, List.length_replicate]
  omega

/-- Both workers ask for one file, and take one number. -/
example : ((Trans.exec (step (twoWorkers fun _ => ascii "/a")) (fun _ _ => true)
    (sideBySide _ ⟨0, Nat.two_pos⟩ ⟨1, Nat.one_lt_two⟩) (State.init _)).map fun s =>
      (s.disk.read (localFile (ascii "/a") 0), s.disk.read (localFile (ascii "/a") 1)))
    = some (some (decimal 1), none) := by
  decide +kernel

end FileServices.Saving
