import FileServices.Proofs.CacheSession
import FileServices.Proofs.CacheSteps

/-!
# The steps of the cache

Each step of a worker of the cache leaves every segment in some phase.
-/

namespace FileServices.Cache

open CString Handoff

variable {c : Config} {s s' : State c} {i : Fin c.nproxies} {j : Fin c.nworkers}
  {g : Fin c.nsegments} {gone : Bool} {ph : Fin c.nsegments → Phase c} {ret : ℤ}

/-- A worker that is going to touch a segment serves the request of the thread that holds it. -/
theorem Seats.serving (hi : Seats gone s ph) (hat : (s.worker j).shm = some g) : ∃ i,
    (ph g = .opening i j ∧ Fresh (s.proxy i) g (s.seg g)
      ∧ Opening c (s.proxy i).request g (s.seg g) (s.worker j))
    ∨ (ph g = .copying i j ∧ ∃ content w job pc,
      s.worker j = .copy (s.proxy i).request job pc ∧ c.answer (s.proxy i).request = some content
      ∧ Job c (s.proxy i).request content job ∧ Copying gone job content (s.seg g) pc w
      ∧ Session content (s.proxy i).pc (s.seg g) w) := by
  have hpeer := (hi.peer j g).mp hat
  have hlink := hi.link g
  cases hf : ph g with
  | opening i j' =>
    rw [hf] at hpeer hlink
    obtain rfl : j' = j := Option.some.inj hpeer
    exact ⟨i, .inl ⟨rfl, hlink.1, hlink.2⟩⟩
  | copying i j' =>
    rw [hf] at hpeer hlink
    obtain rfl : j' = j := Option.some.inj hpeer
    exact ⟨i, .inr ⟨rfl, hlink⟩⟩
  | free | prep | pending | rest | missing | leaving => simp [hf, Phase.worker] at hpeer

def CopyPc.opens : CopyPc → Bool
  | .filesize | .status | .postFilelen => true
  | _ => false

def WorkerPc.opens {n : ℕ} : WorkerPc n → Bool
  | .receive => false
  | .copy _ _ cpc => cpc.opens
  | _ => true

/-- A worker that has not told the proxy of the file has the segment with the thread that asked. -/
theorem Seats.opened (hi : Seats gone s ph) {pc : WorkerPc c.nsegments} (hpc : s.worker j = pc)
    (hat : pc.shm = some g) (hopens : pc.opens = true) : ∃ i, ph g = .opening i j
      ∧ Fresh (s.proxy i) g (s.seg g) ∧ Opening c (s.proxy i).request g (s.seg g) pc := by
  subst hpc
  obtain ⟨i, h | ⟨-, content, w, job, cpc, hw, -, -, hcopy, -⟩⟩ := hi.serving hat
  · exact ⟨i, h⟩
  · rw [hw] at hopens
    cases hcopy <;> cases hopens

theorem Seats.past (hi : Seats gone s ph) {r : ℕ} {job : Copy c.nsegments} {cpc : CopyPc}
    (hpc : s.worker j = .copy r job cpc) (hat : WorkerPc.shm c (.copy r job cpc) = some job.shm)
    (hpast : cpc.opens = false) : ∃ i content w,
      ph job.shm = .copying i j ∧ (s.proxy i).request = r ∧ c.answer r = some content
      ∧ Job c r content job ∧ Copying gone job content (s.seg job.shm) cpc w
      ∧ Session content (s.proxy i).pc (s.seg job.shm) w := by
  rw [← hpc] at hat
  obtain ⟨i, ⟨-, -, hopening⟩ | ⟨hph, content, w, job', pc, hw, hans, hjob, hcopy, hses⟩⟩ :=
    hi.serving hat
  · rw [hpc] at hopening
    obtain ⟨-, -, content, -, rfl | ⟨rfl, -⟩ | ⟨rfl, -⟩⟩ := hopening <;> cases hpast
  · rw [hpc] at hw
    obtain ⟨rfl, rfl, rfl⟩ := WorkerPc.copy.inj hw
    exact ⟨i, content, w, hph, rfl, hans, hjob, hcopy, hses⟩

theorem Seats.workerAt (hi : Seats gone s ph) (shm : ShmDetails) (f : Phase c)
    {x : WorkerPc c.nsegments} (hat : (s.worker j).shm = some g)
    (hworker : s'.worker = Function.update s.worker j x)
    (hseg : s'.seg = Function.update s.seg g shm) (hproxy : s'.proxy = s.proxy)
    (hqueue : s'.shmQueue = s.shmQueue) (hmq : s'.msgqueue = s.msgqueue)
    (hnew : ∀ g', x.shm = some g' → g' = g)
    (hf : f.worker = if x.shm = some g then some j else none) (hfp : f.proxy = (ph g).proxy)
    (hconst : shm.shmId = (s.seg g).shmId ∧ shm.segsize = (s.seg g).segsize)
    (hlink : Link c gone g s.proxy s'.worker shm f) (hpend : f.isPending = false) :
    ∃ ph', Seats gone s' ph' := by
  have hwas := (hi.peer j g).mp hat
  have hnot : (ph g).isPending = false := by
    cases hph : ph g <;> simp_all [Phase.worker, Phase.isPending]
  exact ⟨_, hi.workerMove shm f hworker hseg hproxy hqueue
    (fun g' h => Option.some.inj (h.symm.trans hat)) hnew (.inr hwas) hf hfp hpend
    (.inl ⟨hnot, hmq⟩) hconst (hproxy ▸ hlink)⟩

theorem Seats.receive (hi : Seats gone s ph) (hpc : s.worker j = .receive) {r : ℕ} {m : ReqStruct}
    {rest : List (ℕ × ReqStruct)} (hmq : s.msgqueue = (r, m) :: rest) :
    ∃ ph', Seats gone ({ s with msgqueue := rest }.work j (.lookup r m)) ph' := by
  obtain ⟨g, i, hph, hm⟩ := hi.msgs (r, m) (by rw [hmq]; exact List.mem_cons_self)
  obtain ⟨rfl, rfl⟩ := Prod.mk.inj hm
  have hlink := hi.link g
  rw [hph] at hlink
  have hopen : WorkerPc.shm c (.lookup (s.proxy i).request (c.message (s.proxy i).request g))
      = some g := shmOpen_names c g
  refine ⟨_, hi.workerMove (s.seg g) (.opening i j) rfl (by simp [State.work]) rfl rfl
    (fun g' h => ?_) (fun g' h => ?_) (.inl (by rw [hph]; rfl)) ?_ (by rw [hph]; rfl) rfl
    (.inr ⟨by rw [hph]; rfl, _, rfl, hmq⟩) ⟨rfl, rfl⟩ ⟨hlink, ?_⟩⟩
  · simp [hpc, WorkerPc.shm] at h
  · exact Option.some.inj (h.symm.trans hopen)
  · rw [if_pos hopen]
    rfl
  · simp only [State.work, Function.update_self]
    exact ⟨rfl, rfl⟩

theorem Seats.open (hi : Seats gone s ph) (shm : ShmDetails) {x : WorkerPc c.nsegments}
    (hat : (s.worker j).shm = some g)
    (hworker : s'.worker = Function.update s.worker j x)
    (hseg : s'.seg = Function.update s.seg g shm) (hproxy : s'.proxy = s.proxy)
    (hqueue : s'.shmQueue = s.shmQueue) (hmq : s'.msgqueue = s.msgqueue)
    (hnew : x.shm = some g)
    (hconst : shm.shmId = (s.seg g).shmId ∧ shm.segsize = (s.seg g).segsize)
    (hph : ph g = .opening i j)
    (hfresh : Fresh (s.proxy i) g shm) (hopening : Opening c (s.proxy i).request g shm x) :
    ∃ ph', Seats gone s' ph' := by
  refine hi.workerAt shm (.opening i j) hat hworker hseg hproxy hqueue hmq
    (fun g' h => Option.some.inj (h.symm.trans hnew)) (by rw [if_pos hnew]; rfl) (by rw [hph])
    hconst ⟨hfresh, ?_⟩ rfl
  rw [hworker, Function.update_self]
  exact hopening

/-- What the worker writes leaves the session, in which its side is now at `w'`. -/
theorem Session.write {content : Bytes} {pc : ProxyPc c.nsegments} {shm shm' : ShmDetails}
    {w w' : Writer} (h : Session content pc shm w) (hstatus : shm'.status = shm.status)
    (hfilesize : shm'.filesize = shm.filesize) (hfilelen : shm'.filelenSem = shm.filelenSem)
    (hlen : shm'.readLen = shm.readLen ∨ ∃ n, w = .writing n)
    (htoken : ∀ r, Token content shm.readLen shm.data shm.cachesem shm.proxysem r w →
      Token content shm'.readLen shm'.data shm'.cachesem shm'.proxysem r w') :
    Session content pc shm' w' := by
  obtain ⟨r, hr, ht⟩ := h.token
  refine ⟨hstatus.trans h.status, hfilesize.trans h.filesize,
    fun g hg => hfilelen ▸ h.filelenSem g hg, ⟨r, hr, htoken r ht⟩, fun g n len hpc => ?_, h.waits⟩
  rcases hlen with hlen | ⟨m, rfl⟩
  · exact (h.loaded g n len hpc).trans hlen.symm
  · rw [hpc] at hr
    cases Option.some.inj (hr.trans (congrArg some ht.reader_of_writing))

theorem Seats.copying (hi : Seats gone s ph) (shm : ShmDetails) {content : Bytes} {w : Writer}
    {job : Copy c.nsegments} {pc : CopyPc} (hat : (s.worker j).shm = some g)
    (hworker : s'.worker = Function.update s.worker j (.copy (s.proxy i).request job pc))
    (hseg : s'.seg = Function.update s.seg g shm) (hproxy : s'.proxy = s.proxy)
    (hqueue : s'.shmQueue = s.shmQueue) (hmq : s'.msgqueue = s.msgqueue)
    (hshm : job.shm = g)
    (hconst : shm.shmId = (s.seg g).shmId ∧ shm.segsize = (s.seg g).segsize)
    (hph : (ph g).proxy = some i) (hans : c.answer (s.proxy i).request = some content)
    (hjob : Job c (s.proxy i).request content job) (hcopy : Copying gone job content shm pc w)
    (hsession : Session content (s.proxy i).pc shm w) : ∃ ph', Seats gone s' ph' := by
  have hnew : WorkerPc.shm c (.copy (s.proxy i).request job pc) = some g := by
    have hfil := hjob.filsize
    cases hcopy <;> simp_all [WorkerPc.shm]
  refine hi.workerAt shm (.copying i j) hat hworker hseg hproxy hqueue hmq
    (fun g' h => Option.some.inj (h.symm.trans hnew)) (by rw [if_pos hnew]; rfl) (by rw [hph]; rfl)
    hconst ⟨content, w, job, pc, ?_, hans, hjob, hcopy, hsession⟩ rfl
  rw [hworker, Function.update_self]

theorem Seats.depart (hi : Seats gone s ph) (shm : ShmDetails) {content : Bytes} {w : Writer}
    {x : WorkerPc c.nsegments} (hat : (s.worker j).shm = some g)
    (hworker : s'.worker = Function.update s.worker j x)
    (hseg : s'.seg = Function.update s.seg g shm) (hproxy : s'.proxy = s.proxy)
    (hqueue : s'.shmQueue = s.shmQueue) (hmq : s'.msgqueue = s.msgqueue)
    (hnew : x.shm = none)
    (hconst : shm.shmId = (s.seg g).shmId ∧ shm.segsize = (s.seg g).segsize)
    (hph : (ph g).proxy = some i) (hans : c.answer (s.proxy i).request = some content)
    (hw : w = .out content.length ∨ gone = true ∧ ∃ n, w = .writing n)
    (hsession : Session content (s.proxy i).pc shm w) : ∃ ph', Seats gone s' ph' :=
  hi.workerAt shm (.rest i w) hat hworker hseg hproxy hqueue hmq (fun g' h => by simp [hnew] at h)
    (by simp [hnew, Phase.worker]) (by rw [hph]; rfl) hconst ⟨content, hans, hw, hsession⟩ rfl

/-! ### The steps -/

/-- What is in the local buffer after `pread`. -/
theorem chunk_pread {content buffer : Bytes} {n : ℕ} {k : ℤ} (hk : 0 < k)
    (hle : k ≤ ((content.drop n).length : ℤ)) :
    Chunk content n k.toNat ((content.drop n).take k.toNat ++ buffer.drop k.toNat) := by
  have hlen : k.toNat ≤ (content.drop n).length := by omega
  refine ⟨by omega, ?_, ?_⟩
  · rw [List.length_drop] at hlen
    omega
  · rw [List.take_append_of_le_length (by rw [List.length_take]; omega), List.take_take, min_self]

/-- A call of `pread` before the end of the file reads something, or, where `gone`, it may not. -/
def Reads (gone : Bool) (s : State c) (j : Fin c.nworkers) (ret : ℤ) : Prop :=
  ∀ r job, s.worker j = .copy r job .pread → gone = true ∨ 1 ≤ ret

theorem Seats.idle (hi : Seats gone s ph) {pc x : WorkerPc c.nsegments} (hpc : s.worker j = pc)
    (hworker : s'.worker = Function.update s.worker j x) (hold : pc.shm = none)
    (hnew : x.shm = none) (hproxy : s'.proxy = s.proxy) (hseg : s'.seg = s.seg)
    (hqueue : s'.shmQueue = s.shmQueue) (hmq : s'.msgqueue = s.msgqueue) : Seats gone s' ph := by
  refine hi.keep (fun i => .inl (by rw [hproxy])) (fun j' => ?_) hseg hqueue hmq
  by_cases hj : j' = j
  · rw [hj, hworker, Function.update_self, hpc]
    exact .inr ⟨hold, hnew⟩
  · rw [hworker, Function.update_of_ne hj]
    exact .inl rfl

/-- The first session, when the worker has posted `filelen_sem` and nothing else. -/
theorem Session.posted {content : Bytes} {shm : ShmDetails} {x : Proxy c.nsegments}
    (hfresh : Fresh x g shm) (hstatus : shm.status = 200)
    (hsize : shm.filesize = content.length) :
    Session content x.pc { shm with filelenSem := shm.filelenSem + 1 } (.out 0) := by
  refine ⟨hstatus, hsize, fun _ _ => Nat.succ_pos _, ⟨.out 0, by rw [hfresh.pc]; rfl, ?_⟩,
    fun g n len he => ?_, fun g n he => ?_⟩
  · simp only [hfresh.proxysem, hfresh.cachesem]
    exact .empty (Nat.zero_le _)
  · cases hfresh.pc.symm.trans he
  · cases hfresh.pc.symm.trans he

theorem Job.answer {r : ℕ} {content : Bytes} {job : Copy c.nsegments} (h : Job c r content job) :
    c.answer r = some content := by
  have hfound := h.found
  rw [Config.answer, if_neg (by omega), ← h.fildes, h.file]

theorem Seats.workerRoutine (hi : Seats gone s ph) (hreads : Reads gone s j ret)
    (h : workerRoutine j ret s = some s') : ∃ ph', Seats gone s' ph' := by
  obtain ⟨pc, hpc, hstep⟩ := workerRoutine_cases h
  cases hstep with
  | receive hmq => exact hi.receive hpc hmq
  | lookup r m =>
    cases hat : WorkerPc.shm c (.lookup r m) with
    | some g =>
      obtain ⟨i, hph, hfresh, rfl, rfl⟩ := hi.opened hpc hat rfl
      exact hi.open (s.seg g) (by rw [hpc]; exact hat) rfl (by simp [State.work]) rfl rfl rfl hat
        ⟨rfl, rfl⟩ hph hfresh ⟨rfl, rfl, simplecacheGet_message c _ _⟩
    | none => exact ⟨ph, hi.idle hpc rfl hat hat rfl rfl rfl rfl⟩
  | unnamed | overflow =>
    exact ⟨ph, hi.keep (fun i => .inl rfl) (fun j => .inl rfl) rfl rfl rfl⟩
  | @missing r m fd g hopen hneg =>
    obtain ⟨i, hph, hfresh, rfl, rfl, rfl⟩ := hi.opened hpc hopen rfl
    exact hi.open (s.seg g) (by rw [hpc]; exact hopen) rfl (by simp [State.work]) rfl rfl rfl rfl
      ⟨rfl, rfl⟩ hph hfresh ⟨rfl, if_pos hneg, nofun⟩
  | @found r m fd g hopen hpos =>
    obtain ⟨i, hph, hfresh, rfl, rfl, rfl⟩ := hi.opened hpc hopen rfl
    exact hi.open (s.seg g) (by rw [hpc]; exact hopen) rfl (by simp [State.work]) rfl rfl rfl rfl
      ⟨rfl, rfl⟩ hph hfresh ⟨rfl, rfl, hpos, rfl⟩
  | missingFilesize r g =>
    obtain ⟨i, hph, hfresh, rfl, hans, -⟩ := hi.opened hpc rfl rfl
    exact hi.open _ (by rw [hpc]; rfl) rfl rfl rfl rfl rfl rfl ⟨rfl, rfl⟩ hph
      ⟨hfresh.pc, hfresh.filelenSem, hfresh.proxysem, hfresh.cachesem⟩ ⟨rfl, hans, nofun⟩
  | missingStatus r g =>
    obtain ⟨i, hph, hfresh, rfl, hans, -⟩ := hi.opened hpc rfl rfl
    exact hi.open _ (by rw [hpc]; rfl) rfl rfl rfl rfl rfl rfl ⟨rfl, rfl⟩ hph
      ⟨hfresh.pc, hfresh.filelenSem, hfresh.proxysem, hfresh.cachesem⟩ ⟨rfl, hans, fun _ => rfl⟩
  | missingPost r g =>
    obtain ⟨i, hph, hfresh, rfl, hans, hst⟩ := hi.opened hpc rfl rfl
    exact hi.workerAt _ (.missing i) (by rw [hpc]; rfl) rfl rfl rfl rfl rfl nofun rfl
      (by rw [hph]; rfl) ⟨rfl, rfl⟩ ⟨hans, hst rfl, .inl ⟨hfresh.pc, Nat.succ_pos _⟩⟩ rfl
  | seek r g fd segsize =>
    obtain ⟨i, hph, hfresh, rfl, rfl, hfound, rfl⟩ := hi.opened hpc rfl rfl
    exact hi.open (s.seg g) (by rw [hpc]; rfl) rfl (by simp [State.work]) rfl rfl rfl rfl
      ⟨rfl, rfl⟩ hph hfresh ⟨rfl, rfl, _, ⟨hfound, rfl, rfl, rfl, rfl, rfl⟩, .inl rfl⟩
  | filesize r job =>
    obtain ⟨i, hph, hfresh, rfl, hzero, content, hjob, -⟩ := hi.opened hpc rfl rfl
    exact hi.open _ (by rw [hpc]; rfl) rfl rfl rfl rfl rfl rfl ⟨rfl, rfl⟩ hph
      ⟨hfresh.pc, hfresh.filelenSem, hfresh.proxysem, hfresh.cachesem⟩
      ⟨rfl, hzero, content, hjob, .inr (.inl ⟨rfl, hjob.filsize⟩)⟩
  | status r job =>
    obtain ⟨i, hph, hfresh, rfl, hzero, content, hjob, h | ⟨-, hsize⟩ | ⟨h, -⟩⟩ :=
      hi.opened hpc rfl rfl
    · cases h
    · exact hi.open _ (by rw [hpc]; rfl) rfl rfl rfl rfl rfl rfl ⟨rfl, rfl⟩ hph
        ⟨hfresh.pc, hfresh.filelenSem, hfresh.proxysem, hfresh.cachesem⟩
        ⟨rfl, hzero, content, hjob, .inr (.inr ⟨rfl, hsize, rfl⟩)⟩
    · cases h
  | postFilelen r job =>
    obtain ⟨i, hph, hfresh, rfl, hzero, content, hjob, h | ⟨h, -⟩ | ⟨-, hsize, hstatus⟩⟩ :=
      hi.opened hpc rfl rfl
    · cases h
    · cases h
    · have hses := Session.posted hfresh hstatus hsize
      have hproxy : (ph job.shm).proxy = some i := by rw [hph]; rfl
      by_cases hlt : 0 < content.length
      · exact hi.copying _ (by rw [hpc]; rfl) rfl rfl rfl rfl rfl rfl ⟨rfl, rfl⟩ hproxy hjob.answer
          hjob (.loop (by rw [hzero]; exact hlt)) (hzero ▸ hses)
      · have hend : content.length = 0 := Nat.eq_zero_of_not_pos hlt
        refine hi.depart (w := .out 0) _ (by rw [hpc]; rfl) rfl rfl rfl rfl rfl ?_ ⟨rfl, rfl⟩
          hproxy hjob.answer (.inl (by rw [hend])) hses
        have hfil := hjob.filsize
        simp only [WorkerPc.shm]
        exact if_neg (by omega)
  | more r job hlt =>
    obtain ⟨i, content, w, hph, rfl, hans, hjob, hcopy, hses⟩ := hi.past hpc (if_pos hlt) rfl
    cases hcopy with
    | loop hlt' =>
      exact hi.copying (s.seg job.shm) (by rw [hpc]; exact if_pos hlt) rfl (by simp [State.work])
        rfl rfl rfl rfl ⟨rfl, rfl⟩ (by rw [hph]; rfl) hans hjob (.waitCachesem hlt') hses
  | done r job hle =>
    -- the file has been copied, and the worker is not at the segment any more
    exact ⟨ph, hi.idle hpc rfl (if_neg (Nat.not_lt.mpr hle)) rfl rfl rfl rfl rfl⟩
  | waitCachesem r job hfull =>
    obtain ⟨i, content, w, hph, rfl, hans, hjob, hcopy, hses⟩ := hi.past hpc rfl rfl
    cases hcopy with
    | waitCachesem hlt =>
      refine hi.copying _ (by rw [hpc]; rfl) rfl rfl rfl rfl rfl rfl ⟨rfl, rfl⟩ (by rw [hph]; rfl)
        hans hjob .pread (hses.write rfl rfl rfl (.inl rfl) fun r ht => ?_)
      rw [← Nat.succ_pred_eq_of_pos hfull] at ht
      exact ht.takeEmpty hlt
  | ended r job hge hle hret =>
    obtain ⟨i, content, w, hph, rfl, hans, hjob, hcopy, hses⟩ := hi.past hpc rfl rfl
    cases hcopy with
    | pread =>
      have hlen := c.answer_lt hans
      have hsegsize : job.segsize < 2 ^ 63 := hjob.segsize ▸ c.segsize_lt
      have hzero : ret = 0 := by
        simp only [size] at hret
        omega
      refine hi.depart (s.seg job.shm) (by rw [hpc]; rfl) rfl (by simp [State.work]) rfl rfl rfl rfl
        ⟨rfl, rfl⟩ (by rw [hph]; rfl) hans (.inr ⟨?_, _, rfl⟩) hses
      exact (hreads _ _ hpc).resolve_right (by omega)
  | pread r job hge hle hret =>
    obtain ⟨i, content, w, hph, rfl, hans, hjob, hcopy, hses⟩ := hi.past hpc rfl rfl
    cases hcopy with
    | pread =>
      have hsegsize : job.segsize < 2 ^ 63 := hjob.segsize ▸ c.segsize_lt
      rw [hjob.offset, ← hjob.file] at hle
      rw [hjob.offset, ← hjob.file]
      refine hi.copying (s.seg job.shm) (by rw [hpc]; rfl) rfl (by simp [State.work]) rfl rfl rfl
        rfl ⟨rfl, rfl⟩ (by rw [hph]; rfl) hans
        ⟨hjob.found, hjob.fildes, hjob.file, hjob.segsize, hjob.filsize, rfl⟩
        (.readLen (fun hfits => ?_) fun hgone => ?_) hses
      · -- the value `-1` is more than fits the segment
        have hfits : size ret ≤ job.segsize := hfits
        have hpos : 0 < ret := by
          simp only [size] at hret hfits
          omega
        have hsize : size ret = ret.toNat := by
          simp only [size]
          omega
        rw [hsize]
        exact chunk_pread hpos (hle.trans (Nat.cast_le.mpr (min_le_right _ _)))
      · have hpos := (hreads _ _ hpc).resolve_left (by simp [hgone])
        change size ret ≤ job.segsize
        simp only [size]
        omega
  | readLen r job n =>
    obtain ⟨i, content, w, hph, rfl, hans, hjob, hcopy, hses⟩ := hi.past hpc rfl rfl
    cases hcopy with
    | readLen hchunk hle =>
      exact hi.copying _ (by rw [hpc]; rfl) rfl rfl rfl rfl rfl rfl ⟨rfl, rfl⟩ (by rw [hph]; rfl)
        hans hjob (.data hchunk hle rfl)
        (hses.write rfl rfl rfl (.inr ⟨_, rfl⟩) fun r ht => ht.write)
  | data r job n hfits =>
    obtain ⟨i, content, w, hph, rfl, hans, hjob, hcopy, hses⟩ := hi.past hpc rfl rfl
    cases hcopy with
    | data hchunk _ hreadLen =>
      refine hi.copying _ (by rw [hpc]; rfl) rfl rfl rfl rfl rfl rfl ⟨rfl, rfl⟩ (by rw [hph]; rfl)
        hans hjob (.postProxysem hreadLen) (hses.write rfl rfl rfl (.inl rfl) fun r ht => ?_)
      exact ht.fill (hreadLen.symm ▸ (hchunk hfits).copy _)
  | postProxysem r job n =>
    obtain ⟨i, content, w, hph, rfl, hans, hjob, hcopy, hses⟩ := hi.past hpc rfl rfl
    cases hcopy with
    | postProxysem hreadLen =>
      obtain ⟨r, hr, ht⟩ := hses.token
      have hchunk := ht.chunk_written
      rw [hreadLen] at hchunk
      have hlen := c.answer_lt hans
      have hfits := hchunk.fits
      have hfil := hjob.filsize
      have hmod : (job.bytesRead + n) % 2 ^ 64 = job.bytesRead + n := Nat.mod_eq_of_lt (by omega)
      rw [hjob.offset, hmod]
      have hses' : Session content (s.proxy i).pc
          { s.seg job.shm with proxysem := (s.seg job.shm).proxysem + 1 }
          (.out (job.bytesRead + n)) :=
        hses.write rfl rfl rfl (.inl rfl) fun r ht => hreadLen ▸ ht.postFull
      by_cases hlt : job.bytesRead + n < content.length
      · exact hi.copying _ (by rw [hpc]; rfl) rfl rfl rfl rfl rfl rfl ⟨rfl, rfl⟩ (by rw [hph]; rfl)
          hans ⟨hjob.found, hjob.fildes, hjob.file, hjob.segsize, hjob.filsize, rfl⟩ (.loop hlt)
          hses'
      · refine hi.depart _ (by rw [hpc]; rfl) rfl rfl rfl rfl rfl ?_ ⟨rfl, rfl⟩ (by rw [hph]; rfl)
          hans (.inl ?_) hses'
        · simp only [WorkerPc.shm]
          exact if_neg (by omega)
        · rw [le_antisymm hfits (Nat.not_lt.mp hlt)]

end FileServices.Cache
