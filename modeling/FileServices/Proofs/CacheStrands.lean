import FileServices.Proofs.CacheProgress

/-!
# A side that is left waiting

A side that waits for a semaphore is stranded when the other side has left its loop.  A read of
the cache that ends before the announced size leaves the proxy waiting for `proxysem`, and a
client that goes away before the last chunk leaves the cache waiting for `cachesem`.
-/

namespace FileServices.Cache

open CString Handoff

variable {c : Config} {s s' : State c} {i : Fin c.nproxies} {j : Fin c.nworkers}
  {g : Fin c.nsegments} {gone : Bool} {ph : Fin c.nsegments → Phase c} {ret : ℤ}

/-! ### Stranded sides -/

/-- The request a worker serves. -/
def WorkerPc.request {n : ℕ} : WorkerPc n → Option ℕ
  | .receive => none
  | .lookup r _ | .shmOpen r _ _ | .missing r _ _ | .seek r _ _ _ | .copy r _ _ => some r

/-- The cache is going to post a semaphore of segment `g` for request `r`: it has yet to take the
message, or a worker is on its way to a post. -/
def Attends (s : State c) (g : Fin c.nsegments) (r : ℕ) : Prop :=
  s.crashed = false ∧ ((∃ m ∈ s.msgqueue, m.1 = r ∧ m.2.shmId = c.names g)
    ∨ ∃ j, (s.worker j).request = some r ∧ (s.worker j).shm = some g)

/-- The thread is in `processResponse` and has not left its loop. -/
def ProxyPc.inLoop {n : ℕ} (g : Fin n) (filesize : ℕ) : ProxyPc n → Prop
  | .waitFilelen g' | .status g' | .header g' | .waitProxysem g' _ | .load g' _ | .send g' _ _
  | .postCachesem g' _ => g' = g
  | .loop g' bytesTransferred => g' = g ∧ bytesTransferred < filesize
  | _ => False

/-- A thread of the proxy waits for a semaphore that the cache is not going to post. -/
def ProxyStranded (s : State c) : Prop :=
  ∃ i g, ((s.proxy i).pc = .waitFilelen g ∧ (s.seg g).filelenSem = 0
      ∨ ∃ n, (s.proxy i).pc = .waitProxysem g n ∧ (s.seg g).proxysem = 0)
    ∧ ¬ Attends s g (s.proxy i).request

/-- A worker of the cache waits for a semaphore that the proxy is not going to post. -/
def WorkerStranded (s : State c) : Prop :=
  ∃ j r job, s.worker j = .copy r job .waitCachesem ∧ (s.seg job.shm).cachesem = 0
    ∧ ¬ ∃ i, (s.proxy i).request = r ∧ (s.proxy i).pc.inLoop job.shm (s.seg job.shm).filesize

def Stranded (s : State c) : Prop := ProxyStranded s ∨ WorkerStranded s

/-- No read of the cache ends before the file does. -/
def ReadsOn (s : State c) : Event c → Prop
  | .worker j ret => Reads false s j ret
  | _ => True

/-! ### Who wants a chunk -/

/-- The thread waits, or is going to, for a chunk that is not there. -/
structure Wants (pc : ProxyPc c.nsegments) (shm : ShmDetails) : Prop where
  out : ∃ n, pc.reader = some (.out n) ∧ n < shm.filesize
  told : ∀ g, pc = .waitFilelen g → 0 < shm.filelenSem
  status : shm.status = 200
  proxysem : shm.proxysem = 0
  cachesem : shm.cachesem = 0

/-- What a worker has read fits the segment. -/
def WorkerPc.fits {n : ℕ} : WorkerPc n → Prop
  | .copy _ job (.readLen len) | .copy _ job (.data len) => len ≤ job.segsize
  | _ => True

structure Attended (s : State c) : Prop where
  there : ∀ i g, (s.proxy i).pc.shm = some g → Wants (s.proxy i).pc (s.seg g) →
    ∃ j, (s.worker j).shm = some g
  fits : ∀ j, (s.worker j).fits

theorem attended_init (c : Config) : Attended (State.init c) where
  there := by simp [State.init, ProxyPc.shm]
  fits := fun _ => trivial

/-- A step of the thread `i` to `x` that writes to no segment but its own. -/
theorem Attended.move (hi : Attended s) (hseats : Seats true s ph) {x : Proxy c.nsegments}
    (hproxy : s'.proxy = Function.update s.proxy i x) (hworker : s'.worker = s.worker)
    (hseg : ∀ g, (s.proxy i).pc.shm ≠ some g → s'.seg g = s.seg g)
    (hx : ∀ g, x.pc.shm = some g → Wants x.pc (s'.seg g) →
      (s.proxy i).pc.shm = some g ∧ Wants (s.proxy i).pc (s.seg g)) : Attended s' := by
  refine ⟨fun i' g hheld hwants => ?_, hworker ▸ hi.fits⟩
  rw [hworker]
  by_cases h : i' = i
  · rw [h, hproxy, Function.update_self] at hheld hwants
    obtain ⟨hheld, hwants⟩ := hx g hheld hwants
    exact hi.there i g hheld hwants
  · rw [hproxy, Function.update_of_ne h] at hheld hwants
    have hne : (s.proxy i).pc.shm ≠ some g := fun hown => by
      rw [hseats.holder] at hheld hown
      exact h (Option.some.inj (hheld.symm.trans hown))
    exact hi.there i' g hheld (hseg g hne ▸ hwants)

/-- A step of the worker `j` to `x` that writes to no segment but its own. -/
theorem Attended.work (hi : Attended s) {x : WorkerPc c.nsegments}
    (hworker : s'.worker = Function.update s.worker j x) (hproxy : s'.proxy = s.proxy)
    (hseg : ∀ g, (s.worker j).shm ≠ some g → s'.seg g = s.seg g) (hfits : x.fits)
    (hx : ∀ g, (s.worker j).shm = some g → x.shm = some g
      ∨ ∀ i, (s.proxy i).pc.shm = some g → ¬ Wants (s.proxy i).pc (s'.seg g)) : Attended s' := by
  refine ⟨fun i g hheld hwants => ?_, fun j' => ?_⟩
  · rw [hproxy] at hheld hwants
    by_cases hat : (s.worker j).shm = some g
    · rcases hx g hat with h | h
      · exact ⟨j, by rwa [hworker, Function.update_self]⟩
      · exact absurd hwants (h i hheld)
    · obtain ⟨j', hj'⟩ := hi.there i g hheld (hseg g hat ▸ hwants)
      have hne : j' ≠ j := by
        rintro rfl
        exact hat hj'
      exact ⟨j', by rwa [hworker, Function.update_of_ne hne]⟩
  · by_cases h : j' = j
    · rwa [h, hworker, Function.update_self]
    · rw [hworker, Function.update_of_ne h]
      exact hi.fits j'

/-- A step of the thread `i` to where it waits for no chunk. -/
theorem Attended.busy (hi : Attended s) (hseats : Seats true s ph) {x : Proxy c.nsegments}
    (hproxy : s'.proxy = Function.update s.proxy i x) (hworker : s'.worker = s.worker)
    (hseg : ∀ g, (s.proxy i).pc.shm ≠ some g → s'.seg g = s.seg g)
    (hx : ∀ n, x.pc.reader ≠ some (.out n)) : Attended s' :=
  hi.move hseats hproxy hworker hseg fun _ _ hwants => by
    obtain ⟨n, hr, -⟩ := hwants.out
    exact absurd hr (hx n)

/-- A write to the segment where the thread is leaves the others. -/
theorem put_of_ne {own : Option (Fin c.nsegments)} {shm : ShmDetails} (hown : own = some g) :
    ∀ g', own ≠ some g' → (s.put g shm).seg g' = s.seg g' := fun g' hne =>
  Function.update_of_ne (fun h : g' = g => hne (by rw [h, hown])) _ _

/-! ### The proxy -/

theorem Attended.handleWithCache (hi : Attended s) (hseats : Seats true s ph)
    (h : handleWithCache i ret s = some s') : Attended s' := by
  obtain ⟨pc, hpc, hstep⟩ := handleWithCache_cases h
  cases hstep with
  | mqSend g m =>
    have hown : (s.proxy i).pc.shm = some g := by rw [hpc]; rfl
    obtain ⟨-, hprep⟩ := hseats.prep hown (by rw [hpc]; rfl)
    simp only [Prep, hpc] at hprep
    -- it is told nothing before the message is taken
    refine hi.move hseats rfl rfl (fun _ _ => rfl) fun g' hheld hwants => ?_
    obtain rfl := Option.some.inj hheld
    exact absurd hprep.2.1 (hwants.told g rfl).ne'
  | waitFilelen g hpos =>
    have hown : (s.proxy i).pc.shm = some g := by rw [hpc]; rfl
    refine hi.move hseats rfl rfl (put_of_ne hown) fun g' hheld hwants => ?_
    obtain rfl := Option.some.inj hheld
    have hseg : ∀ shm, ((s.put g shm).goto i (.status g)).seg g = shm := fun _ =>
      Function.update_self ..
    rw [hseg] at hwants
    obtain ⟨hout, -, hstatus, hps, hcs⟩ := hwants
    exact ⟨hown, hpc ▸ ⟨hout, fun _ _ => hpos, hstatus, hps, hcs⟩⟩
  | found g | header g | more g =>
    refine hi.move hseats rfl rfl (fun _ _ => rfl) fun g' hheld hwants => ?_
    obtain rfl := Option.some.inj hheld
    exact ⟨by rw [hpc]; rfl, hpc ▸ ⟨hwants.out, by simp, hwants.status, hwants.4, hwants.5⟩⟩
  | postCachesem g n =>
    have hown : (s.proxy i).pc.shm = some g := by rw [hpc]; rfl
    refine hi.move hseats rfl rfl (put_of_ne hown) fun g' hheld hwants => ?_
    obtain rfl := Option.some.inj hheld
    have hposted := hwants.cachesem
    simp [State.goto, State.put] at hposted
  | initFilelen g | initProxysem g | initCachesem g | waitProxysem g | resetReadLen g
  | resetFilesize g =>
    have hown : (s.proxy i).pc.shm = some g := by rw [hpc]; rfl
    exact hi.busy hseats rfl rfl (put_of_ne hown) (by simp [ProxyPc.reader])
  | _ => exact hi.busy hseats rfl rfl (fun _ _ => rfl) (by simp [ProxyPc.reader])

/-! ### The cache -/

/-- A step of the worker `j` that does not move it off its segment. -/
theorem Attended.remain (hi : Attended s) {x : WorkerPc c.nsegments}
    (hworker : s'.worker = Function.update s.worker j x) (hproxy : s'.proxy = s.proxy)
    (hseg : ∀ g, (s.worker j).shm ≠ some g → s'.seg g = s.seg g) (hfits : x.fits)
    (hx : (s.worker j).shm = none ∨ x.shm = (s.worker j).shm) : Attended s' :=
  hi.work hworker hproxy hseg hfits fun g hat => by
    rcases hx with hnone | hsame
    · rw [hnone] at hat
      cases hat
    · exact .inl (hsame.trans hat)

theorem Attended.workerRoutine (hi : Attended s) (hseats : Seats true s ph)
    (hreads : Reads false s j ret) (h : workerRoutine j ret s = some s') : Attended s' := by
  have hfits := hi.fits j
  obtain ⟨pc, hpc, hstep⟩ := workerRoutine_cases h
  rw [hpc] at hfits
  cases hstep with
  | receive => exact hi.remain rfl rfl (fun _ _ => rfl) trivial (.inl (by rw [hpc]; rfl))
  | lookup | seek => exact hi.remain rfl rfl (fun _ _ => rfl) trivial (.inr (by rw [hpc]; rfl))
  | unnamed | overflow => exact ⟨hi.there, hi.fits⟩
  | missing r m fd hopen | found r m fd hopen =>
    exact hi.remain rfl rfl (fun _ _ => rfl) trivial (.inr (by rw [hpc]; exact hopen.symm))
  | missingFilesize r g | missingStatus r g =>
    have hat : (s.worker j).shm = some g := by rw [hpc]; rfl
    exact hi.remain rfl rfl (put_of_ne hat) trivial (.inr hat.symm)
  | missingPost r g =>
    have hat : (s.worker j).shm = some g := by rw [hpc]; rfl
    obtain ⟨i, -, -, -, -, hstatus⟩ := hseats.opened hpc rfl rfl
    refine hi.work rfl rfl (put_of_ne hat) trivial fun g' hat' => .inr fun i' _ hwants => ?_
    obtain rfl := Option.some.inj (hat.symm.trans hat')
    have hfound := hwants.status
    simp [State.work, State.put, hstatus rfl] at hfound
  | filesize r job | status r job | waitCachesem r job | data r job =>
    have hat : (s.worker j).shm = some job.shm := by rw [hpc]; rfl
    exact hi.remain rfl rfl (put_of_ne hat) trivial (.inr hat.symm)
  | readLen r job n =>
    have hat : (s.worker j).shm = some job.shm := by rw [hpc]; rfl
    exact hi.remain rfl rfl (put_of_ne hat) hfits (.inr hat.symm)
  | postFilelen r job =>
    have hat : (s.worker j).shm = some job.shm := by rw [hpc]; rfl
    obtain ⟨i, -, hfresh, -, hzero, content, hjob, h' | ⟨h', -⟩ | ⟨-, hsize, -⟩⟩ :=
      hseats.opened hpc rfl rfl
    · cases h'
    · cases h'
    refine hi.work rfl rfl (put_of_ne hat) trivial fun g' hat' => ?_
    obtain rfl := Option.some.inj (hat.symm.trans hat')
    by_cases hlt : job.bytesRead < job.filsize
    · exact .inl (if_pos hlt)
    · -- there is nothing to wait for in an empty file
      refine .inr fun i' _ hwants => ?_
      obtain ⟨n, -, hn⟩ := hwants.out
      have hfil := hjob.filsize
      simp only [State.work, State.put, Function.update_self] at hn
      omega
  | more r job hlt =>
    refine hi.remain rfl rfl (fun _ _ => rfl) trivial (.inr ?_)
    rw [hpc]
    exact (if_pos hlt).symm
  | done r job hle =>
    refine hi.remain rfl rfl (fun _ _ => rfl) trivial (.inl ?_)
    rw [hpc]
    exact if_neg (Nat.not_lt.mpr hle)
  | ended r job hge hle hret =>
    have hpos := (hreads r job hpc).resolve_left (by simp)
    obtain ⟨i, content, w, -, -, -, hjob, -, -⟩ := hseats.past hpc rfl rfl
    have hsegsize : job.segsize < 2 ^ 63 := hjob.segsize ▸ c.segsize_lt
    simp only [size] at hret
    omega
  | pread r job hge hle hret =>
    have hpos := (hreads r job hpc).resolve_left (by simp)
    obtain ⟨i, content, w, -, -, -, hjob, -, -⟩ := hseats.past hpc rfl rfl
    have hsegsize : job.segsize < 2 ^ 63 := hjob.segsize ▸ c.segsize_lt
    refine hi.remain rfl rfl (fun _ _ => rfl) ?_ (.inr (by rw [hpc]; rfl))
    change size ret ≤ job.segsize
    simp only [size]
    omega
  | postProxysem r job n =>
    have hat : (s.worker j).shm = some job.shm := by rw [hpc]; rfl
    refine hi.work rfl rfl (put_of_ne hat) trivial fun g' hat' => .inr fun i' _ hwants => ?_
    obtain rfl := Option.some.inj (hat.symm.trans hat')
    have hposted := hwants.proxysem
    simp [State.work, State.put] at hposted

/-! ### Runs -/

/-- What holds in the runs in which reads go on to the end and clients stay for all but the last
chunk. -/
structure Peered (s : State c) : Prop where
  seats : ∃ ph, Seats true s ph
  attended : Attended s
  intact : Intact s

theorem Peered.next (hi : Peered s) {e : Event c} (hallowed : Allowed true s e)
    (hreads : ReadsOn s e) (h : step c e s = some s') : Peered s' := by
  obtain ⟨⟨ph, hseats⟩, hattended, hintact⟩ := hi
  have hseats' := seats_step hseats hallowed h
  cases e with
  | proxy i ret =>
    obtain ⟨hworker, hcrashed⟩ := handleWithCache_cache h
    exact ⟨hseats', hattended.handleWithCache hseats h, by rw [hcrashed]; exact hintact.crashed,
      by rw [hworker]; exact hintact.named⟩
  | worker j ret =>
    simp only [step] at h
    split_ifs at h
    refine ⟨hseats', hattended.workerRoutine hseats hreads h,
      hintact.workerRoutine hseats (fun r job n hpc => ?_) h⟩
    have hfits := hattended.fits j
    rwa [hpc] at hfits
  | spurious i =>
    obtain ⟨m, -, rfl⟩ := Option.map_eq_some_iff.mp h
    exact ⟨hseats', ⟨hattended.there, hattended.fits⟩, hintact.crashed, hintact.named⟩

/-- A worker at a segment serves the request of the thread that holds it. -/
theorem Seats.request (hi : Seats gone s ph) (hheld : (s.proxy i).pc.shm = some g)
    (hat : (s.worker j).shm = some g) :
    (s.worker j).request = some (s.proxy i).request := by
  have hold := (hi.holder i g).mp hheld
  obtain ⟨i', ⟨hph, -, hopening⟩ | ⟨hph, content, w, job, pc, hw, -⟩⟩ := hi.serving hat
  · rw [hph] at hold
    obtain rfl := Option.some.inj hold
    cases hw : s.worker j <;> rw [hw] at hopening
    · exact hopening.elim
    all_goals exact congrArg some hopening.1
  · rw [hph] at hold
    obtain rfl := Option.some.inj hold
    rw [hw]
    rfl

theorem Peered.not_proxyStranded (hi : Peered s) : ¬ ProxyStranded s := by
  obtain ⟨⟨ph, hseats⟩, hattended, hintact⟩ := hi
  rintro ⟨i, g, hwaits, hno⟩
  -- no worker is at the segment, and no message for it is on its way
  have hnone : ∀ j, (s.proxy i).pc.shm = some g → (s.worker j).shm ≠ some g := fun j hheld hat =>
    hno ⟨hintact.crashed, .inr ⟨j, hseats.request hheld hat, hat⟩⟩
  have hlink := hseats.link g
  rcases hwaits with ⟨hpc, hzero⟩ | ⟨n, hpc, hzero⟩
  · have hheld : (s.proxy i).pc.shm = some g := by rw [hpc]; rfl
    rcases hlink.waiting ((hseats.holder i g).mp hheld) hpc with hph | ⟨j, hph⟩ | hpos
    · have hpend := hseats.pend g
      simp only [hph, Phase.isPending, if_true] at hpend
      obtain ⟨m, hm, hname⟩ :=
        List.mem_map.mp (List.count_pos_iff.mp (hpend.symm ▸ Nat.one_pos))
      obtain ⟨g', i', hph', rfl⟩ := hseats.msgs m hm
      obtain rfl : g' = g := c.names_injective hname
      obtain rfl : i = i' := Phase.pending.inj (hph.symm.trans hph')
      exact hno ⟨hintact.crashed, .inl ⟨_, hm, rfl, hname⟩⟩
    · exact hnone j hheld ((hseats.peer j g).mpr (by rw [hph]; rfl))
    · omega
  · have hheld : (s.proxy i).pc.shm = some g := by rw [hpc]; rfl
    rcases hlink.copies ((hseats.holder i g).mp hheld) (by rw [hpc]; rfl) with
      ⟨j, hph⟩ | ⟨w, hph⟩
    · exact hnone j hheld ((hseats.peer j g).mpr (by rw [hph]; rfl))
    · rw [hph] at hlink
      obtain ⟨content, -, hw, hses⟩ := hlink
      have hlt := hses.waits g n hpc
      obtain ⟨r, hr, htoken⟩ := hses.token
      rw [hpc] at hr
      obtain rfl := Option.some.inj hr
      rcases hw with rfl | ⟨-, m, rfl⟩
      · exact (htoken.full_of_lt hlt).ne' hzero
      · -- the worker has left while the buffer was its own
        have hcs : (s.seg g).cachesem = 0 := htoken.empty_of_writing
        obtain ⟨j, hat⟩ := hattended.there i g hheld (hpc ▸ ⟨⟨n, rfl, hses.filesize.symm ▸ hlt⟩,
          (by simp), hses.status, hzero, hcs⟩)
        exact hnone j hheld hat

theorem ProxyPc.inLoop_of_reader {m filesize : ℕ} {g : Fin m} {pc : ProxyPc m} {r : Reader}
    (hheld : pc.shm = some g) (hr : pc.reader = some r) (hout : ∀ n, r = .out n → n < filesize) :
    pc.inLoop g filesize := by
  cases pc with
  | waitFilelen g' | status g' | header g' => exact Option.some.inj hheld
  | waitProxysem g' n | load g' n | send g' n len | postCachesem g' n =>
    exact Option.some.inj hheld
  | loop g' n => exact ⟨Option.some.inj hheld, hout n (Option.some.inj hr).symm⟩
  | _ => simp [ProxyPc.reader] at hr

theorem Peered.not_workerStranded (hi : Peered s) : ¬ WorkerStranded s := by
  obtain ⟨⟨ph, hseats⟩, -, -⟩ := hi
  rintro ⟨j, r, job, hpc, hzero, hno⟩
  obtain ⟨i, content, w, hph, hreq, -, -, hcopy, hses⟩ := hseats.past hpc rfl rfl
  have hheld : (s.proxy i).pc.shm = some job.shm := (hseats.holder i _).mpr (by rw [hph]; rfl)
  refine hno ⟨i, hreq, ?_⟩
  cases hcopy with
  | waitCachesem hlt =>
    obtain ⟨r, hr, htoken⟩ := hses.token
    rw [hzero] at htoken
    refine ProxyPc.inLoop_of_reader hheld hr fun n hn => ?_
    subst hn
    exact hses.filesize.symm ▸ htoken.lt_of_taken

/-- In every run in which a read of the cache returns at least one byte before the announced size
and a client goes away at the last chunk or not at all, no side is stranded. -/
theorem never_stranded
    (h : Trans.Reach (step c) (fun s e => ClientGoes s e ∧ GoesLast s e ∧ ReadsOn s e)
      (State.init c) s) : ¬ Stranded s := by
  have hi : Peered s := h.invariant
    ⟨⟨_, seats_init⟩, attended_init c, rfl, fun _ => trivial⟩
    fun s e s' hi ⟨hgoes, hlast, hreads⟩ hstep =>
      hi.next (allowed_of_goesLast hgoes hlast) hreads hstep
  rintro (hproxy | hworker)
  · exact hi.not_proxyStranded hproxy
  · exact hi.not_workerStranded hworker

def readsOn : Event c → Bool
  | .worker _ ret => 1 ≤ ret
  | _ => true

/-- The worker has gone on to the next request. -/
theorem never_stranded_twoChunks : ∃ s : State twoChunks,
    (s.worker ⟨0, Nat.one_pos⟩).request = some 1 ∧ ¬ Stranded s := by
  have hrun : ((Trans.exec (step twoChunks) (fun s e => goesLast s e && readsOn e)
      goesAtEnd (State.init twoChunks)).any fun s =>
      decide ((s.worker ⟨0, Nat.one_pos⟩).request = some 1)) = true := by
    decide +kernel
  obtain ⟨s, hs, hat⟩ := (Option.any_eq_true _ _).mp hrun
  refine ⟨s, of_decide_eq_true hat, never_stranded (.exec (fun s e he => ?_) _ .refl hs)⟩
  rw [Bool.and_eq_true] at he
  refine ⟨(goesLast_spec he.1).1, (goesLast_spec he.1).2, ?_⟩
  cases e with
  | worker j ret => exact fun _ _ _ => .inr (of_decide_eq_true he.2)
  | proxy i ret | spurious i => trivial

/-- A file that cannot be read leaves the proxy waiting for a chunk. -/
theorem proxy_stranded : ¬ ∀ (c : Config) (s : State c), c.nproxies = 1 → c.nworkers = 1 →
    Trans.Reach (step c) ClientGoes (State.init c) s → ¬ Stranded s := by
  intro h
  have hrun : ((Trans.exec (step twoChunks) (fun _ => Event.leaves)
      (List.replicate 11 (Event.proxy ⟨0, Nat.one_pos⟩ 0)
        ++ List.replicate 10 (Event.worker ⟨0, Nat.one_pos⟩ 0)
        ++ List.replicate 4 (Event.proxy ⟨0, Nat.one_pos⟩ 0)) (State.init twoChunks)).any fun s =>
      decide ((s.proxy ⟨0, Nat.one_pos⟩).pc = .waitProxysem ⟨0, Nat.one_pos⟩ 0)
        && decide ((s.seg ⟨0, Nat.one_pos⟩).proxysem = 0)
        && (decide (s.msgqueue = []) && decide ((s.worker ⟨0, Nat.one_pos⟩).request = none)))
      = true := by
    decide +kernel
  obtain ⟨s, hs, hat⟩ := (Option.any_eq_true _ _).mp hrun
  simp only [Bool.and_eq_true, decide_eq_true_eq] at hat
  obtain ⟨⟨hpc, hps⟩, hmq, hworker⟩ := hat
  have hreach : Trans.Reach (step twoChunks) ClientGoes (State.init twoChunks) s :=
    Trans.Reach.exec (fun s e he => clientGoes_of_leaves he) _ .refl hs
  refine h twoChunks s rfl rfl hreach (.inl ⟨_, _, .inr ⟨0, hpc, hps⟩, ?_⟩)
  rintro ⟨-, ⟨m, hm, -⟩ | ⟨j, hj, -⟩⟩
  · rw [hmq] at hm
    cases hm
  · obtain rfl : j = ⟨0, Nat.one_pos⟩ := Fin.ext (Nat.lt_one_iff.mp j.isLt)
    rw [hworker] at hj
    cases hj

end FileServices.Cache
