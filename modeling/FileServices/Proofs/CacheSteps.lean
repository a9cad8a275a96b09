import FileServices.Cache

/-!
# What a step of the proxy or the cache does

The steps of a thread by where it stands, each with its guard and the state that it leaves.
-/

namespace FileServices.Cache

variable {c : Config} {s s' : State c} {i : Fin c.nproxies} {j : Fin c.nworkers} {ret : ℤ}

/-! ### The proxy -/

/-- The steps of the thread `i` of the proxy. -/
inductive ProxyStep (i : Fin c.nproxies) (ret : ℤ) (s : State c) :
    ProxyPc c.nsegments → State c → Prop
  | idle (hlt : s.next < c.paths.length) : ProxyStep i ret s .idle
      { s with next := s.next + 1, proxy := Function.update s.proxy i ⟨s.next, .lock⟩ }
  | lock (hfree : s.monitor.owner = none) : ProxyStep i ret s .lock
      ({ s with monitor := ⟨some i, s.monitor.asleep⟩ }.goto i .isempty)
  | empty (hq : s.shmQueue = []) : ProxyStep i ret s .isempty (s.goto i .wait)
  | nonempty (hq : s.shmQueue ≠ []) : ProxyStep i ret s .isempty (s.goto i .pop)
  | wait : ProxyStep i ret s .wait ({ s with monitor := s.monitor.sleep i }.goto i .waiting)
  | waiting (hawake : i ∉ s.monitor.asleep) (hfree : s.monitor.owner = none) :
    ProxyStep i ret s .waiting
      ({ s with monitor := ⟨some i, s.monitor.asleep⟩ }.goto i .isempty)
  | pop {g rest} (hq : s.shmQueue = g :: rest) :
    ProxyStep i ret s .pop ({ s with shmQueue := rest }.goto i (.unlock g))
  | unlock (g) : ProxyStep i ret s (.unlock g)
      ({ s with monitor := s.monitor.unlock }.goto i (.broadcast g))
  | broadcast (g) : ProxyStep i ret s (.broadcast g)
      ({ s with monitor := s.monitor.broadcast }.goto i (.fill g))
  | fill (g) : ProxyStep i ret s (.fill g)
      (s.goto i (.initFilelen g ⟨strncpy maxRequestLen (c.paths.getD (s.proxy i).request []),
        (s.seg g).shmId, (s.seg g).segsize⟩))
  | initFilelen (g request) : ProxyStep i ret s (.initFilelen g request)
      ((s.put g { s.seg g with filelenSem := 0 }).goto i (.initProxysem g request))
  | initProxysem (g request) : ProxyStep i ret s (.initProxysem g request)
      ((s.put g { s.seg g with proxysem := 0 }).goto i (.initCachesem g request))
  | initCachesem (g request) : ProxyStep i ret s (.initCachesem g request)
      ((s.put g { s.seg g with cachesem := 1 }).goto i (.mqSend g request))
  | mqSend (g request) (hlt : s.msgqueue.length < mqMaxmsg) :
    ProxyStep i ret s (.mqSend g request)
      ({ s with msgqueue := s.msgqueue ++ [((s.proxy i).request, request)] }.goto i
        (.waitFilelen g))
  | waitFilelen (g) (hpos : 0 < (s.seg g).filelenSem) : ProxyStep i ret s (.waitFilelen g)
      ((s.put g { s.seg g with filelenSem := (s.seg g).filelenSem - 1 }).goto i (.status g))
  | found (g) (hstatus : (s.seg g).status = 200) :
    ProxyStep i ret s (.status g) (s.goto i (.header g))
  | missing (g) (hstatus : (s.seg g).status = 404) :
    ProxyStep i ret s (.status g) (s.goto i (.queue g .notFound .readLen))
  | untold (g) (hfound : (s.seg g).status ≠ 200) (hmissing : (s.seg g).status ≠ 404) :
    ProxyStep i ret s (.status g) (s.finish i 0)
  | header (g) : ProxyStep i ret s (.header g)
      ((s.tell i (.header gfOk (s.seg g).filesize)).goto i (.loop g 0))
  | more (g n) (hlt : n < (s.seg g).filesize) :
    ProxyStep i ret s (.loop g n) (s.goto i (.waitProxysem g n))
  | done (g n) (hle : (s.seg g).filesize ≤ n) :
    ProxyStep i ret s (.loop g n) (s.goto i (.queue g (.sent n) .readLen))
  | waitProxysem (g n) (hpos : 0 < (s.seg g).proxysem) : ProxyStep i ret s (.waitProxysem g n)
      ((s.put g { s.seg g with proxysem := (s.seg g).proxysem - 1 }).goto i (.load g n))
  | load (g n) : ProxyStep i ret s (.load g n) (s.goto i (.send g n (s.seg g).readLen))
  | failed (g n readLen) (hret : size ret = 0) :
    ProxyStep i ret s (.send g n readLen) (s.goto i (.queue g (.sent n) .readLen))
  | send (g n readLen) (hret : size ret ≠ 0) : ProxyStep i ret s (.send g n readLen)
      ((s.tell i (.data (((s.seg g).data.take readLen).take ret.toNat))).goto i
        (.postCachesem g ((n + size ret) % 2 ^ 64)))
  | postCachesem (g n) : ProxyStep i ret s (.postCachesem g n)
      ((s.put g { s.seg g with cachesem := (s.seg g).cachesem + 1 }).goto i (.loop g n))
  | resetReadLen (g branch) : ProxyStep i ret s (.queue g branch .readLen)
      ((s.put g { s.seg g with readLen := 0 }).goto i (.queue g branch .filesize))
  | resetFilesize (g branch) : ProxyStep i ret s (.queue g branch .filesize)
      ((s.put g { s.seg g with filesize := 0 }).goto i (.queue g branch .lock))
  | queueLock (g branch) (hfree : s.monitor.owner = none) :
    ProxyStep i ret s (.queue g branch .lock)
      ({ s with monitor := ⟨some i, s.monitor.asleep⟩ }.goto i (.queue g branch .enqueue))
  | enqueue (g branch) : ProxyStep i ret s (.queue g branch .enqueue)
      ({ s with shmQueue := s.shmQueue ++ [g] }.goto i (.queue g branch .unlock))
  | queueUnlock (g branch) : ProxyStep i ret s (.queue g branch .unlock)
      ({ s with monitor := s.monitor.unlock }.goto i (.queue g branch .broadcast))
  | sent (g n) : ProxyStep i ret s (.queue g (.sent n) .broadcast)
      ({ s with monitor := s.monitor.broadcast }.finish i n)
  | unsent (g) : ProxyStep i ret s (.queue g .notFound .broadcast)
      ({ s with monitor := s.monitor.broadcast }.goto i .notFound)
  | notFound : ProxyStep i ret s .notFound
      ((s.tell i (.header gfFileNotFound 0)).finish i (size ret))

theorem queueMemory_cases {g : Fin c.nsegments} {branch : Branch} {qpc : QueuePc}
    (h : queueMemory i g branch s qpc = some s') :
    ProxyStep i ret s (.queue g branch qpc) s' := by
  cases qpc with
  | readLen =>
    obtain rfl := Option.some.inj h
    exact .resetReadLen g branch
  | filesize =>
    obtain rfl := Option.some.inj h
    exact .resetFilesize g branch
  | lock =>
    obtain ⟨m, hm, rfl⟩ := Option.map_eq_some_iff.mp h
    obtain ⟨hfree, rfl⟩ := Monitor.lock_eq_some.mp hm
    exact .queueLock g branch hfree
  | enqueue =>
    obtain rfl := Option.some.inj h
    exact .enqueue g branch
  | unlock =>
    obtain rfl := Option.some.inj h
    exact .queueUnlock g branch
  | broadcast =>
    cases branch with
    | sent n =>
      obtain rfl := Option.some.inj h
      exact .sent g n
    | notFound =>
      obtain rfl := Option.some.inj h
      exact .unsent g

theorem processResponse_cases (h : processResponse i ret s = some s') :
    ProxyStep i ret s (s.proxy i).pc s' := by
  unfold processResponse at h
  cases hpc : (s.proxy i).pc with
  | waitFilelen g =>
    simp only [hpc] at h
    split_ifs at h with hpos
    obtain rfl := Option.some.inj h
    exact .waitFilelen g hpos
  | status g =>
    simp only [hpc] at h
    split_ifs at h with hfound hmissing <;> obtain rfl := Option.some.inj h
    · exact .found g hfound
    · exact .missing g hmissing
    · exact .untold g hfound hmissing
  | header g =>
    simp only [hpc, Option.some.injEq] at h
    exact h ▸ .header g
  | loop g n =>
    simp only [hpc, Option.some.injEq] at h
    subst h
    split_ifs with hlt
    · exact .more g n hlt
    · exact .done g n (Nat.not_lt.mp hlt)
  | waitProxysem g n =>
    simp only [hpc] at h
    split_ifs at h with hpos
    obtain rfl := Option.some.inj h
    exact .waitProxysem g n hpos
  | load g n =>
    simp only [hpc, Option.some.injEq] at h
    exact h ▸ .load g n
  | send g n readLen =>
    simp only [hpc, Nat.le_zero] at h
    split_ifs at h with hret <;> obtain rfl := Option.some.inj h
    · exact .failed g n readLen hret
    · exact .send g n readLen hret
  | postCachesem g n =>
    simp only [hpc, Option.some.injEq] at h
    exact h ▸ .postCachesem g n
  | queue g branch qpc =>
    simp only [hpc] at h
    exact queueMemory_cases h
  | notFound =>
    simp only [hpc, Option.some.injEq] at h
    exact h ▸ .notFound
  | _ => simp [hpc] at h

/-- What a step of a thread of the proxy is, by where the thread stands. -/
theorem handleWithCache_cases (h : handleWithCache i ret s = some s') :
    ∃ pc, (s.proxy i).pc = pc ∧ ProxyStep i ret s pc s' := by
  refine ⟨_, rfl, ?_⟩
  unfold handleWithCache at h
  cases hpc : (s.proxy i).pc with
  | idle =>
    simp only [hpc] at h
    split_ifs at h with hlt
    obtain rfl := Option.some.inj h
    exact .idle hlt
  | lock =>
    simp only [hpc] at h
    obtain ⟨m, hm, rfl⟩ := Option.map_eq_some_iff.mp h
    obtain ⟨hfree, rfl⟩ := Monitor.lock_eq_some.mp hm
    exact .lock hfree
  | isempty =>
    simp only [hpc, Option.some.injEq] at h
    subst h
    split_ifs with hq
    · exact .empty (stequeIsempty_iff.mp hq)
    · exact .nonempty fun hnil => hq (stequeIsempty_iff.mpr hnil)
  | wait =>
    simp only [hpc, Option.some.injEq] at h
    exact h ▸ .wait
  | waiting =>
    simp only [hpc] at h
    obtain ⟨m, hm, rfl⟩ := Option.map_eq_some_iff.mp h
    obtain ⟨hawake, hfree, rfl⟩ := Monitor.resume_eq_some.mp hm
    exact .waiting hawake hfree
  | pop =>
    simp only [hpc] at h
    obtain ⟨⟨g, rest⟩, hpop, rfl⟩ := Option.map_eq_some_iff.mp h
    exact .pop (stequePop_eq_some.mp hpop)
  | unlock g =>
    simp only [hpc, Option.some.injEq] at h
    exact h ▸ .unlock g
  | broadcast g =>
    simp only [hpc, Option.some.injEq] at h
    exact h ▸ .broadcast g
  | fill g =>
    simp only [hpc, Option.some.injEq] at h
    exact h ▸ .fill g
  | initFilelen g request =>
    simp only [hpc, Option.some.injEq] at h
    exact h ▸ .initFilelen g request
  | initProxysem g request =>
    simp only [hpc, Option.some.injEq] at h
    exact h ▸ .initProxysem g request
  | initCachesem g request =>
    simp only [hpc, Option.some.injEq] at h
    exact h ▸ .initCachesem g request
  | mqSend g request =>
    simp only [hpc] at h
    split_ifs at h with hlt
    obtain rfl := Option.some.inj h
    exact .mqSend g request hlt
  | _ =>
    simp only [hpc] at h
    exact hpc ▸ processResponse_cases h

/-! ### The cache -/

/-- The steps of the worker `j` of the cache. -/
inductive WorkerStep (j : Fin c.nworkers) (ret : ℤ) (s : State c) :
    WorkerPc c.nsegments → State c → Prop
  | receive {request msg rest} (hmq : s.msgqueue = (request, msg) :: rest) :
    WorkerStep j ret s .receive ({ s with msgqueue := rest }.work j (.lookup request msg))
  | lookup (request msg) : WorkerStep j ret s (.lookup request msg)
      (s.work j (.shmOpen request msg (simplecacheGet c.items msg.path)))
  | unnamed (request msg fildes) (hopen : shmOpen c msg.shmId = none) :
    WorkerStep j ret s (.shmOpen request msg fildes) { s with crashed := true }
  | missing (request msg fildes) {g} (hopen : shmOpen c msg.shmId = some g) (hneg : fildes < 0) :
    WorkerStep j ret s (.shmOpen request msg fildes) (s.work j (.missing request g .filesize))
  | found (request msg fildes) {g} (hopen : shmOpen c msg.shmId = some g) (hpos : 0 ≤ fildes) :
    WorkerStep j ret s (.shmOpen request msg fildes)
      (s.work j (.seek request g fildes msg.segsize))
  | missingFilesize (request g) : WorkerStep j ret s (.missing request g .filesize)
      ((s.put g { s.seg g with filesize := size (-1) }).work j (.missing request g .status))
  | missingStatus (request g) : WorkerStep j ret s (.missing request g .status)
      ((s.put g { s.seg g with status := 404 }).work j (.missing request g .postFilelen))
  | missingPost (request g) : WorkerStep j ret s (.missing request g .postFilelen)
      ((s.put g { s.seg g with filelenSem := (s.seg g).filelenSem + 1 }).work j .receive)
  | seek (request g fildes segsize) : WorkerStep j ret s (.seek request g fildes segsize)
      (s.work j (.copy request ⟨g, fildes, segsize, (c.file fildes).length, 0, 0,
        List.replicate segsize 0⟩ .filesize))
  | filesize (request job) : WorkerStep j ret s (.copy request job .filesize)
      ((s.put job.shm { s.seg job.shm with filesize := job.filsize }).work j
        (.copy request job .status))
  | status (request job) : WorkerStep j ret s (.copy request job .status)
      ((s.put job.shm { s.seg job.shm with status := 200 }).work j
        (.copy request job .postFilelen))
  | postFilelen (request job) : WorkerStep j ret s (.copy request job .postFilelen)
      ((s.put job.shm { s.seg job.shm with filelenSem := (s.seg job.shm).filelenSem + 1 }).work j
        (.copy request job .loop))
  | more (request job) (hlt : job.bytesRead < job.filsize) :
    WorkerStep j ret s (.copy request job .loop) (s.work j (.copy request job .waitCachesem))
  | done (request job) (hle : job.filsize ≤ job.bytesRead) :
    WorkerStep j ret s (.copy request job .loop) (s.work j .receive)
  | waitCachesem (request job) (hpos : 0 < (s.seg job.shm).cachesem) :
    WorkerStep j ret s (.copy request job .waitCachesem)
      ((s.put job.shm { s.seg job.shm with cachesem := (s.seg job.shm).cachesem - 1 }).work j
        (.copy request job .pread))
  | ended (request job) (hge : -1 ≤ ret)
      (hle : ret ≤ min job.segsize ((c.file job.fildes).drop job.offset).length)
      (hret : size ret = 0) :
    WorkerStep j ret s (.copy request job .pread) (s.work j .receive)
  | pread (request job) (hge : -1 ≤ ret)
      (hle : ret ≤ min job.segsize ((c.file job.fildes).drop job.offset).length)
      (hret : size ret ≠ 0) :
    WorkerStep j ret s (.copy request job .pread) (s.work j (.copy request
      { job with buffer := ((c.file job.fildes).drop job.offset).take ret.toNat
          ++ job.buffer.drop ret.toNat } (.readLen (size ret))))
  | readLen (request job n) : WorkerStep j ret s (.copy request job (.readLen n))
      ((s.put job.shm { s.seg job.shm with readLen := n }).work j (.copy request job (.data n)))
  | data (request job n) (hfits : n ≤ job.segsize) :
    WorkerStep j ret s (.copy request job (.data n))
      ((s.put job.shm { s.seg job.shm with
        data := job.buffer.take n ++ (s.seg job.shm).data.drop n }).work j
        (.copy request job (.postProxysem n)))
  | overflow (request job n) (hlt : job.segsize < n) :
    WorkerStep j ret s (.copy request job (.data n)) { s with crashed := true }
  | postProxysem (request job n) : WorkerStep j ret s (.copy request job (.postProxysem n))
      ((s.put job.shm { s.seg job.shm with proxysem := (s.seg job.shm).proxysem + 1 }).work j
        (.copy request { job with
          bytesRead := (job.bytesRead + n) % 2 ^ 64
          offset := (job.offset + n) % 2 ^ 64 } .loop))

theorem copyFile_cases {request : ℕ} {job : Copy c.nsegments} {cpc : CopyPc}
    (h : copyFile j ret request job s cpc = some s') :
    WorkerStep j ret s (.copy request job cpc) s' := by
  cases cpc with
  | filesize =>
    obtain rfl := Option.some.inj h
    exact .filesize request job
  | status =>
    obtain rfl := Option.some.inj h
    exact .status request job
  | postFilelen =>
    obtain rfl := Option.some.inj h
    exact .postFilelen request job
  | loop =>
    obtain rfl := Option.some.inj h
    split_ifs with hlt
    · exact .more request job hlt
    · exact .done request job (Nat.not_lt.mp hlt)
  | waitCachesem =>
    simp only [copyFile] at h
    split_ifs at h with hpos
    obtain rfl := Option.some.inj h
    exact .waitCachesem request job hpos
  | pread =>
    simp only [copyFile, Nat.le_zero] at h
    split_ifs at h with hle hret <;> obtain rfl := Option.some.inj h
    · exact .ended request job hle.1 hle.2 hret
    · exact .pread request job hle.1 hle.2 hret
  | readLen n =>
    obtain rfl := Option.some.inj h
    exact .readLen request job n
  | data n =>
    simp only [copyFile] at h
    split_ifs at h with hfits <;> obtain rfl := Option.some.inj h
    · exact .data request job n hfits
    · exact .overflow request job n (Nat.not_le.mp hfits)
  | postProxysem n =>
    obtain rfl := Option.some.inj h
    exact .postProxysem request job n

theorem sendResponse_cases (h : sendResponse j ret s = some s') :
    WorkerStep j ret s (s.worker j) s' := by
  unfold sendResponse at h
  cases hpc : s.worker j with
  | shmOpen request msg fildes =>
    simp only [hpc] at h
    cases hopen : shmOpen c msg.shmId with
    | none =>
      simp only [hopen, Option.some.injEq] at h
      exact h ▸ .unnamed request msg fildes hopen
    | some g =>
      simp only [hopen, Option.some.injEq] at h
      subst h
      split_ifs with hneg
      · exact .missing request msg fildes hopen hneg
      · exact .found request msg fildes hopen (Int.not_lt.mp hneg)
  | missing request g mpc =>
    simp only [hpc] at h
    cases mpc <;> obtain rfl := Option.some.inj h
    · exact .missingFilesize request g
    · exact .missingStatus request g
    · exact .missingPost request g
  | seek request g fildes segsize =>
    simp only [hpc, Option.some.injEq] at h
    exact h ▸ .seek request g fildes segsize
  | copy request job cpc =>
    simp only [hpc] at h
    exact copyFile_cases h
  | _ => simp [hpc] at h

/-- What a step of a worker of the cache is, by where the worker stands. -/
theorem workerRoutine_cases (h : workerRoutine j ret s = some s') :
    ∃ pc, s.worker j = pc ∧ WorkerStep j ret s pc s' := by
  refine ⟨_, rfl, ?_⟩
  unfold workerRoutine at h
  cases hpc : s.worker j with
  | receive =>
    simp only [hpc] at h
    cases hmq : s.msgqueue with
    | nil => simp [hmq] at h
    | cons m rest =>
      simp only [hmq, Option.some.injEq] at h
      exact h ▸ .receive hmq
  | lookup request msg =>
    simp only [hpc, Option.some.injEq] at h
    exact h ▸ .lookup request msg
  | _ =>
    simp only [hpc] at h
    exact hpc ▸ sendResponse_cases h

end FileServices.Cache
