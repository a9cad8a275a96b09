import FileServices.Proofs.CacheSession
import FileServices.Proofs.CacheSteps

/-!
# The steps of the proxy

Each step of a thread of the proxy leaves every segment in some phase.
-/

namespace FileServices.Cache

open CString Handoff

variable {c : Config} {s s' : State c} {i : Fin c.nproxies} {j : Fin c.nworkers}
  {g : Fin c.nsegments} {gone : Bool} {ph : Fin c.nsegments → Phase c} {ret : ℤ}

/-! ### What a thread of the proxy finds at its segment -/

/-- The thread has been told that there is a file, and is not through with it. -/
def ProxyPc.copies {n : ℕ} : ProxyPc n → Bool
  | .header _ | .loop _ _ | .waitProxysem _ _ | .load _ _ | .send _ _ _ | .postCachesem _ _ => true
  | _ => false

/-- The thread has not sent its message. -/
def ProxyPc.prepares {n : ℕ} : ProxyPc n → Bool
  | .unlock _ | .broadcast _ | .fill _ | .initFilelen _ _ | .initProxysem _ _ | .initCachesem _ _
  | .mqSend _ _ => true
  | _ => false

/-- The phases in which thread `i` has the segment. -/
inductive Phase.Of (i : Fin c.nproxies) : Phase c → Prop
  | prep : Of i (.prep i)
  | pending : Of i (.pending i)
  | opening (j : Fin c.nworkers) : Of i (.opening i j)
  | copying (j : Fin c.nworkers) : Of i (.copying i j)
  | rest (w : Writer) : Of i (.rest i w)
  | missing : Of i (.missing i)
  | leaving : Of i (.leaving i)

theorem Phase.of_proxy {f : Phase c} (h : f.proxy = some i) : f.Of i := by
  cases f <;> cases h <;> constructor

section Held

variable {f : Phase c} {shm : ShmDetails} {proxy : Fin c.nproxies → Proxy c.nsegments}
  {worker : Fin c.nworkers → WorkerPc c.nsegments}

/-- A thread that has not sent its message holds its segment alone. -/
theorem Link.prep (h : Link c gone g proxy worker shm f) (hf : f.proxy = some i)
    (hpc : (proxy i).pc.prepares = true) : f = .prep i ∧ Prep c g (proxy i) shm := by
  cases Phase.of_proxy hf with
  | prep => exact ⟨rfl, h⟩
  | pending => simp [h.pc, ProxyPc.prepares] at hpc
  | opening j => simp [h.1.pc, ProxyPc.prepares] at hpc
  | copying j =>
    obtain ⟨content, w, job, cpc, -, -, -, -, hsession⟩ := h
    obtain ⟨r, hr, -⟩ := hsession.token
    cases hp : (proxy i).pc <;> simp_all [ProxyPc.reader, ProxyPc.prepares]
  | rest w =>
    obtain ⟨content, -, -, hsession⟩ := h
    obtain ⟨r, hr, -⟩ := hsession.token
    cases hp : (proxy i).pc <;> simp_all [ProxyPc.reader, ProxyPc.prepares]
  | missing => rcases h.2.2 with ⟨h, -⟩ | h <;> simp [h, ProxyPc.prepares] at hpc
  | leaving =>
    obtain ⟨branch, pc, h, -⟩ := h
    simp [h, ProxyPc.prepares] at hpc

/-- A thread that is giving its segment back holds it alone. -/
theorem Link.leaving (h : Link c gone g proxy worker shm f) (hf : f.proxy = some i)
    {branch : Branch} {qpc : QueuePc} (hpc : (proxy i).pc = .queue g branch qpc) :
    f = .leaving i ∧ branch.Ok c gone (proxy i).request := by
  cases Phase.of_proxy hf with
  | prep => simp [Link, Prep, hpc] at h
  | pending => cases hpc.symm.trans h.pc
  | opening j => cases hpc.symm.trans h.1.pc
  | copying j =>
    obtain ⟨content, w, job, cpc, -, -, -, -, hsession⟩ := h
    obtain ⟨r, hr, -⟩ := hsession.token
    simp [hpc, ProxyPc.reader] at hr
  | rest w =>
    obtain ⟨content, -, -, hsession⟩ := h
    obtain ⟨r, hr, -⟩ := hsession.token
    simp [hpc, ProxyPc.reader] at hr
  | missing => rcases h.2.2 with ⟨h, -⟩ | h <;> cases hpc.symm.trans h
  | leaving =>
    obtain ⟨branch', qpc', h, hok⟩ := h
    cases hpc.symm.trans h
    exact ⟨rfl, hok⟩

/-- A thread that waits for an answer has asked for it, or a worker works on it, or it is there. -/
theorem Link.waiting (h : Link c gone g proxy worker shm f) (hf : f.proxy = some i)
    (hpc : (proxy i).pc = .waitFilelen g) :
    f = .pending i ∨ (∃ j, f = .opening i j) ∨ 0 < shm.filelenSem := by
  cases Phase.of_proxy hf with
  | prep => simp [Link, Prep, hpc] at h
  | pending => exact .inl rfl
  | opening j => exact .inr (.inl ⟨j, rfl⟩)
  | copying j =>
    obtain ⟨content, w, job, cpc, -, -, -, -, hsession⟩ := h
    exact .inr (.inr (hsession.filelenSem g hpc))
  | rest w =>
    obtain ⟨content, -, -, hsession⟩ := h
    exact .inr (.inr (hsession.filelenSem g hpc))
  | missing =>
    rcases h.2.2 with ⟨-, hpos⟩ | h
    · exact .inr (.inr hpos)
    · cases hpc.symm.trans h
  | leaving =>
    obtain ⟨branch, qpc, h, -⟩ := h
    cases hpc.symm.trans h

/-- A thread in the copy loop has a worker in its own, or one that has left it. -/
theorem Link.copies (h : Link c gone g proxy worker shm f) (hf : f.proxy = some i)
    (hpc : (proxy i).pc.copies = true) :
    (∃ j, f = .copying i j) ∨ ∃ w, f = .rest i w := by
  cases Phase.of_proxy hf with
  | prep =>
    simp only [Link, Prep] at h
    cases hp : (proxy i).pc <;> simp_all [ProxyPc.copies]
  | pending => simp [h.pc, ProxyPc.copies] at hpc
  | opening j => simp [h.1.pc, ProxyPc.copies] at hpc
  | copying j => exact .inl ⟨j, rfl⟩
  | rest w => exact .inr ⟨w, rfl⟩
  | missing => rcases h.2.2 with ⟨h, -⟩ | h <;> simp [h, ProxyPc.copies] at hpc
  | leaving =>
    obtain ⟨branch, qpc, h, -⟩ := h
    simp [h, ProxyPc.copies] at hpc

/-- A thread that has the answer is told that there is no file, or it is in a session with the
cache, and what keeps the session keeps the phase. -/
theorem Link.told (h : Link c gone g proxy worker shm f) (hf : f.proxy = some i)
    (hpc : (proxy i).pc.reader.isSome = true)
    (hposted : (proxy i).pc = .waitFilelen g → 0 < shm.filelenSem) :
    (f = .missing i ∧ c.answer (proxy i).request = none ∧ shm.status = 404
      ∧ (proxy i).pc.copies = false)
    ∨ ∃ content w, c.answer (proxy i).request = some content
      ∧ Session content (proxy i).pc shm w ∧ f.isPending = false
      ∧ (w = .out content.length → f = .rest i w)
      ∧ ∀ proxy' shm', (proxy' i).request = (proxy i).request → shm'.readLen = shm.readLen →
        Session content (proxy' i).pc shm' w → Link c gone g proxy' worker shm' f := by
  cases Phase.of_proxy hf with
  | prep =>
    simp only [Link, Prep] at h
    cases hp : (proxy i).pc <;> simp_all [ProxyPc.reader]
  | pending =>
    have := hposted h.pc
    have := h.filelenSem
    omega
  | opening j =>
    have := hposted h.1.pc
    have := h.1.filelenSem
    omega
  | missing =>
    refine .inl ⟨rfl, h.1, h.2.1, ?_⟩
    rcases h.2.2 with ⟨h, -⟩ | h <;> rw [h] <;> rfl
  | leaving =>
    obtain ⟨branch, pc, h, -⟩ := h
    simp [h, ProxyPc.reader] at hpc
  | copying j =>
    obtain ⟨content, w, job, cpc, hw, hans, hjob, hcopy, hsession⟩ := h
    refine .inr ⟨content, w, hans, hsession, rfl, fun hend => ?_,
      fun proxy' shm' hreq hlen hs' => ?_⟩
    · -- a worker that is at the segment has not posted all of the file
      cases hcopy with
      | loop hlt | waitCachesem hlt =>
        have := Writer.out.inj hend
        omega
      | pread | readLen | data | postProxysem => cases hend
    · refine ⟨content, w, job, cpc, by rw [hreq, hw], by rw [hreq, hans], hreq ▸ hjob, ?_, hs'⟩
      cases hcopy with
      | loop hlt => exact .loop hlt
      | waitCachesem hlt => exact .waitCachesem hlt
      | pread => exact .pread
      | readLen h hfits => exact .readLen h hfits
      | data h hfits hl => exact .data h hfits (hlen.trans hl)
      | postProxysem hl => exact .postProxysem (hlen.trans hl)
  | rest w =>
    obtain ⟨content, hans, hw, hsession⟩ := h
    exact .inr ⟨content, w, hans, hsession, rfl, fun _ => rfl, fun proxy' shm' hreq _ hs' =>
      ⟨content, by rw [hreq, hans], hw, hs'⟩⟩

/-- In the copy loop there is a session. -/
theorem Link.session (h : Link c gone g proxy worker shm f) (hf : f.proxy = some i)
    (hpc : (proxy i).pc.copies = true) :
    ∃ content w, c.answer (proxy i).request = some content
      ∧ Session content (proxy i).pc shm w ∧ f.isPending = false
      ∧ (w = .out content.length → f = .rest i w)
      ∧ ∀ proxy' shm', (proxy' i).request = (proxy i).request → shm'.readLen = shm.readLen →
        Session content (proxy' i).pc shm' w → Link c gone g proxy' worker shm' f := by
  have hr : (proxy i).pc.reader.isSome = true := by
    cases hp : (proxy i).pc <;> simp_all [ProxyPc.copies, ProxyPc.reader]
  rcases h.told hf hr fun h => by simp [h, ProxyPc.copies] at hpc with ⟨-, -, -, h⟩ | h
  · simp [h] at hpc
  · exact h

end Held

theorem Seats.prep (hi : Seats gone s ph) (hheld : (s.proxy i).pc.shm = some g)
    (hpc : (s.proxy i).pc.prepares = true) : ph g = .prep i ∧ Prep c g (s.proxy i) (s.seg g) :=
  (hi.link g).prep ((hi.holder i g).mp hheld) hpc

theorem Seats.leaving (hi : Seats gone s ph) {branch : Branch} {qpc : QueuePc}
    (hpc : (s.proxy i).pc = .queue g branch qpc) (hheld : (s.proxy i).pc.shm = some g) :
    ph g = .leaving i ∧ branch.Ok c gone (s.proxy i).request :=
  (hi.link g).leaving ((hi.holder i g).mp hheld) hpc

theorem Seats.told (hi : Seats gone s ph) {pc : ProxyPc c.nsegments} (hpc : (s.proxy i).pc = pc)
    (hheld : pc.shm = some g) (hreader : pc.reader.isSome = true)
    (hposted : pc = .waitFilelen g → 0 < (s.seg g).filelenSem) :
    (ph g = .missing i ∧ c.answer (s.proxy i).request = none ∧ (s.seg g).status = 404)
    ∨ ∃ content w, Session content pc (s.seg g) w
      ∧ ∀ proxy' shm', (proxy' i).request = (s.proxy i).request →
        shm'.readLen = (s.seg g).readLen → Session content (proxy' i).pc shm' w →
          Link c gone g proxy' s.worker shm' (ph g) := by
  subst hpc
  rcases (hi.link g).told ((hi.holder i g).mp hheld) hreader hposted with
    ⟨hph, hans, hstatus, -⟩ | ⟨content, w, -, hses, -, -, hback⟩
  · exact .inl ⟨hph, hans, hstatus⟩
  · exact .inr ⟨content, w, hses, hback⟩

/-- The status that a thread looks at says whether there is a file. -/
theorem Seats.status_told (hi : Seats gone s ph) (hpc : (s.proxy i).pc = .status g) :
    (s.seg g).status = 404 ∧ c.answer (s.proxy i).request = none ∧ ph g = .missing i
      ∨ (s.seg g).status = 200 := by
  rcases hi.told hpc rfl rfl nofun with ⟨hph, hans, hstatus⟩ | ⟨content, w, hses, -⟩
  · exact .inl ⟨hstatus, hans, hph⟩
  · exact .inr hses.status

theorem Seats.session (hi : Seats gone s ph) {pc : ProxyPc c.nsegments}
    (hpc : (s.proxy i).pc = pc) (hheld : pc.shm = some g) (hcopies : pc.copies = true) :
    ∃ content w, c.answer (s.proxy i).request = some content ∧ Session content pc (s.seg g) w
      ∧ (w = .out content.length → ph g = .rest i w) := by
  subst hpc
  obtain ⟨content, w, hans, hses, -, hrest, -⟩ :=
    (hi.link g).session ((hi.holder i g).mp hheld) hcopies
  exact ⟨content, w, hans, hses, hrest⟩

/-- A step in the copy loop that keeps the session. -/
theorem Seats.handOver (hi : Seats gone s ph) (shm : ShmDetails) {pc pc' : ProxyPc c.nsegments}
    (hpc : (s.proxy i).pc = pc) (hheld : pc.shm = some g) (hcopies : pc.copies = true)
    (hproxy : s'.proxy = Function.update s.proxy i { s.proxy i with pc := pc' })
    (hseg : s'.seg = Function.update s.seg g shm) (hworker : s'.worker = s.worker)
    (hmq : s'.msgqueue = s.msgqueue) (hqueue : s'.shmQueue = s.shmQueue)
    (hheld' : pc'.shm = some g)
    (hconst : shm.shmId = (s.seg g).shmId ∧ shm.segsize = (s.seg g).segsize)
    (hlen : shm.readLen = (s.seg g).readLen)
    (hsession : ∀ content w, Session content pc (s.seg g) w → Session content pc' shm w) :
    ∃ ph', Seats gone s' ph' := by
  subst hpc
  have hold := (hi.holder i g).mp hheld
  obtain ⟨content, w, hans, hses, -, -, hback⟩ := (hi.link g).session hold hcopies
  refine ⟨_, hi.proxyAt shm _ hheld hproxy hseg hworker hmq hqueue rfl hheld' hconst hold
    rfl rfl ?_⟩
  rw [hworker]
  refine hback _ _ ?_ hlen ?_
  · rw [hproxy, Function.update_self]
  · rw [hproxy, Function.update_self]
    exact hsession content w hses

/-! ### Taking a segment and giving it back -/

/-- A step of thread `i` from where it holds no segment to where it holds none. -/
theorem Seats.stay (hi : Seats gone s ph) {x : Proxy c.nsegments}
    (hproxy : s'.proxy = Function.update s.proxy i x) (hold : (s.proxy i).pc.shm = none)
    (hnew : x.pc.shm = none) (hworker : s'.worker = s.worker) (hseg : s'.seg = s.seg)
    (hqueue : s'.shmQueue = s.shmQueue) (hmq : s'.msgqueue = s.msgqueue) : Seats gone s' ph := by
  refine hi.keep (fun i' => ?_) (fun j => .inl (by rw [hworker])) hseg hqueue hmq
  by_cases h : i' = i
  · rw [h, hproxy, Function.update_self]
    exact .inr ⟨hold, hnew⟩
  · rw [hproxy, Function.update_of_ne h]
    exact .inl rfl

theorem Seats.pop (hi : Seats gone s ph) (hpc : (s.proxy i).pc = .pop) {q : List (Fin c.nsegments)}
    (hq : s.shmQueue = g :: q) :
    ∃ ph', Seats gone ({ s with shmQueue := q }.goto i (.unlock g)) ph' := by
  have hcount := hi.queue g
  rw [hq, List.count_cons_self] at hcount
  have hfree : (ph g).proxy = none := by
    by_contra h
    rw [if_neg h] at hcount
    omega
  have hzero : q.count g = 0 := by
    rw [hfree, if_pos rfl] at hcount
    omega
  refine ⟨_, hi.proxyMove (s.seg g) (.prep i) rfl (by simp [State.goto]) rfl
    rfl (fun g' h => ?_) (fun g' h => ?_) (.inl hfree) ?_ ?_ (fun g' => ?_) (.inl ⟨?_, rfl⟩)
    ⟨rfl, rfl⟩ ?_⟩
  · simp [hpc, ProxyPc.shm] at h
  · simpa [ProxyPc.shm, eq_comm] using h
  · simp [ProxyPc.shm, Phase.proxy]
  · cases hf : ph g <;> simp_all [Phase.proxy, Phase.worker]
  · by_cases hg : g' = g
    · simp [hg, Phase.proxy, State.goto, hzero]
    · simp [hg, State.goto, hq, Ne.symm hg]
  · cases hf : ph g <;> simp_all [Phase.proxy, Phase.isPending]
  · simp [Link, Prep, State.goto]

/-- A step before the message is sent. -/
theorem Seats.prepare (hi : Seats gone s ph) (shm : ShmDetails) {pc pc' : ProxyPc c.nsegments}
    (hpc : (s.proxy i).pc = pc) (hheld : pc.shm = some g) (hprepares : pc.prepares = true)
    (hproxy : s'.proxy = Function.update s.proxy i { s.proxy i with pc := pc' })
    (hseg : s'.seg = Function.update s.seg g shm) (hworker : s'.worker = s.worker)
    (hmq : s'.msgqueue = s.msgqueue) (hqueue : s'.shmQueue = s.shmQueue)
    (hheld' : pc'.shm = some g)
    (hconst : shm.shmId = (s.seg g).shmId ∧ shm.segsize = (s.seg g).segsize)
    (hprep : Prep c g (s.proxy i) (s.seg g) → Prep c g { s.proxy i with pc := pc' } shm) :
    ∃ ph', Seats gone s' ph' := by
  subst hpc
  obtain ⟨hph, hp⟩ := hi.prep hheld hprepares
  refine ⟨_, hi.proxyAt shm (.prep i) hheld hproxy hseg hworker hmq hqueue rfl hheld' hconst rfl
    (by rw [hph]) (by rw [hph]) ?_⟩
  simp only [Link]
  rw [hproxy, Function.update_self]
  exact hprep hp

theorem Seats.mqSend (hi : Seats gone s ph) {m : ReqStruct} (hpc : (s.proxy i).pc = .mqSend g m) :
    ∃ ph', Seats gone ({ s with msgqueue := s.msgqueue ++ [((s.proxy i).request, m)] }.goto i
      (.waitFilelen g)) ph' := by
  have hheld : (s.proxy i).pc.shm = some g := by rw [hpc]; rfl
  obtain ⟨hph, hp⟩ := hi.prep hheld (by rw [hpc]; rfl)
  simp only [Prep, hpc] at hp
  obtain ⟨rfl, hfl, hps, hcs⟩ := hp
  refine ⟨_, hi.proxyMove (s.seg g) (.pending i) rfl (by simp [State.goto])
    rfl rfl (fun g' h => ?_) (fun g' h => ?_) (.inr (by rw [hph]; rfl)) ?_ (by rw [hph]; rfl)
    (fun g' => ?_) (.inr ⟨rfl, by rw [hph]; rfl, rfl⟩) ⟨rfl, rfl⟩ ?_⟩
  · exact Option.some.inj (h.symm.trans hheld)
  · simpa [ProxyPc.shm, eq_comm] using h
  · simp [ProxyPc.shm, Phase.proxy]
  · by_cases hg : g' = g
    · subst hg
      simp [State.goto, hi.queue, hph, Phase.proxy]
    · simp [hg, State.goto]
  · simp only [Link, State.goto, Function.update_self]
    exact ⟨rfl, hfl, hps, hcs⟩

/-- The proxy goes to `queueMemory` when nobody else is at the segment. -/
theorem Seats.leave (hi : Seats gone s ph) (shm : ShmDetails) {pc pc' : ProxyPc c.nsegments}
    {branch : Branch} {qpc : QueuePc} (hpc : (s.proxy i).pc = pc) (hheld : pc.shm = some g)
    (hproxy : s'.proxy = Function.update s.proxy i { s.proxy i with pc := pc' })
    (hseg : s'.seg = Function.update s.seg g shm) (hworker : s'.worker = s.worker)
    (hmq : s'.msgqueue = s.msgqueue) (hqueue : s'.shmQueue = s.shmQueue)
    (hheld' : pc'.shm = some g)
    (hconst : shm.shmId = (s.seg g).shmId ∧ shm.segsize = (s.seg g).segsize)
    (hnobody : (ph g).worker = none) (hpend : (ph g).isPending = false)
    (hpc' : pc' = .queue g branch qpc) (hok : branch.Ok c gone (s.proxy i).request) :
    ∃ ph', Seats gone s' ph' := by
  subst hpc
  refine ⟨_, hi.proxyAt shm (.leaving i) hheld hproxy hseg hworker hmq hqueue rfl hheld' hconst rfl
    hnobody.symm hpend.symm ?_⟩
  simp only [Link]
  rw [hproxy, Function.update_self]
  exact ⟨branch, qpc, hpc', hok⟩

theorem Seats.enqueue (hi : Seats gone s ph) {branch : Branch}
    (hpc : (s.proxy i).pc = .queue g branch .enqueue) :
    ∃ ph', Seats gone ({ s with shmQueue := stequeEnqueue s.shmQueue g }.goto i
      (.queue g branch .unlock)) ph' := by
  have hheld : (s.proxy i).pc.shm = some g := by rw [hpc]; rfl
  obtain ⟨hph, -⟩ := hi.leaving hpc hheld
  refine ⟨_, hi.proxyMove (s.seg g) (.free) rfl (by simp [State.goto])
    rfl rfl (fun g' h => ?_) (fun g' h => ?_) (.inr (by rw [hph]; rfl)) ?_ (by rw [hph]; rfl)
    (fun g' => ?_) (.inl ⟨by rw [hph]; rfl, rfl⟩) ⟨rfl, rfl⟩ trivial⟩
  · exact Option.some.inj (h.symm.trans hheld)
  · simp [ProxyPc.shm] at h
  · simp [ProxyPc.shm, Phase.proxy]
  · by_cases hg : g' = g
    · subst hg
      simp [State.goto, stequeEnqueue, hi.queue, hph, Phase.proxy]
    · simp [hg, State.goto, stequeEnqueue, Ne.symm hg]

/-! ### The steps -/

/-- A call of `gfs_send` sends all of the buffer, or, where `gone`, the last chunk may be lost. -/
def SendsLast (gone : Bool) (s : State c) (i : Fin c.nproxies) (ret : ℤ) : Prop :=
  ∀ g n len, (s.proxy i).pc = .send g n len →
    ret = len ∨ gone = true ∧ ret = 0 ∧ (s.seg g).filesize ≤ n + len

theorem Seats.handleWithCache (hi : Seats gone s ph) (hsend : SendsLast gone s i ret)
    (h : handleWithCache i ret s = some s') : ∃ ph', Seats gone s' ph' := by
  obtain ⟨pc, hpc, hstep⟩ := handleWithCache_cases h
  cases hstep with
  | idle | lock | empty | nonempty | wait | waiting | queueUnlock | sent | unsent | notFound =>
    exact ⟨ph, hi.stay rfl (by rw [hpc]; rfl) rfl rfl rfl rfl rfl⟩
  | pop hq => exact hi.pop hpc hq
  | unlock g | broadcast g =>
    exact hi.prepare (s.seg g) hpc rfl rfl rfl (by simp [State.goto]) rfl rfl rfl rfl ⟨rfl, rfl⟩
      fun _ => trivial
  | fill g =>
    obtain ⟨hname, hsize⟩ := hi.const g
    refine hi.prepare (s.seg g) hpc rfl rfl rfl (by simp [State.goto]) rfl rfl rfl rfl ⟨rfl, rfl⟩
      fun _ => ?_
    rw [hname, hsize]
    rfl
  | initFilelen g m | initProxysem g m | initCachesem g m =>
    refine hi.prepare _ hpc rfl rfl rfl rfl rfl rfl rfl rfl ⟨rfl, rfl⟩ fun hp => ?_
    simp only [Prep, hpc] at hp ⊢
    simp [hp]
  | mqSend => exact hi.mqSend hpc
  | waitFilelen g hposted =>
    have hheld : (s.proxy i).pc.shm = some g := by rw [hpc]; rfl
    rcases hi.told hpc rfl rfl fun _ => hposted with
      ⟨hph, hans, hst⟩ | ⟨content, w, hses, hback⟩
    · refine ⟨_, hi.proxyAt _ (.missing i) hheld rfl rfl rfl rfl rfl rfl rfl ⟨rfl, rfl⟩ rfl
        (by rw [hph]) (by rw [hph]) ?_⟩
      simp only [Link, State.goto, State.put, Function.update_self]
      exact ⟨hans, hst, .inr trivial⟩
    · refine ⟨_, hi.proxyAt _ _ hheld rfl rfl rfl rfl rfl rfl rfl ⟨rfl, rfl⟩
        ((hi.holder i g).mp hheld) rfl rfl (hback _ _ (by simp [State.goto, State.put]) rfl ?_)⟩
      simp only [State.goto, State.put, Function.update_self]
      exact ⟨hses.status, hses.filesize, by simp, hses.token, by simp, by simp⟩
  | found g hstatus =>
    have hheld : (s.proxy i).pc.shm = some g := by rw [hpc]; rfl
    rcases hi.told hpc rfl rfl (by simp) with ⟨-, -, hst⟩ | ⟨content, w, hses, hback⟩
    · exact absurd (hst.symm.trans hstatus) (by decide)
    · refine ⟨_, hi.proxyAt (s.seg g) _ hheld rfl (by simp [State.goto]) rfl rfl rfl rfl rfl
        ⟨rfl, rfl⟩ ((hi.holder i g).mp hheld) rfl rfl
        (hback _ _ (by simp [State.goto]) rfl ?_)⟩
      simp only [State.goto, Function.update_self]
      exact ⟨hses.status, hses.filesize, by simp, hses.token, by simp, by simp⟩
  | missing g hstatus =>
    rcases hi.status_told hpc with ⟨-, hans, hph⟩ | hst
    · exact hi.leave (s.seg g) hpc rfl rfl (by simp [State.goto]) rfl rfl rfl rfl ⟨rfl, rfl⟩
        (by rw [hph]; rfl) (by rw [hph]; rfl) rfl hans
    · exact absurd (hst.symm.trans hstatus) (by decide)
  | untold g hfound hmissing =>
    rcases hi.status_told hpc with ⟨hst, -⟩ | hst
    · exact absurd hst hmissing
    · exact absurd hst hfound
  | header g =>
    exact hi.handOver (s.seg g) hpc rfl rfl rfl (by simp [State.goto, State.tell]) rfl rfl rfl rfl
      ⟨rfl, rfl⟩ rfl fun content w hses =>
        ⟨hses.status, hses.filesize, by simp, hses.token, by simp, by simp⟩
  | more g n hlt =>
    refine hi.handOver (s.seg g) hpc rfl rfl rfl (by simp [State.goto]) rfl rfl rfl rfl ⟨rfl, rfl⟩
      rfl fun content w hses => ?_
    refine ⟨hses.status, hses.filesize, by simp, hses.token, by simp, fun g' n' hn => ?_⟩
    cases hn
    exact hses.filesize ▸ hlt
  | done g n hle =>
    obtain ⟨content, w, hans, hses, hrest⟩ := hi.session hpc rfl rfl
    have htoken := hses.token_of rfl
    rw [hses.filesize] at hle
    have hph := hrest (htoken.writer_of_end hle)
    exact hi.leave (s.seg g) hpc rfl rfl (by simp [State.goto]) rfl rfl rfl rfl ⟨rfl, rfl⟩
      (by rw [hph]; rfl) (by rw [hph]; rfl) rfl
      ⟨content, hans, fun _ => le_antisymm htoken.reader_le hle⟩
  | waitProxysem g n hfull =>
    refine hi.handOver _ hpc rfl rfl rfl rfl rfl rfl rfl rfl ⟨rfl, rfl⟩ rfl fun content w hses => ?_
    have htoken := hses.token_of rfl
    rw [← Nat.succ_pred_eq_of_pos hfull] at htoken
    exact ⟨hses.status, hses.filesize, by simp, ⟨_, rfl, htoken.takeFull⟩, by simp, by simp⟩
  | load g n =>
    refine hi.handOver (s.seg g) hpc rfl rfl rfl (by simp [State.goto]) rfl rfl rfl rfl ⟨rfl, rfl⟩
      rfl fun content w hses => ?_
    refine ⟨hses.status, hses.filesize, by simp, hses.token, fun g' n' len hn => ?_, by simp⟩
    cases hn
    rfl
  | failed g n len hret =>
    obtain ⟨content, w, hans, hses, hrest⟩ := hi.session hpc rfl rfl
    have htoken := hses.token_of rfl
    have hlen := hses.loaded g n len rfl
    have hpos := htoken.chunk.pos
    have hfits := htoken.chunk.fits
    have hcontent := c.answer_lt hans
    rcases hsend g n len hpc with rfl | ⟨rfl, rfl, hlast⟩
    · rw [size_natCast (by omega)] at hret
      omega
    · have hph := hrest (htoken.writer_of_last (by rw [← hses.filesize, ← hlen]; exact hlast))
      exact hi.leave (s.seg g) hpc rfl rfl (by simp [State.goto]) rfl rfl rfl rfl ⟨rfl, rfl⟩
        (by rw [hph]; rfl) (by rw [hph]; rfl) rfl ⟨content, hans, by simp⟩
  | send g n len hret =>
    obtain ⟨content, w, hans, hses, -⟩ := hi.session hpc rfl rfl
    have hlen := hses.loaded g n len rfl
    have hfits := (hses.token_of rfl).chunk.fits
    have hcontent := c.answer_lt hans
    rcases hsend g n len hpc with rfl | ⟨-, rfl, -⟩
    · rw [size_natCast (by omega), Nat.mod_eq_of_lt (by omega)]
      refine hi.handOver (s.seg g) hpc rfl rfl rfl (by simp [State.goto, State.tell]) rfl rfl rfl
        rfl ⟨rfl, rfl⟩ rfl fun content w hses => ?_
      have htoken := (hses.token_of rfl).take
      exact ⟨hses.status, hses.filesize, by simp, ⟨_, rfl, hlen ▸ htoken⟩, by simp, by simp⟩
    · exact absurd rfl hret
  | postCachesem g n =>
    refine hi.handOver _ hpc rfl rfl rfl rfl rfl rfl rfl rfl ⟨rfl, rfl⟩ rfl fun content w hses => ?_
    have htoken := (hses.token_of rfl).postEmpty
    exact ⟨hses.status, hses.filesize, by simp, ⟨_, rfl, htoken⟩, by simp, by simp⟩
  | resetReadLen g branch | resetFilesize g branch =>
    have hheld : (s.proxy i).pc.shm = some g := by rw [hpc]; rfl
    obtain ⟨hph, hok⟩ := hi.leaving hpc hheld
    exact hi.leave _ hpc rfl rfl rfl rfl rfl rfl rfl ⟨rfl, rfl⟩ (by rw [hph]; rfl)
      (by rw [hph]; rfl) rfl hok
  | queueLock g branch =>
    have hheld : (s.proxy i).pc.shm = some g := by rw [hpc]; rfl
    obtain ⟨hph, hok⟩ := hi.leaving hpc hheld
    exact hi.leave (s.seg g) hpc rfl rfl (by simp [State.goto]) rfl rfl rfl rfl ⟨rfl, rfl⟩
      (by rw [hph]; rfl) (by rw [hph]; rfl) rfl hok
  | enqueue g branch => exact hi.enqueue hpc

end FileServices.Cache
