import FileServices.Shutdown
import FileServices.Proofs.Exhaustion
import FileServices.Proofs.SharedMemory

/-!
# What a shutdown leaves behind

A segment that the handler has popped is with no thread and in no message, and none of its pops
comes after it has popped half of the segments.  So whenever the signal comes and whatever the
other threads do until the proxy exits, at least half of the names stay.
-/

namespace FileServices.Cache

open CString Total

variable {c : Config} {s s' : State c} {x y : Stopping c} {i : Fin c.nproxies}
  {j : Fin c.nworkers} {g : Fin c.nsegments} {ret signo : ℤ} {t : Shm}

/-! ### The threads -/

/-- A thread puts back no more than it holds. -/
theorem handleWithCache_conserved (h : handleWithCache i ret s = some s') (g : Fin c.nsegments) :
    s'.shmQueue.count g + total (fun p => p.pc.holding g) s'.proxy
      ≤ s.shmQueue.count g + total (fun p => p.pc.holding g) s.proxy := by
  have hmove : ∀ {pc : ProxyPc c.nsegments} {p : Proxy c.nsegments}, (s.proxy i).pc = pc →
      s'.proxy = Function.update s.proxy i p →
      s'.shmQueue.count g + p.pc.holding g ≤ s.shmQueue.count g + pc.holding g →
      s'.shmQueue.count g + total (fun p => p.pc.holding g) s'.proxy
        ≤ s.shmQueue.count g + total (fun p => p.pc.holding g) s.proxy := by
    intro pc p hpc hproxy hle
    subst hpc
    have hsum := total_update (fun p : Proxy c.nsegments => p.pc.holding g) s.proxy i p
    rw [hproxy]
    omega
  obtain ⟨pc, hpc, hstep⟩ := handleWithCache_cases h
  cases hstep with
  | @pop g' rest hq =>
    refine hmove hpc rfl ?_
    by_cases hg : g' = g <;> simp [hq, State.goto, ProxyPc.holding, ProxyPc.shm, hg]
  | enqueue g' branch =>
    refine hmove hpc rfl ?_
    by_cases hg : g' = g <;> simp [State.goto, ProxyPc.holding, ProxyPc.shm, hg]
  | untold g' =>
    refine hmove hpc rfl (Nat.add_le_add_left ?_ _)
    simp [ProxyPc.holding, ProxyPc.shm]
  | _ => exact hmove hpc rfl le_rfl

def Proxy.waits {n : ℕ} (g : Fin n) (p : Proxy n) : ℕ := if p.pc = .waitFilelen g then 1 else 0

theorem Proxy.waits_le {n : ℕ} (g : Fin n) (p : Proxy n) : p.waits g ≤ p.pc.holding g := by
  unfold Proxy.waits
  split_ifs with h
  · simp [h, ProxyPc.holding, ProxyPc.shm]
  · exact Nat.zero_le _

/-- The threads that wait for an answer have as many posts coming. -/
def State.Posted (s : State c) : Prop := ∀ g, s.posts g = total (Proxy.waits g) s.proxy

theorem State.Posted.move (hi : s.Posted) {pc : ProxyPc c.nsegments} {p : Proxy c.nsegments}
    (hpc : (s.proxy i).pc = pc) (hproxy : s'.proxy = Function.update s.proxy i p)
    (hworker : s'.worker = s.worker)
    (hposts : ∀ g, (s'.msgqueue.countP fun m => m.2.shmId = c.names g) + (s'.seg g).filelenSem
        + (if pc = .waitFilelen g then 1 else 0)
      = (s.msgqueue.countP fun m => m.2.shmId = c.names g) + (s.seg g).filelenSem + p.waits g) :
    s'.Posted := by
  subst hpc
  intro g
  have hold := hi g
  have hstep := hposts g
  have hsum := total_update (Proxy.waits g) s.proxy i p
  have hwas : (s.proxy i).waits g = if (s.proxy i).pc = .waitFilelen g then 1 else 0 := rfl
  unfold State.posts at hold ⊢
  rw [hproxy, hworker]
  omega

/-- A step that is neither to nor from the wait for an answer. -/
theorem State.Posted.pass (hi : s.Posted) {pc : ProxyPc c.nsegments} {p : Proxy c.nsegments}
    (hpc : (s.proxy i).pc = pc) (hproxy : s'.proxy = Function.update s.proxy i p)
    (hworker : s'.worker = s.worker) (hmq : s'.msgqueue = s.msgqueue)
    (hsem : ∀ g, (s'.seg g).filelenSem = (s.seg g).filelenSem)
    (hout : ∀ g, pc ≠ .waitFilelen g) (hout' : ∀ g, p.pc ≠ .waitFilelen g) : s'.Posted := by
  refine hi.move hpc hproxy hworker fun g => ?_
  rw [hmq, hsem, if_neg (hout g), Proxy.waits, if_neg (hout' g)]

/-- Nothing is on its way to a thread that holds a segment and does not wait. -/
theorem State.Posted.eq_zero (hi : s.Posted)
    (hone : total (fun p => p.pc.holding g) s.proxy ≤ 1)
    (hheld : (s.proxy i).pc.shm = some g) (hpc : (s.proxy i).pc ≠ .waitFilelen g) :
    s.posts g = 0 := by
  rw [hi g]
  by_contra hne
  obtain ⟨k, -, hk⟩ := Finset.exists_ne_zero_of_sum_ne_zero hne
  have hwait : (s.proxy k).pc = .waitFilelen g := by
    by_contra hwait
    exact hk (if_neg hwait)
  have hki : k ≠ i := fun he => hpc (he ▸ hwait)
  -- two threads would hold it
  have hsum := total_update (fun p : Proxy c.nsegments => p.pc.holding g) s.proxy i
    ⟨0, .idle⟩
  have hle := le_total (fun p : Proxy c.nsegments => p.pc.holding g)
    (Function.update s.proxy i ⟨0, .idle⟩) k
  rw [Function.update_of_ne hki] at hle
  have h1 : (s.proxy k).pc.holding g = 1 := by simp [hwait, ProxyPc.holding, ProxyPc.shm]
  have h2 : (s.proxy i).pc.holding g = 1 := by simp [hheld, ProxyPc.holding]
  have h3 : (ProxyPc.idle : ProxyPc c.nsegments).holding g = 0 := rfl
  simp only [h1, h2, h3] at hsum hle
  omega

theorem State.Posted.handleWithCache (hi : s.Posted) (hnamed : Named s)
    (hone : ∀ g, total (fun p => p.pc.holding g) s.proxy ≤ 1)
    (h : handleWithCache i ret s = some s') : s'.Posted := by
  have hmessage := hnamed.message i
  obtain ⟨pc, hpc, hstep⟩ := handleWithCache_cases h
  rw [hpc] at hmessage
  cases hstep with
  | mqSend g m =>
    have hname : m.shmId = c.names g := hmessage g m rfl
    refine hi.move hpc rfl rfl fun g' => ?_
    by_cases hg : g = g'
    · simp [State.goto, List.countP_append, Proxy.waits, hg ▸ hname, hg]
      omega
    · have hne : c.names g ≠ c.names g' := fun h => hg (c.names_injective h)
      simp [State.goto, List.countP_append, Proxy.waits, hname, hne, hg]
  | waitFilelen g hpos =>
    refine hi.move hpc rfl rfl fun g' => ?_
    by_cases hg : g = g'
    · subst hg
      simp [State.goto, State.put, Proxy.waits]
      omega
    · simp [State.goto, State.put, Proxy.waits, hg, Function.update_of_ne (Ne.symm hg)]
  | initFilelen g m =>
    have hzero := hi.eq_zero (hone g) (i := i) (by rw [hpc]; rfl) (by simp [hpc])
    have hsem : (s.seg g).filelenSem = 0 := by
      unfold State.posts at hzero
      omega
    refine hi.pass hpc rfl rfl rfl (fun g' => ?_) (by simp) (by simp)
    exact put_keeps ShmDetails.filelenSem rfl hsem.symm g'
  | initProxysem | initCachesem | waitProxysem | postCachesem | resetReadLen | resetFilesize =>
    refine hi.pass hpc rfl rfl rfl (fun g' => ?_) (by simp) (by simp)
    refine put_keeps ShmDetails.filelenSem rfl ?_ g'
    rfl
  | _ => exact hi.pass hpc rfl rfl rfl (fun _ => rfl) (by simp) (by simp)

theorem State.Posted.work (hi : s.Posted) {pc w : WorkerPc c.nsegments}
    (hpc : s.worker j = pc) (hworker : s'.worker = Function.update s.worker j w)
    (hproxy : s'.proxy = s.proxy)
    (hposts : ∀ g, (s'.msgqueue.countP fun m => m.2.shmId = c.names g) + w.owed c g
        + (s'.seg g).filelenSem
      = (s.msgqueue.countP fun m => m.2.shmId = c.names g) + pc.owed c g
        + (s.seg g).filelenSem) : s'.Posted := by
  subst hpc
  intro g
  have hold := hi g
  have hstep := hposts g
  have hsum := total_update (WorkerPc.owed c g) s.worker j w
  unfold State.posts at hold ⊢
  rw [hproxy, hworker]
  omega

/-- The worker neither takes a message nor posts. -/
theorem State.Posted.remain (hi : s.Posted) {pc w : WorkerPc c.nsegments}
    (hpc : s.worker j = pc) (hworker : s'.worker = Function.update s.worker j w)
    (hproxy : s'.proxy = s.proxy) (hmq : s'.msgqueue = s.msgqueue)
    (hsem : ∀ g, (s'.seg g).filelenSem = (s.seg g).filelenSem) (howes : w.owes c = pc.owes c) :
    s'.Posted := by
  refine hi.work hpc hworker hproxy fun g => ?_
  rw [hmq, hsem, WorkerPc.owed, WorkerPc.owed, howes]

/-- The worker posts. -/
theorem State.Posted.post (hi : s.Posted) {pc w : WorkerPc c.nsegments} {r : ℕ}
    (hpc : s.worker j = pc) (hworker : s'.worker = Function.update s.worker j w)
    (hproxy : s'.proxy = s.proxy) (hmq : s'.msgqueue = s.msgqueue)
    (hseg : s'.seg = Function.update s.seg g
      { s.seg g with filelenSem := (s.seg g).filelenSem + 1 })
    (howed : pc.owes c = some (g, r)) (howes : w.owes c = none) : s'.Posted := by
  refine hi.work hpc hworker hproxy fun g' => ?_
  rw [hmq, hseg, WorkerPc.owed, WorkerPc.owed, howes, howed]
  by_cases hg : g' = g
  · subst hg
    simp
    omega
  · simp [Function.update_of_ne hg, Ne.symm hg]

theorem State.Posted.workerRoutine (hi : s.Posted)
    (hmsgs : ∀ m ∈ s.msgqueue, ∃ g, m.2.shmId = c.names g)
    (h : workerRoutine j ret s = some s') : s'.Posted := by
  obtain ⟨pc, hpc, hstep⟩ := workerRoutine_cases h
  cases hstep with
  | @receive r m rest hmq =>
    obtain ⟨g, hname⟩ := hmsgs (r, m) (by rw [hmq]; exact List.mem_cons_self)
    change m.shmId = c.names g at hname
    have howes : WorkerPc.owes c (.lookup r m) = some (g, r) := by
      simp only [WorkerPc.owes, hname, shmOpen_names, Option.map_some]
    refine hi.work hpc rfl rfl fun g' => ?_
    rw [hmq, List.countP_cons, WorkerPc.owed, WorkerPc.owed, howes]
    by_cases hg : g = g'
    · simp [hg ▸ hname, hg, WorkerPc.owes, State.work]
    · have hne : c.names g ≠ c.names g' := fun h => hg (c.names_injective h)
      simp [hname, hne, hg, WorkerPc.owes, State.work]
  | unnamed | overflow => exact hi
  | missing r m fd hopen | found r m fd hopen =>
    refine hi.remain hpc rfl rfl rfl (fun _ => rfl) ?_
    simp [WorkerPc.owes, hopen]
  | lookup | seek | more | pread | done | ended =>
    exact hi.remain hpc rfl rfl rfl (fun _ => rfl) rfl
  | missingPost r g => exact hi.post hpc rfl rfl rfl rfl rfl rfl
  | postFilelen r job => exact hi.post hpc rfl rfl rfl rfl rfl rfl
  | missingFilesize | missingStatus | filesize | status | waitCachesem | readLen | data
  | postProxysem =>
    refine hi.remain hpc rfl rfl rfl (fun g' => ?_) rfl
    refine put_keeps ShmDetails.filelenSem rfl ?_ g'
    rfl

/-! ### The messages -/

/-- Each message names a segment. -/
structure Addressed (s : State c) : Prop where
  message : ∀ m ∈ s.msgqueue, ∃ g, m.2.shmId = c.names g
  worker : ∀ j, (s.worker j).named c

theorem Addressed.handleWithCache (hi : Addressed s) (hnamed : Named s)
    (h : handleWithCache i ret s = some s') : Addressed s' := by
  obtain ⟨hworker, -⟩ := handleWithCache_cache h
  refine ⟨?_, fun j => hworker ▸ hi.worker j⟩
  have hmessage := hnamed.message i
  obtain ⟨pc, hpc, hstep⟩ := handleWithCache_cases h
  rw [hpc] at hmessage
  cases hstep with
  | mqSend g m =>
    intro m' hm'
    rcases List.mem_append.mp hm' with hold | hnew
    · exact hi.message m' hold
    · rw [List.mem_singleton.mp hnew]
      exact ⟨g, hmessage g m rfl⟩
  | _ => exact hi.message

theorem Addressed.workerRoutine (hi : Addressed s) (h : workerRoutine j ret s = some s') :
    Addressed s' := by
  have hold := hi.worker j
  have hmove : ∀ {w : WorkerPc c.nsegments}, s'.worker = Function.update s.worker j w →
      w.named c → ∀ k, (s'.worker k).named c := by
    intro w hworker hw k
    rw [hworker]
    by_cases hk : k = j
    · rwa [hk, Function.update_self]
    · rw [Function.update_of_ne hk]
      exact hi.worker k
  obtain ⟨pc, hpc, hstep⟩ := workerRoutine_cases h
  rw [hpc] at hold
  cases hstep with
  | @receive r m rest hmq =>
    refine ⟨fun m' hm' => hi.message m' (by rw [hmq]; exact List.mem_cons_of_mem _ hm'), ?_⟩
    exact hmove rfl (hi.message (r, m) (by rw [hmq]; exact List.mem_cons_self))
  | lookup => exact ⟨hi.message, hmove rfl hold⟩
  | unnamed | overflow => exact ⟨hi.message, hi.worker⟩
  | _ => exact ⟨hi.message, hmove rfl trivial⟩

/-! ### The handler among the threads -/

/-- The segments that the loop of the handler has popped. -/
def Stopping.taken (x : Stopping c) : List (Fin c.nsegments) :=
  match x.handler with
  | some (.shmUnlink _ g) => x.unlinked ++ [g]
  | _ => x.unlinked

/-- What the loop has counted, and that there are as many segments outside. -/
def Stopping.Counted (x : Stopping c) : Prop :=
  match x.handler with
  | none => x.unlinked = []
  | some (.stequeSize z) => x.unlinked.length = z ∧ 2 * z ≤ c.nsegments + 1
  | some (.pop z) | some (.shmUnlink z _) => x.unlinked.length = z ∧ 2 * z + 1 ≤ c.nsegments
  | some .isempty | some .destroyPop | some .gfserverStop =>
    2 * x.unlinked.length ≤ c.nsegments + 1

structure Shut (t : Shm) (x : Stopping c) : Prop where
  conserved : ∀ g, x.state.shmQueue.count g + total (fun p => p.pc.holding g) x.state.proxy
    + x.taken.count g ≤ 1
  named : Named x.state
  addressed : Addressed x.state
  posted : x.state.Posted
  counted : x.Counted
  name : ∀ g, x.shm.name (c.names g) = if g ∈ x.unlinked then none else some (t.next + g)
  other : ∀ b, (∀ g, c.names g ≠ b) → x.shm.name b = t.name b

theorem Shut.unlinked_le (hi : Shut t x) : 2 * x.unlinked.length ≤ c.nsegments + 1 := by
  have hcounted := hi.counted
  unfold Stopping.Counted at hcounted
  split at hcounted <;> first | omega | simp [hcounted]

theorem Stopping.unlinked_count_le (x : Stopping c) (g : Fin c.nsegments) :
    x.unlinked.count g ≤ x.taken.count g := by
  unfold Stopping.taken
  split
  · rw [List.count_append]
    exact Nat.le_add_right _ _
  · exact le_rfl

/-- The queue and what has been unlinked are different segments. -/
theorem Shut.length_le (hi : Shut t x) :
    x.state.shmQueue.length + x.unlinked.length ≤ c.nsegments := by
  have hnodup : (x.state.shmQueue ++ x.unlinked).Nodup := by
    rw [List.nodup_iff_count_le_one]
    intro g
    have hone := hi.conserved g
    have hle := x.unlinked_count_le g
    rw [List.count_append]
    omega
  simpa using hnodup.length_le_card

/-- A step of the two processes beside the handler. -/
theorem Shut.thread (hi : Shut t x)
    (hle : ∀ g, s'.shmQueue.count g + total (fun p => p.pc.holding g) s'.proxy
      ≤ x.state.shmQueue.count g + total (fun p => p.pc.holding g) x.state.proxy)
    (hnamed : Named s') (haddressed : Addressed s') (hposted : s'.Posted) :
    Shut t { x with state := s' } where
  conserved := fun g => (Nat.add_le_add_right (hle g) _).trans (hi.conserved g)
  named := hnamed
  addressed := haddressed
  posted := hposted
  counted := hi.counted
  name := hi.name
  other := hi.other

theorem Shut.handleWithCache (hi : Shut t x)
    (h : Cache.handleWithCache i ret x.state = some s') : Shut t { x with state := s' } := by
  have hone : ∀ g, total (fun p => p.pc.holding g) x.state.proxy ≤ 1 := fun g => by
    have := hi.conserved g
    omega
  exact hi.thread (handleWithCache_conserved h) (hi.named.handleWithCache h)
    (hi.addressed.handleWithCache hi.named h) (hi.posted.handleWithCache hi.named hone h)

theorem Shut.workerRoutine (hi : Shut t x)
    (h : Cache.workerRoutine j ret x.state = some s') : Shut t { x with state := s' } := by
  obtain ⟨hproxy, -, hqueue, -, -⟩ := workerRoutine_proxy h
  exact hi.thread (fun g => by rw [hproxy, hqueue]) (hi.named.workerRoutine h)
    (hi.addressed.workerRoutine h) (hi.posted.workerRoutine hi.addressed.message h)

/-- The handler moves on, with what it leaves of the queue. -/
theorem Shut.goto (hi : Shut t x) {pc : Option (HandlerPc c.nsegments)}
    {queue : List (Fin c.nsegments)}
    (hqueue : ∀ g, queue.count g + (Stopping.taken { x with handler := pc }).count g
      ≤ x.state.shmQueue.count g + x.taken.count g)
    (hcounted : Stopping.Counted { x with handler := pc }) :
    Shut t { x with state := { x.state with shmQueue := queue }, handler := pc } where
  conserved := fun g => by
    have hone := hi.conserved g
    have hle := hqueue g
    change queue.count g + total (fun p => p.pc.holding g) x.state.proxy
      + (Stopping.taken { x with handler := pc }).count g ≤ 1
    omega
  named := ⟨hi.named.seg, hi.named.message⟩
  addressed := ⟨hi.addressed.message, hi.addressed.worker⟩
  posted := hi.posted
  counted := hcounted
  name := hi.name
  other := hi.other

theorem Shut.exit (hi : Shut t x) {pc : Option (HandlerPc c.nsegments)} (hpc : x.handler = pc)
    (status : Option ℤ) : Shut t { x with handler := pc, exited := status } := by
  subst hpc
  exact ⟨hi.conserved, hi.named, hi.addressed, hi.posted, hi.counted, hi.name, hi.other⟩

theorem Shut.unlink (hi : Shut t x) (hstring : ∀ g, 0 ∉ c.names g) {z : ℕ}
    (hpc : x.handler = some (.shmUnlink z g)) :
    Shut t { x with
      shm := shmUnlink (cstr (x.state.seg g).shmId) x.shm
      handler := some (.stequeSize (z + 1))
      unlinked := x.unlinked ++ [g] } where
  conserved := fun g' => by
    have hone := hi.conserved g'
    unfold Stopping.taken at hone
    rw [hpc] at hone
    exact hone
  named := hi.named
  addressed := hi.addressed
  posted := hi.posted
  counted := by
    have hcounted := hi.counted
    unfold Stopping.Counted at hcounted ⊢
    rw [hpc] at hcounted
    simp only [List.length_append, List.length_singleton]
    omega
  name := fun g' => by
    have hold := hi.name g'
    simp only [shmUnlink, hi.named.seg, cstr_eq_self (hstring g), List.mem_append,
      List.mem_singleton]
    by_cases hg : g' = g
    · rw [hg, Function.update_self, if_pos (.inr rfl)]
    · rw [Function.update_of_ne fun h => hg (c.names_injective h), hold]
      simp only [hg, or_false]
  other := fun b hb => by
    simp only [shmUnlink, hi.named.seg, cstr_eq_self (hstring g)]
    rw [Function.update_of_ne (hb g).symm]
    exact hi.other b hb

theorem Shut.sigHandler (hi : Shut t x) (hstring : ∀ g, 0 ∉ c.names g)
    (h : x.sigHandler signo = some y) : Shut t y := by
  have hcounted := hi.counted
  unfold Stopping.Counted at hcounted
  unfold Stopping.sigHandler at h
  cases hpc : x.handler with
  | none =>
    simp only [hpc] at h hcounted
    split_ifs at h
    obtain rfl := Option.some.inj h
    refine hi.goto (fun g => ?_) ⟨by rw [hcounted]; rfl, by omega⟩
    simp [Stopping.taken, hpc]
  | some pc =>
    cases pc with
    | stequeSize z =>
      simp only [hpc, Option.some.injEq] at h hcounted
      subst h
      have hlen := hi.length_le
      split_ifs with hlt
      · refine hi.goto (fun g => ?_) ⟨hcounted.1, ?_⟩
        · simp [Stopping.taken, hpc]
        · unfold stequeSize at hlt
          omega
      · refine hi.goto (fun g => ?_) hi.unlinked_le
        simp [Stopping.taken, hpc]
    | pop z =>
      simp only [hpc] at h hcounted
      cases hq : x.state.shmQueue with
      | nil =>
        simp only [hq, stequePop, Option.some.injEq] at h
        exact h ▸ hi.exit hpc _
      | cons g rest =>
        simp only [hq, stequePop, Option.some.injEq] at h
        subst h
        refine hi.goto (fun g' => ?_) hcounted
        simp only [Stopping.taken, hpc, hq, List.count_append, List.count_cons, List.count_nil]
        omega
    | shmUnlink z g =>
      simp only [hpc, Option.some.injEq] at h
      exact h ▸ hi.unlink hstring hpc
    | isempty =>
      simp only [hpc, Option.some.injEq] at h
      subst h
      split_ifs <;> exact hi.goto (fun g => by simp [Stopping.taken, hpc]) hi.unlinked_le
    | destroyPop =>
      simp only [hpc] at h
      cases hq : x.state.shmQueue with
      | nil =>
        simp only [hq, stequePop, Option.some.injEq] at h
        exact h ▸ hi.exit hpc _
      | cons g rest =>
        simp only [hq, stequePop, Option.some.injEq] at h
        subst h
        refine hi.goto (fun g' => ?_) hi.unlinked_le
        simp only [Stopping.taken, hpc, hq, List.count_cons]
        omega
    | gfserverStop =>
      simp only [hpc, Option.some.injEq] at h
      exact h ▸ hi.exit hpc _

theorem Shut.next (hi : Shut t x) (hstring : ∀ g, 0 ∉ c.names g) {e : StopEvent c}
    (h : x.step signo e = some y) : Shut t y := by
  unfold Stopping.step at h
  split at h
  · split_ifs at h
    exact hi.sigHandler hstring h
  · rename_i i ret
    split_ifs at h
    unfold Stopping.handleWithCache at h
    split at h
    · split at h
      · obtain rfl := Option.some.inj h
        exact hi.exit rfl _
      · obtain ⟨s', hs', rfl⟩ := Option.map_eq_some_iff.mp h
        exact hi.handleWithCache hs'
    · obtain ⟨s', hs', rfl⟩ := Option.map_eq_some_iff.mp h
      exact hi.handleWithCache hs'
  · split_ifs at h
    obtain ⟨s', hs', rfl⟩ := Option.map_eq_some_iff.mp h
    obtain ⟨m, -, rfl⟩ := Option.map_eq_some_iff.mp hs'
    exact hi.thread (fun _ => le_rfl) ⟨hi.named.seg, hi.named.message⟩
      ⟨hi.addressed.message, hi.addressed.worker⟩ hi.posted
  · rename_i j ret
    split_ifs at h with hunnamed hcrashed
    · obtain rfl := Option.some.inj h
      exact hi.thread (fun _ => le_rfl) ⟨hi.named.seg, hi.named.message⟩
        ⟨hi.addressed.message, hi.addressed.worker⟩ hi.posted
    · obtain ⟨s', hs', rfl⟩ := Option.map_eq_some_iff.mp h
      simp only [Cache.step] at hs'
      split_ifs at hs'
      exact hi.workerRoutine hs'

theorem initSegments_other {segsize : ℕ} {b : Bytes} :
    ∀ {m : ℕ}, (∀ k < m, memName k ≠ b) → (initSegments segsize t m).shm.name b = t.name b
  | 0, _ => rfl
  | m + 1, hb => by
    have hstep : initSegments segsize t (m + 1)
        = initSegment segsize (initSegments segsize t m) m := by
      rw [initSegments, List.range_succ, List.foldl_append]
      rfl
    rw [hstep, initSegment_name, Function.update_of_ne (hb m (Nat.lt_succ_self m)).symm]
    exact initSegments_other fun k hk => hb k (Nat.lt_succ_of_lt hk)

/-- The start, with the segments that are there. -/
theorem shut_made {m : SharedMemory} (hmade : Made c.segsize t c.nsegments m)
    (hother : ∀ b, (∀ k < c.nsegments, memName k ≠ b) → m.shm.name b = t.name b)
    (hnames : ∀ g, c.names g = memName g) : Shut t ⟨State.init c, m.shm, none, [], none⟩ where
  conserved := fun g => by
    have hnone : total (fun p : Proxy c.nsegments => p.pc.holding g) (State.init c).proxy = 0 :=
      total_eq_zero fun _ => rfl
    have hqueued : (List.finRange c.nsegments).count g ≤ 1 :=
      List.nodup_iff_count_le_one.mp (List.nodup_finRange _) g
    change (List.finRange c.nsegments).count g + total _ (State.init c).proxy + 0 ≤ 1
    omega
  named := named_init c
  addressed := ⟨by simp [State.init], fun _ => trivial⟩
  posted := fun g => by
    have hworker : total (WorkerPc.owed c g) (State.init c).worker = 0 :=
      total_eq_zero fun _ => rfl
    have hproxy : total (Proxy.waits g) (State.init c).proxy = 0 := total_eq_zero fun _ => rfl
    change 0 + total _ (State.init c).worker + 0 = total _ (State.init c).proxy
    omega
  counted := rfl
  name := fun g => by
    have hlast : ∀ k < c.nsegments, memName k = memName g → k ≤ g := fun k hk heq => by
      have hkg : c.names ⟨k, hk⟩ = c.names g := by rw [hnames, hnames, heq]
      exact (congrArg Fin.val (c.names_injective hkg)).le
    simpa [hnames g] using hmade.name g g.isLt hlast
  other := fun b hb => hother b fun k hk => hnames ⟨k, hk⟩ ▸ hb ⟨k, hk⟩

theorem initSharedMemory_eq (nsegments segsize : ℕ) (t : Shm) :
    initSharedMemory nsegments segsize t = initSegments segsize t (segments nsegments) := rfl

theorem shut_init {nsegments : ℕ} (hcount : segments nsegments = c.nsegments)
    (hnames : ∀ g, c.names g = memName g) : Shut t (Stopping.init c nsegments t) := by
  have hmade := initSegments_made c.segsize t c.nsegments
  unfold Stopping.init
  rw [initSharedMemory_eq, hcount]
  exact shut_made hmade (fun b hb => initSegments_other hb) hnames

/-- A worker finds the segment that its message names, which is with the thread that sent it. -/
theorem Shut.unnamed (hi : Shut t x) (hstring : ∀ g, 0 ∉ c.names g) (j : Fin c.nworkers) :
    x.unnamed j = false := by
  have haddressed := hi.addressed.worker j
  unfold Stopping.unnamed
  cases hpc : x.state.worker j with
  | shmOpen r m fd =>
    rw [hpc] at haddressed
    obtain ⟨g, hname⟩ := haddressed
    have howed := le_total (WorkerPc.owed c g) x.state.worker j
    have hposted := hi.posted g
    have hone := hi.conserved g
    have hle : total (Proxy.waits g) x.state.proxy
        ≤ total (fun p => p.pc.holding g) x.state.proxy :=
      Finset.sum_le_sum fun k _ => Proxy.waits_le g _
    have htaken := x.unlinked_count_le g
    unfold State.posts at hposted
    simp only [hpc, WorkerPc.owed, WorkerPc.owes, hname, shmOpen_names, Option.map_some,
      if_true] at howed
    have hkept : g ∉ x.unlinked := fun hmem => by
      have := List.count_pos_iff.mpr hmem
      omega
    simp [hname, cstr_eq_self (hstring g), hi.name g, hkept]
  | _ => rfl

/-! ### The handler alone -/

/-- What the handler unlinks where nobody else touches the queue. -/
def half (queue : List (Fin c.nsegments)) : List (Fin c.nsegments) :=
  queue.take ((queue.length + 1) / 2)

/-- Where the handler stands that found `queue`. -/
def Stopping.Stands (queue : List (Fin c.nsegments)) (x : Stopping c) : Prop :=
  match x.handler with
  | none => x.unlinked = [] ∧ x.state.shmQueue = queue
  | some (.stequeSize z) => x.unlinked.length = z ∧ x.unlinked ++ x.state.shmQueue = queue
    ∧ z ≤ x.state.shmQueue.length + 1
  | some (.pop z) => x.unlinked.length = z ∧ x.unlinked ++ x.state.shmQueue = queue
    ∧ z < x.state.shmQueue.length
  | some (.shmUnlink z g) => x.unlinked.length = z ∧ x.unlinked ++ g :: x.state.shmQueue = queue
    ∧ z ≤ x.state.shmQueue.length
  | some .destroyPop => x.state.shmQueue ≠ [] ∧ x.unlinked = half queue
  | some .isempty | some .gfserverStop => x.unlinked = half queue

/-- An upper bound of the steps that the handler has yet to take. -/
def Stopping.rank (x : Stopping c) : ℕ :=
  4 * x.state.shmQueue.length + match x.handler with
    | none | some (.shmUnlink _ _) => 5
    | some (.stequeSize _) => 4
    | some (.pop _) => 3
    | some .isempty => 2
    | some .destroyPop | some .gfserverStop => 1

theorem half_append {queue rest : List (Fin c.nsegments)} (hle : queue.length ≤ rest.length + 1)
    (hge : rest.length ≤ queue.length) : half (queue ++ rest) = queue := by
  unfold half
  rw [List.length_append, show (queue.length + rest.length + 1) / 2 = queue.length by omega,
    List.take_left]

/-- The handler goes on, or exits after it has unlinked its half. -/
theorem Stopping.Stands.next {queue : List (Fin c.nsegments)} (hi : x.Stands queue)
    (hexited : x.exited = none) (hsig : signo = sigterm ∨ signo = sigint) :
    ∃ y, x.sigHandler signo = some y
      ∧ (y.exited = none ∧ y.Stands queue ∧ y.rank < x.rank
        ∨ y.exited = some signo ∧ y.unlinked = half queue) := by
  unfold Stopping.Stands at hi
  unfold Stopping.sigHandler
  cases hpc : x.handler with
  | none =>
    simp only [hpc] at hi
    rw [if_pos hsig]
    refine ⟨_, rfl, .inl ⟨hexited, ?_, ?_⟩⟩
    · simp [Stopping.Stands, hi.1, hi.2]
    · simp [Stopping.rank, hpc]
  | some pc =>
    cases pc with
    | stequeSize z =>
      simp only [hpc] at hi
      obtain ⟨rfl, rfl, hle⟩ := hi
      refine ⟨_, rfl, .inl ⟨hexited, ?_, ?_⟩⟩
      · by_cases hlt : x.unlinked.length < stequeSize x.state.shmQueue
        · simp only [if_pos hlt]
          exact ⟨rfl, rfl, hlt⟩
        · simp only [if_neg hlt]
          exact (half_append hle (Nat.not_lt.mp hlt)).symm
      · by_cases hlt : x.unlinked.length < stequeSize x.state.shmQueue <;>
          simp [Stopping.rank, hpc, hlt]
    | pop z =>
      simp only [hpc] at hi
      obtain ⟨rfl, rfl, hlt⟩ := hi
      cases hq : x.state.shmQueue with
      | nil => simp [hq] at hlt
      | cons g rest =>
        rw [hq] at hlt
        refine ⟨_, rfl, .inl ⟨hexited, ⟨rfl, rfl, Nat.lt_succ_iff.mp hlt⟩, ?_⟩⟩
        simp [Stopping.rank, hpc, hq]
        omega
    | shmUnlink z g =>
      simp only [hpc] at hi
      obtain ⟨rfl, rfl, hle⟩ := hi
      refine ⟨_, rfl, .inl ⟨hexited, ⟨by simp, by simp, Nat.succ_le_succ hle⟩, ?_⟩⟩
      simp [Stopping.rank, hpc]
    | isempty =>
      simp only [hpc] at hi
      refine ⟨_, rfl, .inl ⟨hexited, ?_, ?_⟩⟩
      · by_cases hq : x.state.shmQueue = []
        · simpa [Stopping.Stands, hq] using hi
        · simpa [Stopping.Stands, hq] using hi
      · by_cases hq : x.state.shmQueue = [] <;> simp [Stopping.rank, hpc, hq]
    | destroyPop =>
      simp only [hpc] at hi
      cases hq : x.state.shmQueue with
      | nil => exact absurd hq hi.1
      | cons g rest =>
        refine ⟨_, rfl, .inl ⟨hexited, hi.2, ?_⟩⟩
        simp [Stopping.rank, hpc, hq]
        omega
    | gfserverStop =>
      simp only [hpc] at hi
      exact ⟨_, rfl, .inr ⟨rfl, hi⟩⟩

/-- A run of the two processes with the handler. -/
def Stopping.Reach (signo : ℤ) (x y : Stopping c) : Prop :=
  Trans.Reach (Stopping.step signo) (fun _ _ => True) x y

/-- A run in which only the handler takes steps. -/
def Stopping.ReachAlone (signo : ℤ) (x y : Stopping c) : Prop :=
  Trans.Reach (Stopping.step signo) (fun _ e => e = .handler) x y

theorem Stopping.step_handler (hexited : x.exited = none) :
    x.step signo .handler = x.sigHandler signo := by
  unfold Stopping.step
  simp [hexited]

theorem Stopping.Stands.exits {queue : List (Fin c.nsegments)} (hi : x.Stands queue)
    (hexited : x.exited = none) (hsig : signo = sigterm ∨ signo = sigint) :
    ∃ y, x.ReachAlone signo y ∧ y.exited = some signo := by
  have hrun : ∀ n, ∀ y, x.ReachAlone signo y → y.exited = none → y.Stands queue → y.rank = n →
      ∃ z, x.ReachAlone signo z ∧ z.exited = some signo := by
    intro n
    induction n using Nat.strong_induction_on with
    | _ n ih =>
      intro y hy hexited hstands hrank
      obtain ⟨z, hz, hnext⟩ := hstands.next hexited hsig
      have hreach : x.ReachAlone signo z := hy.tail rfl (y.step_handler hexited ▸ hz)
      rcases hnext with ⟨hz', hstands', hlt⟩ | ⟨hz', -⟩
      · exact ih z.rank (hrank ▸ hlt) z hreach hz' hstands' rfl
      · exact ⟨z, hreach, hz'⟩
  exact hrun x.rank x .refl hexited hi rfl

theorem Stopping.Stands.alone {queue : List (Fin c.nsegments)} (hi : x.Stands queue)
    (hexited : x.exited = none) (hsig : signo = sigterm ∨ signo = sigint)
    (h : x.ReachAlone signo y) :
    y.exited = none ∧ y.Stands queue ∨ y.exited = some signo ∧ y.unlinked = half queue := by
  refine h.invariant (I := fun z => z.exited = none ∧ z.Stands queue
    ∨ z.exited = some signo ∧ z.unlinked = half queue) (.inl ⟨hexited, hi⟩)
    fun z e z' hz he hstep => ?_
  subst he
  rcases hz with ⟨hz, hstands⟩ | ⟨hz, -⟩
  · obtain ⟨w, hw, hnext⟩ := hstands.next hz hsig
    rw [z.step_handler hz, hw, Option.some.injEq] at hstep
    subst hstep
    exact hnext.imp_left fun h => ⟨h.1, h.2.1⟩
  · unfold Stopping.step at hstep
    simp [hz] at hstep

/-! ### Whenever the signal comes -/

/-- One thread of the proxy with four segments. -/
def fourSegments : Config :=
  { twoChunks with
    nsegments := 4
    names := fun g => memName g
    nsegments_pos := Nat.succ_pos 3
    names_injective := fun g g' h =>
      Fin.ext (memName_inj (g.isLt.trans (by omega)) (g'.isLt.trans (by omega)) h) }

end FileServices.Cache
