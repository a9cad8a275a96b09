import FileServices.Exhaustion
import FileServices.Proofs.CacheSegments
import FileServices.Proofs.CacheStrands

/-!
# What a lost message takes with it

The posts of a segment's `filelen_sem` that are there or to come are as many as the threads whose
message was sent and that wait for one, whatever the calls return.  A thread whose `mq_open` has
failed waits for a post that nobody owes it, and the segment it has taken is never put back.
-/

namespace FileServices.Cache

open Total

variable {c : Config} {room : Room} {x y : Spent c} {s s' : State c} {i : Fin c.nproxies}
  {j : Fin c.nworkers} {g : Fin c.nsegments} {ret : ℤ}

/-- The thread has a request and has not been told that the answer is there. -/
def ProxyPc.asks {n : ℕ} : ProxyPc n → Bool
  | .lock | .isempty | .wait | .waiting | .pop | .unlock _ | .broadcast _ | .fill _
  | .initFilelen _ _ | .initProxysem _ _ | .initCachesem _ _ | .mqSend _ _ | .waitFilelen _ => true
  | _ => false

/-- The segment whose `filelen_sem` the worker has yet to post, and the request it does so for. -/
def WorkerPc.owes (c : Config) : WorkerPc c.nsegments → Option (Fin c.nsegments × ℕ)
  | .lookup r m | .shmOpen r m _ => (Cache.shmOpen c m.shmId).map fun g => (g, r)
  | .missing r g _ | .seek r g _ _ => some (g, r)
  | .copy r job .filesize | .copy r job .status | .copy r job .postFilelen => some (job.shm, r)
  | _ => none

/-- The worker has mapped the segment of its message. -/
def WorkerPc.maps {n : ℕ} : WorkerPc n → Bool
  | .missing _ _ _ | .seek _ _ _ _ | .copy _ _ _ => true
  | _ => false

def WorkerPc.owed (c : Config) (g : Fin c.nsegments) (w : WorkerPc c.nsegments) : ℕ :=
  if (w.owes c).map Prod.fst = some g then 1 else 0

/-- The posts of the segment's `filelen_sem` that are there or to come. -/
def State.posts (s : State c) (g : Fin c.nsegments) : ℕ :=
  (s.msgqueue.countP fun m => m.2.shmId = c.names g) + total (WorkerPc.owed c g) s.worker
    + (s.seg g).filelenSem

/-- The thread waits for the answer to a message that was sent. -/
def Proxy.awaits {n : ℕ} (opened : List ℕ) (g : Fin n) (p : Proxy n) : ℕ :=
  if p.pc = .waitFilelen g ∧ p.request ∈ opened then 1 else 0

structure Lent (room : Room) (x : Spent c) : Prop where
  posts : ∀ g, x.state.posts g = total (Proxy.awaits x.opened g) x.state.proxy
  message : ∀ m ∈ x.state.msgqueue, ∃ g i, m.2.shmId = c.names g
    ∧ x.state.proxy i = ⟨m.1, .waitFilelen g⟩
  owes : ∀ j g r, (x.state.worker j).owes c = some (g, r) →
    ∃ i, x.state.proxy i = ⟨r, .waitFilelen g⟩
  maps : ∀ j g r, (x.state.worker j).owes c = some (g, r) → (x.state.worker j).maps = true →
    r ∈ x.mapped
  posted : ∀ i g, (x.state.proxy i).pc = .waitFilelen g → 0 < (x.state.seg g).filelenSem →
    (x.state.proxy i).request ∈ x.mapped
  told : ∀ i, (x.state.proxy i).pc ≠ .idle → (x.state.proxy i).pc.asks = true
    ∨ (x.state.proxy i).request ∈ x.opened ∧ (x.state.proxy i).request ∈ x.mapped
  taken : ∀ i, (x.state.proxy i).pc ≠ .idle → (x.state.proxy i).request < x.state.next
  sent : ∀ r, x.state.sent r ≠ [] → r ∈ x.opened ∧ r ∈ x.mapped
  serves : ∀ j r, (x.state.worker j).request = some r → r < x.state.next
  opened_lt : ∀ r ∈ x.opened, r < x.state.next
  mapped_lt : ∀ r ∈ x.mapped, r < x.state.next
  opened_le : x.opened.length ≤ room.proxy
  mapped_le : x.mapped.length ≤ room.cache

theorem lent_init (c : Config) : Lent room (Spent.init c) where
  posts := fun g => by
    have hworker : total (WorkerPc.owed c g) (State.init c).worker = 0 :=
      total_eq_zero fun _ => rfl
    have hproxy : total (Proxy.awaits [] g) (State.init c).proxy = 0 :=
      total_eq_zero fun _ => rfl
    unfold State.posts
    rw [show (Spent.init c).state = State.init c from rfl, hworker]
    exact hproxy.symm
  message := by simp [Spent.init, State.init]
  owes := by simp [Spent.init, State.init, WorkerPc.owes]
  maps := by simp [Spent.init, State.init, WorkerPc.owes]
  posted := by simp [Spent.init, State.init]
  told := fun _ h => absurd rfl h
  taken := fun _ h => absurd rfl h
  sent := fun _ h => absurd rfl h
  serves := by simp [Spent.init, State.init, WorkerPc.request]
  opened_lt := by simp [Spent.init]
  mapped_lt := by simp [Spent.init]
  opened_le := Nat.zero_le _
  mapped_le := Nat.zero_le _

/-! ### Who waits at a segment -/

theorem Segments.holder_eq (hi : Segments s) {i' : Fin c.nproxies}
    (h : (s.proxy i).pc.shm = some g) (h' : (s.proxy i').pc.shm = some g) : i = i' := by
  rcases hi.queued_or_held g with ⟨-, hnone⟩ | ⟨-, i₀, -, hunique⟩
  · exact absurd h (hnone i)
  · exact (hunique i h).trans (hunique i' h').symm

theorem Segments.awaits_le (hi : Segments s) (opened : List ℕ) (g : Fin c.nsegments) :
    total (Proxy.awaits opened g) s.proxy ≤ 1 := by
  have hle : total (Proxy.awaits opened g) s.proxy
      ≤ total (fun p => p.pc.holding g) s.proxy := by
    refine Finset.sum_le_sum fun k _ => ?_
    unfold Proxy.awaits
    split_ifs with hwait
    · simp [hwait.1, ProxyPc.holding, ProxyPc.shm]
    · exact Nat.zero_le _
  have hsum := hi.conserved g
  omega

/-- A thread that has a post coming has sent its message, and has one coming only. -/
theorem Lent.awaited (hi : Lent room x) (hseg : Segments x.state)
    (hpc : (x.state.proxy i).pc = .waitFilelen g) (hpos : 0 < x.state.posts g) :
    (x.state.proxy i).request ∈ x.opened ∧ x.state.posts g = 1 := by
  have hle := hseg.awaits_le x.opened g
  have hposts := hi.posts g
  obtain ⟨k, -, hk⟩ := Finset.exists_ne_zero_of_sum_ne_zero
    (show total (Proxy.awaits x.opened g) x.state.proxy ≠ 0 by omega)
  unfold Proxy.awaits at hk
  split_ifs at hk with hwait
  · obtain rfl : i = k := hseg.holder_eq (by rw [hpc]; rfl) (by rw [hwait.1]; rfl)
    exact ⟨hwait.2, by omega⟩
  · exact absurd rfl hk

/-- Where no thread waits for a post, none is there. -/
theorem Lent.posts_eq_zero (hi : Lent room x) (hseg : Segments x.state)
    (hheld : (x.state.proxy i).pc.shm = some g) (hpc : (x.state.proxy i).pc ≠ .waitFilelen g) :
    x.state.posts g = 0 := by
  rw [hi.posts]
  refine total_eq_zero fun k => if_neg fun hwait => hpc ?_
  obtain rfl : i = k := hseg.holder_eq hheld (by rw [hwait.1]; rfl)
  exact hwait.1

/-! ### The steps of the proxy -/

/-- A step of the thread `i` to `p`, neither from nor to the wait for an answer. -/
theorem Lent.move (hi : Lent room x) {pc : ProxyPc c.nsegments} {p : Proxy c.nsegments}
    (hpc : (x.state.proxy i).pc = pc)
    (hproxy : y.state.proxy = Function.update x.state.proxy i p)
    (hworker : y.state.worker = x.state.worker) (hmq : y.state.msgqueue = x.state.msgqueue)
    (hsem : ∀ g, (y.state.seg g).filelenSem = (x.state.seg g).filelenSem)
    (hout : ∀ g, pc ≠ .waitFilelen g) (hout' : ∀ g, p.pc ≠ .waitFilelen g)
    (hmapped : y.mapped = x.mapped) (hnext : x.state.next ≤ y.state.next)
    (hsub : x.opened ⊆ y.opened)
    (hnew : ∀ r ∈ y.opened, r ∈ x.opened ∨ x.state.next ≤ r ∧ r < y.state.next)
    (hle : y.opened.length ≤ room.proxy) (htaken : p.pc ≠ .idle → p.request < y.state.next)
    (htold : p.pc ≠ .idle → p.pc.asks = true ∨ p.request ∈ x.opened ∧ p.request ∈ x.mapped)
    (hsent : ∀ r, y.state.sent r ≠ [] → x.state.sent r ≠ [] ∨ r ∈ x.opened ∧ r ∈ x.mapped) :
    Lent room y := by
  subst hpc
  have hother : ∀ k, k ≠ i → y.state.proxy k = x.state.proxy k := fun k h => by
    rw [hproxy, Function.update_of_ne h]
  have hself : y.state.proxy i = p := by rw [hproxy, Function.update_self]
  -- the threads that wait are the same, with the same requests
  have hwaits : ∀ k g, (x.state.proxy k).pc = .waitFilelen g → k ≠ i := fun k g h he =>
    hout g (he ▸ h)
  have hwaits' : ∀ k g, (y.state.proxy k).pc = .waitFilelen g → k ≠ i := fun k g h he => by
    rw [he, hself] at h
    exact hout' g h
  have hbelow : ∀ k, (x.state.proxy k).pc ≠ .idle →
      ((x.state.proxy k).request ∈ y.opened ↔ (x.state.proxy k).request ∈ x.opened) :=
    fun k hbusy => by
      refine ⟨fun h => (hnew _ h).resolve_right fun hr => ?_, fun h => hsub h⟩
      exact absurd (hi.taken k hbusy) (Nat.not_lt.mpr hr.1)
  have hposts : ∀ g, y.state.posts g = x.state.posts g := fun g => by
    unfold State.posts
    rw [hworker, hmq, hsem]
  refine ⟨fun g => ?_, fun m hm => ?_, fun j g r how => ?_, fun j g r how hmaps => ?_,
    fun k g hpc hpos => ?_, fun k hbusy => ?_, fun k hbusy => ?_, fun r hr => ?_,
    fun j r hr => ?_, fun r hr => ?_, fun r hr => ?_, hle, hmapped ▸ hi.mapped_le⟩
  · rw [hposts, hi.posts]
    refine Finset.sum_congr rfl fun k _ => ?_
    unfold Proxy.awaits
    by_cases hk : k = i
    · subst hk
      rw [if_neg fun h => hout g h.1, if_neg fun h => hwaits' k g h.1 rfl]
    · rw [hother k hk]
      by_cases hwait : (x.state.proxy k).pc = .waitFilelen g
      · simp only [hbelow k (by simp [hwait])]
      · simp [hwait]
  · obtain ⟨g, k, hname, hk⟩ := hi.message m (hmq ▸ hm)
    exact ⟨g, k, hname, by rw [hother k (hwaits k g (by rw [hk])), hk]⟩
  · rw [hworker] at how
    obtain ⟨k, hk⟩ := hi.owes j g r how
    exact ⟨k, by rw [hother k (hwaits k g (by rw [hk])), hk]⟩
  · rw [hworker] at how hmaps
    exact hmapped ▸ hi.maps j g r how hmaps
  · have hk := hwaits' k g hpc
    rw [hother k hk] at hpc ⊢
    rw [hsem] at hpos
    exact hmapped ▸ hi.posted k g hpc hpos
  · rw [hmapped]
    by_cases hk : k = i
    · rw [hk, hself] at hbusy ⊢
      exact (htold hbusy).imp_right fun h => ⟨hsub h.1, h.2⟩
    · rw [hother k hk] at hbusy ⊢
      exact (hi.told k hbusy).imp_right fun h => ⟨hsub h.1, h.2⟩
  · by_cases hk : k = i
    · rw [hk, hself] at hbusy ⊢
      exact htaken hbusy
    · rw [hother k hk] at hbusy ⊢
      exact (hi.taken k hbusy).trans_le hnext
  · rw [hmapped]
    rcases hsent r hr with hr | hr
    · exact (hi.sent r hr).imp_left fun h => hsub h
    · exact ⟨hsub hr.1, hr.2⟩
  · rw [hworker] at hr
    exact (hi.serves j r hr).trans_le hnext
  · rcases hnew r hr with h | h
    · exact (hi.opened_lt r h).trans_le hnext
    · exact h.2
  · rw [hmapped] at hr
    exact (hi.mapped_lt r hr).trans_le hnext

/-- A step that leaves the request and all that is counted where it is. -/
theorem Lent.pass (hi : Lent room x) {pc pc' : ProxyPc c.nsegments}
    (hpc : (x.state.proxy i).pc = pc) (hbusy : pc ≠ .idle)
    (hproxy : s'.proxy = Function.update x.state.proxy i { x.state.proxy i with pc := pc' })
    (hworker : s'.worker = x.state.worker) (hmq : s'.msgqueue = x.state.msgqueue)
    (hnext : s'.next = x.state.next)
    (hsem : ∀ g, (s'.seg g).filelenSem = (x.state.seg g).filelenSem)
    (hout : ∀ g, pc ≠ .waitFilelen g) (hout' : ∀ g, pc' ≠ .waitFilelen g)
    (htold : pc' ≠ .idle → pc'.asks = true ∨ pc.asks = false)
    (hsent : s'.sent = x.state.sent ∨ pc.asks = false
      ∧ ∀ r, r ≠ (x.state.proxy i).request → s'.sent r = x.state.sent r) :
    Lent room { x with state := s' } := by
  subst hpc
  have hserved : (x.state.proxy i).pc.asks = false →
      (x.state.proxy i).request ∈ x.opened ∧ (x.state.proxy i).request ∈ x.mapped := fun hasks =>
    (hi.told i hbusy).resolve_left (by simp [hasks])
  refine hi.move rfl hproxy hworker hmq hsem hout hout' rfl hnext.ge (fun _ => id)
    (fun r hr => .inl hr) hi.opened_le (fun _ => hnext.symm ▸ hi.taken i hbusy)
    (fun h => (htold h).imp_right hserved) fun r hr => ?_
  rcases hsent with h | ⟨hasks, h⟩
  · exact .inl (by rwa [← h])
  · by_cases hreq : r = (x.state.proxy i).request
    · exact .inr (hreq ▸ hserved hasks)
    · exact .inl (by rwa [← h r hreq])

/-- The thread is handed a request, whether or not `mq_open` has failed. -/
theorem Lent.idle (hi : Lent room x) (hpc : (x.state.proxy i).pc = .idle) {opened : List ℕ}
    (hopened : opened = x.opened
      ∨ opened = x.state.next :: x.opened ∧ x.opened.length < room.proxy)
    (h : handleWithCache i ret x.state = some s') :
    Lent room { x with state := s', opened } := by
  obtain ⟨pc, hpc', hstep⟩ := handleWithCache_cases h
  obtain rfl := hpc.symm.trans hpc'
  cases hstep with
  | idle hlt =>
    refine hi.move hpc rfl rfl rfl (fun _ => rfl) (by simp) (by simp) rfl (Nat.le_succ _)
      (fun r hr => ?_) (fun r hr => ?_) ?_ (fun _ => Nat.lt_succ_self _) (fun _ => .inl rfl)
      fun r hr => .inl hr
    · rcases hopened with rfl | ⟨rfl, -⟩
      · exact hr
      · exact List.mem_cons_of_mem _ hr
    · rcases hopened with rfl | ⟨rfl, -⟩
      · exact .inl hr
      · rcases List.mem_cons.mp hr with rfl | hr
        · exact .inr ⟨le_rfl, Nat.lt_succ_self _⟩
        · exact .inl hr
    · rcases hopened with rfl | ⟨rfl, hlt⟩
      · exact hi.opened_le
      · exact hlt

/-- The thread goes on to wait, with its message on its way or lost. -/
theorem Lent.mqSend (hi : Lent room x) (hseg : Segments x.state) {request : ReqStruct}
    (hpc : (x.state.proxy i).pc = .mqSend g request) (hname : request.shmId = c.names g)
    (hproxy : s'.proxy =
      Function.update x.state.proxy i ⟨(x.state.proxy i).request, .waitFilelen g⟩)
    (hworker : s'.worker = x.state.worker) (hnext : s'.next = x.state.next)
    (hsem : ∀ g, (s'.seg g).filelenSem = (x.state.seg g).filelenSem)
    (hsent : s'.sent = x.state.sent)
    (hmq : (x.state.proxy i).request ∈ x.opened
        ∧ s'.msgqueue = x.state.msgqueue ++ [((x.state.proxy i).request, request)]
      ∨ (x.state.proxy i).request ∉ x.opened ∧ s'.msgqueue = x.state.msgqueue) :
    Lent room { x with state := s' } := by
  have hother : ∀ k, k ≠ i → s'.proxy k = x.state.proxy k := fun k h => by
    rw [hproxy, Function.update_of_ne h]
  have hself : s'.proxy i = ⟨(x.state.proxy i).request, .waitFilelen g⟩ := by
    rw [hproxy, Function.update_self]
  have hreq : ∀ k, (s'.proxy k).request = (x.state.proxy k).request := fun k => by
    by_cases hk : k = i
    · rw [hk, hself]
    · rw [hother k hk]
  have hzero := hi.posts_eq_zero hseg (i := i) (g := g) (by rw [hpc]; rfl) (by simp [hpc])
  have hwaits : ∀ k r g, x.state.proxy k = ⟨r, .waitFilelen g⟩ → k ≠ i := fun k r g h he => by
    rw [← he, h] at hpc
    cases hpc
  refine ⟨fun g' => ?_, fun m hm => ?_, fun j g' r how => ?_, fun j g' r how hmaps => ?_,
    fun k g' hk hpos => ?_, fun k hbusy => ?_, fun k hbusy => ?_, fun r hr => ?_,
    fun j r hr => ?_, fun r hr => ?_, fun r hr => ?_, hi.opened_le, hi.mapped_le⟩
  · have hsum := total_update (Proxy.awaits x.opened g') x.state.proxy i
      ⟨(x.state.proxy i).request, .waitFilelen g⟩
    have hwas : Proxy.awaits x.opened g' (x.state.proxy i) = 0 := if_neg fun h => by
      simp [hpc] at h
    have hposts := hi.posts g'
    have hnow : s'.posts g' = x.state.posts g'
        + Proxy.awaits x.opened g' ⟨(x.state.proxy i).request, .waitFilelen g⟩ := by
      unfold State.posts Proxy.awaits
      rw [hworker, hsem]
      rcases hmq with ⟨hmem, hmq⟩ | ⟨hmem, hmq⟩
      · rw [hmq, List.countP_append]
        by_cases hg : g = g'
        · simp [hg ▸ hname, hmem, hg]
          omega
        · have hne : c.names g ≠ c.names g' := fun h => hg (c.names_injective h)
          simp [hname, hne, hg]
      · simp [hmq, hmem]
    change s'.posts g' = total (Proxy.awaits x.opened g') s'.proxy
    rw [hproxy]
    omega
  · have hm' : m ∈ x.state.msgqueue ∨ m = ((x.state.proxy i).request, request) := by
      rcases hmq with ⟨-, hmq⟩ | ⟨-, hmq⟩
      · simpa [hmq] using hm
      · exact .inl (by simpa [hmq] using hm)
    rcases hm' with hm' | rfl
    · obtain ⟨g', k, hname', hk⟩ := hi.message m hm'
      exact ⟨g', k, hname', by rw [hother k (hwaits k _ _ hk), hk]⟩
    · exact ⟨g, i, hname, hself⟩
  · rw [hworker] at how
    obtain ⟨k, hk⟩ := hi.owes j g' r how
    exact ⟨k, by rw [hother k (hwaits k _ _ hk), hk]⟩
  · rw [hworker] at how hmaps
    exact hi.maps j g' r how hmaps
  · rw [hsem] at hpos
    by_cases hki : k = i
    · -- nothing has been posted for it yet
      rw [hki, hself] at hk
      obtain rfl := ProxyPc.waitFilelen.inj hk
      unfold State.posts at hzero
      omega
    · rw [hother k hki] at hk ⊢
      exact hi.posted k g' hk hpos
  · by_cases hki : k = i
    · exact .inl (by rw [hki, hself]; rfl)
    · rw [hother k hki] at hbusy ⊢
      exact hi.told k hbusy
  · rw [hreq, hnext]
    by_cases hki : k = i
    · exact hki ▸ hi.taken i (by simp [hpc])
    · exact hi.taken k (by rwa [← hother k hki])
  · rw [hsent] at hr
    exact hi.sent r hr
  · rw [hworker] at hr
    exact hnext.symm ▸ hi.serves j r hr
  · exact hnext.symm ▸ hi.opened_lt r hr
  · exact hnext.symm ▸ hi.mapped_lt r hr

/-- The thread takes the post. -/
theorem Lent.waitFilelen (hi : Lent room x) (hseg : Segments x.state)
    (hpc : (x.state.proxy i).pc = .waitFilelen g) (hpos : 0 < (x.state.seg g).filelenSem)
    (hproxy : s'.proxy = Function.update x.state.proxy i ⟨(x.state.proxy i).request, .status g⟩)
    (hworker : s'.worker = x.state.worker) (hmq : s'.msgqueue = x.state.msgqueue)
    (hnext : s'.next = x.state.next) (hsent : s'.sent = x.state.sent)
    (hsem : ∀ g', (s'.seg g').filelenSem = if g' = g then (x.state.seg g).filelenSem - 1
      else (x.state.seg g').filelenSem) : Lent room { x with state := s' } := by
  have hother : ∀ k, k ≠ i → s'.proxy k = x.state.proxy k := fun k h => by
    rw [hproxy, Function.update_of_ne h]
  have hself : s'.proxy i = ⟨(x.state.proxy i).request, .status g⟩ := by
    rw [hproxy, Function.update_self]
  have hposted := hi.posted i g hpc hpos
  obtain ⟨hopened, hone⟩ := hi.awaited hseg hpc (by unfold State.posts; omega)
  -- the post is the only one, so that no message and no worker is left for the segment
  have hgone : ∀ k r g', x.state.proxy k = ⟨r, .waitFilelen g'⟩ → g' ≠ g → k ≠ i :=
    fun k r g' hk hne he => by
      rw [← he, hk] at hpc
      exact hne (ProxyPc.waitFilelen.inj hpc)
  have hmsg : ∀ m ∈ x.state.msgqueue, m.2.shmId ≠ c.names g := fun m hm hname => by
    have hcount : 0 < x.state.msgqueue.countP fun m => m.2.shmId = c.names g :=
      List.countP_pos_iff.mpr ⟨m, hm, by simpa using hname⟩
    unfold State.posts at hone
    omega
  have howed : ∀ j r, (x.state.worker j).owes c ≠ some (g, r) := fun j r how => by
    have hle := le_total (WorkerPc.owed c g) x.state.worker j
    rw [show WorkerPc.owed c g (x.state.worker j) = 1 from if_pos (by rw [how]; rfl)] at hle
    unfold State.posts at hone
    omega
  refine ⟨fun g' => ?_, fun m hm => ?_, fun j g' r how => ?_, fun j g' r how hmaps => ?_,
    fun k g' hk hpos' => ?_, fun k hbusy => ?_, fun k hbusy => ?_, fun r hr => ?_,
    fun j r hr => ?_, fun r hr => ?_, fun r hr => ?_, hi.opened_le, hi.mapped_le⟩
  · have hsum := total_update (Proxy.awaits x.opened g') x.state.proxy i
      ⟨(x.state.proxy i).request, .status g⟩
    have hnow : Proxy.awaits x.opened g' ⟨(x.state.proxy i).request, .status g⟩ = 0 :=
      if_neg fun h => by simp at h
    have hposts := hi.posts g'
    change s'.posts g' = total (Proxy.awaits x.opened g') s'.proxy
    unfold State.posts at hposts ⊢
    rw [hproxy, hworker, hmq, hsem]
    by_cases hg : g' = g
    · subst hg
      have hwas : Proxy.awaits x.opened g' (x.state.proxy i) = 1 := if_pos ⟨hpc, hopened⟩
      rw [if_pos rfl]
      omega
    · have hwas : Proxy.awaits x.opened g' (x.state.proxy i) = 0 := if_neg fun h =>
        hg (ProxyPc.waitFilelen.inj (h.1.symm.trans hpc))
      rw [if_neg hg]
      omega
  · rw [hmq] at hm
    obtain ⟨g', k, hname, hk⟩ := hi.message m hm
    have hne : g' ≠ g := fun he => hmsg m hm (he ▸ hname)
    exact ⟨g', k, hname, by rw [hother k (hgone k _ _ hk hne), hk]⟩
  · rw [hworker] at how
    obtain ⟨k, hk⟩ := hi.owes j g' r how
    have hne : g' ≠ g := fun he => howed j r (he ▸ how)
    exact ⟨k, by rw [hother k (hgone k _ _ hk hne), hk]⟩
  · rw [hworker] at how hmaps
    exact hi.maps j g' r how hmaps
  · have hki : k ≠ i := fun he => by
      rw [he, hself] at hk
      cases hk
    rw [hother k hki] at hk ⊢
    have hg : g' ≠ g := fun he => hki (hseg.holder_eq (g := g) (by rw [hk, he]; rfl)
      (by rw [hpc]; rfl))
    rw [hsem, if_neg hg] at hpos'
    exact hi.posted k g' hk hpos'
  · by_cases hki : k = i
    · rw [hki, hself]
      exact .inr ⟨hopened, hposted⟩
    · rw [hother k hki] at hbusy ⊢
      exact hi.told k hbusy
  · rw [hnext]
    by_cases hki : k = i
    · rw [hki, hself]
      exact hi.taken i (by simp [hpc])
    · rw [hother k hki] at hbusy ⊢
      exact hi.taken k hbusy
  · rw [hsent] at hr
    exact hi.sent r hr
  · rw [hworker] at hr
    exact hnext.symm ▸ hi.serves j r hr
  · exact hnext.symm ▸ hi.opened_lt r hr
  · exact hnext.symm ▸ hi.mapped_lt r hr

/-! ### The names of the segments -/

/-- The message a thread has made up for its segment. -/
def ProxyPc.message {n : ℕ} : ProxyPc n → Option (Fin n × ReqStruct)
  | .initFilelen g m | .initProxysem g m | .initCachesem g m | .mqSend g m => some (g, m)
  | _ => none

/-- The messages name the segments they are made up for. -/
structure Named (s : State c) : Prop where
  seg : ∀ g, (s.seg g).shmId = c.names g
  message : ∀ i g m, (s.proxy i).pc.message = some (g, m) → m.shmId = c.names g

theorem named_init (c : Config) : Named (State.init c) where
  seg := fun _ => rfl
  message := by simp [State.init, ProxyPc.message]

theorem Named.move (hi : Named s) {p : Proxy c.nsegments}
    (hproxy : s'.proxy = Function.update s.proxy i p)
    (hseg : ∀ g, (s'.seg g).shmId = (s.seg g).shmId)
    (hp : ∀ g m, p.pc.message = some (g, m) → m.shmId = c.names g) : Named s' := by
  refine ⟨fun g => (hseg g).trans (hi.seg g), fun k g m hm => ?_⟩
  by_cases hk : k = i
  · rw [hk, hproxy, Function.update_self] at hm
    exact hp g m hm
  · rw [hproxy, Function.update_of_ne hk] at hm
    exact hi.message k g m hm

/-- What a write to a segment leaves of the segments. -/
theorem put_keeps {α : Type*} (f : ShmDetails → α) {shm : ShmDetails}
    (hseg : s'.seg = Function.update s.seg g shm) (h : f shm = f (s.seg g))
    (g' : Fin c.nsegments) : f (s'.seg g') = f (s.seg g') := by
  rw [hseg]
  by_cases hg : g' = g
  · rw [hg, Function.update_self, h]
  · rw [Function.update_of_ne hg]

theorem Named.handleWithCache (hi : Named s) (h : handleWithCache i ret s = some s') :
    Named s' := by
  have hold := hi.message i
  obtain ⟨pc, hpc, hstep⟩ := handleWithCache_cases h
  rw [hpc] at hold
  cases hstep with
  | fill g =>
    refine hi.move rfl (fun _ => rfl) fun g' m hm => ?_
    obtain ⟨rfl, rfl⟩ := Prod.mk.inj (Option.some.inj hm)
    exact hi.seg g
  | initFilelen g m | initProxysem g m =>
    exact hi.move rfl (put_keeps ShmDetails.shmId rfl rfl) hold
  | initCachesem g m => exact hi.move rfl (put_keeps ShmDetails.shmId rfl rfl) hold
  | waitFilelen | waitProxysem | postCachesem | resetReadLen | resetFilesize =>
    exact hi.move rfl (put_keeps ShmDetails.shmId rfl rfl) (by simp [ProxyPc.message])
  | _ => exact hi.move rfl (fun _ => rfl) (by simp [ProxyPc.message])

theorem Named.workerRoutine (hi : Named s) (h : workerRoutine j ret s = some s') : Named s' := by
  have hproxy := (workerRoutine_proxy h).1
  refine ⟨fun g => ?_, by rw [hproxy]; exact hi.message⟩
  rw [← hi.seg g]
  obtain ⟨pc, -, hstep⟩ := workerRoutine_cases h
  cases hstep with
  | missingFilesize | missingStatus | missingPost | filesize | status | postFilelen | waitCachesem
  | readLen | data | postProxysem =>
    refine put_keeps ShmDetails.shmId rfl ?_ g
    rfl
  | _ => rfl

theorem Lent.handleWithCache (hi : Lent room x) (hseg : Segments x.state) (hnamed : Named x.state)
    (hsends : ∀ g m, (x.state.proxy i).pc = .mqSend g m → (x.state.proxy i).request ∈ x.opened)
    (h : handleWithCache i ret x.state = some s') : Lent room { x with state := s' } := by
  have hmessage := hnamed.message i
  obtain ⟨pc, hpc, hstep⟩ := handleWithCache_cases h
  rw [hpc] at hmessage
  cases hstep with
  | idle => exact hi.idle hpc (.inl rfl) h
  | initFilelen g m =>
    -- no post is there to be lost
    refine hi.pass hpc (by simp) rfl rfl rfl rfl (fun g' => ?_) (by simp) (by simp)
      (fun _ => .inl rfl) (.inl rfl)
    refine put_keeps ShmDetails.filelenSem rfl ?_ g'
    have hzero := hi.posts_eq_zero hseg (i := i) (g := g) (by rw [hpc]; rfl) (by simp [hpc])
    unfold State.posts at hzero
    change 0 = (x.state.seg g).filelenSem
    omega
  | mqSend g m =>
    exact hi.mqSend hseg hpc (hmessage g m rfl) rfl rfl rfl (fun _ => rfl) rfl
      (.inl ⟨hsends g m hpc, rfl⟩)
  | waitFilelen g hpos =>
    refine hi.waitFilelen hseg hpc hpos rfl rfl rfl rfl rfl fun g' => ?_
    by_cases hg : g' = g
    · simp [State.goto, State.put, hg]
    · simp [State.goto, State.put, hg]
  | initProxysem | initCachesem =>
    exact hi.pass hpc (by simp) rfl rfl rfl rfl (put_keeps ShmDetails.filelenSem rfl rfl) (by simp)
      (by simp) (fun _ => .inl rfl) (.inl rfl)
  | waitProxysem | postCachesem | resetReadLen | resetFilesize =>
    exact hi.pass hpc (by simp) rfl rfl rfl rfl (put_keeps ShmDetails.filelenSem rfl rfl) (by simp)
      (by simp) (fun _ => .inr rfl) (.inl rfl)
  | header | send =>
    exact hi.pass hpc (by simp) rfl rfl rfl rfl (fun _ => rfl) (by simp) (by simp)
      (fun _ => .inr rfl) (.inr ⟨rfl, fun r hr => by simp [State.tell, State.goto, hr]⟩)
  | sent | untold | notFound =>
    exact hi.pass hpc (by simp) rfl rfl rfl rfl (fun _ => rfl) (by simp) (by simp)
      (fun h => absurd rfl h)
      (.inr ⟨rfl, fun r hr => by simp [State.finish, State.tell, State.goto, hr]⟩)
  | lock | empty | nonempty | wait | waiting | pop | unlock | broadcast | fill =>
    exact hi.pass hpc (by simp) rfl rfl rfl rfl (fun _ => rfl) (by simp) (by simp)
      (fun _ => .inl rfl) (.inl rfl)
  | _ =>
    exact hi.pass hpc (by simp) rfl rfl rfl rfl (fun _ => rfl) (by simp) (by simp)
      (fun _ => .inr rfl) (.inl rfl)

/-! ### The steps of the cache -/

/-- A step of the worker `j` from `pc` to `w`, which may post for a thread that waits. -/
theorem Lent.work (hi : Lent room x) {pc w : WorkerPc c.nsegments} {mapped : List ℕ}
    (hpc : x.state.worker j = pc) (hworker : s'.worker = Function.update x.state.worker j w)
    (hproxy : s'.proxy = x.state.proxy) (hnext : s'.next = x.state.next)
    (hsent : s'.sent = x.state.sent) (hmq : ∀ m ∈ s'.msgqueue, m ∈ x.state.msgqueue)
    (hsub : x.mapped ⊆ mapped) (hle : mapped.length ≤ room.cache)
    (hlt : ∀ r ∈ mapped, r < x.state.next) (hserves : ∀ r, w.request = some r → r < x.state.next)
    (hposts : ∀ g, (s'.msgqueue.countP fun m => m.2.shmId = c.names g) + w.owed c g
        + (s'.seg g).filelenSem
      = (x.state.msgqueue.countP fun m => m.2.shmId = c.names g) + pc.owed c g
        + (x.state.seg g).filelenSem)
    (howes : ∀ g r, w.owes c = some (g, r) → (∃ i, x.state.proxy i = ⟨r, .waitFilelen g⟩)
      ∧ (w.maps = true → r ∈ mapped))
    (hposted : ∀ i g, (x.state.proxy i).pc = .waitFilelen g → (s'.seg g).filelenSem
      ≤ (x.state.seg g).filelenSem ∨ (x.state.proxy i).request ∈ mapped) :
    Lent room { x with state := s', mapped } := by
  subst hpc
  refine ⟨fun g => ?_, fun m hm => ?_, fun k g r how => ?_, fun k g r how hmaps => ?_,
    fun i g hpc hpos => ?_, fun i hbusy => ?_, fun i hbusy => ?_, fun r hr => ?_,
    fun k r hr => ?_, fun r hr => ?_, fun r hr => ?_, hi.opened_le, hle⟩
  · have hsum := total_update (WorkerPc.owed c g) x.state.worker j w
    have hstep := hposts g
    have hold := hi.posts g
    change s'.posts g = total (Proxy.awaits x.opened g) s'.proxy
    unfold State.posts at hold ⊢
    rw [hproxy, hworker]
    omega
  · rw [hproxy]
    exact hi.message m (hmq m hm)
  · rw [hworker] at how
    rw [hproxy]
    by_cases hk : k = j
    · rw [hk, Function.update_self] at how
      exact (howes g r how).1
    · rw [Function.update_of_ne hk] at how
      exact hi.owes k g r how
  · rw [hworker] at how hmaps
    by_cases hk : k = j
    · rw [hk, Function.update_self] at how hmaps
      exact (howes g r how).2 hmaps
    · rw [Function.update_of_ne hk] at how hmaps
      exact hsub (hi.maps k g r how hmaps)
  · rw [hproxy] at hpc ⊢
    rcases hposted i g hpc with hle | hmem
    · exact hsub (hi.posted i g hpc (hpos.trans_le hle))
    · exact hmem
  · rw [hproxy] at hbusy ⊢
    exact (hi.told i hbusy).imp_right fun h => ⟨h.1, hsub h.2⟩
  · rw [hproxy] at hbusy ⊢
    exact hnext.symm ▸ hi.taken i hbusy
  · rw [hsent] at hr
    exact (hi.sent r hr).imp_right fun h => hsub h
  · rw [hworker] at hr
    rw [hnext]
    by_cases hk : k = j
    · rw [hk, Function.update_self] at hr
      exact hserves r hr
    · rw [Function.update_of_ne hk] at hr
      exact hi.serves k r hr
  · exact hnext.symm ▸ hi.opened_lt r hr
  · exact hnext.symm ▸ hlt r hr

/-- A step in which the worker neither takes a message nor posts. -/
theorem Lent.remain (hi : Lent room x) {pc w : WorkerPc c.nsegments} {mapped : List ℕ}
    (hpc : x.state.worker j = pc) (hworker : s'.worker = Function.update x.state.worker j w)
    (hproxy : s'.proxy = x.state.proxy) (hnext : s'.next = x.state.next)
    (hsent : s'.sent = x.state.sent) (hmq : s'.msgqueue = x.state.msgqueue)
    (hsem : ∀ g, (s'.seg g).filelenSem = (x.state.seg g).filelenSem)
    (hsub : x.mapped ⊆ mapped) (hle : mapped.length ≤ room.cache)
    (hlt : ∀ r ∈ mapped, r < x.state.next)
    (hserves : ∀ r, w.request = some r → pc.request = some r) (howes : w.owes c = pc.owes c)
    (hmaps : ∀ g r, pc.owes c = some (g, r) → w.maps = true → pc.maps = true ∨ r ∈ mapped) :
    Lent room { x with state := s', mapped } := by
  refine hi.work hpc hworker hproxy hnext hsent (fun m hm => hmq ▸ hm) hsub hle hlt
    (fun r hr => hi.serves j r (by rw [hpc, hserves r hr])) (fun g => ?_) (fun g r how => ?_)
    fun i g _ => .inl (hsem g).le
  · rw [hmq, hsem, WorkerPc.owed, WorkerPc.owed, howes]
  · rw [howes] at how
    have hold : (x.state.worker j).owes c = some (g, r) := by rw [hpc, how]
    refine ⟨hi.owes j g r hold, fun h => ?_⟩
    rcases hmaps g r how h with hmapped | hmem
    · exact hsub (hi.maps j g r hold (by rw [hpc, hmapped]))
    · exact hmem

/-- The worker posts `filelen_sem` of the segment it owes the post to. -/
theorem Lent.post (hi : Lent room x) (hseg : Segments x.state) {pc w : WorkerPc c.nsegments}
    {r : ℕ} (hpc : x.state.worker j = pc)
    (hworker : s'.worker = Function.update x.state.worker j w)
    (hproxy : s'.proxy = x.state.proxy) (hnext : s'.next = x.state.next)
    (hsent : s'.sent = x.state.sent) (hmq : s'.msgqueue = x.state.msgqueue)
    (hsem : ∀ g', (s'.seg g').filelenSem = (x.state.seg g').filelenSem + if g' = g then 1 else 0)
    (howed : pc.owes c = some (g, r)) (hmaps : pc.maps = true) (howes : w.owes c = none)
    (hserves : ∀ r, w.request = some r → pc.request = some r) :
    Lent room { x with state := s' } := by
  have hold : (x.state.worker j).owes c = some (g, r) := by rw [hpc, howed]
  refine hi.work hpc hworker hproxy hnext hsent (fun m hm => hmq ▸ hm) (fun _ => id)
    hi.mapped_le hi.mapped_lt (fun r hr => hi.serves j r (by rw [hpc, hserves r hr]))
    (fun g' => ?_) (by simp [howes]) fun i g' hi' => ?_
  · rw [hmq, hsem, WorkerPc.owed, WorkerPc.owed, howes, howed]
    by_cases hg : g' = g
    · simp [hg]
      omega
    · simp [hg, Ne.symm hg]
  · by_cases hg : g' = g
    · obtain ⟨k, hk⟩ := hi.owes j g r hold
      obtain rfl : i = k := hseg.holder_eq (g := g) (by rw [hi', hg]; rfl) (by rw [hk]; rfl)
      rw [hk]
      exact .inr (hi.maps j g r hold (by rw [hpc, hmaps]))
    · rw [hsem, if_neg hg]
      exact .inl le_rfl

theorem Lent.crash (hi : Lent room x) :
    Lent room { x with state := { x.state with crashed := true } } :=
  ⟨hi.posts, hi.message, hi.owes, hi.maps, hi.posted, hi.told, hi.taken, hi.sent, hi.serves,
    hi.opened_lt, hi.mapped_lt, hi.opened_le, hi.mapped_le⟩

theorem Lent.workerRoutine (hi : Lent room x) (hseg : Segments x.state)
    (hopen : ∀ r m fd, x.state.worker j ≠ .shmOpen r m fd)
    (h : workerRoutine j ret x.state = some s') : Lent room { x with state := s' } := by
  obtain ⟨pc, hpc, hstep⟩ := workerRoutine_cases h
  cases hstep with
  | @receive r m rest hmq =>
    obtain ⟨g, i, hname, hk⟩ := hi.message (r, m) (by rw [hmq]; exact List.mem_cons_self)
    change m.shmId = c.names g at hname
    change x.state.proxy i = ⟨r, .waitFilelen g⟩ at hk
    have howes : WorkerPc.owes c (.lookup r m) = some (g, r) := by
      simp only [WorkerPc.owes, hname, shmOpen_names, Option.map_some]
    refine hi.work hpc rfl rfl rfl rfl (fun m hm => ?_) (fun _ => id) hi.mapped_le hi.mapped_lt
      (fun r' hr => ?_) (fun g' => ?_) (fun g' r' how => ?_) fun _ _ _ => .inl le_rfl
    · rw [hmq]
      exact List.mem_cons_of_mem _ hm
    · obtain rfl := Option.some.inj hr
      have htaken := hi.taken i (by simp [hk])
      rwa [hk] at htaken
    · rw [hmq, List.countP_cons, WorkerPc.owed, WorkerPc.owed, howes]
      by_cases hg : g = g'
      · simp [hg ▸ hname, hg, WorkerPc.owes, State.work]
      · have hne : c.names g ≠ c.names g' := fun h => hg (c.names_injective h)
        simp [hname, hne, hg, WorkerPc.owes, State.work]
    · obtain ⟨rfl, rfl⟩ := Prod.mk.inj (Option.some.inj (howes.symm.trans how))
      exact ⟨⟨i, hk⟩, fun h => by cases h⟩
  | unnamed r m fd | missing r m fd | found r m fd => exact absurd hpc (hopen r m fd)
  | lookup r m =>
    exact hi.remain hpc rfl rfl rfl rfl rfl (fun _ => rfl) (fun _ => id) hi.mapped_le
      hi.mapped_lt (fun _ => id) rfl fun _ _ _ h => .inl h
  | done | ended =>
    exact hi.remain hpc rfl rfl rfl rfl rfl (fun _ => rfl) (fun _ => id) hi.mapped_le
      hi.mapped_lt (by simp [WorkerPc.request]) rfl fun _ _ _ _ => .inl rfl
  | seek | more | pread =>
    exact hi.remain hpc rfl rfl rfl rfl rfl (fun _ => rfl) (fun _ => id) hi.mapped_le
      hi.mapped_lt (fun _ => id) rfl fun _ _ _ _ => .inl rfl
  | missingPost r g =>
    refine hi.post hseg hpc rfl rfl rfl rfl rfl (fun g' => ?_) rfl rfl rfl
      (by simp [WorkerPc.request])
    simp only [State.work, State.put, Function.update_apply]
    split_ifs with hg
    · rw [hg]
    · rfl
  | postFilelen r job =>
    refine hi.post hseg hpc rfl rfl rfl rfl rfl (fun g' => ?_) rfl rfl rfl (fun _ => id)
    simp only [State.work, State.put, Function.update_apply]
    split_ifs with hg
    · rw [hg]
    · rfl
  | overflow => exact hi.crash
  | missingFilesize | missingStatus | filesize | status | waitCachesem | readLen | data
  | postProxysem =>
    refine hi.remain hpc rfl rfl rfl rfl rfl (fun g' => ?_) (fun _ => id) hi.mapped_le
      hi.mapped_lt (fun _ => id) rfl fun _ _ _ _ => .inl rfl
    refine put_keeps ShmDetails.filelenSem rfl ?_ g'
    rfl

/-- The worker opens and maps the segment of its message. -/
theorem Lent.shmOpen (hi : Lent room x) {r : ℕ} {m : ReqStruct} {fd : ℤ}
    (hpc : x.state.worker j = .shmOpen r m fd) (hlt : x.mapped.length < room.cache)
    (h : Cache.workerRoutine j ret x.state = some s') :
    Lent room { x with state := s', mapped := r :: x.mapped } := by
  have hr : r < x.state.next := hi.serves j r (by rw [hpc]; rfl)
  have hmapped : ∀ r' ∈ r :: x.mapped, r' < x.state.next := fun r' hr' => by
    rcases List.mem_cons.mp hr' with rfl | hr'
    · exact hr
    · exact hi.mapped_lt r' hr'
  obtain ⟨pc, hpc', hstep⟩ := workerRoutine_cases h
  obtain rfl := hpc.symm.trans hpc'
  cases hstep with
  | unnamed r m fd hopen =>
    refine hi.remain hpc ?_ rfl rfl rfl rfl (fun _ => rfl) (List.subset_cons_self _ _) hlt hmapped
      (fun _ => id) rfl fun _ _ _ h => .inl h
    exact hpc ▸ (Function.update_eq_self j x.state.worker).symm
  | missing r m fd hopen hneg | found r m fd hopen hpos =>
    refine hi.remain hpc rfl rfl rfl rfl rfl (fun _ => rfl) (List.subset_cons_self _ _) hlt
      hmapped (fun _ => id) ?_ fun g' r' how _ => .inr ?_
    · simp [WorkerPc.owes, hopen]
    · simp only [WorkerPc.owes, hopen, Option.map_some, Option.some.injEq, Prod.mk.injEq] at how
      exact how.2 ▸ List.mem_cons_self

/-! ### Runs -/

/-- What a step does, by whether it takes a descriptor, finds none or does neither. -/
inductive Spends (room : Room) (x : Spent c) : Event c → Spent c → Prop
  | opens {i : Fin c.nproxies} {ret : ℤ} {s : State c} (hpc : (x.state.proxy i).pc = .idle)
      (hlt : x.opened.length < room.proxy) (h : handleWithCache i ret x.state = some s) :
    Spends room x (.proxy i ret) { x with state := s, opened := x.state.next :: x.opened }
  | proxy {i : Fin c.nproxies} {ret : ℤ} {s : State c}
      (hsends : ∀ g m, (x.state.proxy i).pc = .mqSend g m → (x.state.proxy i).request ∈ x.opened)
      (h : handleWithCache i ret x.state = some s) :
    Spends room x (.proxy i ret) { x with state := s }
  | unsent {i : Fin c.nproxies} {ret : ℤ} {g : Fin c.nsegments} {m : ReqStruct}
      (hpc : (x.state.proxy i).pc = .mqSend g m) (hmem : (x.state.proxy i).request ∉ x.opened) :
    Spends room x (.proxy i ret) { x with state := x.state.goto i (.waitFilelen g) }
  | maps {j : Fin c.nworkers} {ret : ℤ} {r : ℕ} {m : ReqStruct} {fd : ℤ} {s : State c}
      (halive : x.state.crashed = false) (hpc : x.state.worker j = .shmOpen r m fd)
      (hlt : x.mapped.length < room.cache) (h : workerRoutine j ret x.state = some s) :
    Spends room x (.worker j ret) { x with state := s, mapped := r :: x.mapped }
  | worker {j : Fin c.nworkers} {ret : ℤ} {s : State c} (halive : x.state.crashed = false)
      (hopen : ∀ r m fd, x.state.worker j ≠ .shmOpen r m fd)
      (h : workerRoutine j ret x.state = some s) :
    Spends room x (.worker j ret) { x with state := s }
  | crash {j : Fin c.nworkers} {ret : ℤ} (halive : x.state.crashed = false) :
    Spends room x (.worker j ret) { x with state := { x.state with crashed := true } }
  | spurious {i : Fin c.nproxies} {s : State c}
      (h : Cache.step c (.spurious i) x.state = some s) :
    Spends room x (.spurious i) { x with state := s }

theorem step_spends {e : Event c} (h : x.step room e = some y) : Spends room x e y := by
  unfold Spent.step at h
  cases e with
  | proxy i ret =>
    simp only [Spent.handleWithCache] at h
    split at h
    · rename_i hpc
      split_ifs at h with hret hlt <;> obtain ⟨s, hs, rfl⟩ := Option.map_eq_some_iff.mp h
      · exact .opens hpc hlt hs
      · exact .proxy (by simp [hpc]) hs
    · rename_i g m hpc
      split_ifs at h with hmem
      · obtain ⟨s, hs, rfl⟩ := Option.map_eq_some_iff.mp h
        exact .proxy (fun _ _ _ => hmem) hs
      · obtain rfl := Option.some.inj h
        exact .unsent hpc hmem
    · rename_i hidle hsend
      obtain ⟨s, hs, rfl⟩ := Option.map_eq_some_iff.mp h
      exact .proxy (fun g m hpc => absurd hpc (hsend g m)) hs
  | worker j ret =>
    simp only at h
    split_ifs at h with hcrashed
    have halive : x.state.crashed = false := by simpa using hcrashed
    simp only [Spent.workerRoutine] at h
    split at h
    · rename_i r m fd hpc
      split_ifs at h with hret hlt
      · obtain ⟨s, hs, rfl⟩ := Option.map_eq_some_iff.mp h
        exact .maps halive hpc hlt hs
      · obtain rfl := Option.some.inj h
        exact .crash halive
    · rename_i hopen
      obtain ⟨s, hs, rfl⟩ := Option.map_eq_some_iff.mp h
      exact .worker halive hopen hs
  | spurious i =>
    obtain ⟨s, hs, rfl⟩ := Option.map_eq_some_iff.mp h
    exact .spurious hs

structure Kept (room : Room) (x : Spent c) : Prop where
  pool : Pool x.state
  segments : Segments x.state
  named : Named x.state
  lent : Lent room x

theorem Kept.next (hi : Kept room x) {e : Event c} (h : x.step room e = some y) : Kept room y := by
  obtain ⟨hpool, hseg, hnamed, hlent⟩ := hi
  cases step_spends h with
  | opens hpc hlt hs =>
    exact ⟨hpool.handleWithCache hs, hseg.handleWithCache hpool hs, hnamed.handleWithCache hs,
      hlent.idle hpc (.inr ⟨rfl, hlt⟩) hs⟩
  | proxy hsends hs =>
    exact ⟨hpool.handleWithCache hs, hseg.handleWithCache hpool hs, hnamed.handleWithCache hs,
      hlent.handleWithCache hseg hnamed hsends hs⟩
  | @unsent i ret g m hpc hmem =>
    refine ⟨hpool.pass hpc rfl rfl rfl ⟨rfl, rfl, by simp⟩ rfl,
      hseg.pass hpc rfl rfl rfl subset_rfl rfl (.inr (.inl rfl)) (.same rfl) (by simp),
      hnamed.move rfl (fun _ => rfl) (by simp [ProxyPc.message]), ?_⟩
    exact hlent.mqSend hseg hpc (hnamed.message i g m (by rw [hpc]; rfl)) rfl rfl rfl
      (fun _ => rfl) rfl (.inr ⟨hmem, rfl⟩)
  | maps halive hpc hlt hs =>
    obtain ⟨hproxy, hmonitor, hqueue, -⟩ := workerRoutine_proxy hs
    exact ⟨hpool.same hproxy hmonitor hqueue, hseg.workerRoutine hs, hnamed.workerRoutine hs,
      hlent.shmOpen hpc hlt hs⟩
  | worker halive hopen hs =>
    obtain ⟨hproxy, hmonitor, hqueue, -⟩ := workerRoutine_proxy hs
    exact ⟨hpool.same hproxy hmonitor hqueue, hseg.workerRoutine hs, hnamed.workerRoutine hs,
      hlent.workerRoutine hseg hopen hs⟩
  | crash halive =>
    exact ⟨hpool.same rfl rfl rfl,
      ⟨hseg.conserved, hseg.posted, hseg.telling, hseg.reading, hseg.announced⟩,
      ⟨hnamed.seg, hnamed.message⟩, hlent.crash⟩
  | spurious hs =>
    obtain ⟨m, hm, rfl⟩ := Option.map_eq_some_iff.mp hs
    exact ⟨hpool.spurious hm, hseg.next hpool hs, ⟨hnamed.seg, hnamed.message⟩,
      ⟨hlent.posts, hlent.message, hlent.owes, hlent.maps, hlent.posted, hlent.told, hlent.taken,
        hlent.sent, hlent.serves, hlent.opened_lt, hlent.mapped_lt, hlent.opened_le,
        hlent.mapped_le⟩⟩

/-- The runs from `x`, in which the calls may return what they like. -/
def Spent.Reach (room : Room) (x y : Spent c) : Prop :=
  Trans.Reach (Spent.step room) (fun _ _ => True) x y

theorem kept_reach (h : (Spent.init c).Reach room x) : Kept room x :=
  h.invariant ⟨pool_init c, segments_init c, named_init c, lent_init c⟩
    fun _ _ _ hi _ hstep => hi.next hstep

/-! ### A request that is not sent -/

/-- The thread has a request whose `mq_open` has failed. -/
def Spent.lost (x : Spent c) (i : Fin c.nproxies) : Prop :=
  (x.state.proxy i).pc ≠ .idle ∧ (x.state.proxy i).request ∉ x.opened

/-- A thread that has lost its request stays with it, and with the segment it has taken. -/
structure Stays (x y : Spent c) (i : Fin c.nproxies) : Prop where
  lost : y.lost i
  request : (y.state.proxy i).request = (x.state.proxy i).request
  shm : ∀ g, (x.state.proxy i).pc.shm = some g → (y.state.proxy i).pc.shm = some g

theorem Stays.same (hlost : x.lost i) (hproxy : y.state.proxy i = x.state.proxy i)
    (hopened : (x.state.proxy i).request ∈ y.opened → (x.state.proxy i).request ∈ x.opened) :
    Stays x y i := by
  refine ⟨?_, by rw [hproxy], fun g => by rw [hproxy]; exact id⟩
  unfold Spent.lost
  rw [hproxy]
  exact ⟨hlost.1, fun h => hlost.2 (hopened h)⟩

theorem Kept.lost_asks (hi : Kept room x) (hlost : x.lost i) :
    (x.state.proxy i).pc.asks = true :=
  (hi.lent.told i hlost.1).resolve_right fun h => hlost.2 h.1

/-- A thread of the proxy leaves the others where they are, and what they have sent. -/
theorem handleWithCache_other (h : handleWithCache i ret s = some s') :
    (∀ k, k ≠ i → s'.proxy k = s.proxy k)
      ∧ ∀ r, r ≠ (s.proxy i).request → s'.sent r = s.sent r := by
  obtain ⟨pc, -, hstep⟩ := handleWithCache_cases h
  cases hstep with
  | header | send | sent | untold | notFound =>
    exact ⟨fun k hk => Function.update_of_ne hk _ _,
      fun r hr => by simp [State.finish, State.tell, State.goto, hr]⟩
  | _ => exact ⟨fun k hk => Function.update_of_ne hk _ _, fun _ _ => rfl⟩

/-- The step of a thread that asks for an answer, up to the message and but for the answer. -/
theorem handleWithCache_asks (h : handleWithCache i ret s = some s')
    (hasks : (s.proxy i).pc.asks = true) (hsend : ∀ g m, (s.proxy i).pc ≠ .mqSend g m)
    (hwait : ∀ g, (s.proxy i).pc ≠ .waitFilelen g) :
    (s'.proxy i).request = (s.proxy i).request ∧ (s'.proxy i).pc ≠ .idle
      ∧ ∀ g, (s.proxy i).pc.shm = some g → (s'.proxy i).pc.shm = some g := by
  obtain ⟨pc, hpc, hstep⟩ := handleWithCache_cases h
  rw [hpc] at hasks hsend hwait ⊢
  cases hstep with
  | mqSend g m => exact absurd rfl (hsend g m)
  | waitFilelen g => exact absurd rfl (hwait g)
  | lock | empty | nonempty | wait | waiting | pop | unlock | broadcast | fill | initFilelen
  | initProxysem | initCachesem => simp [State.goto, State.put, ProxyPc.shm]
  | _ => cases hasks

theorem Kept.stays (hi : Kept room x) (hlost : x.lost i) {e : Event c}
    (h : x.step room e = some y) : Stays x y i := by
  have hasks := hi.lost_asks hlost
  cases step_spends h with
  | @opens k ret s hpc hlt hs =>
    have hk : i ≠ k := fun he => hlost.1 (he ▸ hpc)
    refine .same hlost ((handleWithCache_other hs).1 i hk) fun hmem => ?_
    exact (List.mem_cons.mp hmem).resolve_left (hi.lent.taken i hlost.1).ne
  | @proxy k ret s hsends hs =>
    by_cases hk : i = k
    · subst hk
      -- nobody owes it a post
      have hwait : ∀ g, (x.state.proxy i).pc ≠ .waitFilelen g := fun g hpc => by
        obtain ⟨pc, hpc', hstep⟩ := handleWithCache_cases hs
        obtain rfl := hpc.symm.trans hpc'
        cases hstep with
        | waitFilelen g hpos =>
          exact hlost.2 (hi.lent.awaited hi.segments hpc (by unfold State.posts; omega)).1
      obtain ⟨hreq, hbusy, hshm⟩ :=
        handleWithCache_asks hs hasks (fun g m hpc => hlost.2 (hsends g m hpc)) hwait
      exact ⟨⟨hbusy, hreq.symm ▸ hlost.2⟩, hreq, hshm⟩
    · exact .same hlost ((handleWithCache_other hs).1 i hk) id
  | @unsent k ret g m hpc hmem =>
    by_cases hk : i = k
    · subst hk
      refine ⟨⟨?_, ?_⟩, ?_, fun g' hg' => ?_⟩
      · simp [State.goto]
      · simpa [State.goto] using hmem
      · simp [State.goto]
      · rw [hpc] at hg'
        simpa [State.goto, ProxyPc.shm] using hg'
    · exact .same hlost (Function.update_of_ne hk _ _) id
  | maps halive hpc hlt hs | worker halive hopen hs =>
    exact .same hlost (by rw [(workerRoutine_proxy hs).1]) id
  | crash halive => exact .same hlost rfl id
  | spurious hs =>
    obtain ⟨m, hm, rfl⟩ := Option.map_eq_some_iff.mp hs
    exact .same hlost rfl id

theorem Kept.stays_reach (hi : Kept room x) (hlost : x.lost i) (h : x.Reach room y) :
    Kept room y ∧ Stays x y i := by
  refine h.invariant (I := fun y => Kept room y ∧ Stays x y i) ⟨hi, hlost, rfl, fun _ => id⟩
    fun s e s' ⟨hs, hstays⟩ _ hstep => ?_
  obtain ⟨hlost', hreq, hshm⟩ := hs.stays hstays.lost hstep
  exact ⟨hs.next hstep, hlost', hreq.trans hstays.request, fun g hg => hshm g (hstays.shm g hg)⟩

/-- Whatever the calls return, the clients that are sent anything are no more than the descriptors
of either process, and a request whose `mq_open` has failed stays with its thread for ever, which
sends nothing and keeps the segment it has taken. -/
theorem served_limited (h : (Spent.init c).Reach room x) :
    ({r | x.state.sent r ≠ []}.Finite
      ∧ {r | x.state.sent r ≠ []}.ncard ≤ min room.proxy room.cache)
    ∧ ∀ i, (x.state.proxy i).pc ≠ .idle → (x.state.proxy i).request ∉ x.opened →
      ∀ y, x.Reach room y → (y.state.proxy i).pc ≠ .idle
        ∧ (y.state.proxy i).request = (x.state.proxy i).request
        ∧ y.state.sent (x.state.proxy i).request = []
        ∧ ∀ g, (x.state.proxy i).pc.shm = some g →
          (y.state.proxy i).pc.shm = some g ∧ g ∉ y.state.shmQueue := by
  have hi := kept_reach h
  have hopened : {r | x.state.sent r ≠ []} ⊆ ↑x.opened.toFinset := fun r hr => by
    simpa using (hi.lent.sent r hr).1
  have hmapped : {r | x.state.sent r ≠ []} ⊆ ↑x.mapped.toFinset := fun r hr => by
    simpa using (hi.lent.sent r hr).2
  refine ⟨⟨(Finset.finite_toSet _).subset hopened, le_min ?_ ?_⟩, fun i hbusy hmem y hy => ?_⟩
  · calc {r | x.state.sent r ≠ []}.ncard
        ≤ x.opened.toFinset.card := by
          rw [← Set.ncard_coe_finset]
          exact Set.ncard_le_ncard hopened (Finset.finite_toSet _)
      _ ≤ x.opened.length := List.toFinset_card_le _
      _ ≤ room.proxy := hi.lent.opened_le
  · calc {r | x.state.sent r ≠ []}.ncard
        ≤ x.mapped.toFinset.card := by
          rw [← Set.ncard_coe_finset]
          exact Set.ncard_le_ncard hmapped (Finset.finite_toSet _)
      _ ≤ x.mapped.length := List.toFinset_card_le _
      _ ≤ room.cache := hi.lent.mapped_le
  · obtain ⟨hkept, hstays⟩ := hi.stays_reach ⟨hbusy, hmem⟩ hy
    refine ⟨hstays.lost.1, hstays.request, ?_, fun g hg => ⟨hstays.shm g hg, fun hq => ?_⟩⟩
    · by_contra hsent
      exact hstays.lost.2 (hstays.request.symm ▸ (hkept.lent.sent _ hsent).1)
    · rcases hkept.segments.queued_or_held g with ⟨-, hnone⟩ | ⟨hnot, -⟩
      · exact hnone i (hstays.shm g hg)
      · exact hnot hq

/-- Two threads of the proxy share one segment. -/
def twoThreads : Config :=
  { twoChunks with
    nproxies := 2
    paths := [CString.ascii "/f", CString.ascii "/f", CString.ascii "/f"]
    paths_lt := by decide }

/-- With one descriptor for each process, the first request is answered, and the second one is
handed to the same thread, which is left waiting with the segment. -/
theorem exists_spent : ∃ x : Spent twoThreads, (Spent.init twoThreads).Reach ⟨1, 1⟩ x
    ∧ x.state.sent 0 ≠ [] ∧ x.state.next = 2 ∧ x.opened = [0]
    ∧ x.state.proxy ⟨0, Nat.two_pos⟩ = ⟨1, .waitFilelen ⟨0, Nat.one_pos⟩⟩ := by
  have hrun : ((Trans.exec (Spent.step ⟨1, 1⟩) (fun _ _ => true)
      (List.replicate 11 (Event.proxy ⟨0, Nat.two_pos⟩ 0)
        ++ List.replicate 14 (Event.worker ⟨0, Nat.one_pos⟩ 128)
        ++ List.replicate 8 (Event.proxy ⟨0, Nat.two_pos⟩ 128)
        ++ List.replicate 6 (Event.worker ⟨0, Nat.one_pos⟩ 72)
        ++ List.replicate 12 (Event.proxy ⟨0, Nat.two_pos⟩ 72)
        ++ List.replicate 11 (Event.proxy ⟨0, Nat.two_pos⟩ (-1))) (Spent.init twoThreads)).any
      fun x => decide (x.state.sent 0 ≠ []) && decide (x.state.next = 2) && decide (x.opened = [0])
        && decide ((x.state.proxy ⟨0, Nat.two_pos⟩).request = 1)
        && decide ((x.state.proxy ⟨0, Nat.two_pos⟩).pc = .waitFilelen ⟨0, Nat.one_pos⟩))
      = true := by
    decide +kernel
  obtain ⟨x, hx, hat⟩ := (Option.any_eq_true _ _).mp hrun
  simp only [Bool.and_eq_true, decide_eq_true_eq] at hat
  obtain ⟨⟨⟨⟨hsent, hnext⟩, hopened⟩, hrequest⟩, hpc⟩ := hat
  refine ⟨x, .exec (fun _ _ _ => trivial) _ .refl hx, hsent, hnext, hopened, ?_⟩
  rw [← hrequest, ← hpc]

theorem served_limited_twoThreads : ∃ x : Spent twoThreads, x.state.sent 0 ≠ []
    ∧ {r | x.state.sent r ≠ []}.ncard ≤ 1
    ∧ ∀ y, x.Reach ⟨1, 1⟩ y → y.state.sent 1 = [] ∧ ⟨0, Nat.one_pos⟩ ∉ y.state.shmQueue := by
  obtain ⟨x, hreach, hsent, hnext, hopened, hproxy⟩ := exists_spent
  obtain ⟨⟨-, hcard⟩, hlost⟩ := served_limited hreach
  refine ⟨x, hsent, hcard, fun y hy => ?_⟩
  have hstays := hlost ⟨0, Nat.two_pos⟩ (by simp [hproxy]) (by simp [hproxy, hopened]) y hy
  rw [hproxy] at hstays
  exact ⟨hstays.2.2.1, (hstays.2.2.2 _ rfl).2⟩

/-! ### No segment is left -/

/-- The thread has a request and no segment for it. -/
def ProxyPc.queues {n : ℕ} : ProxyPc n → Bool
  | .lock | .isempty | .wait | .waiting | .pop => true
  | _ => false

/-- Every segment is with a thread that has lost its request, and the requests from `n` on are
with threads that have no segment. -/
structure Starved (n : ℕ) (x : Spent c) : Prop where
  held : ∀ g, ∃ i, x.lost i ∧ (x.state.proxy i).pc.shm = some g
  queues : ∀ i, n ≤ (x.state.proxy i).request → (x.state.proxy i).pc ≠ .idle →
    (x.state.proxy i).pc.queues = true
  sent : ∀ r, n ≤ r → x.state.sent r = []

/-- A thread that has no segment takes none from an empty queue, and sends nothing. -/
theorem handleWithCache_queues (h : handleWithCache i ret s = some s') (hq : s.shmQueue = [])
    (hpc : (s.proxy i).pc = .idle ∨ (s.proxy i).pc.queues = true) :
    (s'.proxy i).pc.queues = true ∧ s'.sent = s.sent := by
  obtain ⟨pc, he, hstep⟩ := handleWithCache_cases h
  rw [he] at hpc
  cases hstep with
  | idle | lock | empty | nonempty | wait | waiting => simp [State.goto, ProxyPc.queues]
  | @pop g rest hcons =>
    rw [hq] at hcons
    cases hcons
  | _ => simp [ProxyPc.queues] at hpc

theorem handleWithCache_request (h : handleWithCache i ret s = some s')
    (hpc : (s.proxy i).pc ≠ .idle) : (s'.proxy i).request = (s.proxy i).request := by
  obtain ⟨pc, he, hstep⟩ := handleWithCache_cases h
  cases hstep with
  | idle => exact absurd he hpc
  | _ => simp [State.finish, State.tell, State.goto, State.put]

theorem Kept.queue_eq_nil (hi : Kept room x) {n : ℕ} (hstarved : Starved n x) :
    x.state.shmQueue = [] := by
  refine List.eq_nil_iff_forall_not_mem.mpr fun g hg => ?_
  obtain ⟨i, -, hheld⟩ := hstarved.held g
  rcases hi.segments.queued_or_held g with ⟨-, hnone⟩ | ⟨hnot, -⟩
  · exact hnone i hheld
  · exact hnot hg

/-- A step of the thread `k`, which takes no segment and sends nothing for a request from `n` on. -/
theorem Starved.move {n : ℕ} (hi : Starved n x) {k : Fin c.nproxies}
    (hheld : ∀ i, x.lost i → Stays x y i)
    (hother : ∀ i, i ≠ k → y.state.proxy i = x.state.proxy i)
    (hself : n ≤ (y.state.proxy k).request → (y.state.proxy k).pc ≠ .idle →
      (y.state.proxy k).pc.queues = true)
    (hsent : ∀ r, n ≤ r → y.state.sent r = x.state.sent r) : Starved n y := by
  refine ⟨fun g => ?_, fun i hn hbusy => ?_, fun r hr => (hsent r hr).trans (hi.sent r hr)⟩
  · obtain ⟨i, hlost, hshm⟩ := hi.held g
    have hstays := hheld i hlost
    exact ⟨i, hstays.lost, hstays.shm g hshm⟩
  · by_cases hik : i = k
    · subst hik
      exact hself hn hbusy
    · rw [hother i hik] at hn hbusy ⊢
      exact hi.queues i hn hbusy

theorem Starved.handleWithCache {n : ℕ} (hi : Starved n x) (hkept : Kept room x)
    {k : Fin c.nproxies} (hheld : ∀ i, x.lost i → Stays x y i)
    (h : handleWithCache k ret x.state = some y.state) : Starved n y := by
  have hq := hkept.queue_eq_nil hi
  obtain ⟨hother, hsent⟩ := handleWithCache_other h
  by_cases hpc : (x.state.proxy k).pc = .idle ∨ (x.state.proxy k).pc.queues = true
  · obtain ⟨hqueues, hsame⟩ := handleWithCache_queues h hq hpc
    exact hi.move hheld hother (fun _ _ => hqueues) fun r _ => by rw [hsame]
  · obtain ⟨hbusy, hnot⟩ := not_or.mp hpc
    -- the thread has a segment, so that its request came before
    have hlt : (x.state.proxy k).request < n := by
      by_contra hn
      exact hnot (hi.queues k (Nat.not_lt.mp hn) hbusy)
    refine hi.move hheld hother (fun hn => ?_) fun r hr => hsent r (hlt.trans_le hr).ne'
    rw [handleWithCache_request h hbusy] at hn
    exact absurd hlt (Nat.not_lt.mpr hn)

theorem Starved.next {n : ℕ} (hi : Starved n x) (hkept : Kept room x) {e : Event c}
    (h : x.step room e = some y) : Starved n y := by
  have hheld : ∀ i, x.lost i → Stays x y i := fun i hlost => hkept.stays hlost h
  cases step_spends h with
  | opens hpc hlt hs => exact hi.handleWithCache hkept hheld hs
  | proxy hsends hs => exact hi.handleWithCache hkept hheld hs
  | @unsent k ret g m hpc hmem =>
    refine hi.move (k := k) hheld (fun i hik => Function.update_of_ne hik _ _) (fun hn hbusy => ?_)
      fun _ _ => rfl
    have hqueues := hi.queues k (by simpa [State.goto] using hn) (by simp [hpc])
    rw [hpc] at hqueues
    cases hqueues
  | maps halive hpc hlt hs | worker halive hopen hs =>
    obtain ⟨hproxy, -, -, -, hsent⟩ := workerRoutine_proxy hs
    refine ⟨fun g => ?_, by rw [hproxy]; exact hi.queues, by rw [hsent]; exact hi.sent⟩
    obtain ⟨i, hlost, hshm⟩ := hi.held g
    exact ⟨i, (hheld i hlost).lost, (hheld i hlost).shm g hshm⟩
  | crash halive => exact ⟨hi.held, hi.queues, hi.sent⟩
  | spurious hs =>
    obtain ⟨m, hm, rfl⟩ := Option.map_eq_some_iff.mp hs
    exact ⟨hi.held, hi.queues, hi.sent⟩

/-- Once the cache has crashed it maps nothing. -/
theorem crashed_next {e : Event c} (hcrashed : x.state.crashed = true)
    (h : x.step room e = some y) : y.state.crashed = true ∧ y.mapped = x.mapped := by
  cases step_spends h with
  | opens hpc hlt hs | proxy hsends hs =>
    exact ⟨(handleWithCache_cache hs).2.trans hcrashed, rfl⟩
  | unsent hpc hmem => exact ⟨hcrashed, rfl⟩
  | maps halive | worker halive | crash halive => simp [hcrashed] at halive
  | spurious hs =>
    obtain ⟨m, hm, rfl⟩ := Option.map_eq_some_iff.mp hs
    exact ⟨hcrashed, rfl⟩

/-- Once the cache has crashed, or every segment is with a thread whose `mq_open` has failed, the
client of a request that comes later is never sent anything. -/
theorem starves (h : (Spent.init c).Reach room x)
    (hspent : x.state.crashed = true
      ∨ ∀ g, ∃ i, (x.state.proxy i).pc.shm = some g ∧ (x.state.proxy i).request ∉ x.opened)
    (hy : x.Reach room y) {r : ℕ} (hr : x.state.next ≤ r) : y.state.sent r = [] := by
  have hi := kept_reach h
  rcases hspent with hcrashed | hlost
  · obtain ⟨hkept, -, hmapped⟩ := hy.invariant
      (I := fun y => Kept room y ∧ y.state.crashed = true ∧ y.mapped = x.mapped)
      ⟨hi, hcrashed, rfl⟩ fun s e s' ⟨hs, hcrash, hsame⟩ _ hstep => by
        obtain ⟨hcrash', hsame'⟩ := crashed_next hcrash hstep
        exact ⟨hs.next hstep, hcrash', hsame'.trans hsame⟩
    by_contra hsent
    have hmem := (hkept.lent.sent r hsent).2
    rw [hmapped] at hmem
    exact absurd (hi.lent.mapped_lt r hmem) (Nat.not_lt.mpr hr)
  · have hstarved : Starved x.state.next x := by
      refine ⟨fun g => ?_, fun i hn hbusy => ?_, fun r hr => ?_⟩
      · obtain ⟨i, hshm, hmem⟩ := hlost g
        refine ⟨i, ⟨fun hpc => ?_, hmem⟩, hshm⟩
        rw [hpc] at hshm
        cases hshm
      · exact absurd (hi.lent.taken i hbusy) (Nat.not_lt.mpr hn)
      · by_contra hsent
        exact absurd (hi.lent.opened_lt r (hi.lent.sent r hsent).1) (Nat.not_lt.mpr hr)
    obtain ⟨-, hend⟩ := hy.invariant (I := fun y => Kept room y ∧ Starved x.state.next y)
      ⟨hi, hstarved⟩ fun s e s' ⟨hs, hst⟩ _ hstep => ⟨hs.next hstep, hst.next hs hstep⟩
    exact hend.sent r hr

theorem starves_twoThreads : ∃ x : Spent twoThreads, x.state.sent 0 ≠ []
    ∧ ∀ y, x.Reach ⟨1, 1⟩ y → y.state.sent 2 = [] := by
  obtain ⟨x, hreach, hsent, hnext, hopened, hproxy⟩ := exists_spent
  refine ⟨x, hsent, fun y hy => starves hreach (.inr fun g => ?_) hy hnext.le⟩
  obtain rfl : g = ⟨0, Nat.one_pos⟩ := Fin.ext (Nat.lt_one_iff.mp g.isLt)
  exact ⟨⟨0, Nat.two_pos⟩, by rw [hproxy]; rfl, by simp [hproxy, hopened]⟩

end FileServices.Cache
