import FileServices.Cache
import FileServices.Lib.Handoff

/-!
# Which request a segment serves

A segment is free, or a thread of the proxy holds it for a request.  Then the message for it is
on its way, or one worker of the cache serves that request, or no worker has anything left to do
with it.
-/

namespace FileServices.Cache

open CString Handoff

variable {c : Config} {s s' : State c} {i : Fin c.nproxies} {j : Fin c.nworkers}
  {g : Fin c.nsegments}

/-! ### Requests and answers -/

def Config.path (c : Config) (r : ℕ) : Bytes := c.paths.getD r []

/-- The content of the file that the table of the cache has for request `r`. -/
def Config.answer (c : Config) (r : ℕ) : Option Bytes :=
  if simplecacheGet c.items (c.path r) < 0 then none
  else some (c.file (simplecacheGet c.items (c.path r)))

theorem size_natCast {n : ℕ} (h : n < 2 ^ 64) : size n = n := by
  unfold size
  omega

theorem Config.answer_lt {r : ℕ} {content : Bytes} (h : c.answer r = some content) :
    content.length < 2 ^ 63 := by
  unfold answer at h
  split_ifs at h
  exact Option.some.inj h ▸ c.file_lt _

def Config.message (c : Config) (r : ℕ) (g : Fin c.nsegments) : ReqStruct :=
  ⟨strncpy maxRequestLen (c.path r), c.names g, c.segsize⟩

theorem strncpy_of_lt {n : ℕ} {src : Bytes} (hnul : 0 ∉ src) (hlt : src.length < n) :
    ∃ z, strncpy n src = src ++ 0 :: z := by
  obtain ⟨k, hk⟩ : ∃ k, n - src.length = k + 1 := ⟨n - src.length - 1, by omega⟩
  refine ⟨List.replicate k 0, ?_⟩
  rw [strncpy, cstr_eq_self hnul, List.take_of_length_le hlt.le, hk, List.replicate_succ]

/-- The array holds the path and its NUL. -/
theorem cstr_strncpy {n : ℕ} {path : Bytes} (hlen : path.length < n) (hnul : 0 ∉ path) :
    cstr (strncpy n path) = path := by
  obtain ⟨z, hz⟩ := strncpy_of_lt hnul hlen
  rw [hz, cstr_string hnul]

theorem Config.path_lt (c : Config) (r : ℕ) : (c.path r).length < maxRequestLen ∧ 0 ∉ c.path r := by
  unfold path
  rcases Nat.lt_or_ge r c.paths.length with hr | hr
  · rw [List.getD_eq_getElem _ _ hr]
    exact c.paths_lt _ (List.getElem_mem hr)
  · rw [List.getD_eq_default _ _ hr]
    exact ⟨by decide, by simp⟩

/-- The worker looks up the path that was asked for. -/
theorem simplecacheGet_message (c : Config) (r : ℕ) (g : Fin c.nsegments) :
    simplecacheGet c.items (c.message r g).path = simplecacheGet c.items (c.path r) := by
  obtain ⟨hlen, hnul⟩ := c.path_lt r
  unfold simplecacheGet
  rw [Config.message, cstr_strncpy hlen hnul, cstr_eq_self hnul]

theorem shmOpen_names (c : Config) (g : Fin c.nsegments) : shmOpen c (c.names g) = some g := by
  unfold shmOpen
  cases hfind : (List.finRange c.nsegments).find? fun g' => c.names g' = c.names g with
  | none => simpa using List.find?_eq_none.mp hfind g (List.mem_finRange g)
  | some g' => exact congrArg some (c.names_injective (by simpa using List.find?_some hfind))

/-! ### Who is at a segment -/

/-- The segment a thread of the proxy holds. -/
def ProxyPc.shm {n : ℕ} : ProxyPc n → Option (Fin n)
  | .unlock g | .broadcast g | .fill g | .initFilelen g _ | .initProxysem g _ | .initCachesem g _
  | .mqSend g _ | .waitFilelen g | .status g | .header g | .loop g _ | .waitProxysem g _
  | .load g _ | .send g _ _ | .postCachesem g _ => some g
  | .queue _ _ .unlock | .queue _ _ .broadcast => none
  | .queue g _ _ => some g
  | _ => none

/-- The segment a worker of the cache is going to touch. -/
def WorkerPc.shm (c : Config) : WorkerPc c.nsegments → Option (Fin c.nsegments)
  | .receive => none
  | .lookup _ msg | .shmOpen _ msg _ => Cache.shmOpen c msg.shmId
  | .missing _ g _ | .seek _ g _ _ => some g
  | .copy _ job .loop => if job.bytesRead < job.filsize then some job.shm else none
  | .copy _ job _ => some job.shm

/-- How far a segment is with the request it serves. -/
inductive Phase (c : Config)
  | free
  | prep (i : Fin c.nproxies)
  | pending (i : Fin c.nproxies)
  | opening (i : Fin c.nproxies) (j : Fin c.nworkers)
  | copying (i : Fin c.nproxies) (j : Fin c.nworkers)
  | rest (i : Fin c.nproxies) (w : Writer)
  | missing (i : Fin c.nproxies)
  | leaving (i : Fin c.nproxies)

def Phase.proxy : Phase c → Option (Fin c.nproxies)
  | .free => none
  | .prep i | .pending i | .opening i _ | .copying i _ | .rest i _ | .missing i | .leaving i =>
    some i

def Phase.worker : Phase c → Option (Fin c.nworkers)
  | .opening _ j | .copying _ j => some j
  | _ => none

def Phase.isPending : Phase c → Bool
  | .pending _ => true
  | _ => false

/-! ### What holds at a segment in each phase -/

/-- The semaphores as the proxy sets them up, at the stage it has come to. -/
def Prep (c : Config) (g : Fin c.nsegments) (p : Proxy c.nsegments) (shm : ShmDetails) : Prop :=
  match p.pc with
  | .unlock _ | .broadcast _ | .fill _ => True
  | .initFilelen _ m => m = c.message p.request g
  | .initProxysem _ m => m = c.message p.request g ∧ shm.filelenSem = 0
  | .initCachesem _ m => m = c.message p.request g ∧ shm.filelenSem = 0 ∧ shm.proxysem = 0
  | .mqSend _ m => m = c.message p.request g ∧ shm.filelenSem = 0 ∧ shm.proxysem = 0
    ∧ shm.cachesem = 1
  | _ => False

/-- The proxy waits for the answer and the semaphores are as it has set them up. -/
structure Fresh (p : Proxy c.nsegments) (g : Fin c.nsegments) (shm : ShmDetails) : Prop where
  pc : p.pc = .waitFilelen g
  filelenSem : shm.filelenSem = 0
  proxysem : shm.proxysem = 0
  cachesem : shm.cachesem = 1

/-- A worker that copies the file of request `r`. -/
structure Job (c : Config) (r : ℕ) (content : Bytes) (job : Copy c.nsegments) : Prop where
  found : 0 ≤ simplecacheGet c.items (c.path r)
  fildes : job.fildes = simplecacheGet c.items (c.path r)
  file : content = c.file job.fildes
  segsize : job.segsize = c.segsize
  filsize : job.filsize = content.length
  offset : job.offset = job.bytesRead

/-- What a worker has done of the answer before it posts `filelen_sem`. -/
def Opening (c : Config) (r : ℕ) (g : Fin c.nsegments) (shm : ShmDetails) :
    WorkerPc c.nsegments → Prop
  | .lookup r' m => r' = r ∧ m = c.message r g
  | .shmOpen r' m fildes =>
    r' = r ∧ m = c.message r g ∧ fildes = simplecacheGet c.items (c.path r)
  | .missing r' _ pc => r' = r ∧ c.answer r = none ∧ (pc = .postFilelen → shm.status = 404)
  | .seek r' _ fildes segsize => r' = r ∧ fildes = simplecacheGet c.items (c.path r)
    ∧ 0 ≤ fildes ∧ segsize = c.segsize
  | .copy r' job pc => r' = r ∧ job.bytesRead = 0 ∧ ∃ content, Job c r content job ∧
    (pc = .filesize ∨ pc = .status ∧ shm.filesize = content.length
      ∨ pc = .postFilelen ∧ shm.filesize = content.length ∧ shm.status = 200)
  | .receive => False

/-- Where the proxy is in the copy loop. -/
def ProxyPc.reader {n : ℕ} : ProxyPc n → Option Reader
  | .waitFilelen _ | .status _ | .header _ => some (.out 0)
  | .loop _ n | .waitProxysem _ n => some (.out n)
  | .load _ n | .send _ n _ => some (.reading n)
  | .postCachesem _ n => some (.read n)
  | _ => none

/-- Where the cache is in the copy loop, with what it knows there. -/
inductive Copying (gone : Bool) (job : Copy c.nsegments) (content : Bytes) (shm : ShmDetails) :
    CopyPc → Writer → Prop
  | loop (hlt : job.bytesRead < content.length) :
      Copying gone job content shm .loop (.out job.bytesRead)
  | waitCachesem (hlt : job.bytesRead < content.length) :
      Copying gone job content shm .waitCachesem (.out job.bytesRead)
  | pread : Copying gone job content shm .pread (.writing job.bytesRead)
  | readLen {n : ℕ} (h : n ≤ job.segsize → Chunk content job.bytesRead n job.buffer)
      (hfits : gone = false → n ≤ job.segsize) :
      Copying gone job content shm (.readLen n) (.writing job.bytesRead)
  | data {n : ℕ} (h : n ≤ job.segsize → Chunk content job.bytesRead n job.buffer)
      (hfits : gone = false → n ≤ job.segsize) (hlen : shm.readLen = n) :
      Copying gone job content shm (.data n) (.writing job.bytesRead)
  | postProxysem {n : ℕ} (hlen : shm.readLen = n) :
      Copying gone job content shm (.postProxysem n) (.written job.bytesRead)

/-- The proxy and the cache, wherever `w` has it, hand the content over. -/
structure Session (content : Bytes) (pc : ProxyPc c.nsegments) (shm : ShmDetails) (w : Writer) :
    Prop where
  status : shm.status = 200
  filesize : shm.filesize = content.length
  filelenSem : ∀ g, pc = .waitFilelen g → 0 < shm.filelenSem
  token : ∃ r, pc.reader = some r ∧
    Token content shm.readLen shm.data shm.cachesem shm.proxysem r w
  loaded : ∀ g n len, pc = .send g n len → len = shm.readLen
  waits : ∀ g n, pc = .waitProxysem g n → n < content.length

theorem Session.token_of {content : Bytes} {pc : ProxyPc c.nsegments} {shm : ShmDetails}
    {w : Writer} (h : Session content pc shm w) {r : Reader} (hr : pc.reader = some r) :
    Token content shm.readLen shm.data shm.cachesem shm.proxysem r w := by
  obtain ⟨r', hr', htoken⟩ := h.token
  obtain rfl := Option.some.inj (hr.symm.trans hr')
  exact htoken

/-- What the proxy has found when it gives the segment back. -/
def Branch.Ok (c : Config) (gone : Bool) (r : ℕ) : Branch → Prop
  | .sent n => ∃ content, c.answer r = some content ∧ (gone = false → n = content.length)
  | .notFound => c.answer r = none

/-- `gone` allows a client to go away and a read of the cache to end early. -/
def Link (c : Config) (gone : Bool) (g : Fin c.nsegments)
    (proxy : Fin c.nproxies → Proxy c.nsegments) (worker : Fin c.nworkers → WorkerPc c.nsegments)
    (shm : ShmDetails) : Phase c → Prop
  | .free => True
  | .prep i => Prep c g (proxy i) shm
  | .pending i => Fresh (proxy i) g shm
  | .opening i j => Fresh (proxy i) g shm ∧ Opening c (proxy i).request g shm (worker j)
  | .copying i j => ∃ content w job pc, worker j = .copy (proxy i).request job pc
    ∧ c.answer (proxy i).request = some content ∧ Job c (proxy i).request content job
    ∧ Copying gone job content shm pc w ∧ Session content (proxy i).pc shm w
  | .rest i w => ∃ content, c.answer (proxy i).request = some content
    ∧ (w = .out content.length ∨ gone = true ∧ ∃ n, w = .writing n)
    ∧ Session content (proxy i).pc shm w
  | .missing i => c.answer (proxy i).request = none ∧ shm.status = 404
    ∧ ((proxy i).pc = .waitFilelen g ∧ 0 < shm.filelenSem ∨ (proxy i).pc = .status g)
  | .leaving i => ∃ branch pc, (proxy i).pc = .queue g branch pc
    ∧ branch.Ok c gone (proxy i).request

/-- The segments are in the phases `ph`. -/
structure Seats (gone : Bool) (s : State c) (ph : Fin c.nsegments → Phase c) : Prop where
  holder : ∀ i g, (s.proxy i).pc.shm = some g ↔ (ph g).proxy = some i
  peer : ∀ j g, (s.worker j).shm = some g ↔ (ph g).worker = some j
  queue : ∀ g, s.shmQueue.count g = if (ph g).proxy = none then 1 else 0
  msgs : ∀ m ∈ s.msgqueue, ∃ g i, ph g = .pending i
    ∧ m = ((s.proxy i).request, c.message (s.proxy i).request g)
  pend : ∀ g, (s.msgqueue.map fun m => m.2.shmId).count (c.names g)
    = if (ph g).isPending then 1 else 0
  const : ∀ g, (s.seg g).shmId = c.names g ∧ (s.seg g).segsize = c.segsize
  link : ∀ g, Link c gone g s.proxy s.worker (s.seg g) (ph g)

variable {gone : Bool} {ph : Fin c.nsegments → Phase c}

theorem seats_init : Seats gone (State.init c) fun _ => .free where
  holder := fun i g => by simp [State.init, ProxyPc.shm, Phase.proxy]
  peer := fun j g => by simp [State.init, WorkerPc.shm, Phase.worker]
  queue := fun g => by
    simp only [State.init, Phase.proxy, if_true]
    exact List.count_eq_one_of_mem (List.nodup_finRange _) (List.mem_finRange g)
  msgs := by simp [State.init]
  pend := fun g => by simp [State.init, Phase.isPending]
  const := fun g => ⟨rfl, rfl⟩
  link := fun g => trivial

theorem Link.frame {g : Fin c.nsegments} {f : Phase c} {shm : ShmDetails}
    {proxy proxy' : Fin c.nproxies → Proxy c.nsegments}
    {worker worker' : Fin c.nworkers → WorkerPc c.nsegments}
    (h : Link c gone g proxy worker shm f) (hp : ∀ i, f.proxy = some i → proxy' i = proxy i)
    (hw : ∀ j, f.worker = some j → worker' j = worker j) :
    Link c gone g proxy' worker' shm f := by
  cases f with
  | free => trivial
  | prep i | pending i | rest i w | missing i | leaving i =>
    simp only [Link, hp i rfl] at h ⊢
    exact h
  | opening i j | copying i j =>
    simp only [Link, hp i rfl, hw j rfl] at h ⊢
    exact h

theorem Phase.eq_pending {f : Phase c} (hf : f.isPending = true) (hp : f.proxy = some i) :
    f = .pending i := by
  cases f <;> simp_all [isPending, proxy]

/-- A thread `i` that is at `g` or nowhere, before and after, and a `g` that only `i` can be at:
each thread is still at one place at most, and each place has one thread at most. -/
theorem seat_update {ι γ : Type*} [DecidableEq ι] [DecidableEq γ] {place : ι → Option γ}
    {holder : γ → Option ι} (h : ∀ i g, place i = some g ↔ holder g = some i) {i : ι} {g : γ}
    {p : Option γ} {o : Option ι} (hold : ∀ g', place i = some g' → g' = g)
    (hnew : ∀ g', p = some g' → g' = g) (hwas : holder g = none ∨ holder g = some i)
    (ho : o = if p = some g then some i else none) (i' : ι) (g' : γ) :
    Function.update place i p i' = some g' ↔ Function.update holder g o g' = some i' := by
  by_cases hgg : g' = g
  · subst hgg
    rw [Function.update_self, ho]
    by_cases hii : i' = i
    · rw [hii, Function.update_self]
      split_ifs with hp <;> simp [hp]
    · rw [Function.update_of_ne hii, h]
      refine iff_of_false (fun h => ?_) fun h => ?_
      · rcases hwas with hw | hw <;> rw [hw] at h
        · cases h
        · exact hii (Option.some.inj h).symm
      · split_ifs at h
        exact hii (Option.some.inj h).symm
  · rw [Function.update_of_ne hgg, ← h]
    by_cases hii : i' = i
    · rw [hii, Function.update_self]
      exact iff_of_false (fun h => hgg (hnew g' h)) fun h => hgg (hold g' h)
    · rw [Function.update_of_ne hii]

/-- A step that moves no thread to or from a segment. -/
theorem Seats.keep (hi : Seats gone s ph)
    (hproxy : ∀ i, s'.proxy i = s.proxy i
      ∨ (s.proxy i).pc.shm = none ∧ (s'.proxy i).pc.shm = none)
    (hworker : ∀ j, s'.worker j = s.worker j ∨ (s.worker j).shm = none ∧ (s'.worker j).shm = none)
    (hseg : s'.seg = s.seg) (hqueue : s'.shmQueue = s.shmQueue)
    (hmq : s'.msgqueue = s.msgqueue) : Seats gone s' ph := by
  have hheld : ∀ i g, (ph g).proxy = some i → s'.proxy i = s.proxy i := fun i g h =>
    (hproxy i).resolve_right fun hnone => by simp [(hi.holder i g).mpr h] at hnone
  have hpeer : ∀ j g, (ph g).worker = some j → s'.worker j = s.worker j := fun j g h =>
    (hworker j).resolve_right fun hnone => by simp [(hi.peer j g).mpr h] at hnone
  refine ⟨fun i g => ?_, fun j g => ?_, fun g => hqueue ▸ hi.queue g, fun m hm => ?_,
    fun g => hmq ▸ hi.pend g, fun g => hseg ▸ hi.const g, fun g => ?_⟩
  · rw [← hi.holder]
    rcases hproxy i with h | ⟨h, h'⟩
    · rw [h]
    · simp [h, h']
  · rw [← hi.peer]
    rcases hworker j with h | ⟨h, h'⟩
    · rw [h]
    · simp [h, h']
  · obtain ⟨g, i, hpend, rfl⟩ := hi.msgs m (hmq ▸ hm)
    exact ⟨g, i, hpend, by rw [hheld i g (by rw [hpend]; rfl)]⟩
  · rw [hseg]
    exact (hi.link g).frame (fun i h => hheld i g h) fun j h => hpeer j g h

theorem Seats.const_update (hi : Seats gone s ph) {shm : ShmDetails}
    (hconst : shm.shmId = (s.seg g).shmId ∧ shm.segsize = (s.seg g).segsize)
    (hseg : s'.seg = Function.update s.seg g shm) (g' : Fin c.nsegments) :
    (s'.seg g').shmId = c.names g' ∧ (s'.seg g').segsize = c.segsize := by
  rw [hseg]
  by_cases hgg : g' = g
  · rw [hgg, Function.update_self, hconst.1, hconst.2]
    exact hi.const g
  · rw [Function.update_of_ne hgg]
    exact hi.const g'

/-- A step of the proxy's thread `i` that concerns the segment `g`. -/
theorem Seats.proxyMove (hi : Seats gone s ph) (shm : ShmDetails) (f : Phase c)
    {x : Proxy c.nsegments} (hproxy : s'.proxy = Function.update s.proxy i x)
    (hseg : s'.seg = Function.update s.seg g shm) (hworker : s'.worker = s.worker)
    (hreq : x.request = (s.proxy i).request)
    (hold : ∀ g', (s.proxy i).pc.shm = some g' → g' = g)
    (hnew : ∀ g', x.pc.shm = some g' → g' = g)
    (hwas : (ph g).proxy = none ∨ (ph g).proxy = some i)
    (hf : f.proxy = if x.pc.shm = some g then some i else none) (hfw : f.worker = (ph g).worker)
    (hqueue : ∀ g', s'.shmQueue.count g'
      = if g' = g then if f.proxy = none then 1 else 0 else s.shmQueue.count g')
    (hmsgs : f.isPending = (ph g).isPending ∧ s'.msgqueue = s.msgqueue
      ∨ f.isPending = true ∧ (ph g).isPending = false ∧
        s'.msgqueue = s.msgqueue ++ [(x.request, c.message x.request g)])
    (hconst : shm.shmId = (s.seg g).shmId ∧ shm.segsize = (s.seg g).segsize)
    (hlink : Link c gone g s'.proxy s'.worker shm f) :
    Seats gone s' (Function.update ph g f) := by
  have hreq' : ∀ i', (s'.proxy i').request = (s.proxy i').request := fun i' => by
    by_cases h : i' = i
    · rw [h, hproxy, Function.update_self, hreq]
    · rw [hproxy, Function.update_of_ne h]
  have hpend : ∀ g' i', ph g' = .pending i' → (g' = g → f.isPending = true) →
      Function.update ph g f g' = .pending i' := fun g' i' h hg => by
    by_cases hgg : g' = g
    · subst hgg
      rw [Function.update_self]
      have hfp := hg rfl
      refine Phase.eq_pending hfp ?_
      rw [h] at hwas
      obtain rfl : i' = i := by simpa [Phase.proxy] using hwas
      by_cases hx : x.pc.shm = some g'
      · rw [hf, if_pos hx]
      · rw [if_neg hx] at hf
        cases f <;> simp_all [Phase.isPending, Phase.proxy]
    · rw [Function.update_of_ne hgg, h]
  refine ⟨fun i' g' => ?_, fun j g' => ?_, fun g' => ?_, fun m hm => ?_, fun g' => ?_,
    fun g' => ?_, fun g' => ?_⟩
  · rw [hproxy, Function.apply_update fun _ (x : Proxy c.nsegments) => x.pc.shm,
      Function.apply_update fun _ => Phase.proxy]
    exact seat_update hi.holder hold hnew hwas hf i' g'
  · rw [hworker, hi.peer]
    by_cases hgg : g' = g
    · rw [hgg, Function.update_self, hfw]
    · rw [Function.update_of_ne hgg]
  · rw [hqueue]
    by_cases hgg : g' = g
    · rw [if_pos hgg, hgg, Function.update_self]
    · rw [if_neg hgg, Function.update_of_ne hgg, hi.queue]
  · rcases hmsgs with ⟨hfp, hmq⟩ | ⟨hfp, -, hmq⟩
    · obtain ⟨g', i', h, rfl⟩ := hi.msgs m (hmq ▸ hm)
      refine ⟨g', i', hpend g' i' h fun hg => ?_, by rw [hreq']⟩
      rw [hfp, ← hg, h]
      rfl
    · rw [hmq, List.mem_append, List.mem_singleton] at hm
      rcases hm with hm | rfl
      · obtain ⟨g', i', h, rfl⟩ := hi.msgs m hm
        exact ⟨g', i', hpend g' i' h fun _ => hfp, by rw [hreq']⟩
      · have hfi : f.proxy = some i := by
          rw [hf]
          refine if_pos ?_
          by_contra hx
          rw [if_neg hx] at hf
          cases f <;> simp_all [Phase.isPending, Phase.proxy]
        exact ⟨g, i, by rw [Function.update_self, Phase.eq_pending hfp hfi],
          by rw [hreq', hreq]⟩
  · by_cases hgg : g' = g
    · subst hgg
      rw [Function.update_self]
      rcases hmsgs with ⟨hfp, hmq⟩ | ⟨hfp, hwasp, hmq⟩
      · rw [hmq, hi.pend, hfp]
      · rw [hmq, List.map_append, List.count_append, hi.pend, hwasp, hfp]
        simp [Config.message]
    · rw [Function.update_of_ne hgg]
      rcases hmsgs with ⟨-, hmq⟩ | ⟨-, -, hmq⟩
      · rw [hmq, hi.pend]
      · have hne : c.names g ≠ c.names g' := fun h => hgg (c.names_injective h.symm)
        rw [hmq, List.map_append, List.count_append, hi.pend]
        simp [Config.message, hne]
  · exact hi.const_update hconst hseg g'
  · by_cases hgg : g' = g
    · subst hgg
      rw [Function.update_self, hseg, Function.update_self]
      exact hlink
    · rw [Function.update_of_ne hgg, hseg, Function.update_of_ne hgg, hworker]
      refine (hi.link g').frame (fun i' hi' => ?_) fun _ _ => rfl
      have hii : i' ≠ i := by
        rintro rfl
        exact hgg (hold g' ((hi.holder _ _).mpr hi'))
      rw [hproxy, Function.update_of_ne hii]

/-- A step of the proxy's thread `i` at the segment it holds. -/
theorem Seats.proxyAt (hi : Seats gone s ph) (shm : ShmDetails) (f : Phase c)
    {x : Proxy c.nsegments} (hheld : (s.proxy i).pc.shm = some g)
    (hproxy : s'.proxy = Function.update s.proxy i x) (hseg : s'.seg = Function.update s.seg g shm)
    (hworker : s'.worker = s.worker) (hmq : s'.msgqueue = s.msgqueue)
    (hqueue : s'.shmQueue = s.shmQueue) (hreq : x.request = (s.proxy i).request)
    (hheld' : x.pc.shm = some g)
    (hconst : shm.shmId = (s.seg g).shmId ∧ shm.segsize = (s.seg g).segsize)
    (hf : f.proxy = some i) (hfw : f.worker = (ph g).worker)
    (hfp : f.isPending = (ph g).isPending) (hlink : Link c gone g s'.proxy s'.worker shm f) :
    Seats gone s' (Function.update ph g f) := by
  have hold : (ph g).proxy = some i := (hi.holder i g).mp hheld
  refine hi.proxyMove shm f hproxy hseg hworker hreq (fun g' h => ?_) (fun g' h => ?_) (.inr hold)
    (by rw [if_pos hheld', hf]) hfw (fun g' => ?_) (.inl ⟨hfp, hmq⟩) hconst hlink
  · exact Option.some.inj (h.symm.trans hheld)
  · exact Option.some.inj (h.symm.trans hheld')
  · rw [hqueue]
    split_ifs with hg hn
    · simp [hf] at hn
    · rw [hg, hi.queue, hold]
      rfl
    · rfl

/-- A step of the cache's worker `j` that concerns the segment `g`. -/
theorem Seats.workerMove (hi : Seats gone s ph) (shm : ShmDetails) (f : Phase c)
    {x : WorkerPc c.nsegments} (hworker : s'.worker = Function.update s.worker j x)
    (hseg : s'.seg = Function.update s.seg g shm) (hproxy : s'.proxy = s.proxy)
    (hqueue : s'.shmQueue = s.shmQueue)
    (hold : ∀ g', (s.worker j).shm = some g' → g' = g) (hnew : ∀ g', x.shm = some g' → g' = g)
    (hwas : (ph g).worker = none ∨ (ph g).worker = some j)
    (hf : f.worker = if x.shm = some g then some j else none) (hfp : f.proxy = (ph g).proxy)
    (hpend : f.isPending = false)
    (hmsgs : (ph g).isPending = false ∧ s'.msgqueue = s.msgqueue
      ∨ (ph g).isPending = true ∧ ∃ m, m.2.shmId = c.names g ∧ s.msgqueue = m :: s'.msgqueue)
    (hconst : shm.shmId = (s.seg g).shmId ∧ shm.segsize = (s.seg g).segsize)
    (hlink : Link c gone g s'.proxy s'.worker shm f) :
    Seats gone s' (Function.update ph g f) := by
  have hcount : ∀ g', (s'.msgqueue.map fun m => m.2.shmId).count (c.names g')
      = if (Function.update ph g f g').isPending then 1 else 0 := fun g' => by
    have hg' := hi.pend g'
    rcases hmsgs with ⟨hph, hmq⟩ | ⟨hph, m, hm, hmq⟩
    · rw [hmq, hg']
      by_cases hgg : g' = g
      · rw [hgg, Function.update_self, hph, hpend]
      · rw [Function.update_of_ne hgg]
    · rw [hmq, List.map_cons, List.count_cons, hm] at hg'
      by_cases hgg : g' = g
      · subst hgg
        rw [Function.update_self, hpend]
        rw [hph] at hg'
        simpa using hg'
      · have hne : c.names g ≠ c.names g' := fun h => hgg (c.names_injective h.symm)
        rw [Function.update_of_ne hgg, ← hg']
        simp [hne]
  refine ⟨fun i g' => ?_, fun j' g' => ?_, fun g' => ?_, fun m hm => ?_, hcount, fun g' => ?_,
    fun g' => ?_⟩
  · rw [hproxy, hi.holder]
    by_cases hgg : g' = g
    · rw [hgg, Function.update_self, hfp]
    · rw [Function.update_of_ne hgg]
  · rw [hworker, Function.apply_update fun _ => WorkerPc.shm c,
      Function.apply_update fun _ => Phase.worker]
    exact seat_update hi.peer hold hnew hwas hf j' g'
  · rw [hqueue, hi.queue]
    by_cases hgg : g' = g
    · rw [hgg, Function.update_self, hfp]
    · rw [Function.update_of_ne hgg]
  · have hm' : m ∈ s.msgqueue := by
      rcases hmsgs with ⟨-, hmq⟩ | ⟨-, m', -, hmq⟩
      · exact hmq ▸ hm
      · rw [hmq]
        exact List.mem_cons_of_mem _ hm
    obtain ⟨g', i, h, rfl⟩ := hi.msgs m hm'
    refine ⟨g', i, ?_, by rw [hproxy]⟩
    -- no message for `g` is left
    have hgg : g' ≠ g := by
      rintro rfl
      have hzero := hcount g'
      rw [Function.update_self, hpend] at hzero
      exact List.count_eq_zero.mp hzero
        (List.mem_map.mpr ⟨_, hm, rfl⟩)
    rw [Function.update_of_ne hgg, h]
  · exact hi.const_update hconst hseg g'
  · by_cases hgg : g' = g
    · subst hgg
      rw [Function.update_self, hseg, Function.update_self]
      exact hlink
    · rw [Function.update_of_ne hgg, hseg, Function.update_of_ne hgg, hproxy]
      refine (hi.link g').frame (fun _ _ => rfl) fun j' hj' => ?_
      have hjj : j' ≠ j := by
        rintro rfl
        exact hgg (hold g' ((hi.peer _ _).mpr hj'))
      rw [hworker, Function.update_of_ne hjj]

end FileServices.Cache
