import FileServices.Answering
import FileServices.Proofs.Dispatch
import FileServices.Proofs.Worker

/-!
# Each client gets the answer to its request

Whatever becomes of the other requests, a request whose own calls do what they are for has on its
socket the beginning of its answer, and all of it when it has been freed (`answer_whole`).
-/

namespace FileServices.Dispatch

open CString
open Cache (size)
open Downloader (Thread)

variable {c : Config} {o : Outside} {s s' : Answering c} {req : ℕ} {k : Fin c.nthreads}
  {w : Option (Thread c.nthreads)} {ret : ℤ} {server : Server c}

/-! ### A step of the server -/

theorem answer_eq_some {e : Event c} (h : answer o e s = some s') :
    ∃ server, step c e s.server = some server ∧ s' = { s.act o e with server } := by
  unfold answer at h
  obtain ⟨server, hserver, rfl⟩ := Option.map_eq_some_iff.mp h
  exact ⟨server, hserver, rfl⟩

theorem Answering.reach_server {ok : Answering c → Event c → Prop}
    (h : Trans.Reach (answer o) ok (.init c) s) :
    Trans.Reach (step c) (fun _ _ => True) (.init c) s.server := by
  induction h with
  | refl => exact .refl
  | @tail s s' e _ _ hstep ih =>
    obtain ⟨server, hserver, rfl⟩ := answer_eq_some hstep
    exact ih.tail trivial hserver

/-- A worker leaves a request alone that it does not serve. -/
theorem work_frame (hstep : WorkerStep k w ret s.server (s.server.worker k) server)
    (hreq : (s.server.worker k).req ≠ some req) :
    (s.work o k ret).wire req = s.wire req ∧ server.headers req = s.server.headers req
      ∧ server.freed req = s.server.freed req := by
  unfold Answering.work
  generalize hpc : s.server.worker k = pc at hstep hreq
  have hne : ∀ r, pc.req = some r → req ≠ r := fun r hr he => hreq (by rw [hr, he])
  cases hstep with
  | notFound r | statError r | header r =>
    simp [Answering.put, Server.goto, Server.sendheader, hne r rfl]
  | more r | sent r => simp [Answering.put, Server.goto, hne r rfl]
  | free r | freeLast r => simp [Server.goto, Server.free, hne r rfl]
  | _ => exact ⟨rfl, rfl, rfl⟩

/-- A worker that is handed a request has popped it. -/
theorem req_of_step (hstep : WorkerStep k w ret s.server (s.server.worker k) server)
    (hreq : (server.worker k).req = some req) (hold : (s.server.worker k).req ≠ some req) :
    server.worker k = .unlock req ∧ ∃ q, s.server.workQueue = req :: q := by
  generalize hpc : s.server.worker k = pc at hstep hold
  cases hstep with
  | pop back hq =>
    simp only [Server.goto, Function.update_self, WorkerPc.req, Option.some.injEq] at hreq ⊢
    subst hreq
    exact ⟨rfl, _, hq⟩
  | underflow back hq =>
    rw [show ({ s.server with underflow := true } : Server c).worker k = s.server.worker k from rfl,
      hpc] at hreq
    exact absurd hreq hold
  | _ => simp_all [Server.goto, Server.sendheader, Server.free, WorkerPc.req]

theorem worker_of_ne (hstep : WorkerStep k w ret s.server (s.server.worker k) server)
    {j : Fin c.nthreads} (hj : j ≠ k) : server.worker j = s.server.worker j := by
  generalize s.server.worker k = pc at hstep
  cases hstep with
  | underflow => rfl
  | _ => exact Function.update_of_ne hj _ _

theorem popped_step (hstep : WorkerStep k w ret s.server (s.server.worker k) server) :
    ∀ p ∈ s.server.popped, p ∈ server.popped := by
  generalize s.server.worker k = pc at hstep
  intro p hp
  cases hstep with
  | pop => exact List.mem_append_left _ hp
  | _ => exact hp

/-! ### Where an answer is -/

/-- What has been done for a request when its worker stands somewhere. -/
def At (o : Outside) (s : Answering c) (req : ℕ) (k : Fin c.nthreads) : WorkerPc → Prop
  | .unlock _ | .signal _ | .contentGet _ => s.wire req = [] ∧ s.server.headers req = []
  | .notFound _ =>
    c.contentGet (c.path req) = -1 ∧ s.wire req = [] ∧ s.server.headers req = []
  | .fstat _ | .statError _ =>
    c.contentGet (c.path req) ≠ -1 ∧ s.wire req = [] ∧ s.server.headers req = []
  | .header _ fileLen => fileLen = (c.content o req).length
    ∧ c.contentGet (c.path req) ≠ -1 ∧ s.wire req = [] ∧ s.server.headers req = []
  | .pread _ fileLen totalBtsSent => fileLen = (c.content o req).length
    ∧ (totalBtsSent < fileLen ∨ fileLen = 0 ∧ totalBtsSent = 0) ∧ Sent o s req totalBtsSent
  | .send _ fileLen totalBtsSent btsRead => fileLen = (c.content o req).length
    ∧ totalBtsSent + btsRead ≤ fileLen
    ∧ (s.buf k).take btsRead = ((c.content o req).drop totalBtsSent).take btsRead
    ∧ Sent o s req totalBtsSent
  | .free _ => Sent o s req (c.content o req).length
  | .freeLast _ => Refused o s req
  | _ => True

structure Answered (o : Outside) (req : ℕ) (s : Answering c) : Prop where
  unpopped : req ∉ s.server.popped.map Prod.fst → s.wire req = []
  serving : ∀ k, (s.server.worker k).req = some req → At o s req k (s.server.worker k)
  freed : s.server.freed req = 1 → Refused o s req ∨ Sent o s req (c.content o req).length

theorem Sent.frame {n : ℕ} (h : Sent o s req n) (hwire : s'.wire req = s.wire req)
    (hheaders : s'.server.headers req = s.server.headers req) : Sent o s' req n :=
  ⟨h.found, hheaders.trans h.headers, hwire.trans h.wire⟩

theorem Refused.frame (h : Refused o s req) (hwire : s'.wire req = s.wire req)
    (hheaders : s'.server.headers req = s.server.headers req) : Refused o s' req := by
  unfold Refused at h ⊢
  rwa [hwire, hheaders]

theorem At.frame {pc : WorkerPc} (h : At o s req k pc) (hwire : s'.wire req = s.wire req)
    (hheaders : s'.server.headers req = s.server.headers req) (hbuf : s'.buf k = s.buf k) :
    At o s' req k pc := by
  cases pc with
  | pread r fileLen total => exact ⟨h.1, h.2.1, h.2.2.frame hwire hheaders⟩
  | send r fileLen total btsRead =>
    obtain ⟨hlen, hle, htake, hsent⟩ := h
    exact ⟨hlen, hle, by rw [hbuf, htake], hsent.frame hwire hheaders⟩
  | free r => exact Sent.frame h hwire hheaders
  | freeLast r => exact Refused.frame h hwire hheaders
  | unlock | signal | contentGet | notFound | fstat | statError | header =>
    unfold At at h ⊢
    rwa [hwire, hheaders]
  | _ => trivial

/-- What `pread` has put into the buffer. -/
theorem take_fillBuf {content : Bytes} {offset : ℕ} {ret : ℤ}
    (h : ret.toNat ≤ (content.drop offset).length) :
    (fillBuf content offset ret).take ret.toNat = (content.drop offset).take ret.toNat := by
  have hlen : ((content.drop offset).take ret.toNat).length = ret.toNat := by
    rw [List.length_take]
    omega
  unfold fillBuf
  rw [List.take_append_of_le_length hlen.ge, List.take_take, Nat.min_self]

theorem Sent.more {n m : ℕ} (h : Sent o s req n) {data : Bytes}
    (hdata : data = ((c.content o req).drop n).take m) : Sent o (s.put req data) req (n + m) where
  found := h.found
  headers := h.headers
  wire := by
    change Function.update s.wire req (s.wire req ++ data) req = _
    rw [Function.update_self, h.wire, hdata, List.append_assoc, List.take_add]

theorem size_natCast {n : ℕ} (h : n < 2 ^ 63) : size n = n := by
  rw [Worker.size_of_nonneg (by omega) (by omega)]
  exact Int.toNat_natCast n

/-! ### The worker that serves the request -/

/-- The worker is about to free its request. -/
def WorkerPc.frees : WorkerPc → Bool
  | .free _ | .freeLast _ => true
  | _ => false

/-- The worker of the request takes its step, which frees it or leaves it with the worker. -/
theorem serves_step (hreq : (s.server.worker k).req = some req)
    (hat : At o s req k (s.server.worker k))
    (hstep : WorkerStep k w ret s.server (s.server.worker k) server)
    (hok : Works (c.content o req) req ret (s.server.worker k))
    (hlen : (c.content o req).length < 2 ^ 63) (hs' : s' = { s.work o k ret with server }) :
    ((s.server.worker k).frees = false → At o s' req k (server.worker k))
      ∧ ((s.server.worker k).frees = true →
        Refused o s' req ∨ Sent o s' req (c.content o req).length) := by
  unfold Answering.work at hs'
  generalize hpc : s.server.worker k = pc at hreq hat hstep hok hs'
  cases hstep with
  | unlock r | signal r =>
    refine ⟨fun _ => ?_, fun h => by cases h⟩
    subst hs'
    rw [goto_self]
    exact hat
  | missing r hget | found r hget =>
    obtain rfl := Option.some.inj hreq
    refine ⟨fun _ => ?_, fun h => by cases h⟩
    subst hs'
    rw [goto_self]
    exact ⟨hget, hat⟩
  | notFound r =>
    obtain rfl := Option.some.inj hreq
    refine ⟨fun _ => ?_, fun h => by cases h⟩
    subst hs'
    rw [goto_self]
    refine .inl ⟨hat.1, ?_, ?_⟩
    · simp [Server.goto, Server.sendheader, hat.2.2]
    · simp [Answering.put, hat.2.1]
  | unstated r hret =>
    refine ⟨fun _ => ?_, fun h => by cases h⟩
    subst hs'
    rw [goto_self]
    exact hat
  | fstat r hret =>
    obtain rfl := Option.some.inj hreq
    refine ⟨fun _ => ?_, fun h => by cases h⟩
    subst hs'
    rw [goto_self]
    refine ⟨?_, hat⟩
    rw [(hok rfl).resolve_left hret, size_natCast hlen]
  | statError r =>
    obtain rfl := Option.some.inj hreq
    refine ⟨fun _ => ?_, fun h => by cases h⟩
    subst hs'
    rw [goto_self]
    refine .inr ⟨hat.1, ?_, ?_⟩
    · simp [Server.goto, Server.sendheader, hat.2.2]
    · simp [Answering.put, hat.2.1]
  | header r fileLen =>
    obtain rfl := Option.some.inj hreq
    obtain ⟨rfl, hfound, hwire, hheaders⟩ := hat
    refine ⟨fun _ => ?_, fun h => by cases h⟩
    subst hs'
    rw [goto_self]
    refine ⟨rfl, ?_, hfound, ?_, ?_⟩
    · omega
    · simp [Server.goto, Server.sendheader, hheaders]
    · simp [Answering.put, hwire]
  | pread r fileLen total hret =>
    obtain rfl := Option.some.inj hreq
    obtain ⟨rfl, htotal, hsent⟩ := hat
    obtain ⟨h0, hle, -⟩ := hok rfl
    refine ⟨fun _ => ?_, fun h => by cases h⟩
    subst hs'
    have hsize : size ret = ret.toNat := Worker.size_of_nonneg h0 (by omega)
    rw [goto_self]
    refine ⟨rfl, by omega, ?_, hsent.frame rfl rfl⟩
    change (Function.update s.buf k _ k).take _ = _
    rw [Function.update_self, hsize]
    exact take_fillBuf (by rw [List.length_drop]; omega)
  | ended r fileLen total hret =>
    obtain rfl := Option.some.inj hreq
    obtain ⟨rfl, htotal, hsent⟩ := hat
    obtain ⟨h0, hle, hpos⟩ := hok rfl
    refine ⟨fun _ => ?_, fun h => by cases h⟩
    subst hs'
    have hsize : size ret = ret.toNat := Worker.size_of_nonneg h0 (by omega)
    have hend : total = (c.content o r).length := by
      rcases htotal with hlt | ⟨hnil, rfl⟩
      · have := hpos hlt
        omega
      · exact hnil.symm
    rw [goto_self, At, ← hend]
    exact hsent.frame rfl rfl
  | more r fileLen total btsRead hlt =>
    obtain rfl := Option.some.inj hreq
    obtain ⟨rfl, hle, htake, hsent⟩ := hat
    obtain ⟨h1, hret⟩ := hok rfl
    refine ⟨fun _ => ?_, fun h => by cases h⟩
    subst hs'
    have hsize : size ret = ret.toNat := Worker.size_of_nonneg (by omega) (by omega)
    have hmod : (total + size ret) % 2 ^ 64 = total + ret.toNat := by
      rw [hsize, Nat.mod_eq_of_lt (by omega)]
    rw [hmod] at hlt ⊢
    rw [goto_self]
    refine ⟨rfl, .inl hlt, (hsent.more ?_).frame rfl rfl⟩
    rw [← Nat.min_eq_left (show ret.toNat ≤ btsRead by omega), ← List.take_take, htake,
      List.take_take, Nat.min_eq_left (by omega)]
  | sent r fileLen total btsRead hle' =>
    obtain rfl := Option.some.inj hreq
    obtain ⟨rfl, hle, htake, hsent⟩ := hat
    obtain ⟨h1, hret⟩ := hok rfl
    refine ⟨fun _ => ?_, fun h => by cases h⟩
    subst hs'
    have hsize : size ret = ret.toNat := Worker.size_of_nonneg (by omega) (by omega)
    have hend : (c.content o r).length = total + ret.toNat := by
      rw [hsize, Nat.mod_eq_of_lt (by omega)] at hle'
      omega
    rw [goto_self, At, hend]
    refine (hsent.more ?_).frame rfl rfl
    rw [← Nat.min_eq_left (show ret.toNat ≤ btsRead by omega), ← List.take_take, htake,
      List.take_take, Nat.min_eq_left (by omega)]
  | free r =>
    refine ⟨(fun h => by cases h), fun _ => .inr ?_⟩
    subst hs'
    exact Sent.frame hat rfl rfl
  | freeLast r =>
    refine ⟨(fun h => by cases h), fun _ => .inl ?_⟩
    subst hs'
    exact Refused.frame hat rfl rfl
  | _ => cases hreq

/-! ### Runs -/

theorem freed_step (hstep : WorkerStep k w ret s.server (s.server.worker k) server)
    (hreq : (s.server.worker k).req = some req) (hfrees : (s.server.worker k).frees = false) :
    server.freed req = s.server.freed req ∧ ∀ r, (server.worker k).req = some r → r = req := by
  generalize hpc : s.server.worker k = pc at hstep hreq hfrees
  cases hstep with
  | free r | freeLast r => cases hfrees
  | underflow | pop | lock | empty | nonempty | wait | waiting => cases hreq
  | _ =>
    refine ⟨rfl, fun r hr => ?_⟩
    rw [goto_self] at hr
    exact Option.some.inj (hr.symm.trans hreq)

theorem Answered.worker (hA : Answered o req s) (hi : Service s.server)
    (hstep : WorkerStep k w ret s.server (s.server.worker k) server)
    (hok : Undisturbed o req s (.worker k w ret)) (hlen : (c.content o req).length < 2 ^ 63) :
    Answered o req { s.work o k ret with server } := by
  have hpopped : req ∉ server.popped.map Prod.fst → req ∉ s.server.popped.map Prod.fst := by
    intro hnot hmem
    obtain ⟨p, hp, hfst⟩ := List.mem_map.mp hmem
    exact hnot (List.mem_map.mpr ⟨p, popped_step hstep p hp, hfst⟩)
  by_cases hreq : (s.server.worker k).req = some req
  · obtain ⟨hmem, -, hfree⟩ := hi.serving k req hreq
    obtain ⟨hgoes, hends⟩ := serves_step hreq (hA.serving k hreq) hstep hok hlen rfl
    have hmine : req ∈ s.server.popped.map Prod.fst := List.mem_map.mpr ⟨_, hmem, rfl⟩
    refine ⟨fun hnot => absurd hmine (hpopped hnot), fun j hj => ?_, fun hfreed => ?_⟩
    · by_cases hjk : j = k
      · subst hjk
        cases hfrees : (s.server.worker j).frees with
        | false => exact hgoes hfrees
        | true =>
          -- It has freed the request, and so serves it no more.
          generalize s.server.worker j = pc at hstep hfrees
          cases hstep with
          | free r | freeLast r =>
            change (Server.worker (Server.goto _ j _) j).req = _ at hj
            rw [goto_self] at hj
            cases hj
          | _ => cases hfrees
      · rw [show ({ s.work o k ret with server } : Answering c).server = server from rfl,
          worker_of_ne hstep hjk] at hj
        exact absurd (hi.unique hreq hj) hjk
    · cases hfrees : (s.server.worker k).frees with
      | true => exact hends hfrees
      | false =>
        have hsame := (freed_step hstep hreq hfrees).1
        change server.freed req = 1 at hfreed
        omega
  · obtain ⟨hwire, hheaders, hfreed⟩ := work_frame (o := o) hstep hreq
    have hbuf : ∀ j ≠ k, (s.work o k ret).buf j = s.buf j := by
      intro j hj
      unfold Answering.work
      split <;> simp [Answering.put, hj]
    refine ⟨fun hnot => hwire.trans (hA.unpopped (hpopped hnot)), fun j hj => ?_, fun hone => ?_⟩
    · by_cases hjk : j = k
      · subst hjk
        obtain ⟨hunlock, q, hq⟩ := req_of_step hstep hj hreq
        have hnew : req ∉ s.server.popped.map Prod.fst := fun hmem =>
          (List.nodup_append.mp hi.nodup).2.2 req hmem req
            (by rw [hq]; exact List.mem_cons_self) rfl
        change At o _ req j (server.worker j)
        rw [hunlock]
        exact ⟨hwire.trans (hA.unpopped hnew), hheaders.trans (hi.fresh req hnew).1⟩
      · have hsame := worker_of_ne hstep hjk
        change At o _ req j (server.worker j)
        change (server.worker j).req = some req at hj
        rw [hsame] at hj ⊢
        exact (hA.serving j hj).frame hwire hheaders (hbuf j hjk)
    · change server.freed req = 1 at hone
      rw [hfreed] at hone
      exact (hA.freed hone).imp (fun h => h.frame hwire hheaders) fun h => h.frame hwire hheaders

/-- A step of the boss, or a sleeper that wakes up. -/
theorem Answered.other (hA : Answered o req s) (hworker : server.worker = s.server.worker)
    (hpopped : server.popped = s.server.popped) (hheaders : server.headers = s.server.headers)
    (hfreed : server.freed = s.server.freed) : Answered o req { s with server } := by
  refine ⟨fun hnot => hA.unpopped (hpopped ▸ hnot), fun j hj => ?_, fun hone => ?_⟩
  · change At o _ req j (server.worker j)
    change (server.worker j).req = some req at hj
    rw [hworker] at hj ⊢
    exact (hA.serving j hj).frame rfl (congrFun hheaders req) rfl
  · change server.freed req = 1 at hone
    rw [hfreed] at hone
    exact (hA.freed hone).imp (fun h => h.frame rfl (congrFun hheaders req))
      fun h => h.frame rfl (congrFun hheaders req)

theorem Answered.step {e : Event c} (hA : Answered o req s) (hi : Service s.server)
    (hok : Undisturbed o req s e) (hlen : (c.content o req).length < 2 ^ 63)
    (hstep : answer o e s = some s') : Answered o req s' := by
  obtain ⟨server, hserver, rfl⟩ := answer_eq_some hstep
  unfold step at hserver
  split_ifs at hserver
  cases e with
  | worker k w ret =>
    obtain ⟨pc, rfl, hstep⟩ := threadHandleReq_cases hserver
    exact hA.worker hi hstep hok hlen
  | boss w =>
    obtain ⟨pc, -, hstep⟩ := gfsHandler_cases hserver
    cases hstep <;> exact hA.other rfl rfl rfl rfl
  | spurious t =>
    obtain ⟨m, -, rfl⟩ := Option.map_eq_some_iff.mp hserver
    exact hA.other rfl rfl rfl rfl

theorem answered_init (c : Config) : Answered o req (Answering.init c) where
  unpopped := fun _ => rfl
  serving := fun k hk => by cases hk
  freed := fun h => by cases h

/-- Whatever becomes of the other requests, and in whatever order the workers run: what is on the
socket of a request whose own calls do what they are for is nothing yet, or a refusal, or the
beginning of its answer, and it is the whole answer when the request has been freed. -/
theorem answer_whole (hlen : (c.content o req).length < 2 ^ 63)
    (h : Trans.Reach (answer o) (Undisturbed o req) (.init c) s) :
    (s.server.headers req = [] ∧ s.wire req = [] ∨ Refused o s req
        ∨ ∃ n ≤ (c.content o req).length, Sent o s req n)
      ∧ (s.server.freed req = 1 → Refused o s req ∨ Sent o s req (c.content o req).length) := by
  have hinv : Answered o req s ∧ Service s.server := by
    induction h with
    | refl => exact ⟨answered_init c, service_init c⟩
    | tail hreach hok hstep ih =>
      have hserver := (dispatch_reach (Answering.reach_server (hreach.tail hok hstep))).2.1
      exact ⟨ih.1.step ih.2 hok hlen hstep, hserver⟩
  obtain ⟨hA, hi⟩ := hinv
  refine ⟨?_, hA.freed⟩
  by_cases hmem : req ∈ s.server.popped.map Prod.fst
  · obtain ⟨⟨r, k⟩, hk, rfl⟩ := List.mem_map.mp hmem
    rcases hi.served r k hk with hreq | ⟨-, hfreed, -⟩
    · have hat := hA.serving k hreq
      generalize s.server.worker k = pc at hat hreq
      cases pc with
      | unlock | signal | contentGet => exact .inl ⟨hat.2, hat.1⟩
      | notFound | fstat | statError => exact .inl ⟨hat.2.2, hat.2.1⟩
      | header => exact .inl ⟨hat.2.2.2, hat.2.2.1⟩
      | pread r' fileLen total =>
        obtain ⟨rfl, htotal, hsent⟩ := hat
        exact .inr (.inr ⟨total, by omega, hsent⟩)
      | send r' fileLen total btsRead =>
        obtain ⟨rfl, hle, -, hsent⟩ := hat
        exact .inr (.inr ⟨total, by omega, hsent⟩)
      | free r' => exact .inr (.inr ⟨_, le_rfl, hat⟩)
      | freeLast r' => exact .inr (.inl hat)
      | _ => cases hreq
    · exact (hA.freed hfreed).elim (fun h => .inr (.inl h)) fun h => .inr (.inr ⟨_, le_rfl, h⟩)
  · exact .inl ⟨(hi.fresh req hmem).1, hA.unpopped hmem⟩

/-! ### One request -/

instance (content : Bytes) (req : ℕ) (ret : ℤ) : ∀ pc, Decidable (Works content req ret pc)
  | .fstat _ => inferInstanceAs (Decidable (_ → _ ∨ _))
  | .pread _ _ _ => inferInstanceAs (Decidable (_ → _ ∧ _ ∧ (_ → _)))
  | .send _ _ _ _ => inferInstanceAs (Decidable (_ → _ ∧ _))
  | .lock | .isempty _ | .wait | .waiting | .pop _ | .unlock _ | .signal _ | .contentGet _
  | .notFound _ | .statError _ | .header _ _ | .free _ | .freeLast _ | .returned =>
    inferInstanceAs (Decidable True)

instance (o : Outside) (req : ℕ) (s : Answering c) : ∀ e, Decidable (Undisturbed o req s e)
  | .worker _ _ ret => inferInstanceAs (Decidable (Works (c.content o req) req ret _))
  | .boss _ | .spurious _ => inferInstanceAs (Decidable True)

/-- A file of five bytes. -/
def hello : Outside := ⟨fun _ => ascii "hello", fun _ _ => ascii "OK "⟩

theorem answer_whole_hello : ∃ s : Answering oneFound,
    s.server.freed 0 = 1 ∧ s.wire 0 = ascii "OK hello" := by
  have hrun : ((Trans.exec (answer hello) (fun s e => decide (Undisturbed hello 0 s e))
      (List.replicate 10 (Event.boss none)
        ++ List.replicate 11 (Event.worker ⟨0, Nat.one_pos⟩ none 5))
      (Answering.init oneFound)).any fun s =>
      decide (s.server.freed 0 = 1) && decide (s.server.headers 0 = [(.ok, 5)])) = true := by
    decide
  obtain ⟨s, hs, htest⟩ := (Option.any_eq_true _ _).mp hrun
  obtain ⟨hfreed, hheaders⟩ : s.server.freed 0 = 1 ∧ s.server.headers 0 = [(.ok, 5)] := by
    simpa using htest
  have hreach : Trans.Reach (answer hello) (Undisturbed hello 0) (Answering.init oneFound) s :=
    .exec (fun s e h => of_decide_eq_true h) _ .refl hs
  refine ⟨s, hfreed, ?_⟩
  rcases (answer_whole (by decide) hreach).2 hfreed with (⟨hget, -⟩ | ⟨-, herror, -⟩) | hsent
  · exact absurd hget (by decide)
  · rw [hheaders] at herror
    cases herror
  · rw [hsent.wire]
    rfl

end FileServices.Dispatch
