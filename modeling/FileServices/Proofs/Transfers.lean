import FileServices.Transfers
import FileServices.Lib.Trans
import FileServices.Proofs.Transfer

/-!
# What the clients of the file server have

A client writes the content over its output file from the start on, so what the file holds is
known from the offset of the next `write`.  What is on its connection only grows, and it is the
whole content once the server has closed it.
-/

namespace FileServices.Transfers

open CString Transfer
open Dfs (writeAt)

variable {c : Config} {s s' : State c} {i : Fin c.nclients} {n : ℕ} {result : ℤ}

/-! ### What a client has in its output file -/

/-- The first bytes of the content over what was in the file before. -/
def overlay (old content : Bytes) (m : ℕ) : Bytes := content.take m ++ old.drop m

theorem overlay_recv {old wire : Bytes} {pos : ℕ} (hpos : pos ≤ wire.length) :
    writeAt (overlay old wire pos) pos ((wire.drop pos).take n)
      = overlay old wire (pos + ((wire.drop pos).take n).length) := by
  have hlen : (wire.take pos).length = pos := by
    rw [List.length_take]
    omega
  have hwrite := @writeAt_over old (wire.take pos) ((wire.drop pos).take n)
  rw [hlen] at hwrite
  have hfront : wire.take pos ++ (wire.drop pos).take n
      = wire.take (pos + ((wire.drop pos).take n).length) := by
    rw [List.take_add]
    congr 1
    exact List.prefix_iff_eq_take.mp (List.take_prefix _ _)
  unfold overlay
  rw [hwrite, hfront]
  congr 2
  rw [← hfront, List.length_append, hlen]

theorem overlay_grow {old wire wire' : Bytes} {pos : ℕ} (hwire : wire <+: wire')
    (hpos : pos ≤ wire.length) : overlay old wire' pos = overlay old wire pos := by
  obtain ⟨rest, rfl⟩ := hwire
  unfold overlay
  rw [List.take_append_of_le_length hpos]

/-! ### What the server has put on a connection -/

variable {content : Bytes} {t t' : SendFile}

theorem wire_prefix (h : t.Ok content) : t.wire <+: content := by
  cases hpc : t.pc with
  | read => exact h.read hpc ▸ List.take_prefix _ _
  | send buf bytesLeft bytesSent =>
    exact (List.prefix_append _ _).trans ((h.send _ _ _ hpc).1 ▸ List.take_prefix _ _)

theorem sendFileBody_wire (h : sendFileBody content t result = .more t') : t.wire <+: t'.wire := by
  unfold sendFileBody at h
  cases hpc : t.pc with
  | read =>
    simp only [hpc] at h
    split_ifs at h
    obtain rfl := Loop.Outcome.more.inj h
    exact List.prefix_rfl
  | send buf bytesLeft bytesSent =>
    simp only [hpc] at h
    split_ifs at h <;> obtain rfl := Loop.Outcome.more.inj h <;> exact List.prefix_append _ _

/-- Where the server is in its serving loop, with the connection that it is serving. -/
def State.Serves (s : State c) : Transferserver → Prop
  | .accept => s.served = s.accepted
  | .open => ∃ i, s.connectionSocketFd = some i ∧ s.accepted = s.served ++ [i] ∧ s.wire i = []
  | .sendFile t => s.served.length < s.files ∧ t.Ok c.content
    ∧ ∃ i, s.connectionSocketFd = some i ∧ s.accepted = s.served ++ [i] ∧ s.wire i = t.wire
  | .exited _ => True

/-- What a client has in its output file. -/
def State.Has (s : State c) (i : Fin c.nclients) : ClientPc → Prop
  | .connect => i ∉ s.accepted ++ s.backlog
  | .recv f => f.pos ≤ (s.wire i).length ∧ f.file = overlay (c.old i) (s.wire i) f.pos
  | .ended file => i ∈ s.served ∧ file = overlay (c.old i) c.content c.content.length
    ∨ i ∉ s.served ∧ running s.server = false
      ∧ ∃ m ≤ c.content.length, file = overlay (c.old i) c.content m
  | .left file => ∃ m ≤ c.content.length, file = overlay (c.old i) c.content m

structure Sessions (s : State c) : Prop where
  nodup : (s.accepted ++ s.backlog).Nodup
  order : s.served <+: s.accepted
  serves : s.Serves s.server
  limit : s.served.length ≤ s.files ∧ (s.files = 0 ∨ s.files < c.room)
  unsent : ∀ i, i ∉ s.accepted → s.wire i = []
  whole : ∀ i ∈ s.served, s.wire i = c.content
  sent : ∀ i, s.wire i <+: c.content
  has : ∀ i, s.Has i (s.client i)

theorem sessions_init (c : Config) : Sessions (State.init c) where
  nodup := List.nodup_nil
  order := List.prefix_rfl
  serves := rfl
  limit := ⟨le_rfl, .inl rfl⟩
  unsent := fun _ _ => rfl
  whole := fun i hi => by cases hi
  sent := fun _ => List.nil_prefix
  has := fun i => by simp [State.Has, State.init]

/-- What a client has lasts while the server puts more on its connection or closes it. -/
theorem State.Has.mono {pc : ClientPc} (h : s.Has i pc)
    (hconnect : pc = .connect → i ∉ s'.accepted ++ s'.backlog) (hwire : s.wire i <+: s'.wire i)
    (hserved : running s.server = true → i ∈ s.served → i ∈ s'.served)
    (hrunning : running s.server = false → s'.served = s.served ∧ running s'.server = false) :
    s'.Has i pc := by
  cases pc with
  | connect => exact hconnect rfl
  | recv f =>
    obtain ⟨hpos, hfile⟩ := h
    exact ⟨hpos.trans hwire.length_le, hfile.trans (overlay_grow hwire hpos).symm⟩
  | ended file =>
    obtain ⟨hmem, hfile⟩ | ⟨hmem, hexited, hfile⟩ := h
    · refine .inl ⟨?_, hfile⟩
      cases hrun : running s.server with
      | true => exact hserved hrun hmem
      | false => exact (hrunning hrun).1 ▸ hmem
    · obtain ⟨hsame, hexited'⟩ := hrunning hexited
      exact .inr ⟨hsame ▸ hmem, hexited', hfile⟩
  | left file => exact h

theorem State.Has.grow {pc : ClientPc} (h : s.Has i pc) (hrun : running s.server = true)
    (hconnect : pc = .connect → i ∉ s'.accepted ++ s'.backlog) (hwire : s.wire i <+: s'.wire i)
    (hserved : i ∈ s.served → i ∈ s'.served) : s'.Has i pc :=
  h.mono hconnect hwire (fun _ => hserved) fun hexited => by
    rw [hrun] at hexited
    cases hexited

theorem Sessions.fresh (hi : Sessions s) (hpc : s.client i = .connect) :
    i ∉ s.accepted ++ s.backlog := by
  have hhas := hi.has i
  rwa [hpc] at hhas

/-! ### The steps -/

/-- A step of a client that has connected. -/
theorem Sessions.client (hi : Sessions s) {pc : ClientPc} (hhas : s.Has i pc) :
    Sessions (s.goto i pc) where
  nodup := hi.nodup
  order := hi.order
  serves := by
    have hserves := hi.serves
    change (s.goto i pc).Serves s.server
    cases hserver : s.server with
    | _ => rw [hserver] at hserves; exact hserves
  limit := hi.limit
  unsent := hi.unsent
  whole := hi.whole
  sent := hi.sent
  has := fun j => by
    have hkeep : ∀ pc', s.Has j pc' → (s.goto i pc).Has j pc' := fun pc' h => by
      cases pc' <;> exact h
    by_cases hj : j = i
    · subst hj
      simpa [State.goto] using hkeep pc hhas
    · simpa [State.goto, Function.update_of_ne hj] using hkeep _ (hi.has j)

theorem Sessions.connect (hi : Sessions s) (hpc : s.client i = .connect) :
    Sessions ({ s with backlog := s.backlog ++ [i] }.goto i (.recv ⟨c.old i, 0⟩) : State c) where
  nodup := by
    change (s.accepted ++ (s.backlog ++ [i])).Nodup
    rw [← List.append_assoc]
    exact hi.nodup.append (List.nodup_singleton i) (by simpa using hi.fresh hpc)
  order := hi.order
  serves := by
    have hserves := hi.serves
    change State.Serves (c := c) _ s.server
    cases hserver : s.server with
    | _ => rw [hserver] at hserves; exact hserves
  limit := hi.limit
  unsent := hi.unsent
  whole := hi.whole
  sent := hi.sent
  has := fun j => by
    by_cases hj : j = i
    · subst hj
      simp [State.goto, State.Has, overlay]
    · have hat : ({ s with backlog := s.backlog ++ [i] }.goto i
          (.recv ⟨c.old i, 0⟩) : State c).client j = s.client j := Function.update_of_ne hj ..
      rw [hat]
      refine (hi.has j).mono (fun hj' => ?_) List.prefix_rfl (fun _ h => h) fun h => ⟨rfl, h⟩
      simpa [State.goto, hj] using hi.fresh hj'

theorem Sessions.transferclient (hi : Sessions s) (h : s.transferclient i n = some s') :
    Sessions s' := by
  unfold State.transferclient at h
  have hhas := hi.has i
  cases hpc : s.client i with
  | connect =>
    simp only [hpc] at h
    split_ifs at h
    exact Option.some.inj h ▸ hi.connect hpc
  | recv f =>
    rw [hpc] at hhas
    obtain ⟨hpos, hfile⟩ := hhas
    simp only [hpc] at h
    split_ifs at h with hn
    obtain ⟨hle, hzero⟩ := hn
    cases hpacket : ((s.wire i).drop f.pos).take n with
    | nil =>
      simp only [hpacket, Transfer.receiveBody, Option.some.injEq] at h
      subst h
      have harrived : (s.wire i).drop f.pos = [] ∧ s.closed i = true := by
        refine hzero ?_
        have hlen := congrArg List.length hpacket
        rw [List.length_take, List.length_nil] at hlen
        omega
      obtain ⟨hend, hclosed⟩ := harrived
      have hpos' : f.pos = (s.wire i).length :=
        le_antisymm hpos (List.drop_eq_nil_iff.mp hend)
      have hwire : f.file = overlay (c.old i) c.content (s.wire i).length := by
        rw [hfile, hpos', overlay_grow (hi.sent i) le_rfl]
      refine hi.client ?_
      by_cases hmem : i ∈ s.served
      · exact .inl ⟨hmem, by rw [hwire, hi.whole i hmem]⟩
      · refine .inr ⟨hmem, ?_, _, (hi.sent i).length_le, hwire⟩
        simpa [State.closed, hmem] using hclosed
    | cons b packet =>
      simp only [hpacket, Transfer.receiveBody, Option.some.injEq] at h
      subst h
      refine hi.client ⟨?_, ?_⟩
      · have hlen := congrArg List.length hpacket
        rw [List.length_take, List.length_drop] at hlen
        change f.pos + (b :: packet).length ≤ _
        omega
      · change writeAt f.file f.pos (b :: packet) = overlay _ _ (f.pos + (b :: packet).length)
        rw [hfile, ← hpacket]
        exact overlay_recv hpos
  | ended file => simp [hpc] at h
  | left file => simp [hpc] at h

/-- The server exits. -/
theorem Sessions.exit (hi : Sessions s) (code : ℤ) :
    Sessions ({ s with server := .exited code } : State c) where
  nodup := hi.nodup
  order := hi.order
  serves := trivial
  limit := hi.limit
  unsent := hi.unsent
  whole := hi.whole
  sent := hi.sent
  has := fun j =>
    (hi.has j).mono hi.fresh List.prefix_rfl (fun _ h => h) fun _ => ⟨rfl, rfl⟩

/-- A connection is accepted. -/
theorem Sessions.accept (hi : Sessions s) (hserver : s.server = .accept)
    {backlog : List (Fin c.nclients)} (hbacklog : s.backlog = i :: backlog) :
    Sessions ({ s with
      server := .open, backlog, connectionSocketFd := some i,
      accepted := s.accepted ++ [i] } : State c) := by
  have hsplit : s.accepted ++ s.backlog = s.accepted ++ [i] ++ backlog := by simp [hbacklog]
  have hserved : s.served = s.accepted := by
    have hserves := hi.serves
    rwa [hserver] at hserves
  have hnodup := hi.nodup
  rw [hsplit] at hnodup
  have hnew : i ∉ s.accepted := fun hmem => by
    have := List.nodup_append.mp (List.nodup_append.mp hnodup).1
    exact this.2.2 i hmem i (by simp) rfl
  have hrun : running s.server = true := by
    rw [hserver]
    rfl
  exact ⟨hnodup, hi.order.trans (List.prefix_append _ _), ⟨i, rfl, by rw [hserved],
    hi.unsent i hnew⟩, hi.limit, fun j hj => hi.unsent j fun hmem =>
    hj (List.mem_append_left _ hmem), hi.whole, hi.sent, fun j =>
    (hi.has j).grow hrun (fun hj => hsplit ▸ hi.fresh hj) List.prefix_rfl id⟩

/-- The file is opened for the connection. -/
theorem Sessions.open (hi : Sessions s) (hserver : s.server = .open)
    (hroom : s.files + 1 < c.room) :
    Sessions ({ s with server := .sendFile .start, files := s.files + 1 } : State c) := by
  have hserves := hi.serves
  rw [hserver] at hserves
  obtain ⟨i, hsocket, haccepted, hwire⟩ := hserves
  refine ⟨hi.nodup, hi.order, ⟨Nat.lt_succ_of_le hi.limit.1, .start _, i, hsocket, haccepted,
    hwire⟩, ⟨hi.limit.1.trans (Nat.le_succ _), .inr hroom⟩, hi.unsent, hi.whole, hi.sent,
    fun j => (hi.has j).grow ?_ hi.fresh List.prefix_rfl id⟩
  rw [hserver]
  rfl

/-- `send_file` goes on with more on the connection. -/
theorem Sessions.more (hi : Sessions s) (hserver : s.server = .sendFile t)
    (hsocket : s.connectionSocketFd = some i) (hbody : sendFileBody c.content t result = .more t') :
    Sessions ({ s with
      server := .sendFile t', wire := Function.update s.wire i t'.wire } : State c) := by
  have hserves := hi.serves
  rw [hserver] at hserves
  obtain ⟨hfiles, hok, i', hsocket', haccepted, hwire⟩ := hserves
  obtain rfl : i = i' := Option.some.inj (hsocket.symm.trans hsocket')
  have hok' : t'.Ok c.content := by
    obtain ⟨t₂, hmore, hok₂⟩ | hstop | ⟨code, hstop⟩ := hok.body result
    · exact Loop.Outcome.more.inj (hmore.symm.trans hbody) ▸ hok₂
    · simp [hstop] at hbody
    · simp [hstop] at hbody
  have hmem : i ∈ s.accepted := haccepted ▸ List.mem_append_right _ (List.mem_singleton.mpr rfl)
  have hgrows : ∀ j, s.wire j <+: Function.update s.wire i t'.wire j := fun j => by
    by_cases hj : j = i
    · subst hj
      rw [Function.update_self, hwire]
      exact sendFileBody_wire hbody
    · rw [Function.update_of_ne hj]
  have hsent : ∀ j, Function.update s.wire i t'.wire j <+: c.content := fun j => by
    by_cases hj : j = i
    · subst hj
      rw [Function.update_self]
      exact wire_prefix hok'
    · rw [Function.update_of_ne hj]
      exact hi.sent j
  refine ⟨hi.nodup, hi.order, ⟨hfiles, hok', i, hsocket, haccepted, Function.update_self ..⟩,
    hi.limit, fun j hj => ?_, fun j hj => ?_, hsent, fun j => ?_⟩
  · have hne : j ≠ i := fun h => hj (h ▸ hmem)
    exact (Function.update_of_ne hne ..).trans (hi.unsent j hj)
  · -- What is whole is not cut by what is put behind it.
    have hfull := hi.whole j hj
    exact ((hsent j).eq_of_length_le (hfull ▸ (hgrows j).length_le))
  · refine (hi.has j).grow ?_ hi.fresh (hgrows j) id
    rw [hserver]
    rfl

/-- `send_file` returns, and the connection is closed. -/
theorem Sessions.close (hi : Sessions s) (hserver : s.server = .sendFile t)
    (hsocket : s.connectionSocketFd = some i) {wire : Bytes}
    (hbody : sendFileBody c.content t result = .stop (.returned wire)) :
    Sessions ({ s with server := .accept, served := s.served ++ [i] } : State c) := by
  have hserves := hi.serves
  rw [hserver] at hserves
  obtain ⟨hfiles, hok, i', hsocket', haccepted, hwire⟩ := hserves
  obtain rfl : i = i' := Option.some.inj (hsocket.symm.trans hsocket')
  have hwhole : s.wire i = c.content := by
    obtain ⟨t₂, hmore, -⟩ | hstop | ⟨code, hstop⟩ := hok.body result
    · simp [hmore] at hbody
    · rw [hwire]
      have hret : wire = c.content := by simpa [hstop] using hbody.symm
      subst hret
      unfold sendFileBody at hbody
      cases hpc : t.pc with
      | read =>
        simp only [hpc] at hbody
        split_ifs at hbody
        · simp at hbody
        · simpa using hbody
      | send buf bytesLeft bytesSent =>
        simp only [hpc] at hbody
        split_ifs at hbody
        simp at hbody
    · simp [hstop] at hbody
  refine ⟨hi.nodup, haccepted ▸ List.prefix_rfl, haccepted.symm, ⟨?_, hi.limit.2⟩, hi.unsent,
    fun j hj => ?_, hi.sent, fun j => ?_⟩
  · rw [List.length_append, List.length_singleton]
    exact hfiles
  · obtain hj | hj := List.mem_append.mp hj
    · exact hi.whole j hj
    · exact List.mem_singleton.mp hj ▸ hwhole
  · refine (hi.has j).grow ?_ hi.fresh List.prefix_rfl (List.mem_append_left _)
    rw [hserver]
    rfl

theorem Sessions.transferserver (hi : Sessions s) (h : s.transferserver result = some s') :
    Sessions s' := by
  unfold State.transferserver at h
  cases hserver : s.server with
  | accept =>
    simp only [hserver, Transferserver.step] at h
    by_cases hneg : result < 0
    · rw [if_pos hneg, if_pos hneg] at h
      exact Option.some.inj h ▸ hi.exit _
    · rw [if_neg hneg, if_neg hneg] at h
      cases hbacklog : s.backlog with
      | nil => simp [hbacklog] at h
      | cons i backlog =>
        simp only [hbacklog] at h
        split_ifs at h
        exact Option.some.inj h ▸ hi.accept hserver hbacklog
  | «open» =>
    simp only [hserver, Transferserver.step] at h
    split_ifs at h with hneg hroom
    · exact Option.some.inj h ▸ hi.exit _
    · exact Option.some.inj h ▸ hi.open hserver hroom
  | sendFile t =>
    cases hsocket : s.connectionSocketFd with
    | none => simp [hserver, hsocket] at h
    | some i =>
      simp only [hserver, hsocket, Transferserver.step] at h
      cases hbody : sendFileBody c.content t result with
      | more t' =>
        have hmore := hi.more hserver hsocket hbody
        rw [hsocket] at hmore
        simp only [hbody] at h
        exact Option.some.inj h ▸ hmore
      | stop ending =>
        cases ending with
        | returned wire =>
          have hclose := hi.close hserver hsocket hbody
          rw [hsocket] at hclose
          simp only [hbody] at h
          exact Option.some.inj h ▸ hclose
        | exit code =>
          have hexit := hi.exit code
          rw [hsocket] at hexit
          simp only [hbody] at h
          exact Option.some.inj h ▸ hexit
  | exited code => simp [hserver] at h

theorem Sessions.next (hi : Sessions s) {e : Event c} (h : step c e s = some s') : Sessions s' := by
  unfold step at h
  cases e with
  | client i n => exact hi.transferclient h
  | leave i =>
    simp only at h
    split at h
    · rename_i f hpc
      have hhas := hi.has i
      rw [hpc] at hhas
      obtain rfl := Option.some.inj h
      exact hi.client ⟨f.pos, hhas.1.trans (hi.sent i).length_le,
        hhas.2.trans (overlay_grow (hi.sent i) hhas.1).symm⟩
    · cases h
  | server result => exact hi.transferserver h

/-- Over every interleaving with any number of clients: what a client has in its output file is a
beginning of the file over what it had before; it is the whole file where it ends and its
connection has been closed, which the server does in the order of the connections, once for each
and for fewer than it has descriptors; and a client ends with another only where the server has
exited. -/
theorem transfers (h : Trans.Reach (step c) (fun _ _ => True) (State.init c) s) :
    (∀ i file, s.client i = .ended file → i ∈ s.served ∧ file = c.content ++ (c.old i).drop
        c.content.length ∨ i ∉ s.served ∧ (∃ code, s.server = .exited code)
          ∧ ∃ m ≤ c.content.length, file = overlay (c.old i) c.content m)
      ∧ (∀ i f, s.client i = .recv f →
        f.pos ≤ c.content.length ∧ f.file = overlay (c.old i) c.content f.pos)
      ∧ (s.served <+: s.accepted ++ s.backlog ∧ (s.accepted ++ s.backlog).Nodup)
      ∧ (s.served = [] ∨ s.served.length < c.room) := by
  have hi : Sessions s := h.invariant (sessions_init c) fun _ _ _ hi _ hstep => hi.next hstep
  refine ⟨fun i file hpc => ?_, fun i f hpc => ?_, ⟨hi.order.trans (List.prefix_append _ _),
    hi.nodup⟩, ?_⟩
  · have hhas := hi.has i
    rw [hpc] at hhas
    obtain ⟨hmem, rfl⟩ | ⟨hmem, hexited, hfile⟩ := hhas
    · exact .inl ⟨hmem, by rw [overlay, List.take_length]⟩
    · refine .inr ⟨hmem, ?_, hfile⟩
      cases hserver : s.server with
      | exited code => exact ⟨code, rfl⟩
      | _ => simp [hserver, running] at hexited
  · have hhas := hi.has i
    rw [hpc] at hhas
    exact ⟨hhas.1.trans (hi.sent i).length_le,
      hhas.2.trans (overlay_grow (hi.sent i) hhas.1).symm⟩
  · obtain ⟨hle, hzero | hlt⟩ := hi.limit
    · exact .inl (List.length_eq_zero_iff.mp (Nat.le_zero.mp (hzero ▸ hle)))
    · exact .inr (hle.trans_lt hlt)

/-- Two clients connect, the first with a longer output file. -/
def twoClients : Config where
  nclients := 2
  content := ascii "ab"
  old k := if k.val = 0 then ascii "xyz" else []
  room := 8

def twoClients.nth (k : ℕ) : Fin twoClients.nclients := ⟨k % 2, Nat.mod_lt k Nat.two_pos⟩

/-- The first client is served in two packets.  The second has the first byte when `send` fails. -/
theorem transfers_failed : ∃ s : State twoClients,
    (s.client (twoClients.nth 0) = .ended (ascii "abz")
      ∧ s.client (twoClients.nth 1) = .ended (ascii "a"))
    ∧ twoClients.nth 0 ∈ s.served ∧ twoClients.nth 1 ∉ s.served
    ∧ (∃ code, s.server = .exited code) ∧ s.served.length < twoClients.room := by
  have hrun : ((Trans.exec (step twoClients) (fun _ _ => true)
      [.client (twoClients.nth 0) 0, .server 0, .client (twoClients.nth 1) 0, .server 0,
        .server 2, .server 1, .client (twoClients.nth 0) 1, .server 1,
        .client (twoClients.nth 0) 1, .server 0, .client (twoClients.nth 0) 0, .server 0,
        .server 0, .server 2, .server 1, .client (twoClients.nth 1) 1, .server (-1),
        .client (twoClients.nth 1) 0] (State.init twoClients)).any
      fun s => decide ((s.client (twoClients.nth 0) = .ended (ascii "abz")
        ∧ s.client (twoClients.nth 1) = .ended (ascii "a"))
        ∧ s.served = [twoClients.nth 0])) = true := by
    decide +kernel
  obtain ⟨s, hs, hat⟩ := (Option.any_eq_true _ _).mp hrun
  obtain ⟨⟨hfirst, hsecond⟩, hserved⟩ := of_decide_eq_true hat
  obtain ⟨hended, -, -, hroom⟩ := transfers (.exec (fun _ _ _ => trivial) _ .refl hs)
  have hout : twoClients.nth 1 ∉ s.served := by
    rw [hserved]
    decide
  obtain ⟨hin, -⟩ | ⟨-, hexited, -⟩ := hended _ _ hsecond
  · exact absurd hin hout
  · have hmem : twoClients.nth 0 ∈ s.served := hserved ▸ List.mem_singleton.mpr rfl
    exact ⟨s, ⟨hfirst, hsecond⟩, hmem, hout, hexited,
      hroom.resolve_left (List.ne_nil_of_mem hmem)⟩

end FileServices.Transfers
