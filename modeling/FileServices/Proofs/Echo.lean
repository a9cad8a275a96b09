import FileServices.Echo

/-!
# What the clients of the echo server print

A client prints the beginning of its own message or nothing, and where no call splits what it
moves it prints all of it that fits the buffer.  The server answers no more clients than it has
descriptors for, and none at all once it waits for a client that has sent nothing.
-/

namespace FileServices.Echo

open CString Transfer

variable {c : Config} {s s' : State c} {i : Fin c.nclients} {whole : Bool} {n : ℕ}

/-! ### A step -/

/-- The steps of the processes. -/
inductive Steps (s : State c) : Event c → State c → Prop
  | connect {i : Fin c.nclients} {n : ℕ} (hpc : s.client i = .connect) :
    Steps s (.client i n) ({ s with backlog := s.backlog ++ [i] }.goto i .send)
  | send {i : Fin c.nclients} {n : ℕ} (hpc : s.client i = .send)
    (hle : n ≤ (c.message i).length) :
    Steps s (.client i n) ({ s with
      toServer := Function.update s.toServer i ((c.message i).take n) }.goto i .recv)
  | print {i : Fin c.nclients} {n : ℕ} (hpc : s.client i = .recv) (hpos : 0 < n)
    (hle : n ≤ min (bufsize - 1) (s.toClient i).length) :
    Steps s (.client i n) ({ s with
      toClient := Function.update s.toClient i ((s.toClient i).drop n) }.goto i
        (.printed (cstr ((s.toClient i).take n))))
  | leave {i : Fin c.nclients} (hopen : (s.client i).closed = false) :
    Steps s (.leave i) (s.goto i .left)
  | noAccept {result : ℤ} (hpc : s.server.pc = .accept) :
    Steps s (.server result) { s with server := ⟨.exited 1, s.server.sent⟩ }
  | accept {i : Fin c.nclients} {backlog : List (Fin c.nclients)} {result : ℤ}
    (hpc : s.server.pc = .accept) (hq : s.backlog = i :: backlog)
    (hroom : s.accepted.length < c.room) : Steps s (.server result) { s with
      server := ⟨.recv, s.server.sent⟩
      clientSocketFd := some i
      accepted := s.accepted ++ [i]
      backlog := backlog }
  | noRecv {i : Fin c.nclients} {result : ℤ} (hpc : s.server.pc = .recv)
    (hfd : s.clientSocketFd = some i) :
    Steps s (.server result) { s with server := ⟨.exited 1, s.server.sent⟩ }
  | recv {i : Fin c.nclients} {n : ℕ} (hpc : s.server.pc = .recv)
    (hfd : s.clientSocketFd = some i) (hpos : 0 < n)
    (hle : n ≤ min bufsize (s.toServer i).length) : Steps s (.server n) { s with
      server := ⟨.send ((s.toServer i).take n) n, s.server.sent⟩
      toServer := Function.update s.toServer i ((s.toServer i).drop n) }
  | reply {i : Fin c.nclients} {buffer : Bytes} {recvMsgLen result : ℤ} {sent : List Bytes}
    {pc : EchoserverPc}
    (hpc : s.server.pc = .send buffer recvMsgLen) (hfd : s.clientSocketFd = some i)
    (hle : result ≤ recvMsgLen) (hnext : pc = .accept ∨ pc = .exited 1) :
    Steps s (.server result) { s with
      server := ⟨pc, sent⟩
      toClient := Function.update s.toClient i
        (s.toClient i ++ (buffer.take recvMsgLen.toNat).take result.toNat) }

theorem echoclient_steps (h : s.echoclient i n = some s') : Steps s (.client i n) s' := by
  unfold State.echoclient at h
  cases hpc : s.client i with
  | connect =>
    simp only [hpc] at h
    split at h
    · cases h
    · obtain rfl := Option.some.inj h
      exact .connect hpc
  | send =>
    simp only [hpc] at h
    split_ifs at h with hle
    obtain rfl := Option.some.inj h
    exact .send hpc hle
  | recv =>
    simp only [hpc] at h
    split_ifs at h with hle
    obtain rfl := Option.some.inj h
    exact .print hpc hle.1 hle.2
  | printed out => simp [hpc] at h
  | left => simp [hpc] at h

theorem echoserver_steps {result : ℤ} (h : s.echoserver result = some s') :
    Steps s (.server result) s' := by
  unfold State.echoserver at h
  split at h
  · rename_i hpc
    unfold Echoserver.step at h
    simp only [hpc] at h
    by_cases hneg : result < 0
    · simp only [if_pos hneg, Option.some.injEq] at h
      exact h ▸ .noAccept hpc
    · simp only [if_neg hneg] at h
      split at h
      · cases h
      · rename_i i backlog hq
        split_ifs at h with hroom
        obtain rfl := Option.some.inj h
        exact .accept hpc hq hroom
  · rename_i i hpc hfd
    unfold Echoserver.step at h
    simp only [hpc] at h
    split_ifs at h with hle hnone <;> obtain rfl := Option.some.inj h
    · rw [Int.toNat_of_nonpos hnone, List.drop_zero, Function.update_eq_self]
      exact .noRecv hpc hfd
    · lift result to ℕ using (Int.not_le.mp hnone).le
      exact .recv hpc hfd (by omega) (Int.ofNat_le.mp hle.1)
  · rename_i buffer recvMsgLen i hpc hfd
    unfold Echoserver.step at h
    simp only [hpc] at h
    split_ifs at h with hle hshort <;> obtain rfl := Option.some.inj h
    · exact .reply hpc hfd hle (.inr rfl)
    · exact .reply hpc hfd hle (.inl rfl)
  · cases h

theorem step_steps {e : Event c} (h : step c e s = some s') : Steps s e s' := by
  cases e with
  | client i n => exact echoclient_steps h
  | leave i =>
    simp only [step] at h
    split_ifs at h with hclosed
    obtain rfl := Option.some.inj h
    exact .leave (Bool.eq_false_iff.mpr hclosed)
  | server result => exact echoserver_steps h

/-! ### What is on its way -/

/-- `b` is a beginning of `full`, and nothing or all of it where calls move all that there is. -/
structure Part (whole : Bool) (b full : Bytes) : Prop where
  prefix_of : b <+: full
  all : whole = true → b = [] ∨ b = full

theorem Part.nil (full : Bytes) : Part whole [] full := ⟨List.nil_prefix, fun _ => .inl rfl⟩

theorem Part.take {b full : Bytes} (h : Part whole b full)
    (hwhole : whole = true → n = b.length) : Part whole (b.take n) full := by
  refine ⟨(List.take_prefix n b).trans h.prefix_of, fun hw => ?_⟩
  rw [List.take_of_length_le (hwhole hw).ge]
  exact h.all hw

/-- What a call takes off that has a buffer of `m` bytes. -/
theorem Part.receive {b full : Bytes} {m : ℕ} (h : Part whole b full) (hle : n ≤ min m b.length)
    (hwhole : whole = true → n = min m b.length) : Part whole (b.take n) (full.take m) := by
  constructor
  · rw [← Nat.min_eq_left (hle.trans (Nat.min_le_left m b.length)), ← List.take_take]
    exact (List.take_prefix _ _).trans (h.prefix_of.take m)
  · intro hw
    rcases h.all hw with rfl | rfl
    · exact .inl (List.take_nil)
    · right
      rw [hwhole hw]
      rcases Nat.le_total m b.length with hm | hm
      · rw [Nat.min_eq_left hm]
      · rw [Nat.min_eq_right hm, List.take_length, List.take_of_length_le hm]

/-- The server has received nothing from the client. -/
def State.unread (s : State c) (i : Fin c.nclients) : Prop :=
  i ∉ s.accepted ∨ s.clientSocketFd = some i ∧ s.server.pc = .recv

/-- The server has sent nothing to the client. -/
def State.unserved (s : State c) (i : Fin c.nclients) : Prop :=
  i ∉ s.accepted ∨ s.clientSocketFd = some i
    ∧ (s.server.pc = .recv ∨ ∃ buffer len, s.server.pc = .send buffer len)

structure Sessions (whole : Bool) (s : State c) : Prop where
  nodup : (s.accepted ++ s.backlog).Nodup
  fresh : ∀ i, s.client i = .connect → i ∉ s.accepted ++ s.backlog
  room : s.accepted.length ≤ c.room
  current : ∀ i, s.clientSocketFd = some i → i ∈ s.accepted
  unsent : ∀ i, (s.client i).sends = true → s.toServer i = []
  toServer : ∀ i, s.unread i → Part whole (s.toServer i) (c.message i)
  buffer : ∀ i buffer len, s.server.pc = .send buffer len → s.clientSocketFd = some i →
    Part whole buffer ((c.message i).take bufsize) ∧ len = buffer.length
  silent : ∀ i, s.unserved i → s.toClient i = [] ∧ ∀ out, s.client i ≠ .printed out
  toClient : ∀ i, (∀ out, s.client i ≠ .printed out) →
    Part whole (s.toClient i) ((c.message i).take bufsize)
  printed : ∀ i out, s.client i = .printed out →
    out ≠ [] ∧ Part whole out ((c.message i).take (bufsize - 1))

theorem sessions_init (c : Config) : Sessions whole (State.init c) where
  nodup := List.nodup_nil
  fresh := fun _ _ => List.not_mem_nil
  room := Nat.zero_le _
  current := by simp [State.init]
  unsent := fun _ _ => rfl
  toServer := fun _ _ => .nil _
  buffer := by simp [State.init]
  silent := fun _ _ => ⟨rfl, by simp [State.init]⟩
  toClient := fun _ _ => .nil _
  printed := by simp [State.init]

/-- A step of the client `i`, which has not printed anything before, to `pc`. -/
theorem Sessions.client (hi : Sessions whole s) {pc : ClientPc}
    (hclient : s'.client = Function.update s.client i pc) (hserver : s'.server = s.server)
    (hfd : s'.clientSocketFd = s.clientSocketFd) (haccepted : s'.accepted = s.accepted)
    (hnodup : (s.accepted ++ s'.backlog).Nodup)
    (hfresh : ∀ j, j ≠ i → j ∈ s'.backlog → j ∈ s.backlog) (hpc : pc ≠ .connect)
    (htoServer : ∀ j, j ≠ i → s'.toServer j = s.toServer j)
    (hunsent : pc.sends = true → s'.toServer i = [])
    (hpart : s.unread i → Part whole (s'.toServer i) (c.message i))
    (htoClient : ∀ j, j ≠ i → s'.toClient j = s.toClient j)
    (hsilent : s.unserved i → s'.toClient i = [] ∧ ∀ out, pc ≠ .printed out)
    (hpart' : (∀ out, pc ≠ .printed out) →
      Part whole (s'.toClient i) ((c.message i).take bufsize))
    (hprinted : ∀ out, pc = .printed out →
      out ≠ [] ∧ Part whole out ((c.message i).take (bufsize - 1))) :
    Sessions whole s' := by
  have hself : s'.client i = pc := by rw [hclient, Function.update_self]
  have hother : ∀ j, j ≠ i → s'.client j = s.client j := fun j hj => by
    rw [hclient, Function.update_of_ne hj]
  have hunread : ∀ j, s'.unread j → s.unread j := fun j h => by
    unfold State.unread at h ⊢
    rwa [haccepted, hfd, hserver] at h
  have hunserved : ∀ j, s'.unserved j → s.unserved j := fun j h => by
    unfold State.unserved at h ⊢
    rwa [haccepted, hfd, hserver] at h
  refine ⟨haccepted ▸ hnodup, fun j hj => ?_, haccepted ▸ hi.room, ?_, fun j hj => ?_,
    fun j hj => ?_, ?_, fun j hj => ?_, fun j hj => ?_, fun j out hj => ?_⟩
  · by_cases hji : j = i
    · exact absurd (hself.symm.trans (hji ▸ hj)) hpc
    · rw [hother j hji] at hj
      intro hmem
      rw [haccepted] at hmem
      refine hi.fresh j hj (List.mem_append.mpr ?_)
      exact (List.mem_append.mp hmem).imp_right (hfresh j hji)
  · rw [hfd, haccepted]
    exact hi.current
  · by_cases hji : j = i
    · subst hji
      exact hunsent (hself ▸ hj)
    · rw [htoServer j hji]
      exact hi.unsent j (hother j hji ▸ hj)
  · by_cases hji : j = i
    · subst hji
      exact hpart (hunread _ hj)
    · rw [htoServer j hji]
      exact hi.toServer j (hunread _ hj)
  · rw [hserver, hfd]
    exact hi.buffer
  · by_cases hji : j = i
    · subst hji
      rw [hself]
      exact hsilent (hunserved _ hj)
    · rw [htoClient j hji, hother j hji]
      exact hi.silent j (hunserved _ hj)
  · by_cases hji : j = i
    · subst hji
      exact hpart' (hself ▸ hj)
    · rw [htoClient j hji]
      exact hi.toClient j (hother j hji ▸ hj)
  · by_cases hji : j = i
    · subst hji
      exact hprinted out (hself ▸ hj)
    · exact hi.printed j out (hother j hji ▸ hj)

theorem Sessions.exit (hi : Sessions whole s) (code : ℤ) (sent : List Bytes) :
    Sessions whole { s with server := ⟨.exited code, sent⟩ } where
  nodup := hi.nodup
  fresh := hi.fresh
  room := hi.room
  current := hi.current
  unsent := hi.unsent
  toServer := fun i h => hi.toServer i (.inl (h.resolve_right (by simp)))
  buffer := fun _ _ _ h => by cases h
  silent := fun i h => hi.silent i (.inl (h.resolve_right (by simp)))
  toClient := hi.toClient
  printed := hi.printed

theorem Sessions.accept (hi : Sessions whole s) {backlog : List (Fin c.nclients)}
    (hq : s.backlog = i :: backlog) (hroom : s.accepted.length < c.room) :
    Sessions whole { s with
      server := ⟨.recv, s.server.sent⟩
      clientSocketFd := some i
      accepted := s.accepted ++ [i]
      backlog := backlog } := by
  have hlist : s.accepted ++ [i] ++ backlog = s.accepted ++ s.backlog := by simp [hq]
  have hnew : i ∉ s.accepted := fun hmem =>
    (List.nodup_append.mp hi.nodup).2.2 i hmem i (by simp [hq]) rfl
  have hlater : ∀ j, j ∉ s.accepted ++ [i] ∨ some i = some j → j ∉ s.accepted := by
    rintro j (hj | hj)
    · exact fun hmem => hj (List.mem_append_left _ hmem)
    · exact Option.some.inj hj ▸ hnew
  refine ⟨hlist ▸ hi.nodup, fun j hj => hlist ▸ hi.fresh j hj, ?_, fun j hj => ?_, hi.unsent,
    fun j hj => hi.toServer j (.inl (hlater j (hj.imp_right fun h => h.1))),
    fun _ _ _ h => absurd h (by simp),
    fun j hj => hi.silent j (.inl (hlater j (hj.imp_right fun h => h.1))), hi.toClient,
    hi.printed⟩
  · rw [List.length_append]
    exact hroom
  · obtain rfl := Option.some.inj hj
    exact List.mem_append_right _ (List.mem_singleton_self _)

theorem Sessions.recv (hi : Sessions whole s) (hpc : s.server.pc = .recv)
    (hfd : s.clientSocketFd = some i) (hle : n ≤ min bufsize (s.toServer i).length)
    (hwhole : whole = true → n = min bufsize (s.toServer i).length) :
    Sessions whole { s with
      server := ⟨.send ((s.toServer i).take n) n, s.server.sent⟩
      toServer := Function.update s.toServer i ((s.toServer i).drop n) } := by
  have hpart := (hi.toServer i (.inr ⟨hfd, hpc⟩)).receive hle hwhole
  refine ⟨hi.nodup, hi.fresh, hi.room, hi.current, fun j hj => ?_, fun j hj => ?_,
    fun j buffer len hbuffer hj => ?_, fun j hj => ?_, hi.toClient, hi.printed⟩
  · by_cases hji : j = i
    · subst hji
      simp [hi.unsent j hj]
    · simp only [Function.update_of_ne hji]
      exact hi.unsent j hj
  · have hj' : j ∉ s.accepted := hj.resolve_right (by simp)
    have hji : j ≠ i := fun h => hj' (h ▸ hi.current i hfd)
    simp only [Function.update_of_ne hji]
    exact hi.toServer j (.inl hj')
  · obtain rfl := Option.some.inj (hfd.symm.trans hj)
    obtain ⟨rfl, rfl⟩ := EchoserverPc.send.inj hbuffer
    refine ⟨hpart, ?_⟩
    rw [List.length_take, Nat.min_eq_left (hle.trans (Nat.min_le_right _ _))]
  · exact hi.silent j (hj.imp_right fun h => ⟨h.1, .inl hpc⟩)

theorem Sessions.reply (hi : Sessions whole s) {buffer : Bytes} {recvMsgLen result : ℤ}
    {pc : EchoserverPc} {sent : List Bytes} (hpc : s.server.pc = .send buffer recvMsgLen)
    (hfd : s.clientSocketFd = some i) (hnext : pc = .accept ∨ pc = .exited 1)
    (hwhole : whole = true → result = recvMsgLen) :
    Sessions whole { s with
      server := ⟨pc, sent⟩
      toClient := Function.update s.toClient i
        (s.toClient i ++ (buffer.take recvMsgLen.toNat).take result.toNat) } := by
  obtain ⟨hpart, rfl⟩ := hi.buffer i buffer recvMsgLen hpc hfd
  obtain ⟨hnil, hsilent⟩ := hi.silent i (.inr ⟨hfd, .inr ⟨_, _, hpc⟩⟩)
  have hreply : Part whole (s.toClient i ++ (buffer.take buffer.length).take result.toNat)
      ((c.message i).take bufsize) := by
    rw [hnil, List.nil_append, List.take_length]
    exact hpart.take fun hw => by rw [hwhole hw, Int.toNat_natCast]
  have hdone : pc ≠ .recv ∧ ∀ buffer len, pc ≠ .send buffer len := by
    rcases hnext with rfl | rfl <;> simp
  have hlater : ∀ j, j ∉ s.accepted → j ≠ i := fun j hj h => hj (h ▸ hi.current i hfd)
  refine ⟨hi.nodup, hi.fresh, hi.room, hi.current, hi.unsent, fun j hj => ?_,
    fun j buffer len hbuffer => absurd hbuffer (hdone.2 buffer len), fun j hj => ?_, fun j hj => ?_,
    hi.printed⟩
  · exact hi.toServer j (.inl (hj.resolve_right fun h => hdone.1 h.2))
  · have hj' : j ∉ s.accepted := hj.resolve_right fun h => by
      rcases h.2 with h | ⟨buffer, len, h⟩
      · exact hdone.1 h
      · exact hdone.2 buffer len h
    simp only [Function.update_of_ne (hlater j hj')]
    exact hi.silent j (.inl hj')
  · by_cases hji : j = i
    · subst hji
      simp only [Function.update_self]
      exact hreply
    · simp only [Function.update_of_ne hji]
      exact hi.toClient j hj

theorem Sessions.next (hi : Sessions whole s) {e : Event c}
    (hok : whole = true → movesAll s e = true) (h : step c e s = some s') : Sessions whole s' := by
  cases step_steps h with
  | @connect i n hpc =>
    have hnew : i ∉ s.accepted ++ s.backlog := hi.fresh i hpc
    refine hi.client (i := i) rfl rfl rfl rfl ?_ (fun j hj hmem => ?_) (by simp) (fun _ _ => rfl)
      (fun _ => hi.unsent i (by rw [hpc]; rfl)) (hi.toServer i) (fun _ _ => rfl)
      (fun h => ⟨(hi.silent i h).1, by simp⟩) (fun _ => hi.toClient i (by simp [hpc])) (by simp)
    · simp only [State.goto, ← List.append_assoc]
      exact List.nodup_append.mpr ⟨hi.nodup, List.nodup_singleton i, fun a ha b hb => by
        rw [List.mem_singleton.mp hb]
        exact fun he => hnew (he ▸ ha)⟩
    · rcases List.mem_append.mp hmem with hmem | hmem
      · exact hmem
      · exact absurd (List.mem_singleton.mp hmem) hj
  | @send i n hpc hle =>
    refine hi.client (i := i) rfl rfl rfl rfl hi.nodup (fun _ _ => id) (by simp)
      (fun j hj => Function.update_of_ne hj _ _) (fun h => absurd h (by simp [ClientPc.sends]))
      (fun _ => ?_) (fun _ _ => rfl) (fun h => ⟨(hi.silent i h).1, by simp⟩)
      (fun _ => hi.toClient i (by simp [hpc])) (by simp)
    simp only [State.goto, Function.update_self]
    refine ⟨List.take_prefix _ _, fun hw => .inr ?_⟩
    have hall := hok hw
    simp only [movesAll, hpc, decide_eq_true_eq] at hall
    rw [hall, List.take_length]
  | @print i n hpc hpos hle =>
    have hpart := hi.toClient i (by simp [hpc])
    have hwhole : whole = true → n = min (bufsize - 1) (s.toClient i).length := fun hw => by
      simpa only [movesAll, hpc, decide_eq_true_eq] using hok hw
    have hout := hpart.receive hle hwhole
    rw [List.take_take, Nat.min_eq_left (Nat.sub_le _ _)] at hout
    have hstring : cstr ((s.toClient i).take n) = (s.toClient i).take n := cstr_eq_self fun h =>
      c.message_string i (List.mem_of_mem_take (hout.prefix_of.subset h))
    refine hi.client (i := i) rfl rfl rfl rfl hi.nodup (fun _ _ => id) (by simp) (fun _ _ => rfl)
      (fun h => absurd h (by simp [ClientPc.sends])) (hi.toServer i)
      (fun j hj => Function.update_of_ne hj _ _) (fun h => ?_) (fun h => absurd rfl (h _))
      fun out h => ?_
    · rw [(hi.silent i h).1] at hle
      simp at hle
      omega
    · obtain rfl := ClientPc.printed.inj h
      rw [hstring]
      refine ⟨fun hnil => ?_, hout⟩
      have := congrArg List.length hnil
      rw [List.length_take, List.length_nil] at this
      omega
  | @leave i hopen =>
    have hquiet : ∀ out, s.client i ≠ .printed out := fun out h => by
      simp [h, ClientPc.closed] at hopen
    exact hi.client (i := i) rfl rfl rfl rfl hi.nodup (fun _ _ => id) (by simp) (fun _ _ => rfl)
      (fun h => absurd h (by simp [ClientPc.sends])) (hi.toServer i) (fun _ _ => rfl)
      (fun h => ⟨(hi.silent i h).1, by simp⟩) (fun _ => hi.toClient i hquiet) (by simp)
  | noAccept => exact hi.exit _ _
  | accept hpc hq hroom => exact hi.accept hq hroom
  | noRecv => exact hi.exit _ _
  | recv hpc hfd hpos hle =>
    refine hi.recv hpc hfd hle fun hw => ?_
    have := hok hw
    simp only [movesAll, hpc, hfd, decide_eq_true_eq] at this
    exact Int.ofNat_inj.mp this
  | reply hpc hfd hle hnext =>
    refine hi.reply hpc hfd hnext fun hw => ?_
    simpa only [movesAll, hpc, hfd, decide_eq_true_eq] using hok hw

/-! ### A client that has sent nothing -/

/-- The server waits for the client `i`, or has exited. -/
structure Blocked (i : Fin c.nclients) (accepted : List (Fin c.nclients)) (s : State c) : Prop where
  accepted : s.accepted = accepted
  waits : s.server.pc = .recv ∧ s.clientSocketFd = some i ∧ s.toServer i = []
    ∨ s.server.pc = .exited 1
  sent : (s.client i).sends = false
  silent : s.toClient i = [] ∧ ∀ out, s.client i ≠ .printed out

/-- A step of a client, which leaves what the server has alone. -/
theorem Blocked.client {accepted : List (Fin c.nclients)} (hi : Blocked i accepted s)
    {j : Fin c.nclients} {pc : ClientPc} (hclient : s'.client = Function.update s.client j pc)
    (hserver : s'.server = s.server) (hfd : s'.clientSocketFd = s.clientSocketFd)
    (haccepted : s'.accepted = s.accepted)
    (htoServer : s'.toServer i = s.toServer i) (htoClient : s'.toClient i = s.toClient i)
    (hpc : j = i → pc.sends = false ∧ ∀ out, pc ≠ .printed out) : Blocked i accepted s' := by
  refine ⟨haccepted.trans hi.accepted, by rw [hserver, hfd, htoServer]; exact hi.waits, ?_,
    htoClient.trans hi.silent.1, ?_⟩
  · rw [hclient]
    by_cases hji : i = j
    · rw [hji, Function.update_self]
      exact (hpc hji.symm).1
    · rw [Function.update_of_ne hji]
      exact hi.sent
  · rw [hclient]
    by_cases hji : i = j
    · rw [hji, Function.update_self]
      exact (hpc hji.symm).2
    · rw [Function.update_of_ne hji]
      exact hi.silent.2

theorem Blocked.next {accepted : List (Fin c.nclients)} (hi : Blocked i accepted s) {e : Event c}
    (h : step c e s = some s') : Blocked i accepted s' := by
  have hsent := hi.sent
  cases step_steps h with
  | @connect j n hpc =>
    refine hi.client rfl rfl rfl rfl rfl rfl fun hji => ?_
    rw [← hji, hpc] at hsent
    cases hsent
  | @send j n hpc hle =>
    have hji : i ≠ j := fun hij => by
      rw [hij, hpc] at hsent
      cases hsent
    exact hi.client rfl rfl rfl rfl (Function.update_of_ne hji _ _) rfl fun h => absurd h.symm hji
  | @print j n hpc hpos hle =>
    have hji : i ≠ j := fun hij => by
      rw [← hij, hi.silent.1] at hle
      simp at hle
      omega
    exact hi.client rfl rfl rfl rfl rfl (Function.update_of_ne hji _ _) fun h => absurd h.symm hji
  | leave => exact hi.client rfl rfl rfl rfl rfl rfl fun _ => ⟨rfl, by simp⟩
  | noAccept hpc => rcases hi.waits with ⟨h, -⟩ | h <;> simp [hpc] at h
  | accept hpc => rcases hi.waits with ⟨h, -⟩ | h <;> simp [hpc] at h
  | noRecv => exact ⟨hi.accepted, .inr rfl, hi.sent, hi.silent⟩
  | recv hpc hfd hpos hle =>
    rcases hi.waits with ⟨-, hfd', hnil⟩ | h
    · obtain rfl := Option.some.inj (hfd.symm.trans hfd')
      rw [hnil] at hle
      simp at hle
      omega
    · simp [hpc] at h
  | reply hpc => rcases hi.waits with ⟨h, -⟩ | h <;> simp [hpc] at h

/-! ### Runs -/

theorem Sessions.accepted_of_printed (hi : Sessions whole s) {out : Bytes}
    (h : s.client i = .printed out) : i ∈ s.accepted := by
  by_contra hnot
  exact (hi.silent i (.inl hnot)).2 out h

/-- In every run a client prints a beginning of its own message or nothing, and all of it that
fits its buffer where the calls move all that there is; no more clients print anything than the
server has descriptors for; and once the server waits for a client from which nothing is on its
way, no client prints anything any more but those that it has answered. -/
theorem echoes
    (h : Trans.Reach (step c) (fun s e => whole = true → movesAll s e = true) (State.init c) s) :
    (∀ i out, s.client i = .printed out → out ≠ [] ∧ out <+: (c.message i).take (bufsize - 1)
        ∧ (whole = true → out = (c.message i).take (bufsize - 1)))
      ∧ {i | ∃ out, s.client i = .printed out}.ncard ≤ c.room
      ∧ ∀ i, s.server.pc = .recv → s.clientSocketFd = some i → s.toServer i = [] →
        (s.client i).sends = false → ∀ s', Trans.Reach (step c) (fun _ _ => True) s s' →
          s'.accepted = s.accepted
            ∧ ∀ j out, s'.client j = .printed out → j ∈ s.accepted ∧ j ≠ i := by
  have hi : Sessions whole s := h.invariant (sessions_init c) fun _ _ _ hi hok hstep =>
    hi.next hok hstep
  refine ⟨fun i out hout => ?_, ?_, fun i hpc hfd hnil hsent s' hs' => ?_⟩
  · obtain ⟨hne, hpart⟩ := hi.printed i out hout
    exact ⟨hne, hpart.prefix_of, fun hw => (hpart.all hw).resolve_left hne⟩
  · have hsub : {i | ∃ out, s.client i = .printed out} ⊆ (s.accepted.toFinset : Set _) := by
      rintro i ⟨out, hout⟩
      exact List.mem_toFinset.mpr (hi.accepted_of_printed hout)
    refine (Set.ncard_le_ncard hsub (Finset.finite_toSet _)).trans ?_
    rw [Set.ncard_coe_finset]
    exact (List.toFinset_card_le _).trans hi.room
  · have hblocked : Blocked i s.accepted s :=
      ⟨rfl, .inl ⟨hpc, hfd, hnil⟩, hsent, hi.silent i (.inr ⟨hfd, .inl hpc⟩)⟩
    have hboth : Sessions false s' ∧ Blocked i s.accepted s' := by
      refine hs'.invariant (I := fun s' => Sessions false s' ∧ Blocked i s.accepted s')
        ⟨?_, hblocked⟩ fun _ _ _ hinv _ hstep =>
          ⟨hinv.1.next (fun hw => absurd hw (by simp)) hstep, hinv.2.next hstep⟩
      exact h.invariant (sessions_init c) fun _ _ _ hinv _ hstep =>
        hinv.next (fun hw => absurd hw (by simp)) hstep
    obtain ⟨hsessions, hstays⟩ := hboth
    refine ⟨hstays.accepted, fun j out hout => ⟨?_, fun hji => ?_⟩⟩
    · exact hstays.accepted ▸ hsessions.accepted_of_printed hout
    · exact hstays.silent.2 out (hji ▸ hout)

/-- A client that sends two bytes and one that sends none. -/
def hiAndNothing : Config where
  nclients := 2
  message := fun i => if i.val = 0 then ascii "hi" else []
  room := 3
  message_string := fun i => by
    split_ifs <;> decide

/-- The first client prints its message, and the server waits for the second one. -/
theorem echoes_hiAndNothing : ∃ s : State hiAndNothing, s.server.pc = .recv
    ∧ s.client ⟨0, Nat.two_pos⟩ = .printed (ascii "hi")
    ∧ ∀ s', Trans.Reach (step hiAndNothing) (fun _ _ => True) s s' →
      ∀ out, s'.client ⟨1, Nat.one_lt_two⟩ ≠ .printed out := by
  have hrun : ((Trans.exec (step hiAndNothing) movesAll
      [.client ⟨0, Nat.two_pos⟩ 0, .client ⟨0, Nat.two_pos⟩ 2, .server 5, .server 2, .server 2,
        .client ⟨0, Nat.two_pos⟩ 2, .client ⟨1, Nat.one_lt_two⟩ 0, .client ⟨1, Nat.one_lt_two⟩ 0,
        .server 6] (State.init hiAndNothing)).any fun s =>
      decide (s.server.pc = .recv) && decide (s.clientSocketFd = some ⟨1, Nat.one_lt_two⟩)
        && decide (s.toServer ⟨1, Nat.one_lt_two⟩ = [])
        && decide ((s.client ⟨1, Nat.one_lt_two⟩).sends = false)
        && decide (s.client ⟨0, Nat.two_pos⟩ = .printed (ascii "hi"))) = true := by
    decide +kernel
  obtain ⟨s, hs, hat⟩ := (Option.any_eq_true _ _).mp hrun
  simp only [Bool.and_eq_true, decide_eq_true_eq] at hat
  obtain ⟨⟨⟨⟨hpc, hfd⟩, hnil⟩, hsent⟩, hprinted⟩ := hat
  have hreach : Trans.Reach (step hiAndNothing) (fun s e => true = true → movesAll s e = true)
      (State.init hiAndNothing) s := .exec (fun _ _ h _ => h) _ .refl hs
  obtain ⟨-, -, hblocked⟩ := echoes hreach
  refine ⟨s, hpc, hprinted, fun s' hs' out hout => ?_⟩
  exact ((hblocked _ hpc hfd hnil hsent s' hs').2 _ out hout).2 rfl

end FileServices.Echo
