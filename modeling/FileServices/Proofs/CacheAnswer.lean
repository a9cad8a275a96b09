import FileServices.Proofs.CacheProxy

/-!
# What a client is sent

The client of a request is sent the header and the bytes of the file that the table of the cache
has for its path, or the header that says that there is none.
-/

namespace FileServices.Cache

open CString Handoff

variable {c : Config} {s s' : State c} {i : Fin c.nproxies} {ph : Fin c.nsegments → Phase c}
  {r : ℕ} {ret : ℤ}

/-- The client has been sent the header and the first `n` bytes of the file. -/
def Partly (c : Config) (r n : ℕ) (log : List Sent) : Prop :=
  ∃ (content : Bytes) (chunks : List Bytes), c.answer r = some content ∧ n ≤ content.length
    ∧ chunks.flatten = content.take n ∧ log = .header gfOk content.length :: chunks.map .data

/-- The client has been sent one header, then exactly the bytes of the file, if there is one, and
then the handler has returned. -/
def Answered (c : Config) (r : ℕ) (log : List Sent) : Prop :=
  match c.answer r with
  | some content => ∃ chunks : List Bytes, chunks.flatten = content
    ∧ log = .header gfOk content.length :: chunks.map .data
      ++ [.returned ((content.length : ℤ).bmod (2 ^ 32))]
  | none => ∃ value, log = [.header gfFileNotFound 0, .returned value]

/-- What the client of the request has been sent where its handler stands. -/
def Told (c : Config) (r : ℕ) (log : List Sent) : ProxyPc c.nsegments → Prop
  | .loop _ n | .waitProxysem _ n | .load _ n | .send _ n _ | .postCachesem _ n => Partly c r n log
  | .queue _ (.sent n) _ => Partly c r n log ∧ ∀ content, c.answer r = some content →
    n = content.length
  | .queue _ .notFound _ | .notFound => c.answer r = none ∧ log = []
  | _ => log = []

structure Log (s : State c) : Prop where
  told : ∀ i, (s.proxy i).pc ≠ .idle →
    Told c (s.proxy i).request (s.sent (s.proxy i).request) (s.proxy i).pc
  distinct : ∀ i i', (s.proxy i).pc ≠ .idle → (s.proxy i').pc ≠ .idle →
    (s.proxy i).request = (s.proxy i').request → i = i'
  taken : ∀ i, (s.proxy i).pc ≠ .idle → (s.proxy i).request < s.next
  answered : ∀ r < s.next, (∀ i, (s.proxy i).pc ≠ .idle → (s.proxy i).request ≠ r) →
    Answered c r (s.sent r)
  untouched : ∀ r, s.next ≤ r → s.sent r = []
  next_le : s.next ≤ c.paths.length

theorem log_init (c : Config) : Log (State.init c) where
  told := fun _ h => absurd rfl h
  distinct := fun _ _ h => absurd rfl h
  taken := fun _ h => absurd rfl h
  answered := fun r h => absurd h (Nat.not_lt_zero r)
  untouched := fun _ _ => rfl
  next_le := Nat.zero_le _

/-- Thread `i` is handed the next request. -/
theorem Log.accept (hi : Log s) (hpc : (s.proxy i).pc = .idle) (hlt : s.next < c.paths.length)
    (hproxy : s'.proxy = Function.update s.proxy i ⟨s.next, .lock⟩) (hnext : s'.next = s.next + 1)
    (hsent : s'.sent = s.sent) : Log s' := by
  have hother : ∀ i', i' ≠ i → s'.proxy i' = s.proxy i' := fun i' h => by
    rw [hproxy, Function.update_of_ne h]
  have hnew : s'.proxy i = ⟨s.next, .lock⟩ := by rw [hproxy, Function.update_self]
  -- the request is one that no other thread has
  have hfresh : ∀ i', i' ≠ i → (s.proxy i').pc ≠ .idle → (s.proxy i').request ≠ s.next :=
    fun i' _ hbusy he => (hi.taken i' hbusy).ne he
  refine ⟨fun i' hbusy => ?_, fun i₁ i₂ h₁ h₂ he => ?_, fun i' hbusy => ?_, fun r hr hnone => ?_,
    fun r hr => ?_, by omega⟩
  · by_cases h : i' = i
    · rw [h, hnew, hsent]
      exact hi.untouched _ le_rfl
    · rw [hother i' h] at hbusy ⊢
      exact hsent ▸ hi.told i' hbusy
  · by_cases h : i₁ = i <;> by_cases h' : i₂ = i
    · rw [h, h']
    · rw [h, hnew] at he
      rw [hother i₂ h'] at h₂ he
      exact absurd he.symm (hfresh i₂ h' h₂)
    · rw [h', hnew] at he
      rw [hother i₁ h] at h₁ he
      exact absurd he (hfresh i₁ h h₁)
    · rw [hother i₁ h] at h₁ he
      rw [hother i₂ h'] at h₂ he
      exact hi.distinct i₁ i₂ h₁ h₂ he
  · by_cases h : i' = i
    · rw [h, hnew, hnext]
      exact Nat.lt_succ_self _
    · rw [hother i' h] at hbusy ⊢
      rw [hnext]
      exact (hi.taken i' hbusy).trans (Nat.lt_succ_self _)
  · rw [hnext] at hr
    have hne : r ≠ s.next := fun he => hnone i (by rw [hnew]; nofun) (by rw [hnew]; exact he.symm)
    rw [hsent]
    refine hi.answered r (by omega) fun i' hbusy => ?_
    by_cases h : i' = i
    · rw [h, hpc] at hbusy
      exact absurd rfl hbusy
    · rw [← hother i' h] at hbusy ⊢
      exact hnone i' hbusy
  · rw [hsent]
    exact hi.untouched r (by omega)

/-- Thread `i` takes a step in handling its request. -/
theorem Log.move (hi : Log s) {pc' : ProxyPc c.nsegments} {log : List Sent}
    (hbusy : (s.proxy i).pc ≠ .idle)
    (hproxy : s'.proxy = Function.update s.proxy i { s.proxy i with pc := pc' })
    (hnext : s'.next = s.next)
    (hsent : s'.sent = Function.update s.sent (s.proxy i).request log)
    (htold : pc' ≠ .idle → Told c (s.proxy i).request log pc')
    (hdone : pc' = .idle → Answered c (s.proxy i).request log) : Log s' := by
  have hother : ∀ i', i' ≠ i → s'.proxy i' = s.proxy i' := fun i' h => by
    rw [hproxy, Function.update_of_ne h]
  have hnew : s'.proxy i = { s.proxy i with pc := pc' } := by rw [hproxy, Function.update_self]
  have hreq : ∀ i', (s'.proxy i').request = (s.proxy i').request := fun i' => by
    by_cases h : i' = i
    · rw [h, hnew]
    · rw [hother i' h]
  have hwas : ∀ i', (s'.proxy i').pc ≠ .idle → (s.proxy i').pc ≠ .idle := fun i' h' => by
    by_cases h : i' = i
    · exact h ▸ hbusy
    · rwa [← hother i' h]
  have hlog : ∀ r, r ≠ (s.proxy i).request → s'.sent r = s.sent r := fun r h => by
    rw [hsent, Function.update_of_ne h]
  refine ⟨fun i' hbusy' => ?_, fun i₁ i₂ h₁ h₂ he => ?_, fun i' hbusy' => ?_, fun r hr hnone => ?_,
    fun r hr => ?_, hnext ▸ hi.next_le⟩
  · rw [hreq]
    by_cases h : i' = i
    · subst h
      rw [hnew] at hbusy' ⊢
      rw [hsent, Function.update_self]
      exact htold hbusy'
    · rw [hlog _ fun he => h (hi.distinct i' i (hwas i' hbusy') hbusy he)]
      rw [hother i' h] at hbusy' ⊢
      exact hi.told i' hbusy'
  · rw [hreq, hreq] at he
    exact hi.distinct i₁ i₂ (hwas i₁ h₁) (hwas i₂ h₂) he
  · rw [hreq, hnext]
    exact hi.taken i' (hwas i' hbusy')
  · by_cases h : r = (s.proxy i).request
    · subst h
      have hidle : pc' = .idle := by
        by_contra hpc'
        exact hnone i (by rw [hnew]; exact hpc') (hreq i)
      rw [hsent, Function.update_self]
      exact hdone hidle
    · rw [hlog r h]
      refine hi.answered r (hnext ▸ hr) fun i' hbusy' => ?_
      by_cases hii : i' = i
      · exact hii ▸ fun he => h he.symm
      · rw [← hreq]
        exact hnone i' (by rwa [hother i' hii])
  · rw [hlog r, hi.untouched r (hnext ▸ hr)]
    rintro rfl
    have := hi.taken i hbusy
    omega

/-- A step that sends nothing. -/
theorem Log.pass (hi : Log s) {pc pc' : ProxyPc c.nsegments} (hpc : (s.proxy i).pc = pc)
    (hproxy : s'.proxy = Function.update s.proxy i { s.proxy i with pc := pc' })
    (hbusy : pc ≠ .idle) (hbusy' : pc' ≠ .idle) (hnext : s'.next = s.next)
    (hsent : s'.sent = s.sent)
    (htold : ∀ log, Told c (s.proxy i).request log pc → Told c (s.proxy i).request log pc') :
    Log s' :=
  hi.move (hpc ▸ hbusy) hproxy hnext (by rw [hsent, Function.update_eq_self])
    (fun _ => htold _ (hpc ▸ hi.told i (hpc ▸ hbusy))) fun h => absurd h hbusy'

/-! ### The steps -/

theorem Partly.header {content : Bytes} (h : c.answer r = some content) :
    Partly c r 0 [.header gfOk content.length] :=
  ⟨content, [], h, Nat.zero_le _, by simp, rfl⟩

theorem Partly.append {n len : ℕ} {content buf : Bytes} {log : List Sent} (h : Partly c r n log)
    (hans : c.answer r = some content) (hchunk : Chunk content n len buf) :
    Partly c r (n + len) (log ++ [.data (buf.take len)]) := by
  obtain ⟨content', chunks, hans', -, hflat, rfl⟩ := h
  obtain rfl := Option.some.inj (hans'.symm.trans hans)
  refine ⟨content', chunks ++ [buf.take len], hans, hchunk.fits, ?_, by simp⟩
  rw [List.flatten_append, hflat, List.flatten_singleton, hchunk.append]

theorem Partly.answered {n : ℕ} {log : List Sent} (h : Partly c r n log)
    (hend : ∀ content, c.answer r = some content → n = content.length) :
    Answered c r (log ++ [.returned ((n : ℤ).bmod (2 ^ 32))]) := by
  obtain ⟨content, chunks, hans, -, hflat, rfl⟩ := h
  obtain rfl := hend content hans
  rw [List.take_length] at hflat
  unfold Answered
  rw [hans]
  exact ⟨chunks, hflat, by simp⟩

/-- A thread that sends a chunk sends what comes next in the file, and sends all of it. -/
theorem Seats.sending (hi : Seats false s ph) (hsend : SendsLast false s i ret)
    {g : Fin c.nsegments} {n len : ℕ} (hpc : (s.proxy i).pc = .send g n len) : ret = len
      ∧ ∃ content, c.answer (s.proxy i).request = some content
        ∧ Chunk content n len (s.seg g).data := by
  obtain ⟨content, w, hans, hses, -⟩ := hi.session hpc rfl rfl
  have hchunk := (hses.token_of rfl).chunk
  rw [← hses.loaded g n len rfl] at hchunk
  exact ⟨(hsend g n len hpc).resolve_right (by simp), content, hans, hchunk⟩

theorem Log.handleWithCache (hi : Log s) (hseats : Seats false s ph)
    (hsend : SendsLast false s i ret) (h : handleWithCache i ret s = some s') : Log s' := by
  have htold := hi.told i
  obtain ⟨pc, hpc, hstep⟩ := handleWithCache_cases h
  rw [hpc] at htold
  cases hstep with
  | idle hlt => exact hi.accept hpc hlt rfl rfl rfl
  | missing g hstatus =>
    rcases hseats.status_told hpc with ⟨-, hans, -⟩ | hst
    · exact hi.pass hpc rfl (by simp) (by simp) rfl rfl fun _ h => ⟨hans, h⟩
    · exact absurd (hst.symm.trans hstatus) (by decide)
  | untold g hfound hmissing =>
    rcases hseats.status_told hpc with ⟨hst, -⟩ | hst
    · exact absurd hst hmissing
    · exact absurd hst hfound
  | header g =>
    obtain ⟨content, w, hans, hses, -⟩ := hseats.session hpc rfl rfl
    refine hi.move (by simp [hpc]) rfl rfl rfl (fun _ => ?_) (by simp)
    rw [htold (by simp), hses.filesize]
    exact Partly.header hans
  | done g n hle =>
    obtain ⟨content, w, hans, hses, -⟩ := hseats.session hpc rfl rfl
    refine hi.pass hpc rfl (by simp) (by simp) rfl rfl fun log hpartly =>
      ⟨hpartly, fun content' hans' => ?_⟩
    obtain ⟨content'', chunks, hans'', hle', -⟩ := hpartly
    obtain rfl := Option.some.inj (hans'.symm.trans hans'')
    obtain rfl := Option.some.inj (hans'.symm.trans hans)
    have := hses.filesize
    omega
  | failed g n len hret =>
    obtain ⟨rfl, content, hans, hchunk⟩ := hseats.sending hsend hpc
    have hpos := hchunk.pos
    have hfits := hchunk.fits
    have hcontent := c.answer_lt hans
    rw [size_natCast (by omega)] at hret
    omega
  | send g n len hret =>
    obtain ⟨rfl, content, hans, hchunk⟩ := hseats.sending hsend hpc
    have hfits := hchunk.fits
    have hcontent := c.answer_lt hans
    rw [size_natCast (by omega), Nat.mod_eq_of_lt (by omega), Int.toNat_natCast, List.take_take,
      min_self]
    exact hi.move (by simp [hpc]) rfl rfl rfl (fun _ => (htold (by simp)).append hans hchunk)
      (by simp)
  | resetReadLen g branch | resetFilesize g branch | queueLock g branch | enqueue g branch
  | queueUnlock g branch =>
    exact hi.pass hpc rfl (by simp) (by simp) rfl rfl fun log h => by cases branch <;> exact h
  | sent g n =>
    exact hi.move (by simp [hpc]) rfl rfl rfl (fun h => absurd rfl h)
      fun _ => (htold (by simp)).1.answered (htold (by simp)).2
  | notFound =>
    refine hi.move (by simp [hpc]) rfl rfl
      (by simp [State.finish, State.tell, State.goto]; rfl) (fun h => absurd rfl h) fun _ => ?_
    unfold Answered
    rw [(htold (by simp)).1, (htold (by simp)).2]
    exact ⟨_, rfl⟩
  -- the others send nothing
  | _ => exact hi.pass hpc rfl (by simp) (by simp) rfl rfl fun _ => id

theorem Log.same (hi : Log s) (hproxy : s'.proxy = s.proxy) (hnext : s'.next = s.next)
    (hsent : s'.sent = s.sent) : Log s' := by
  obtain ⟨htold, hdistinct, htaken, hanswered, huntouched, hle⟩ := hi
  exact ⟨by rwa [hproxy, hsent], by rwa [hproxy], by rwa [hproxy, hnext],
    by rwa [hproxy, hnext, hsent], by rwa [hnext, hsent], by rwa [hnext]⟩

end FileServices.Cache
