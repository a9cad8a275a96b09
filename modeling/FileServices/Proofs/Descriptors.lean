import FileServices.Descriptors

/-!
# What every request leaves open

No call closes the descriptor it has opened or takes its mapping away again, so the tables are as
they were only until a first call returns, and serve no more calls than there is room for.
-/

namespace FileServices.Descriptors

open CString SendResponse

variable {ι : Type*} [DecidableEq ι] {fds₀ maps₀ : List Bool} {p p' : Process} {t : Table Holder}
  {call fd opens mmaps : ℕ} {shmfd : Option ℕ}

/-- What the calls that are under way hold. -/
def Process.underWay (p : Process) : Holder → Bool
  | .before => false
  | .call n => n ∉ p.returned

/-- Apart from what calls that are under way hold, the process holds what it held before it
served anything, and no call has come to the limit of a table. -/
structure Process.Bounded (fds₀ maps₀ : List Bool) (p : Process) : Prop where
  fds : p.fds.less p.underWay = initially fds₀
  maps : p.maps.less p.underWay = initially maps₀
  failed : p.failed = false

/-! ### The tables -/

theorem open_cases (p : Process) (call : ℕ) :
    p.fds.room = 0 ∧ p.open call = (none, { p with failed := true })
    ∨ ∃ fd t, p.fds.take (.call call) = some (fd, t)
      ∧ p.open call = (some fd, { p with fds := t }) := by
  unfold Process.open
  rcases htake : p.fds.take (.call call) with _ | ⟨fd, t⟩
  · exact .inl ⟨Table.take_eq_none.mp htake, rfl⟩
  · exact .inr ⟨fd, t, rfl, rfl⟩

theorem mmap_cases (p : Process) (call : ℕ) (shmfd : Option ℕ) :
    (shmfd = none ∨ p.maps.room = 0) ∧ p.mmap call shmfd = (none, { p with failed := true })
      ∨ shmfd.isSome ∧ ∃ place t, p.maps.take (.call call) = some (place, t)
        ∧ p.mmap call shmfd = (some place, { p with maps := t }) := by
  unfold Process.mmap
  rcases shmfd with _ | fd
  · exact .inl ⟨.inl rfl, rfl⟩
  · rcases htake : p.maps.take (.call call) with _ | ⟨place, t⟩
    · exact .inl ⟨.inr (Table.take_eq_none.mp htake), rfl⟩
    · exact .inr ⟨rfl, place, t, rfl, rfl⟩

/-- The process after so many calls for a descriptor and so many for a mapping. -/
structure Process.Grown (fds₀ maps₀ : List Bool) (opens mmaps : ℕ) (p : Process) : Prop where
  fds : p.fds.less Holder.isCall = initially fds₀
  maps : p.maps.less Holder.isCall = initially maps₀
  fdsRoom : p.fds.room = (initially fds₀).room - opens
  mapsRoom : p.failed = false → p.maps.room + mmaps = (initially maps₀).room
  failed : p.failed = true ↔ (initially fds₀).room < opens ∨ (initially maps₀).room < mmaps

theorem less_initially (taken : List Bool) :
    (initially taken).less Holder.isCall = initially taken := by
  simp only [Table.less, initially, List.map_map, Table.mk.injEq]
  refine List.map_congr_left fun b _ => ?_
  cases b <;> rfl

theorem Process.Grown.of_eq (hp : p.Grown fds₀ maps₀ opens mmaps) (hfds : p'.fds = p.fds)
    (hmaps : p'.maps = p.maps) (hfailed : p'.failed = p.failed) :
    p'.Grown fds₀ maps₀ opens mmaps where
  fds := hfds ▸ hp.fds
  maps := hmaps ▸ hp.maps
  fdsRoom := hfds ▸ hp.fdsRoom
  mapsRoom := by rw [hfailed, hmaps]; exact hp.mapsRoom
  failed := by rw [hfailed]; exact hp.failed

theorem init_grown : (Process.init fds₀ maps₀).Grown fds₀ maps₀ 0 0 where
  fds := less_initially fds₀
  maps := less_initially maps₀
  fdsRoom := rfl
  mapsRoom := fun _ => rfl
  failed := by simp [Process.init]

section Grown

variable (hp : p.Grown fds₀ maps₀ opens mmaps)
include hp

theorem Process.Grown.open_fails (hroom : p.fds.room = 0) :
    { p with failed := true }.Grown fds₀ maps₀ (opens + 1) mmaps := by
  have hfds := hp.fdsRoom
  exact ⟨hp.fds, hp.maps, by simp only; omega, nofun,
    iff_of_true rfl (.inl (by omega))⟩

theorem Process.Grown.open_takes (htake : p.fds.take (.call call) = some (fd, t)) :
    { p with fds := t }.Grown fds₀ maps₀ (opens + 1) mmaps := by
  have hfds := hp.fdsRoom
  have hroom := Table.room_take htake
  exact ⟨(Table.less_take rfl htake).trans hp.fds, hp.maps, by simp only; omega, hp.mapsRoom,
    hp.failed.trans (by omega)⟩

theorem Process.Grown.mmap_fails (hroom : p.failed = true ∨ p.maps.room = 0) :
    { p with failed := true }.Grown fds₀ maps₀ opens (mmaps + 1) := by
  refine ⟨hp.fds, hp.maps, hp.fdsRoom, nofun, iff_of_true rfl ?_⟩
  rcases hfailed : p.failed with _ | _
  · have hmaps := hp.mapsRoom hfailed
    rw [hfailed] at hroom
    exact .inr (by simp at hroom; omega)
  · exact (hp.failed.mp hfailed).imp_right fun h => h.trans_le (Nat.le_succ _)

theorem Process.Grown.mmap_takes (htake : p.maps.take (.call call) = some (fd, t)) :
    { p with maps := t }.Grown fds₀ maps₀ opens (mmaps + 1) := by
  have hroom := Table.room_take htake
  have hmaps : p.failed = false → t.room + (mmaps + 1) = (initially maps₀).room := fun h => by
    have := hp.mapsRoom h
    omega
  refine ⟨hp.fds, (Table.less_take rfl htake).trans hp.maps, hp.fdsRoom, hmaps, fun h => ?_,
    fun h => ?_⟩
  · exact (hp.failed.mp h).imp_right fun h => h.trans_le (Nat.le_succ _)
  · by_contra hfailed
    have hno := mt hp.failed.mpr hfailed
    have := hmaps (Bool.eq_false_of_not_eq_true hfailed)
    omega

end Grown

/-- What a process holds, and a failure, it does not lose again. -/
structure Process.Keeps (p p' : Process) : Prop where
  fds : ∀ holder, p.fds.Holds holder → p'.fds.Holds holder
  maps : ∀ holder, p.maps.Holds holder → p'.maps.Holds holder
  failed : p.failed = true → p'.failed = true

theorem keeps_of_eq (hfds : p'.fds = p.fds) (hmaps : p'.maps = p.maps)
    (hfailed : p'.failed = p.failed) : p.Keeps p' :=
  ⟨fun _ h => hfds ▸ h, fun _ h => hmaps ▸ h, fun h => hfailed ▸ h⟩

theorem Process.Keeps.trans {q : Process} (h : p.Keeps q) (h' : q.Keeps p') : p.Keeps p' :=
  ⟨fun _ hp => h'.fds _ (h.fds _ hp), fun _ hp => h'.maps _ (h.maps _ hp),
    fun hp => h'.failed (h.failed hp)⟩

theorem keeps_failed : p.Keeps { p with failed := true } := ⟨fun _ => id, fun _ => id, fun _ => rfl⟩

theorem keeps_fds (htake : p.fds.take (.call call) = some (fd, t)) :
    p.Keeps { p with fds := t } :=
  ⟨fun _ h => (Table.holds_take htake).mpr (.inr h), fun _ => id, id⟩

theorem keeps_maps (htake : p.maps.take (.call call) = some (fd, t)) :
    p.Keeps { p with maps := t } :=
  ⟨fun _ => id, fun _ h => (Table.holds_take htake).mpr (.inr h), id⟩

/-! ### The cache -/

def WorkerEvent.isOpen : WorkerEvent → Bool
  | .shmOpen _ _ => true
  | _ => false

def WorkerEvent.isMmap : WorkerEvent → Bool
  | .mmap _ _ => true
  | _ => false

/-- The call has a descriptor and a mapping. -/
def Process.Mapped (p : Process) (call : ℕ) : Prop :=
  p.fds.Holds (.call call) ∧ p.maps.Holds (.call call)

theorem Process.Mapped.mono (h : p.Keeps p') (hcall : p.Mapped call) : p'.Mapped call :=
  ⟨h.fds _ hcall.1, h.maps _ hcall.2⟩

/-- What a call that is under way has opened and mapped so far. -/
def WorkerPc.Opened (p : Process) : WorkerPc → Prop
  | .receive => True
  | .mmap _ _ _ none => p.failed = true
  | .mmap call _ _ (some _) => p.fds.Holds (.call call)
  | .copy call _ _ _ => p.Mapped call

theorem WorkerPc.Opened.mono {pc : WorkerPc} (h : p.Keeps p') (hpc : pc.Opened p) :
    pc.Opened p' := by
  cases pc with
  | receive => trivial
  | mmap call fildes segsize shmfd =>
    cases shmfd with
    | none => exact h.failed hpc
    | some fd => exact h.fds _ hpc
  | copy call segsize filsize s => exact Process.Mapped.mono h hpc

/-- A call that has returned still holds a descriptor and a mapping. -/
def Process.Leaks (p : Process) : Prop := ∀ n ∈ p.returned, p.Mapped n

theorem Process.Leaks.keeps (h : p.Leaks) (hkeeps : p.Keeps p') (hret : p'.returned = p.returned) :
    p'.Leaks := fun n hn => by
  rw [hret] at hn
  exact (h n hn).mono hkeeps

theorem Process.Leaks.finish (h : p.Leaks) (hcall : p.Mapped call) : (p.finish call).Leaks := by
  intro n hn
  rcases List.mem_append.mp hn with hn | hn
  · exact h n hn
  · rw [List.mem_singleton.mp hn]
    exact hcall

/-- What a step of a worker leaves. -/
structure WorkerStep (fds₀ maps₀ : List Bool) (opens mmaps : ℕ) (p p' : Process)
    (pc' : WorkerPc) : Prop where
  grown : p'.Grown fds₀ maps₀ opens mmaps
  keeps : p.Keeps p'
  leaks : p'.Leaks
  opened : pc'.Opened p'

theorem WorkerStep.after {q : Process} {pc : WorkerPc} (hkeeps : p.Keeps q)
    (h : WorkerStep fds₀ maps₀ opens mmaps q p' pc) : WorkerStep fds₀ maps₀ opens mmaps p p' pc :=
  ⟨h.grown, hkeeps.trans h.keeps, h.leaks, h.opened⟩

section Worker

variable {segsize filsize : ℕ} {pc pc' : WorkerPc} {e : WorkerEvent}
  (hp : p.Grown fds₀ maps₀ opens mmaps) (hleaks : p.Leaks)
include hp hleaks

theorem finish_step (hcall : p.Mapped call) :
    WorkerStep fds₀ maps₀ opens mmaps p (p.finish call) .receive :=
  ⟨hp.of_eq rfl rfl rfl, keeps_of_eq rfl rfl rfl, hleaks.finish hcall, trivial⟩

theorem crash_step (hpc : pc.Opened p) :
    WorkerStep fds₀ maps₀ opens mmaps p { p with crashed := true } pc :=
  have hkeeps : p.Keeps { p with crashed := true } := keeps_of_eq rfl rfl rfl
  ⟨hp.of_eq rfl rfl rfl, hkeeps, hleaks.keeps hkeeps rfl, hpc.mono hkeeps⟩

theorem copyFile_step {s : Copying} (hcall : p.Mapped call)
    (h : copyFile p call segsize filsize s = (p', pc')) :
    WorkerStep fds₀ maps₀ opens mmaps p p' pc' := by
  unfold copyFile at h
  cases hhead : copyHead filsize s with
  | none =>
    simp only [hhead, Prod.mk.injEq] at h
    obtain ⟨rfl, rfl⟩ := h
    exact ⟨hp, keeps_of_eq rfl rfl rfl, hleaks, hcall⟩
  | some l =>
    simp only [hhead, Prod.mk.injEq] at h
    obtain ⟨rfl, rfl⟩ := h
    exact finish_step hp hleaks hcall

theorem shmOpen_step (fildes : ℤ) (segsize : ℕ) :
    WorkerStep fds₀ maps₀ (opens + 1) mmaps p ({ p with next := p.next + 1 }.open call).2
      (.mmap call fildes segsize ({ p with next := p.next + 1 }.open call).1) := by
  have hp' : Process.Grown fds₀ maps₀ opens mmaps { p with next := p.next + 1 } :=
    hp.of_eq rfl rfl rfl
  have hkeeps : p.Keeps { p with next := p.next + 1 } := keeps_of_eq rfl rfl rfl
  refine WorkerStep.after hkeeps ?_
  have hleaks' := hleaks.keeps hkeeps rfl
  rcases open_cases { p with next := p.next + 1 } call with ⟨hroom, hopen⟩ | ⟨fd, t, htake, hopen⟩
  · rw [hopen]
    exact ⟨hp'.open_fails hroom, keeps_failed, hleaks'.keeps keeps_failed rfl, rfl⟩
  · rw [hopen]
    exact ⟨hp'.open_takes htake, keeps_fds htake, hleaks'.keeps (keeps_fds htake) rfl,
      (Table.holds_take htake).mpr (.inl rfl)⟩

theorem mmap_step {fildes : ℤ} {data : Bytes} (hcrashed : p.crashed = false)
    (hpc : (WorkerPc.mmap call fildes segsize shmfd).Opened p)
    (h : sendResponse p (.mmap call fildes segsize shmfd) (.mmap filsize data) = some (p', pc')) :
    WorkerStep fds₀ maps₀ opens (mmaps + 1) p p' pc' := by
  rw [sendResponse, if_neg (by simp [hcrashed])] at h
  rcases mmap_cases p call shmfd with ⟨hfails, hmmap⟩ | ⟨hshm, place, t, htake, hmmap⟩
  · simp only [hmmap, Option.some.injEq, Prod.mk.injEq] at h
    obtain ⟨rfl, rfl⟩ := h
    have hfull : p.failed = true ∨ p.maps.room = 0 := hfails.imp_left fun hnone => by
      subst hnone
      exact hpc
    exact .after keeps_failed (crash_step (hp.mmap_fails hfull) (hleaks.keeps keeps_failed rfl)
      (hpc.mono keeps_failed))
  · obtain ⟨fd, rfl⟩ := Option.isSome_iff_exists.mp hshm
    have hkeeps := keeps_maps htake
    have hgrown := hp.mmap_takes htake
    have hleaks' : Process.Leaks { p with maps := t } := hleaks.keeps hkeeps rfl
    have hcall : t.Holds (.call call) := (Table.holds_take htake).mpr (.inl rfl)
    simp only [hmmap] at h
    split_ifs at h with hfildes
    · obtain ⟨rfl, rfl⟩ := Prod.mk.inj (Option.some.inj h)
      exact .after hkeeps (finish_step hgrown hleaks' ⟨hpc, hcall⟩)
    · exact .after hkeeps (copyFile_step hgrown hleaks' ⟨hpc, hcall⟩ (Option.some.inj h))

theorem pread_step {s : Copying} {read : Option Bytes} (hcrashed : p.crashed = false)
    (hcall : p.Mapped call)
    (h : sendResponse p (.copy call segsize filsize s) (.pread read) = some (p', pc')) :
    WorkerStep fds₀ maps₀ opens mmaps p p' pc' := by
  rw [sendResponse, if_neg (by simp [hcrashed])] at h
  rcases hbody : copyBody segsize s read with s' | ⟨ending, s'⟩
  · simp only [hbody, Option.some.injEq] at h
    exact copyFile_step hp hleaks hcall h
  · cases ending with
    | crashed =>
      simp only [hbody, Option.some.injEq, Prod.mk.injEq] at h
      obtain ⟨rfl, rfl⟩ := h
      exact crash_step hp hleaks hcall
    | finished | failed =>
      simp only [hbody, Option.some.injEq, Prod.mk.injEq] at h
      obtain ⟨rfl, rfl⟩ := h
      exact finish_step hp hleaks hcall

/-- A step of a worker, where the counts go up with its calls for a descriptor or a mapping. -/
theorem sendResponse_step (hpc : pc.Opened p) (h : sendResponse p pc e = some (p', pc')) :
    WorkerStep fds₀ maps₀ (opens + e.isOpen.toNat) (mmaps + e.isMmap.toNat) p p' pc' := by
  have hcrashed : p.crashed = false := by
    by_contra hcrashed
    simp [sendResponse, hcrashed] at h
  cases pc with
  | receive =>
    cases e with
    | shmOpen fildes segsize =>
      rw [sendResponse, if_neg (by simp [hcrashed])] at h
      obtain ⟨rfl, rfl⟩ := Prod.mk.inj (Option.some.inj h)
      exact shmOpen_step hp hleaks fildes segsize
    | mmap filsize data | pread read => simp [sendResponse, hcrashed] at h
  | mmap call fildes segsize shmfd =>
    cases e with
    | mmap filsize data => exact mmap_step hp hleaks hcrashed hpc h
    | shmOpen fildes segsize | pread read => simp [sendResponse, hcrashed] at h
  | copy call segsize filsize s =>
    cases e with
    | pread read => exact pread_step hp hleaks hcrashed hpc h
    | shmOpen fildes segsize | mmap filsize data => simp [sendResponse, hcrashed] at h

end Worker

/-- How many steps of a run meet the test. -/
def steps {α : Type*} (test : α → Bool) (es : List (ι × α)) : ℕ := es.countP fun e => test e.2

omit [DecidableEq ι] in
theorem steps_append {α : Type*} (test : α → Bool) (es : List (ι × α)) (i : ι) (e : α) :
    steps test (es ++ [(i, e)]) = steps test es + (test e).toNat := by
  cases htest : test e <;> simp [steps, htest]

theorem cache_run {es : List (ι × WorkerEvent)} {ts : ι → WorkerPc}
    (h : Threads.interleaved sendResponse (.init fds₀ maps₀) (fun _ => .receive) es
      = some (p, ts)) :
    p.Grown fds₀ maps₀ (steps WorkerEvent.isOpen es) (steps WorkerEvent.isMmap es) ∧ p.Leaks
      ∧ ∀ i, (ts i).Opened p := by
  refine Threads.interleaved_induction (I := fun es p ts =>
    Process.Grown fds₀ maps₀ (steps WorkerEvent.isOpen es) (steps WorkerEvent.isMmap es) p
      ∧ p.Leaks ∧ ∀ i, (ts i).Opened p) ?_ ⟨init_grown, nofun, fun _ => trivial⟩ h
  rintro es p ts i e p' pc' ⟨hp, hleaks, hts⟩ hstep
  have hafter := sendResponse_step hp hleaks (hts i) hstep
  refine ⟨?_, hafter.leaks, fun j => ?_⟩
  · rw [steps_append, steps_append]
    exact hafter.grown
  · rw [Function.update_apply]
    split_ifs
    · exact hafter.opened
    · exact (hts j).mono hafter.keeps

/-! ### The proxy -/

def ProxyEvent.isOpen : ProxyEvent → Bool
  | .mqOpen => true
  | _ => false

/-- What a call that is under way has opened so far. -/
def ProxyPc.Opened (p : Process) : ProxyPc → Prop
  | .idle => True
  | .mqSend _ none | .processResponse _ false => p.failed = true
  | .mqSend call (some _) | .processResponse call true => p.fds.Holds (.call call)

theorem ProxyPc.Opened.mono {pc : ProxyPc} (h : p.Keeps p') (hpc : pc.Opened p) :
    pc.Opened p' := by
  cases pc with
  | idle => trivial
  | mqSend call msgqueue =>
    cases msgqueue with
    | none => exact h.failed hpc
    | some fd => exact h.fds _ hpc
  | processResponse call sent =>
    cases sent with
    | false => exact h.failed hpc
    | true => exact h.fds _ hpc

def Process.LeaksFd (p : Process) : Prop := ∀ n ∈ p.returned, p.fds.Holds (.call n)

/-- What a step of a thread of the proxy leaves. -/
structure ProxyStep (fds₀ maps₀ : List Bool) (opens : ℕ) (p p' : Process) (pc' : ProxyPc) :
    Prop where
  grown : p'.Grown fds₀ maps₀ opens 0
  keeps : p.Keeps p'
  leaks : p'.LeaksFd
  opened : pc'.Opened p'

section Proxy

variable {pc pc' : ProxyPc} {e : ProxyEvent} (hp : p.Grown fds₀ maps₀ opens 0)
  (hleaks : p.LeaksFd)
include hp hleaks

theorem mqOpen_step : ProxyStep fds₀ maps₀ (opens + 1) p ({ p with next := p.next + 1 }.open call).2
    (.mqSend call ({ p with next := p.next + 1 }.open call).1) := by
  have hp' : Process.Grown fds₀ maps₀ opens 0 { p with next := p.next + 1 } := hp.of_eq rfl rfl rfl
  rcases open_cases { p with next := p.next + 1 } call with ⟨hroom, hopen⟩ | ⟨fd, t, htake, hopen⟩
  · rw [hopen]
    exact ⟨hp'.open_fails hroom, ⟨fun _ => id, fun _ => id, fun _ => rfl⟩, hleaks, rfl⟩
  · have hkeeps := keeps_fds htake
    rw [hopen]
    exact ⟨hp'.open_takes htake, ⟨hkeeps.fds, hkeeps.maps, hkeeps.failed⟩,
      fun n hn => hkeeps.fds _ (hleaks n hn), (Table.holds_take htake).mpr (.inl rfl)⟩

/-- A step of a thread of the proxy, where the count goes up with its calls for a descriptor. -/
theorem handleWithCache_step (hpc : pc.Opened p) (h : handleWithCache p pc e = some (p', pc')) :
    ProxyStep fds₀ maps₀ (opens + e.isOpen.toNat) p p' pc' := by
  cases pc with
  | idle =>
    cases e with
    | mqOpen =>
      obtain ⟨rfl, rfl⟩ := Prod.mk.inj (Option.some.inj h)
      exact mqOpen_step hp hleaks
    | mqSend | processResponse o n => simp [handleWithCache] at h
  | mqSend call msgqueue =>
    cases e with
    | mqSend =>
      obtain ⟨rfl, rfl⟩ := Prod.mk.inj (Option.some.inj h)
      refine ⟨hp, keeps_of_eq rfl rfl rfl, hleaks, ?_⟩
      cases msgqueue <;> exact hpc
    | mqOpen | processResponse o n => simp [handleWithCache] at h
  | processResponse call sent =>
    cases e with
    | processResponse o n =>
      cases sent with
      | false => simp [handleWithCache] at h
      | true =>
        obtain ⟨a, -, ha⟩ := Option.map_eq_some_iff.mp h
        obtain ⟨rfl, rfl⟩ := Prod.mk.inj ha
        refine ⟨hp.of_eq rfl rfl rfl, keeps_of_eq rfl rfl rfl, fun k hk => ?_, trivial⟩
        rcases List.mem_append.mp hk with hk | hk
        · exact hleaks k hk
        · rw [List.mem_singleton.mp hk]
          exact hpc
    | mqOpen | mqSend => cases sent <;> simp [handleWithCache] at h

end Proxy

theorem proxy_run {es : List (ι × ProxyEvent)} {ts : ι → ProxyPc}
    (h : Threads.interleaved handleWithCache (.init fds₀ maps₀) (fun _ => .idle) es
      = some (p, ts)) :
    p.Grown fds₀ maps₀ (steps ProxyEvent.isOpen es) 0 ∧ p.LeaksFd ∧ ∀ i, (ts i).Opened p := by
  refine Threads.interleaved_induction (I := fun es p ts =>
    Process.Grown fds₀ maps₀ (steps ProxyEvent.isOpen es) 0 p
      ∧ p.LeaksFd ∧ ∀ i, (ts i).Opened p) ?_ ⟨init_grown, nofun, fun _ => trivial⟩ h
  rintro es p ts i e p' pc' ⟨hp, hleaks, hts⟩ hstep
  have hafter := handleWithCache_step hp hleaks (hts i) hstep
  refine ⟨?_, hafter.leaks, fun j => ?_⟩
  · rw [steps_append]
    exact hafter.grown
  · rw [Function.update_apply]
    split_ifs
    · exact hafter.opened
    · exact (hts j).mono hafter.keeps

/-! ### What is bounded -/

theorem underWay_of_returned_nil (h : p.returned = []) : p.underWay = Holder.isCall := by
  funext holder
  cases holder <;> simp [Process.underWay, Holder.isCall, h]

theorem not_holds_initially {taken : List Bool} {n : ℕ} : ¬(initially taken).Holds (.call n) := by
  rw [← less_initially, Table.holds_less]
  simp [Holder.isCall]

/-- The tables are bounded until a call returns, or asks for more than there is room for. -/
theorem bounded_iff (hp : p.Grown fds₀ maps₀ opens mmaps) (hleaks : p.LeaksFd) :
    p.Bounded fds₀ maps₀ ↔ p.returned = []
      ∧ opens ≤ (initially fds₀).room ∧ mmaps ≤ (initially maps₀).room := by
  have hfailed : p.failed = false ↔ opens ≤ (initially fds₀).room
      ∧ mmaps ≤ (initially maps₀).room := by
    rw [← Bool.not_eq_true, hp.failed, not_or, Nat.not_lt, Nat.not_lt]
  rw [← hfailed]
  constructor
  · intro h
    refine ⟨List.eq_nil_iff_forall_not_mem.mpr fun n hn => ?_, h.failed⟩
    have hless : (p.fds.less p.underWay).Holds (.call n) :=
      Table.holds_less.mpr ⟨hleaks n hn, by simp [Process.underWay, hn]⟩
    rw [h.fds] at hless
    exact not_holds_initially hless
  · rintro ⟨hret, hno⟩
    refine ⟨?_, ?_, hno⟩
    · rw [underWay_of_returned_nil hret]
      exact hp.fds
    · rw [underWay_of_returned_nil hret]
      exact hp.maps

/-- When the tables of the two processes are as they should be after a run of each. -/
theorem served_bounded_iff {fds₁ maps₁ : List Bool} {q : Process}
    {es : List (ι × WorkerEvent)} {ts : ι → WorkerPc} {es' : List (ι × ProxyEvent)}
    {ts' : ι → ProxyPc}
    (hcache : Threads.interleaved sendResponse (.init fds₀ maps₀) (fun _ => .receive) es
      = some (p, ts))
    (hproxy : Threads.interleaved handleWithCache (.init fds₁ maps₁) (fun _ => .idle) es'
      = some (q, ts')) :
    (p.Bounded fds₀ maps₀ ↔ p.returned = [] ∧ steps WorkerEvent.isOpen es ≤ (initially fds₀).room
        ∧ steps WorkerEvent.isMmap es ≤ (initially maps₀).room)
      ∧ (q.Bounded fds₁ maps₁ ↔ q.returned = []
        ∧ steps ProxyEvent.isOpen es' ≤ (initially fds₁).room) := by
  obtain ⟨hcached, hleaks, -⟩ := cache_run hcache
  obtain ⟨hproxied, hleaked, -⟩ := proxy_run hproxy
  refine ⟨bounded_iff hcached fun n hn => (hleaks n hn).1, ?_⟩
  rw [bounded_iff hproxied hleaked]
  simp

/-- While the first call of each process is under way, with room for it. -/
theorem served_bounded_begun : ∃ p q : Process,
    (∃ ts, Threads.interleaved sendResponse (.init [true, false] [true, false])
      (fun _ => .receive) [((), .shmOpen (-1) 1024)] = some (p, ts))
    ∧ (∃ ts, Threads.interleaved handleWithCache (.init [true, false] [true, false])
      (fun _ => .idle) [((), .mqOpen)] = some (q, ts))
    ∧ p.Bounded [true, false] [true, false] ∧ q.Bounded [true, false] [true, false] := by
  have hcache : ∃ r, Threads.interleaved sendResponse (.init [true, false] [true, false])
      (fun _ => .receive) [((), .shmOpen (-1) 1024)] = some r ∧ r.1.returned = [] :=
    ⟨_, rfl, rfl⟩
  have hproxy : ∃ r, Threads.interleaved handleWithCache (.init [true, false] [true, false])
      (fun _ => .idle) [((), .mqOpen)] = some r ∧ r.1.returned = [] :=
    ⟨_, rfl, rfl⟩
  obtain ⟨⟨p, ts⟩, hp, hpret⟩ := hcache
  obtain ⟨⟨q, ts'⟩, hq, hqret⟩ := hproxy
  obtain ⟨hpb, hqb⟩ := served_bounded_iff hp hq
  exact ⟨p, q, ⟨ts, hp⟩, ⟨ts', hq⟩, hpb.mpr ⟨hpret, by decide⟩, hqb.mpr ⟨hqret, by decide⟩⟩

/-- A worker of the cache is asked for a file that is not there. -/
def missing : List (Unit × WorkerEvent) := [((), .shmOpen (-1) 1024), ((), .mmap 0 [])]

/-- What the proxy finds in the segment then. -/
def notFound : Handlers.CacheCalls where
  status := 404
  filesize := 0
  headerLen := 27
  readLen := fun _ => 0
  gfsSend := fun _ => 0
  filesize_lt := by decide
  headerLen_lt := by decide
  readLen_lt := fun _ => by decide
  gfsSend_le := fun _ => ⟨by decide, le_rfl⟩

def passedOn : List (Unit × ProxyEvent) :=
  [((), .mqOpen), ((), .mqSend), ((), .processResponse notFound 0)]

/-- One request for a file that is not there leaves more behind in both processes. -/
theorem served_unbounded :
    ¬((∀ (fds maps : List Bool) (es : List (Unit × WorkerEvent)) (p : Process)
      (ts : Unit → WorkerPc), Threads.interleaved sendResponse (.init fds maps)
        (fun _ => .receive) es = some (p, ts) → p.Bounded fds maps)
    ∨ ∀ (fds maps : List Bool) (es : List (Unit × ProxyEvent)) (p : Process)
      (ts : Unit → ProxyPc), Threads.interleaved handleWithCache (.init fds maps)
        (fun _ => .idle) es = some (p, ts) → p.Bounded fds maps) := by
  rintro (hcache | hproxy)
  · have hbounded := hcache [true, false] [true, false] missing _ _ rfl
    exact absurd hbounded.fds (by decide)
  · have hbounded := hproxy [true, false] [true, false] passedOn _ _ rfl
    exact absurd hbounded.fds (by decide)

end FileServices.Descriptors
