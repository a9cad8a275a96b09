import FileServices.Proofs.CacheSession
import FileServices.Proofs.CacheSteps

/-!
# The threads of the proxy that wait for a segment

A thread falls asleep only when the queue is empty, and whoever takes a segment off the queue or
puts one on it is going to wake all the sleepers.
-/

namespace FileServices.Cache

variable {c : Config} {s s' : State c} {i : Fin c.nproxies} {ret : ℤ}

def ProxyPc.locked {n : ℕ} : ProxyPc n → Bool
  | .isempty | .wait | .pop | .unlock _ | .queue _ _ .enqueue | .queue _ _ .unlock => true
  | _ => false

/-- The thread is on its way to a broadcast. -/
def ProxyPc.wakes {n : ℕ} : ProxyPc n → Bool
  | .unlock _ | .broadcast _ | .queue _ _ .unlock | .queue _ _ .broadcast => true
  | _ => false

/-- What a thread knows of the queue where it stands. -/
def ProxyPc.knows {n : ℕ} (queue : List (Fin n)) : ProxyPc n → Prop
  | .pop => queue ≠ []
  | .wait => queue = []
  | _ => True

structure Pool (s : State c) : Prop where
  excludes : s.monitor.Excludes fun i => (s.proxy i).pc.locked = true
  asleep : ∀ i ∈ s.monitor.asleep, (s.proxy i).pc = .waiting
  knows : ∀ i, (s.proxy i).pc.knows s.shmQueue
  woken : s.monitor.asleep.Nonempty → s.shmQueue ≠ [] → ∃ i, (s.proxy i).pc.wakes = true

theorem pool_init (c : Config) : Pool (State.init c) where
  excludes := fun i => by simp [State.init, Monitor.init, ProxyPc.locked]
  asleep := by simp [State.init, Monitor.init]
  knows := fun _ => trivial
  woken := by simp [State.init, Monitor.init]

theorem ProxyPc.knows.of_unlocked {n : ℕ} {pc : ProxyPc n} (hpc : pc.locked = false)
    (queue : List (Fin n)) : pc.knows queue := by
  cases pc <;> simp_all [ProxyPc.locked, ProxyPc.knows]

/-- A step of thread `i`, from `pc` to the local state `x`. -/
theorem Pool.move (hi : Pool s) {pc : ProxyPc c.nsegments} {x : Proxy c.nsegments}
    (hpc : (s.proxy i).pc = pc) (hproxy : s'.proxy = Function.update s.proxy i x)
    (hmoves : Monitor.Moves i s.monitor s'.monitor pc.locked x.pc.locked)
    (hasleep : s'.monitor.asleep ⊆ insert i s.monitor.asleep)
    (hself : i ∈ s'.monitor.asleep → x.pc = .waiting ∧ s'.shmQueue = [])
    (hqueue : s'.shmQueue = s.shmQueue ∨ pc.locked = true)
    (hknow : x.pc.knows s'.shmQueue)
    (hwakes : x.pc.wakes = true ∨ s'.monitor.asleep = ∅
      ∨ s'.shmQueue = s.shmQueue ∧ pc.wakes = false) : Pool s' := by
  subst hpc
  have hother : ∀ i', i' ≠ i → s'.proxy i' = s.proxy i' := fun i' h => by
    rw [hproxy, Function.update_of_ne h]
  have hnew : s'.proxy i = x := by rw [hproxy, Function.update_self]
  refine ⟨?_, fun i' hi' => ?_, fun i' => ?_, fun hne hq => ?_⟩
  · refine hi.excludes.moves hmoves Iff.rfl (by rw [hnew]) fun i' h => ?_
    rw [hother i' h]
  · by_cases h : i' = i
    · subst h
      exact hnew ▸ (hself hi').1
    · rw [hother i' h]
      exact hi.asleep i' ((Finset.mem_insert.mp (hasleep hi')).resolve_left h)
  · by_cases h : i' = i
    · exact h ▸ hnew.symm ▸ hknow
    · rw [hother i' h]
      rcases hqueue with hq | hlock
      · exact hq ▸ hi.knows i'
      · refine .of_unlocked (Bool.eq_false_iff.mpr fun h' => h ?_) _
        exact hi.excludes.eq h' hlock
  · rcases hwakes with hx | he | ⟨hsame, hold⟩
    · exact ⟨i, hnew.symm ▸ hx⟩
    · rw [he] at hne
      exact absurd hne Finset.not_nonempty_empty
    · have hne' : s.monitor.asleep.Nonempty := by
        obtain ⟨i', hi'⟩ := hne
        by_cases h : i' = i
        · subst h
          exact absurd (hself hi').2 hq
        · exact ⟨i', (Finset.mem_insert.mp (hasleep hi')).resolve_left h⟩
      obtain ⟨i', hi'⟩ := hi.woken hne' (hsame ▸ hq)
      have h : i' ≠ i := by
        rintro rfl
        simp [hi'] at hold
      exact ⟨i', (hother i' h).symm ▸ hi'⟩

/-- Where a thread is that has a segment and nothing to do with the queue. -/
def ProxyPc.plain {n : ℕ} (pc : ProxyPc n) : Prop :=
  pc.locked = false ∧ pc.wakes = false ∧ pc ≠ .waiting

/-- A step of thread `i` that has nothing to do with the queue. -/
theorem Pool.pass (hi : Pool s) {pc : ProxyPc c.nsegments} {x : Proxy c.nsegments}
    (hpc : (s.proxy i).pc = pc) (hproxy : s'.proxy = Function.update s.proxy i x)
    (hmonitor : s'.monitor = s.monitor) (hqueue : s'.shmQueue = s.shmQueue) (hold : pc.plain)
    (hnew : x.pc.locked = false) : Pool s' := by
  refine hi.move hpc hproxy ?_ (by rw [hmonitor]; exact Finset.subset_insert _ _) (fun h => ?_)
    (.inl hqueue) (.of_unlocked hnew _) (.inr (.inr ⟨hqueue, hold.2.1⟩))
  · rw [hold.1, hnew]
    exact .keep (by rw [hmonitor])
  · rw [hmonitor] at h
    exact absurd (hpc ▸ hi.asleep i h) hold.2.2

theorem Pool.awake (hi : Pool s) {pc : ProxyPc c.nsegments} (hpc : (s.proxy i).pc = pc)
    (hne : pc ≠ .waiting) : i ∉ s.monitor.asleep := fun h => hne (hpc ▸ hi.asleep i h)

/-- A step of thread `i` that moves the mutex and leaves the queue. -/
theorem Pool.lockStep (hi : Pool s) {pc : ProxyPc c.nsegments} {x : Proxy c.nsegments}
    (hpc : (s.proxy i).pc = pc) (hproxy : s'.proxy = Function.update s.proxy i x)
    (hmoves : Monitor.Moves i s.monitor s'.monitor pc.locked x.pc.locked)
    (hasleep : s'.monitor.asleep ⊆ s.monitor.asleep) (hself : i ∉ s.monitor.asleep)
    (hqueue : s'.shmQueue = s.shmQueue) (hknow : x.pc.knows s'.shmQueue)
    (hwakes : x.pc.wakes = true ∨ s'.monitor.asleep = ∅ ∨ pc.wakes = false) : Pool s' :=
  hi.move hpc hproxy hmoves (hasleep.trans (Finset.subset_insert _ _))
    (fun h => absurd (hasleep h) hself) (.inl hqueue) hknow
    (hwakes.imp_right fun h => h.imp_right fun h => ⟨hqueue, h⟩)

theorem Pool.handleWithCache (hi : Pool s) (h : handleWithCache i ret s = some s') : Pool s' := by
  have hknow := hi.knows i
  obtain ⟨pc, hpc, hstep⟩ := handleWithCache_cases h
  rw [hpc] at hknow
  cases hstep with
  | lock hfree | queueLock g branch hfree =>
    exact hi.lockStep hpc rfl (.take hfree rfl) subset_rfl (hi.awake hpc nofun) rfl trivial
      (.inr (.inr rfl))
  | waiting hawake hfree =>
    exact hi.lockStep hpc rfl (.take hfree rfl) subset_rfl hawake rfl trivial (.inr (.inr rfl))
  | empty hq | nonempty hq =>
    exact hi.lockStep hpc rfl (.keep rfl) subset_rfl (hi.awake hpc nofun) rfl hq
      (.inr (.inr rfl))
  | wait =>
    exact hi.move hpc rfl (.drop rfl) subset_rfl (fun _ => ⟨rfl, hknow⟩) (.inl rfl) trivial
      (.inr (.inr ⟨rfl, rfl⟩))
  | pop | enqueue =>
    exact hi.move hpc rfl (.keep rfl) (Finset.subset_insert _ _)
      (fun h => absurd h (hi.awake hpc nofun)) (.inr rfl) trivial (.inl rfl)
  | unlock | queueUnlock =>
    exact hi.lockStep hpc rfl (.drop rfl) subset_rfl (hi.awake hpc nofun) rfl trivial (.inl rfl)
  | broadcast | sent | unsent =>
    exact hi.lockStep hpc rfl (.keep rfl) (Finset.empty_subset _) (hi.awake hpc nofun) rfl trivial
      (.inr (.inl rfl))
  -- the others leave the mutex and the queue
  | _ => exact hi.pass hpc rfl rfl rfl ⟨rfl, rfl, nofun⟩ rfl

/-- The cache does not touch the queue. -/
theorem Pool.same (hi : Pool s) (hproxy : s'.proxy = s.proxy) (hmonitor : s'.monitor = s.monitor)
    (hqueue : s'.shmQueue = s.shmQueue) : Pool s' := by
  obtain ⟨hexcl, hasleep, hknows, hwoken⟩ := hi
  exact ⟨by rwa [hproxy, hmonitor], by rwa [hproxy, hmonitor], by rwa [hproxy, hqueue],
    by rwa [hproxy, hmonitor, hqueue]⟩

theorem Pool.spurious (hi : Pool s) {m : Monitor (Fin c.nproxies)}
    (h : s.monitor.wake i = some m) : Pool { s with monitor := m } := by
  obtain ⟨-, rfl⟩ := Monitor.wake_eq_some.mp h
  have hsub := Finset.erase_subset i s.monitor.asleep
  exact ⟨hi.excludes, fun i' hi' => hi.asleep i' (hsub hi'), hi.knows,
    fun hne hq => hi.woken (hne.mono hsub) hq⟩

end FileServices.Cache
