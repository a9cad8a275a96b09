import FileServices.Proofs.DownloaderSync

/-!
# No request of the client is lost, and no wakeup

Over every interleaving each request is performed once, and the program comes to rest only when
it is through.
-/

namespace FileServices.Downloader

open Total

variable {nthreads n : ℕ} {s s' : Pool nthreads} {k : Fin nthreads}
  {w : Option (Thread nthreads)}

structure Sound (n : ℕ) (s : Pool nthreads) : Prop where
  tally : Tally n s
  sync : Sync n s
  underflow : s.underflow = false

theorem Sync.pops (hi : Sync n s) (hunder : s.underflow = false)
    (h : Downloader.threadHandleReq n k w s = some s') : s'.underflow = false := by
  have hknow := hi.knows k
  obtain ⟨pc, hpc, hstep⟩ := threadHandleReq_cases h
  rw [hpc] at hknow
  cases hstep with
  | underflow hq => exact absurd hq hknow
  | _ => exact hunder

theorem main_underflow (h : main n w s = some s') : s'.underflow = s.underflow := by
  obtain ⟨pc, -, hstep⟩ := main_cases h
  cases hstep <;> rfl

theorem Sound.next (hs : Sound n s) (hthreads : 0 < nthreads) {e : Event nthreads}
    (h : step n e s = some s') : Sound n s' := by
  obtain ⟨ht, hi, hunder⟩ := hs
  unfold step at h
  rw [if_neg (by simp [hunder])] at h
  rcases e with ⟨_ | k, w⟩ | t
  · exact ⟨ht.main h, hi.main ht hthreads h, main_underflow h ▸ hunder⟩
  · have hunder' := hi.pops hunder h
    exact ⟨ht.threadHandleReq h, hi.threadHandleReq ht h hunder', hunder'⟩
  · obtain ⟨m, hm, rfl⟩ := Option.map_eq_some_iff.mp h
    exact ⟨⟨ht.range, ht.places, ht.all, ht.performed, ht.own⟩, hi.spurious hm, hunder⟩

/-- The states of the program over all interleavings. -/
def Reachable (n : ℕ) (s : Pool nthreads) : Prop :=
  Trans.Reach (step n) (fun _ _ => True) (Pool.init nthreads) s

theorem Reachable.sound (hthreads : 0 < nthreads) (h : Reachable n s) : Sound n s :=
  h.invariant ⟨tally_init n, sync_init n, rfl⟩ fun _ _ _ hs _ hstep => hs.next hthreads hstep

/-! ### Where the program can stop -/

/-- A thread can take a step of its own, which leaves the spurious wakeups out. -/
def Event.Own : Event nthreads → Prop
  | .run _ _ => True
  | .spurious _ => False

theorem exists_main (hpc : s.boss.locked = true) : ∃ s', main n w s = some s' := by
  unfold main
  cases hb : s.boss <;> simp_all [MainPc.locked]

theorem exists_threadHandleReq (hpc : (s.worker k).pc.locked = true) :
    ∃ s', threadHandleReq n k w s = some s' := by
  unfold threadHandleReq
  cases hk : (s.worker k).pc with
  | pop => cases hpop : stequePop s.workQueue <;> simp
  | _ => simp_all [WorkerPc.locked]

/-- With the mutex free, the boss can only be asleep, or waiting for a worker to return, or
through. -/
theorem main_stuck (hfree : s.monitor.owner = none) (h : ∀ w, main n w s = none) :
    .boss ∈ s.monitor.asleep ∨ s.boss = .returned
      ∨ ∃ k, s.boss.joining ∧ (s.worker k).pc ≠ .returned := by
  obtain ⟨w, m, hw⟩ := s.monitor.exists_signal
  have hmain := h w
  unfold main at hmain
  cases hb : s.boss with
  | join j =>
    simp only [hb] at hmain
    split_ifs at hmain with hj hret
    exact .inr (.inr ⟨⟨j, hj⟩, trivial, hret⟩)
  | waiting =>
    simp only [hb, Monitor.resume, Monitor.lock, hfree, Option.map_eq_none_iff] at hmain
    split_ifs at hmain with hmem
    exact .inl hmem
  | returned => exact .inr (.inl rfl)
  | _ => simp [hb, hw, Monitor.lock, hfree] at hmain

theorem threadHandleReq_stuck (hfree : s.monitor.owner = none)
    (h : ∀ w, threadHandleReq n k w s = none) :
    .worker k ∈ s.monitor.asleep ∨ (s.worker k).pc = .returned := by
  obtain ⟨w, m, hw⟩ := s.monitor.exists_signal
  have hstep := h w
  unfold threadHandleReq at hstep
  cases hk : (s.worker k).pc with
  | pop =>
    simp only [hk] at hstep
    cases hpop : stequePop s.workQueue <;> simp [hpop] at hstep
  | waiting =>
    simp only [hk, Monitor.resume, Monitor.lock, hfree, Option.map_eq_none_iff] at hstep
    split_ifs at hstep with hmem
    exact .inl hmem
  | returned => exact .inr rfl
  | _ => simp [hk, hw, Monitor.lock, hfree] at hstep

theorem Sound.stuck_iff (hs : Sound n s) : Trans.Stuck (step n) Event.Own s ↔
    s.boss = .returned ∧ ∀ k, (s.worker k).pc = .returned := by
  obtain ⟨ht, hi, hunder⟩ := hs
  constructor
  · intro hstuck
    have hboss : ∀ w, main n w s = none := fun w => by
      simpa [step, hunder] using hstuck (.run .boss w) trivial
    have hworkers : ∀ k w, threadHandleReq n k w s = none := fun k w => by
      simpa [step, hunder] using hstuck (.run (.worker k) w) trivial
    have hfree : s.monitor.owner = none := hi.excludes.free fun t hlock => by
      cases t with
      | boss =>
        obtain ⟨s', hs'⟩ := exists_main (n := n) (w := none) hlock
        simp [hboss] at hs'
      | worker k =>
        obtain ⟨s', hs'⟩ := exists_threadHandleReq (n := n) (w := none) hlock
        simp [hworkers] at hs'
    have hidle : ∀ k, (s.worker k).pc = .waiting ∨ (s.worker k).pc = .returned := fun k =>
      (threadHandleReq_stuck hfree (hworkers k)).imp_left (hi.asleep k)
    rcases main_stuck hfree hboss with hasleep | hret | ⟨k, hjoin, hk⟩
    · have hwait := hi.bossAsleep hasleep
      -- nobody is on the way to wake the boss
      have hdone : s.nrequestsDone ≠ n := fun hd => by
        obtain ⟨k, hk⟩ := hi.told hasleep hd
        rcases hidle k with h | h <;> simp [h, WorkerPc.tells] at hk
      have hq : s.workQueue ≠ [] := fun hq => by
        have hall := ht.all
        rw [hq, hwait, total_eq_zero fun k => ?_, total_eq_zero fun k => ?_] at hall
        · simp only [List.length_nil, MainPc.enqueued] at hall
          omega
        · rcases hidle k with h | h <;> simp [h, WorkerPc.uncounted]
        · rcases hidle k with h | h <;> simp [h, Worker.holding, WorkerPc.hand]
      obtain ⟨k, hk, hret⟩ := hi.servedBy (by rw [hwait]; rfl) hq
      exact absurd ((threadHandleReq_stuck hfree (hworkers k)).resolve_left hk) hret
    · exact ⟨hret, fun k => hi.joined k (by rw [hret]; trivial)⟩
    · exact absurd ((threadHandleReq_stuck hfree (hworkers k)).resolve_left
        (hi.quiet hjoin k)) hk
  · rintro ⟨hboss, hworkers⟩ e he
    rcases e with ⟨_ | k, w⟩ | t
    · simp [step, hunder, main, hboss]
    · simp [step, hunder, threadHandleReq, hworkers]
    · exact he.elim

/-- The boss has left its wait for the requests to be done. -/
def MainPc.past : MainPc → Prop
  | .unlockDone | .broadcast | .join _ | .returned => True
  | _ => False

theorem Sound.performed (hs : Sound n s) (hpast : s.boss.past) :
    (s.performed.map Prod.fst).Perm (List.range n) := by
  obtain ⟨ht, hi, -⟩ := hs
  have hdone : s.nrequestsDone = n ∧ s.boss.enqueued n = n := by
    have hknow := hi.bossKnows
    cases hb : s.boss <;> simp_all [MainPc.past, MainPc.knows, MainPc.enqueued]
  have hall := ht.all
  refine List.perm_iff_count.mpr fun r => ?_
  have hnone : total (Worker.holds r) s.worker = 0 := total_eq_zero fun k => by
    have hk := le_total Worker.holding s.worker k
    cases hhand : (s.worker k).pc.hand with
    | none => simp [Worker.holds, hhand]
    | some r' =>
      simp only [Worker.holding, hhand, Option.isSome_some, if_true] at hk
      omega
  have hplaces := ht.places r
  rw [Pool.places, ht.queue_eq_nil hdone.1, hnone, hdone.2] at hplaces
  rw [List.count_range]
  simpa using hplaces

/-- Over every interleaving, each request is performed once, and the program comes to rest only
when all of them have been and every thread is through. -/
theorem pool_completes (hthreads : 0 < nthreads) (h : Reachable n s) :
    s.underflow = false
      ∧ (∀ r, s.places r = if r < s.boss.enqueued n then 1 else 0)
      ∧ s.nrequestsDone ≤ n
      ∧ (s.boss.past → (s.performed.map Prod.fst).Perm (List.range n))
      ∧ (Trans.Stuck (step n) Event.Own s ↔
        s.boss = .returned ∧ ∀ k, (s.worker k).pc = .returned) := by
  have hs := h.sound hthreads
  exact ⟨hs.underflow, hs.tally.places, hs.tally.done_le, hs.performed, hs.stuck_iff⟩

/-- One worker performs the one request, and its first signal wakes the boss too early. -/
theorem pool_completes_one : ∃ s : Pool 1, Reachable 1 s ∧ s.performed = [(0, 0)]
    ∧ s.nrequestsDone ≤ 1 ∧ Trans.Stuck (step 1) Event.Own s := by
  obtain ⟨s, hs, hboss, hworker, hperformed⟩ : ∃ s : Pool 1,
      Trans.exec (step 1) (fun _ _ => true) (List.replicate 9 (Event.run .boss none) ++
        List.replicate 5 (Event.run (.worker 0) none) ++ [Event.run (.worker 0) (some .boss)] ++
        List.replicate 6 (Event.run (.worker 0) none) ++ List.replicate 6 (Event.run .boss none))
        (Pool.init 1) = some s
      ∧ s.boss = .returned ∧ (s.worker 0).pc = .returned ∧ s.performed = [(0, 0)] :=
    ⟨_, rfl, rfl, rfl, rfl⟩
  have hreach : Reachable 1 s := Trans.Reach.exec (fun _ _ _ => trivial) _ .refl hs
  obtain ⟨-, -, hdone, -, hstuck⟩ := pool_completes Nat.one_pos hreach
  exact ⟨s, hreach, hperformed, hdone, hstuck.mpr ⟨hboss, fun k => Fin.eq_zero k ▸ hworker⟩⟩

end FileServices.Downloader
