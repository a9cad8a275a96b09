import FileServices.Proofs.CacheTermination

/-!
# Every request is answered

As long as no call fails, the client of each request is sent the header and the file, in every
interleaving of the threads.
-/

namespace FileServices.Cache

open CString

variable {c : Config} {s : State c} {r : ℕ}

/-! ### What has been sent is the beginning of an answer -/

theorem exists_answered (c : Config) (r : ℕ) : ∃ log, Answered c r log := by
  unfold Answered
  cases c.answer r with
  | none => exact ⟨_, 0, rfl⟩
  | some content => exact ⟨_, [content], List.flatten_singleton, rfl⟩

theorem Partly.begins {n : ℕ} {log : List Sent} (h : Partly c r n log) :
    ∃ full, Answered c r full ∧ log <+: full := by
  obtain ⟨content, chunks, hans, hn, hflat, rfl⟩ := h
  refine ⟨Sent.header gfOk content.length :: (chunks ++ [content.drop n]).map .data
    ++ [.returned ((content.length : ℤ).bmod (2 ^ 32))], ?_, ?_⟩
  · unfold Answered
    rw [hans]
    refine ⟨chunks ++ [content.drop n], ?_, rfl⟩
    rw [List.flatten_append, hflat, List.flatten_singleton, List.take_append_drop]
  · exact ⟨[.data (content.drop n), .returned ((content.length : ℤ).bmod (2 ^ 32))], by simp⟩

theorem Told.begins {log : List Sent} {pc : ProxyPc c.nsegments} (h : Told c r log pc) :
    ∃ full, Answered c r full ∧ log <+: full := by
  have hempty : log = [] → ∃ full, Answered c r full ∧ log <+: full := fun he => by
    obtain ⟨full, hfull⟩ := exists_answered c r
    exact ⟨full, hfull, he ▸ List.nil_prefix⟩
  cases pc with
  | loop | waitProxysem | load | send | postCachesem => exact Partly.begins h
  | queue g branch qpc =>
    cases branch with
    | sent n => exact h.1.begins
    | notFound => exact hempty h.2
  | notFound => exact hempty h.2
  | _ => exact hempty h

theorem Sound.begins (hs : Sound s) (r : ℕ) : ∃ full, Answered c r full ∧ s.sent r <+: full := by
  by_cases hbusy : ∃ i, (s.proxy i).pc ≠ .idle ∧ (s.proxy i).request = r
  · obtain ⟨i, hpc, rfl⟩ := hbusy
    exact (hs.log.told i hpc).begins
  · rcases Nat.lt_or_ge r s.next with hr | hr
    · exact ⟨_, hs.log.answered r hr fun i hpc he => hbusy ⟨i, hpc, he⟩, List.prefix_rfl⟩
    · obtain ⟨full, hfull⟩ := exists_answered c r
      exact ⟨full, hfull, hs.log.untouched r hr ▸ List.nil_prefix⟩

/-! ### The threads come to rest -/

/-- A thread takes a step of its own from `s` to `s'`, in which no call fails. -/
def Takes (c : Config) (s' s : State c) : Prop :=
  ∃ e : Event c, e.Own ∧ Allowed false s e ∧ step c e s = some s'

theorem Sound.finite (hs : Sound s) : Acc (Takes c) s := by
  -- by induction on what is left to do
  induction hk : s.measure using Nat.strong_induction_on generalizing s with
  | _ k ih =>
    refine ⟨s, fun s' hstep => ?_⟩
    obtain ⟨e, hown, hok, hs'⟩ := hstep
    exact ih _ (hk ▸ hs.measure_lt hown hok hs') (hs.next hok hs') rfl

/-- Over every interleaving in which no call fails: what a client has been sent is the beginning
of the answer to its request, and is all of it once the handler has returned; the threads do not
run for ever, and where they come to rest every request has been answered and every segment is
back in the queue. -/
theorem requests_answered (h : Reachable s) :
    (∀ r, ∃ full, Answered c r full ∧ s.sent r <+: full)
      ∧ (∀ r < s.next, (∀ i, (s.proxy i).pc ≠ .idle → (s.proxy i).request ≠ r) →
        Answered c r (s.sent r))
      ∧ Acc (Takes c) s
      ∧ (Quiescent s → (∀ r < s.next, Answered c r (s.sent r))
        ∧ (0 < c.nproxies → s.next = c.paths.length) ∧ ∀ g, s.shmQueue.count g = 1) := by
  have hs := h.sound
  refine ⟨hs.begins, hs.log.answered, hs.finite, fun hq => ?_⟩
  obtain ⟨hidle, -, -, hnext⟩ := hs.quiescent hq
  obtain ⟨ph, hi⟩ := hs.seats
  refine ⟨fun r hr => hs.log.answered r hr fun i hpc => absurd (hidle i) hpc, hnext,
    hi.queued fun i => ?_⟩
  rw [hidle i]
  rfl

def allowed (s : State c) : Event c → Bool
  | .proxy i ret =>
    match (s.proxy i).pc with
    | .send _ _ len => ret = len
    | _ => true
  | .worker _ ret => 1 ≤ ret
  | .spurious _ => true

/-- A run in which the one request is answered. -/
theorem twoChunks_returns : ∃ s : State twoChunks, Reachable s ∧ s.next = 1
    ∧ ∀ i, (s.proxy i).pc = .idle := by
  have hrun : ((Trans.exec (step twoChunks) allowed
      (List.replicate 11 (Event.proxy ⟨0, Nat.one_pos⟩ 0)
        ++ List.replicate 14 (Event.worker ⟨0, Nat.one_pos⟩ 128)
        ++ List.replicate 8 (Event.proxy ⟨0, Nat.one_pos⟩ 128)
        ++ List.replicate 6 (Event.worker ⟨0, Nat.one_pos⟩ 72)
        ++ List.replicate 12 (Event.proxy ⟨0, Nat.one_pos⟩ 72)) (State.init twoChunks)).any fun s =>
      decide ((s.proxy ⟨0, Nat.one_pos⟩).pc = .idle) && decide (s.next = 1)) = true := by
    decide +kernel
  obtain ⟨s, hs, hat⟩ := (Option.any_eq_true _ _).mp hrun
  simp only [Bool.and_eq_true, decide_eq_true_eq] at hat
  have hreach : Reachable s := by
    refine Trans.Reach.exec (fun s e he => ?_) _ .refl hs
    cases e with
    | proxy i ret =>
      intro g n len hpc
      simp only [allowed, hpc, decide_eq_true_eq] at he
      exact .inl he
    | worker j ret => exact fun _ _ _ => .inr (of_decide_eq_true he)
    | spurious i => trivial
  refine ⟨s, hreach, hat.2, fun i => ?_⟩
  obtain rfl : i = ⟨0, Nat.one_pos⟩ := Fin.ext (Nat.lt_one_iff.mp i.isLt)
  exact hat.1

theorem requests_answered_twoChunks : ∃ s : State twoChunks,
    Reachable s ∧ s.next = 1 ∧ Answered twoChunks 0 (s.sent 0) := by
  obtain ⟨s, hreach, hnext, hidle⟩ := twoChunks_returns
  obtain ⟨-, hanswered, -⟩ := requests_answered hreach
  exact ⟨s, hreach, hnext, hanswered 0 (by omega) fun i hpc => absurd (hidle i) hpc⟩

end FileServices.Cache
