import FileServices.SharedOffset

/-!
# Nobody reads where the shared offset is

`simplecache_get` and `sendResponse` move the offset of the descriptor, and each of them only to a
place that does not depend on where it was; the reads go by an offset of the worker's own.  So the
workers on one file are undisturbed (`workers_alone`).
-/

namespace FileServices.SharedOffset

open CString SendResponse Threads

variable {p p' q : Process} {t t' : Thread} {call : Call} {content : Bytes}

theorem workerStep_not_crashed (h : workerStep p t call = some (p', t')) : p.crashed = false := by
  unfold workerStep at h
  split_ifs at h with hcrashed
  exact Bool.eq_false_iff.mpr hcrashed

theorem pread_congr {f g : OpenFile} (h : f.content = g.content) (count offset : ℕ) (ret : ℤ) :
    pread f count offset ret = pread g count offset ret := by
  simp only [pread, h]

/-- The same content, and a process that goes on. -/
def Alike (p q : Process) : Prop :=
  p.file.content = q.file.content ∧ (q.crashed = true → p.crashed = true)

theorem workerStep_content (h : workerStep p t call = some (p', t')) :
    p'.file.content = p.file.content := by
  simp only [workerStep, workerStep_not_crashed h, Bool.false_eq_true, if_false] at h
  split at h
  · obtain ⟨rfl, -⟩ := Prod.mk.inj (Option.some.inj h)
    rfl
  · obtain ⟨rfl, -⟩ := Prod.mk.inj (Option.some.inj h)
    rfl
  · obtain ⟨read, -, h⟩ := Option.map_eq_some_iff.mp h
    split at h
    all_goals
      obtain ⟨rfl, -⟩ := Prod.mk.inj h
      rfl
  · cases h

/-- A worker's step is the same wherever the offset is. -/
theorem workerStep_alike (hR : Alike p q) (h : workerStep p t call = some (p', t')) :
    ∃ q', workerStep q t call = some (q', t') ∧ Alike p' q' := by
  have hp := workerStep_not_crashed h
  have hq : q.crashed = false := by
    rw [Bool.eq_false_iff]
    exact fun hq => absurd (hR.2 hq) (by simp [hp])
  simp only [workerStep, hp, Bool.false_eq_true, if_false] at h
  simp only [workerStep, hq, Bool.false_eq_true, if_false]
  split at h
  · obtain ⟨rfl, rfl⟩ := Prod.mk.inj (Option.some.inj h)
    exact ⟨_, rfl, hR.1, id⟩
  · obtain ⟨rfl, rfl⟩ := Prod.mk.inj (Option.some.inj h)
    simp only [lseek, hR.1]
    exact ⟨_, rfl, rfl, id⟩
  · obtain ⟨read, hread, h⟩ := Option.map_eq_some_iff.mp h
    rw [pread_congr hR.1] at hread
    simp only [hread, Option.map_some]
    split at h
    · obtain ⟨rfl, rfl⟩ := Prod.mk.inj h
      exact ⟨_, rfl, hR⟩
    · obtain ⟨rfl, rfl⟩ := Prod.mk.inj h
      exact ⟨_, rfl, hR.1, fun _ => rfl⟩
    · obtain ⟨rfl, rfl⟩ := Prod.mk.inj h
      exact ⟨_, rfl, hR⟩
  · cases h

theorem workers_undisturbed : Undisturbed workerStep Alike where
  own := workerStep_alike
  other := fun hR h => by
    refine ⟨(workerStep_content h).trans hR.1, fun hq => ?_⟩
    exact absurd (hR.2 hq) (by simp [workerStep_not_crashed h])

/-- A worker announces the length of the file. -/
theorem workerStep_announced (h : workerStep p t call = some (p', t'))
    (hp : p.file.content = content) (ht : ∀ z ∈ t.announced, z = content.length) :
    ∀ z ∈ t'.announced, z = content.length := by
  simp only [workerStep, workerStep_not_crashed h, Bool.false_eq_true, if_false] at h
  split at h
  · obtain ⟨-, rfl⟩ := Prod.mk.inj (Option.some.inj h)
    exact ht
  · obtain ⟨-, rfl⟩ := Prod.mk.inj (Option.some.inj h)
    intro z hz
    rcases List.mem_append.mp hz with hz | hz
    · exact ht z hz
    · rw [List.mem_singleton.mp hz, ← hp]
      rfl
  · obtain ⟨read, -, h⟩ := Option.map_eq_some_iff.mp h
    split at h
    all_goals
      obtain ⟨-, rfl⟩ := Prod.mk.inj h
      exact ht
  · cases h

/-- Any number of workers take their calls on one descriptor in any order: the file stays as it
is, all announce its length, and each stands where its own calls take it alone, with the same sizes
announced and the same chunks published, wherever the offset is then. -/
theorem workers_alone {nthreads : ℕ} {offset : ℕ} {es : List (Fin nthreads × Call)}
    {ts : Fin nthreads → Thread}
    (h : interleaved workerStep ⟨⟨content, offset⟩, false⟩ (fun _ => .start) es = some (p, ts)) :
    p.file.content = content ∧ ∀ i, (∀ z ∈ (ts i).announced, z = content.length)
      ∧ ∀ offset', ∃ q, alone workerStep ⟨⟨content, offset'⟩, false⟩ .start (ownSteps i es)
        = some (q, ts i) := by
  obtain ⟨hcontent, hannounced⟩ := interleaved_keeps
    (fun hstep hp ht => ⟨(workerStep_content hstep).trans hp, workerStep_announced hstep hp ht⟩)
    h rfl (Q := fun t => ∀ z ∈ t.announced, z = content.length) (fun _ => nofun)
  refine ⟨hcontent, fun i => ⟨hannounced i, fun offset' => ?_⟩⟩
  have hR : Alike ⟨⟨content, offset⟩, false⟩ ⟨⟨content, offset'⟩, false⟩ := ⟨rfl, id⟩
  obtain ⟨q, hq, -⟩ := workers_undisturbed.alone_of_interleaved i hR h
  exact ⟨q, hq⟩

/-- Two workers take turns on a file of two bytes, and one of them gets the next request. -/
def turns : List (Fin 2 × Call) :=
  [(0, .get 1 []), (1, .get 2 []), (0, .size), (1, .size), (0, .pread 1), (1, .pread 2),
    (1, .get 2 []), (0, .pread 1)]

theorem workers_alone_two : ∃ p ts,
    interleaved workerStep ⟨⟨[65, 66], 7⟩, false⟩ (fun _ => .start) turns = some (p, ts)
      ∧ p.file.content = [65, 66] ∧ ∀ i, (∀ z ∈ (ts i).announced, z = 2)
        ∧ ∀ offset', ∃ q, alone workerStep ⟨⟨[65, 66], offset'⟩, false⟩ .start
          (ownSteps i turns) = some (q, ts i) := by
  have hrun : (interleaved workerStep ⟨⟨[65, 66], 7⟩, false⟩ (fun _ => .start) turns).isSome := by
    decide +kernel
  obtain ⟨⟨p, ts⟩, h⟩ := Option.isSome_iff_exists.mp hrun
  exact ⟨p, ts, h, workers_alone h⟩

end FileServices.SharedOffset
