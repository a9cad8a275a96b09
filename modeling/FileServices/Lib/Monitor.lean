import Mathlib

/-!
# A mutex with a condition variable

The mutex has an owner or is free, and the condition variable has its sleepers.  A thread that
waits gives the mutex up and falls asleep in one step, and resumes, once it has been woken, by
taking the mutex again.
-/

/-- A mutex and the threads asleep on the condition variable used with it. -/
structure Monitor (T : Type*) where
  owner : Option T
  asleep : Finset T

namespace Monitor

variable {T : Type*} {m m' : Monitor T} {t : T}

/-- The mutex is free and nobody sleeps. -/
def init : Monitor T := ⟨none, ∅⟩

def lock (t : T) (m : Monitor T) : Option (Monitor T) :=
  match m.owner with
  | none => some { m with owner := some t }
  | some _ => none

def unlock (m : Monitor T) : Monitor T := { m with owner := none }

def broadcast (m : Monitor T) : Monitor T := { m with asleep := ∅ }

theorem lock_eq_some : m.lock t = some m' ↔ m.owner = none ∧ m' = ⟨some t, m.asleep⟩ := by
  unfold lock
  cases m.owner <;> simp [eq_comm]

section Sleep

variable [DecidableEq T]

/-- The first half of a wait. -/
def sleep (t : T) (m : Monitor T) : Monitor T := ⟨none, insert t m.asleep⟩

/-- The second half of a wait. -/
def resume (t : T) (m : Monitor T) : Option (Monitor T) :=
  if t ∈ m.asleep then none else m.lock t

/-- Take `t` out of its sleep, if it is asleep. -/
def wake (t : T) (m : Monitor T) : Option (Monitor T) :=
  if t ∈ m.asleep then some { m with asleep := m.asleep.erase t } else none

/-- Wake the sleeper `w`, which is to be one of the sleepers if there are any. -/
def signal (w : Option T) (m : Monitor T) : Option (Monitor T) :=
  match w with
  | some t => m.wake t
  | none => if m.asleep = ∅ then some m else none

theorem resume_eq_some : m.resume t = some m' ↔
    t ∉ m.asleep ∧ m.owner = none ∧ m' = ⟨some t, m.asleep⟩ := by
  unfold resume
  by_cases ht : t ∈ m.asleep <;> simp [ht, lock_eq_some]

theorem wake_eq_some : m.wake t = some m' ↔
    t ∈ m.asleep ∧ m' = ⟨m.owner, m.asleep.erase t⟩ := by
  unfold wake
  by_cases ht : t ∈ m.asleep <;> simp [ht, eq_comm]

theorem signal_eq_some {w : Option T} : m.signal w = some m' ↔
    (∃ t, w = some t ∧ t ∈ m.asleep ∧ m' = ⟨m.owner, m.asleep.erase t⟩)
      ∨ w = none ∧ m.asleep = ∅ ∧ m' = m := by
  cases w with
  | none => by_cases h : m.asleep = ∅ <;> simp [signal, h, eq_comm]
  | some t => simp [signal, wake_eq_some]

/-- A signal finds a sleeper to wake, or nobody sleeps. -/
theorem exists_signal (m : Monitor T) : ∃ w m', m.signal w = some m' := by
  by_cases h : m.asleep = ∅
  · exact ⟨none, m, by simp [signal, h]⟩
  · obtain ⟨t, ht⟩ := Finset.nonempty_iff_ne_empty.mpr h
    exact ⟨some t, _, signal_eq_some.mpr (.inl ⟨t, rfl, ht, rfl⟩)⟩

/-- A signal leaves the mutex alone and puts nobody to sleep. -/
theorem signal_spec {w : Option T} (h : m.signal w = some m') :
    m'.owner = m.owner ∧ m'.asleep ⊆ m.asleep := by
  rcases signal_eq_some.mp h with ⟨t, -, -, rfl⟩ | ⟨-, -, rfl⟩
  · exact ⟨rfl, Finset.erase_subset _ _⟩
  · exact ⟨rfl, le_rfl⟩

end Sleep

/-! ### Mutual exclusion -/

/-- The threads that are where they hold the mutex are its owner. -/
def Excludes (m : Monitor T) (holds : T → Prop) : Prop := ∀ t, holds t ↔ m.owner = some t

variable {holds holds' : T → Prop}

theorem Excludes.eq (h : m.Excludes holds) {u : T} (ht : holds t) (hu : holds u) : t = u :=
  Option.some.inj (((h t).mp ht).symm.trans ((h u).mp hu))

theorem Excludes.free (h : m.Excludes holds) (hnone : ∀ t, ¬ holds t) : m.owner = none := by
  cases ho : m.owner with
  | none => rfl
  | some t => exact absurd ((h t).mpr ho) (hnone t)

/-- What a step of `t` does with the mutex, by whether `t` holds it before and after. -/
inductive Moves (t : T) (m m' : Monitor T) : Bool → Bool → Prop
  | keep {b : Bool} (hown : m'.owner = m.owner) : Moves t m m' b b
  | take {b : Bool} (hfree : m.owner = none) (hown : m'.owner = some t) : Moves t m m' b true
  | drop (hown : m'.owner = none) : Moves t m m' true false

/-- Mutual exclusion is kept by a step of `t` that leaves the other threads where they are. -/
theorem Excludes.moves (h : m.Excludes holds) {b b' : Bool} (hm : Moves t m m' b b')
    (hb : holds t ↔ b = true) (hb' : holds' t ↔ b' = true)
    (hother : ∀ u, u ≠ t → (holds' u ↔ holds u)) : m'.Excludes holds' := by
  intro u
  by_cases hu : u = t
  · subst hu
    cases hm with
    | keep hown => rw [hb', ← hb, h u, hown]
    | take _ hown => simp [hb', hown]
    | drop hown => simp [hb', hown]
  · rw [hother u hu, h u]
    cases hm with
    | keep hown => rw [hown]
    | take hfree hown => simp [hfree, hown, Ne.symm hu]
    | drop hown => simp [hown, (h t).mp (hb.mpr rfl), Ne.symm hu]

end Monitor
