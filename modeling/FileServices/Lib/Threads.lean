import Mathlib

/-!
# Threads that do not disturb each other

Threads take steps on a state that they share and on one of their own, in any order.  Where a step
goes the same way from shared states that a relation takes to be alike, and what the others do
keeps them alike, each thread comes to what it comes to alone.
-/

namespace Threads

variable {ι σ τ α : Type*}

/-- The steps of one thread by itself. -/
def alone (step : σ → τ → α → Option (σ × τ)) : σ → τ → List α → Option (σ × τ)
  | s, t, [] => some (s, t)
  | s, t, a :: as => (step s t a).bind fun r => alone step r.1 r.2 as

/-- What thread `i` does in an interleaving. -/
def ownSteps [DecidableEq ι] (i : ι) (es : List (ι × α)) : List α :=
  es.filterMap fun e => if e.1 = i then some e.2 else none

/-- The steps of all threads in the order given. -/
def interleaved [DecidableEq ι] (step : σ → τ → α → Option (σ × τ)) :
    σ → (ι → τ) → List (ι × α) → Option (σ × (ι → τ))
  | s, ts, [] => some (s, ts)
  | s, ts, e :: es => (step s (ts e.1) e.2).bind fun r =>
    interleaved step r.1 (Function.update ts e.1 r.2) es

/-- `R s a` says that a thread takes `a` for `s`: its own step from `a` does what it does from
`s`, and a step of another thread leaves `a` as good. -/
structure Undisturbed (step : σ → τ → α → Option (σ × τ)) (R : σ → σ → Prop) : Prop where
  own : ∀ {s a t x s' t'}, R s a → step s t x = some (s', t') →
    ∃ a', step a t x = some (a', t') ∧ R s' a'
  other : ∀ {s a t x s' t'}, R s a → step s t x = some (s', t') → R s' a

variable [DecidableEq ι] {step : σ → τ → α → Option (σ × τ)} {R : σ → σ → Prop}

theorem ownSteps_cons_self (i : ι) (x : α) (es : List (ι × α)) :
    ownSteps i ((i, x) :: es) = x :: ownSteps i es := by
  simp [ownSteps]

theorem ownSteps_cons_of_ne {i j : ι} (h : j ≠ i) (x : α) (es : List (ι × α)) :
    ownSteps i ((j, x) :: es) = ownSteps i es := by
  simp [ownSteps, h]

/-- In every interleaving each thread comes to what it comes to alone by the same steps. -/
theorem Undisturbed.alone_of_interleaved (h : Undisturbed step R) (i : ι) :
    ∀ {es : List (ι × α)} {s s' a : σ} {ts ts' : ι → τ}, R s a →
      interleaved step s ts es = some (s', ts') →
      ∃ a', alone step a (ts i) (ownSteps i es) = some (a', ts' i) ∧ R s' a'
  | [], s, s', a, ts, ts', hR, hrun => by
    obtain ⟨rfl, rfl⟩ := Prod.mk.inj (Option.some.inj hrun)
    exact ⟨a, rfl, hR⟩
  | (j, x) :: es, s, s', a, ts, ts', hR, hrun => by
    obtain ⟨⟨s₁, t₁⟩, hstep, hrest⟩ := Option.bind_eq_some_iff.mp hrun
    by_cases hji : j = i
    · subst hji
      obtain ⟨a₁, hown, hR₁⟩ := h.own hR hstep
      obtain ⟨a', halone, hR'⟩ := h.alone_of_interleaved j hR₁ hrest
      rw [Function.update_self] at halone
      refine ⟨a', ?_, hR'⟩
      rw [ownSteps_cons_self, alone, hown]
      exact halone
    · obtain ⟨a', halone, hR'⟩ := h.alone_of_interleaved i (h.other hR hstep) hrest
      rw [Function.update_of_ne (Ne.symm hji)] at halone
      exact ⟨a', by rw [ownSteps_cons_of_ne hji]; exact halone, hR'⟩

/-- What every step keeps, of the steps taken so far with the states they lead to, holds after
every interleaving. -/
theorem interleaved_induction {I : List (ι × α) → σ → (ι → τ) → Prop}
    (hstep : ∀ {es s ts i x s' t'}, I es s ts → step s (ts i) x = some (s', t') →
      I (es ++ [(i, x)]) s' (Function.update ts i t'))
    {es : List (ι × α)} {s s' : σ} {ts ts' : ι → τ} (h₀ : I [] s ts)
    (h : interleaved step s ts es = some (s', ts')) : I es s' ts' := by
  suffices hall : ∀ (es past : List (ι × α)) (s : σ) (ts : ι → τ), I past s ts →
      interleaved step s ts es = some (s', ts') → I (past ++ es) s' ts' from hall es [] s ts h₀ h
  intro es
  induction es with
  | nil =>
    intro past s ts hI hrun
    obtain ⟨rfl, rfl⟩ := Prod.mk.inj (Option.some.inj hrun)
    rwa [List.append_nil]
  | cons e es ih =>
    intro past s ts hI hrun
    obtain ⟨⟨s₁, t₁⟩, hfirst, hrest⟩ := Option.bind_eq_some_iff.mp hrun
    rw [List.append_cons]
    exact ih _ _ _ (hstep hI hfirst) hrest

/-- What every step keeps of the shared state and of the thread that takes it holds after every
interleaving. -/
theorem interleaved_keeps {P : σ → Prop} {Q : τ → Prop}
    (hstep : ∀ {s t x s' t'}, step s t x = some (s', t') → P s → Q t → P s' ∧ Q t')
    {es : List (ι × α)} {s s' : σ} {ts ts' : ι → τ}
    (h : interleaved step s ts es = some (s', ts')) (hs : P s) (hts : ∀ i, Q (ts i)) :
    P s' ∧ ∀ i, Q (ts' i) := by
  refine interleaved_induction (I := fun _ s ts => P s ∧ ∀ i, Q (ts i))
    (fun ⟨hs, hts⟩ hfirst => ?_) ⟨hs, hts⟩ h
  obtain ⟨hs', ht'⟩ := hstep hfirst hs (hts _)
  refine ⟨hs', fun i => ?_⟩
  rw [Function.update_apply]
  split_ifs
  · exact ht'
  · exact hts i

end Threads
