import Mathlib

/-!
# Transition systems by a partial step function

`step a s` is the state after the action `a`, where `a` is enabled.  A run is taken under a
condition on its steps, so that a result about all runs and one about the runs that meet a
condition are the same kind of statement.
-/

namespace Trans

variable {α σ : Type*} {step : α → σ → Option σ} {ok : σ → α → Prop} {s₀ : σ}

/-- The states that steps meeting `ok` lead to from `s₀`. -/
inductive Reach (step : α → σ → Option σ) (ok : σ → α → Prop) (s₀ : σ) : σ → Prop
  | refl : Reach step ok s₀ s₀
  | tail {s s' : σ} {a : α} : Reach step ok s₀ s → ok s a → step a s = some s' →
      Reach step ok s₀ s'

/-- No action of the kind `own` is enabled. -/
def Stuck (step : α → σ → Option σ) (own : α → Prop) (s : σ) : Prop :=
  ∀ a, own a → step a s = none

/-- What holds at the start and is kept by every step holds in every state reached. -/
theorem Reach.invariant {I : σ → Prop} (h₀ : I s₀)
    (hstep : ∀ s a s', I s → ok s a → step a s = some s' → I s') {s : σ}
    (h : Reach step ok s₀ s) : I s := by
  induction h with
  | refl => exact h₀
  | tail _ hok hs ih => exact hstep _ _ _ ih hok hs

theorem Reach.mono {ok' : σ → α → Prop} (hok : ∀ s a, ok s a → ok' s a) {s : σ}
    (h : Reach step ok s₀ s) : Reach step ok' s₀ s := by
  induction h with
  | refl => exact .refl
  | tail _ ha hs ih => exact ih.tail (hok _ _ ha) hs

/-- The state after a list of actions, where each is enabled and meets the test. -/
def exec (step : α → σ → Option σ) (test : σ → α → Bool) : List α → σ → Option σ
  | [], s => some s
  | a :: as, s => if test s a then (step a s).bind (exec step test as) else none

theorem Reach.exec {test : σ → α → Bool} (htest : ∀ s a, test s a = true → ok s a) :
    ∀ (as : List α) {s s' : σ}, Reach step ok s₀ s → exec step test as s = some s' →
      Reach step ok s₀ s'
  | [], s, s', h, he => by
    rw [Trans.exec, Option.some.injEq] at he
    exact he ▸ h
  | a :: as, s, s', h, he => by
    rw [Trans.exec] at he
    split_ifs at he with ha
    obtain ⟨t, ht, hrest⟩ := Option.bind_eq_some_iff.mp he
    exact Reach.exec htest as (h.tail (htest s a ha) ht) hrest

/-! ### Endless runs -/

/-- The states that a total step function goes through, given what decides each step. -/
def states (next : σ → α → σ) (s₀ : σ) (as : ℕ → α) : ℕ → σ
  | 0 => s₀
  | n + 1 => next (states next s₀ as n) (as n)

theorem states_invariant {next : σ → α → σ} {as : ℕ → α} {I : σ → Prop} (h₀ : I s₀)
    (hnext : ∀ n, I (states next s₀ as n) → I (states next s₀ as (n + 1))) :
    ∀ n, I (states next s₀ as n)
  | 0 => h₀
  | n + 1 => hnext n (states_invariant h₀ hnext n)

/-- Where each step off the goal comes to it or to a lower rank, the goal is met again and again. -/
theorem recurs {f : ℕ → σ} (goal : σ → Prop) (rank : σ → ℕ)
    (hstep : ∀ n, ¬ goal (f n) → goal (f (n + 1)) ∨ rank (f (n + 1)) < rank (f n)) (n : ℕ) :
    ∃ m, n ≤ m ∧ goal (f m) := by
  induction hr : rank (f n) using Nat.strong_induction_on generalizing n with
  | _ r ih =>
    by_cases hn : goal (f n)
    · exact ⟨n, le_rfl, hn⟩
    · rcases hstep n hn with hgoal | hlt
      · exact ⟨n + 1, n.le_succ, hgoal⟩
      · obtain ⟨m, hm, hgoal⟩ := ih _ (hr ▸ hlt) (n + 1) rfl
        exact ⟨m, n.le_succ.trans hm, hgoal⟩

end Trans
