import Mathlib

/-!
# Counting over the threads of a family

`total f w` sums what `f` counts in each of the local states `w`.  A step of one thread changes
it by what that thread's own state changes.
-/

namespace Total

variable {ι β : Type*} [Fintype ι] {f g : β → ℕ} {w : ι → β}

def total (f : β → ℕ) (w : ι → β) : ℕ := ∑ k, f (w k)

theorem total_update [DecidableEq ι] (f : β → ℕ) (w : ι → β) (k : ι) (x : β) :
    total f (Function.update w k x) + f (w k) = total f w + f x := by
  have hrest : ∑ j ∈ Finset.univ.erase k, f (Function.update w k x j)
      = ∑ j ∈ Finset.univ.erase k, f (w j) := by
    refine Finset.sum_congr rfl fun j hj => ?_
    rw [Function.update_of_ne (Finset.ne_of_mem_erase hj)]
  have hnew := Finset.add_sum_erase Finset.univ (fun j => f (Function.update w k x j))
    (Finset.mem_univ k)
  have hold := Finset.add_sum_erase Finset.univ (fun j => f (w j)) (Finset.mem_univ k)
  simp only [Function.update_self] at hnew
  unfold total
  omega

theorem le_total (f : β → ℕ) (w : ι → β) (k : ι) : f (w k) ≤ total f w :=
  Finset.single_le_sum (f := fun j => f (w j)) (fun _ _ => Nat.zero_le _) (Finset.mem_univ k)

theorem total_eq_zero (h : ∀ k, f (w k) = 0) : total f w = 0 :=
  Finset.sum_eq_zero fun k _ => h k

theorem total_ite_eq_one (p : β → Prop) [DecidablePred p] :
    total (fun x => if p x then 1 else 0) w = 1 ↔ ∃! k, p (w k) := by
  rw [Fintype.existsUnique_iff_card_one, Finset.card_filter]
  rfl

end Total
