import Mathlib

/-!
# What regular expressions match

A word and a set of letters as regular expressions, and when a text matches those and a repetition
of the set.
-/

namespace Regex

open RegularExpression

variable {α : Type*} [DecidableEq α]

/-- Any of the expressions. -/
def anyOf (Ps : List (RegularExpression α)) : RegularExpression α := Ps.foldr (· + ·) 0

/-- The word and nothing else. -/
def lit (w : List α) : RegularExpression α := w.foldr (fun a P => char a * P) 1

/-- One letter of those given. -/
def letter (as : List α) : RegularExpression α := anyOf (as.map char)

variable {Ps : List (RegularExpression α)} {as w x : List α}

theorem anyOf_rmatch_iff : (anyOf Ps).rmatch x ↔ ∃ P ∈ Ps, P.rmatch x := by
  induction Ps with
  | nil => simp [anyOf]
  | cons P Ps ih =>
    rw [anyOf, List.foldr_cons, add_rmatch_iff, List.exists_mem_cons_iff]
    exact or_congr_right ih

theorem lit_rmatch_iff : (lit w).rmatch x ↔ x = w := by
  induction w generalizing x with
  | nil => exact one_rmatch_iff x
  | cons a w ih =>
    rw [lit, List.foldr_cons, mul_rmatch_iff]
    constructor
    · rintro ⟨t, u, rfl, ht, hu⟩
      rw [(char_rmatch_iff a t).mp ht, ih.mp hu]
      rfl
    · rintro rfl
      exact ⟨[a], w, rfl, (char_rmatch_iff a [a]).mpr rfl, ih.mpr rfl⟩

theorem letter_rmatch_iff : (letter as).rmatch x ↔ ∃ a ∈ as, x = [a] := by
  rw [letter, anyOf_rmatch_iff]
  simp only [List.mem_map, exists_exists_and_eq_and, char_rmatch_iff]

/-- A repetition of letters is a text of them. -/
theorem star_letter_rmatch_iff : (letter as).star.rmatch x ↔ ∀ a ∈ x, a ∈ as := by
  rw [star_rmatch_iff]
  constructor
  · rintro ⟨S, rfl, hS⟩ a ha
    obtain ⟨t, ht, hat⟩ := List.mem_flatten.mp ha
    obtain ⟨b, hb, rfl⟩ := letter_rmatch_iff.mp (hS t ht).2
    rwa [List.mem_singleton.mp hat]
  · intro h
    refine ⟨x.map fun a => [a], (List.flatMap_singleton' x).symm, fun t ht => ?_⟩
    obtain ⟨a, ha, rfl⟩ := List.mem_map.mp ht
    exact ⟨List.cons_ne_nil a [], letter_rmatch_iff.mpr ⟨a, h a ha, rfl⟩⟩

end Regex
