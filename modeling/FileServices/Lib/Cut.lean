import Mathlib

/-!
# Cutting a stream into pieces

A stream socket hands over a stream in pieces of its own choosing.  `IsCut` says that a list of
pieces is such a delivery, and `EndsAt` where its pieces end.
-/

namespace Cut

variable {α : Type*}

/-- `ps` delivers the stream `s` in nonempty pieces of at most `cap` elements. -/
def IsCut (cap : ℕ) (s : List α) (ps : List (List α)) : Prop :=
  ps.flatten = s ∧ ∀ p ∈ ps, p ≠ [] ∧ p.length ≤ cap

/-- One of the pieces ends `m` elements into the stream. -/
def EndsAt (ps : List (List α)) (m : ℕ) : Prop :=
  ∃ as bs, ps = as ++ bs ∧ as ≠ [] ∧ as.flatten.length = m

instance (cap : ℕ) (s : List α) (ps : List (List α)) [DecidableEq α] :
    Decidable (IsCut cap s ps) := by
  unfold IsCut
  infer_instance

variable {cap : ℕ} {s : List α} {p : List α} {ps : List (List α)}

theorem IsCut.flatten (h : IsCut cap s ps) : ps.flatten = s := h.1

theorem IsCut.ne_nil (h : IsCut cap s ps) : ∀ p ∈ ps, p ≠ [] := fun p hp => (h.2 p hp).1

theorem IsCut.eq_nil (h : IsCut cap s []) : s = [] := by
  simpa using h.1.symm

theorem IsCut.nil_of_stream (h : IsCut cap ([] : List α) ps) : ps = [] := by
  rcases ps with _ | ⟨p, ps⟩
  · rfl
  · have hp := h.ne_nil p List.mem_cons_self
    have hf : p ++ ps.flatten = [] := by simpa using h.flatten
    exact absurd (List.append_eq_nil_iff.mp hf).1 hp

theorem IsCut.cons (h : IsCut cap s (p :: ps)) :
    s = p ++ ps.flatten ∧ p ≠ [] ∧ p.length ≤ cap ∧ IsCut cap ps.flatten ps :=
  ⟨by simpa using h.1.symm, (h.2 p List.mem_cons_self).1, (h.2 p List.mem_cons_self).2, rfl,
    fun q hq => h.2 q (List.mem_cons_of_mem _ hq)⟩

/-- A piece of `p :: ps` ends where `p` and some of the pieces after it do. -/
theorem endsAt_cons {m : ℕ} :
    EndsAt (p :: ps) m ↔ ∃ cs bs, ps = cs ++ bs ∧ (p :: cs).flatten.length = m := by
  constructor
  · rintro ⟨_ | ⟨a, cs⟩, bs, hab, hne, hm⟩
    · exact absurd rfl hne
    · rw [List.cons_append] at hab
      obtain ⟨rfl, rfl⟩ := List.cons.inj hab
      exact ⟨cs, bs, rfl, hm⟩
  · rintro ⟨cs, bs, rfl, hm⟩
    exact ⟨p :: cs, bs, rfl, by simp, hm⟩

/-- The pieces up to the one that ends at `m` are the first `m` elements. -/
theorem take_flatten {as bs : List (List α)} :
    (as ++ bs).flatten.take as.flatten.length = as.flatten := by
  rw [List.flatten_append, List.take_left']
  rfl

/-- Of two places where nonempty pieces end, the earlier one ends fewer pieces. -/
theorem lt_flatten_iff {as bs cs ds : List (List α)} (h : as ++ bs = cs ++ ds)
    (hne : ∀ p ∈ cs ++ ds, p ≠ []) :
    as.flatten.length < cs.flatten.length ↔ ∃ es, es ≠ [] ∧ cs = as ++ es := by
  constructor
  · intro hlt
    rcases List.append_eq_append_iff.mp h with ⟨es, rfl, -⟩ | ⟨es, rfl, -⟩
    · refine ⟨es, ?_, rfl⟩
      rintro rfl
      simp at hlt
    · rw [List.flatten_append, List.length_append] at hlt
      omega
  · rintro ⟨_ | ⟨e, es⟩, hes, rfl⟩
    · exact absurd rfl hes
    · have he : 0 < e.length := List.length_pos_of_ne_nil (hne e (by simp))
      simp only [List.flatten_append, List.flatten_cons, List.length_append]
      omega

end Cut
