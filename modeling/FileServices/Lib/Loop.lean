import Mathlib

/-!
# Loops that block on their inputs

A loop that makes one blocking call in each iteration is a test at its head and a body over what
the calls return.  Run on a finite list of results, it leaves or asks for one more
(`Loop.run`), so that "the loop ends" is "some number of further results makes it leave".
-/

namespace Loop

variable {σ ι ρ : Type*}

/-- What an iteration does, and what a run has come to: go on from `s`, or leave with `r`. -/
inductive Outcome (σ ρ : Type*)
  | more (s : σ)
  | stop (r : ρ)
  deriving DecidableEq

/-- What a run has left with, if it has. -/
def Outcome.result : Outcome σ ρ → Option ρ
  | .more _ => none
  | .stop r => some r

@[simp] theorem Outcome.result_eq_some {o : Outcome σ ρ} {r : ρ} :
    o.result = some r ↔ o = .stop r := by
  cases o <;> simp [result]

/-- The loop leaves at its head with `head s = some r`; otherwise it takes the next result, and
with none left it waits. -/
def run (head : σ → Option ρ) (body : σ → ι → Outcome σ ρ) : σ → List ι → Outcome σ ρ
  | s, [] =>
    match head s with
    | some r => .stop r
    | none => .more s
  | s, i :: is =>
    match head s with
    | some r => .stop r
    | none =>
      match body s i with
      | .stop r => .stop r
      | .more s' => run head body s' is

variable {head : σ → Option ρ} {body : σ → ι → Outcome σ ρ}

theorem run_of_head {s : σ} {r : ρ} (h : head s = some r) :
    ∀ is : List ι, run head body s is = .stop r
  | [] => by simp [run, h]
  | i :: is => by simp [run, h]

theorem run_nil {s : σ} (h : head s = none) : run head body s [] = .more s := by
  simp [run, h]

theorem run_cons_more {s s' : σ} {i : ι} (hs : head s = none) (hb : body s i = .more s')
    (is : List ι) : run head body s (i :: is) = run head body s' is := by
  simp [run, hs, hb]

theorem run_cons_stop {s : σ} {r : ρ} {i : ι} (hs : head s = none) (hb : body s i = .stop r)
    (is : List ι) : run head body s (i :: is) = .stop r := by
  simp [run, hs, hb]

/-- A run over `is ++ js` is the run over `js` from where the run over `is` is left waiting. -/
theorem run_append : ∀ (is js : List ι) (s : σ), run head body s (is ++ js) =
    match run head body s is with
    | .stop r => .stop r
    | .more s' => run head body s' js
  | [], js, s => by
    rcases hs : head s with _ | r
    · simp [run_nil hs]
    · simp [run_of_head hs]
  | i :: is, js, s => by
    rcases hs : head s with _ | r
    · rcases hb : body s i with s' | r
      · rw [List.cons_append, run_cons_more hs hb, run_cons_more hs hb]
        exact run_append is js s'
      · rw [List.cons_append, run_cons_stop hs hb, run_cons_stop hs hb]
    · simp [run_of_head hs]

theorem run_stop_append {s : σ} {r : ρ} {is : List ι} (h : run head body s is = .stop r)
    (js : List ι) : run head body s (is ++ js) = .stop r := by
  rw [run_append, h]

theorem run_more_append {s s' : σ} {is : List ι} (h : run head body s is = .more s')
    (js : List ι) : run head body s (is ++ js) = run head body s' js := by
  rw [run_append, h]

/-- A run that is where the loop would be at `t` goes on as from `t`. -/
theorem run_append_of_eq {s t : σ} {is : List ι} (h : run head body s is = run head body t [])
    (js : List ι) : run head body s (is ++ js) = run head body t js := by
  rw [run_append, h, ← run_append, List.nil_append]

/-- The while rule: what each iteration keeps holds where the loop waits, and `Q` holds of what
it leaves with. -/
theorem run_induction {I : σ → Prop} {P : ι → Prop} {Q : ρ → Prop}
    (hmore : ∀ s i s', I s → P i → head s = none → body s i = .more s' → I s')
    (hhead : ∀ s r, I s → head s = some r → Q r)
    (hstop : ∀ s i r, I s → P i → head s = none → body s i = .stop r → Q r) :
    ∀ (is : List ι) (s : σ), I s → (∀ i ∈ is, P i) →
      match run head body s is with
      | .more s' => I s'
      | .stop r => Q r
  | [], s, hs, _ => by
    rcases hh : head s with _ | r
    · simpa [run_nil hh] using hs
    · simpa [run_of_head hh] using hhead s r hs hh
  | i :: is, s, hs, hP => by
    have hi := hP i List.mem_cons_self
    rcases hh : head s with _ | r
    · rcases hb : body s i with s' | r
      · rw [run_cons_more hh hb]
        exact run_induction hmore hhead hstop is s' (hmore s i s' hs hi hh hb)
          fun j hj => hP j (List.mem_cons_of_mem _ hj)
      · rw [run_cons_stop hh hb]
        exact hstop s i r hs hi hh hb
    · simpa [run_of_head hh] using hhead s r hs hh

/-! ### Endless results -/

/-- The loop leaves with `r` when its calls return `is 0`, `is 1`, and so on. -/
def Stops (head : σ → Option ρ) (body : σ → ι → Outcome σ ρ) (s : σ) (is : ℕ → ι) (r : ρ) : Prop :=
  ∃ n, run head body s ((List.range n).map is) = .stop r

/-- Where the loop comes back to its head after `n` iterations, if it does. -/
def after (head : σ → Option ρ) (body : σ → ι → Outcome σ ρ) (s : σ) (is : ℕ → ι) : ℕ → Option σ
  | 0 => some s
  | n + 1 =>
    match after head body s is n with
    | none => none
    | some t =>
      match head t, body t (is n) with
      | none, .more t' => some t'
      | _, _ => none

variable {s t : σ} {is : ℕ → ι} {r : ρ} {n : ℕ}

theorem after_succ : after head body s is (n + 1) = some t ↔
    ∃ t', after head body s is n = some t' ∧ head t' = none ∧ body t' (is n) = .more t := by
  rw [after]
  rcases after head body s is n with _ | t'
  · simp
  · rcases hh : head t' with _ | r <;> rcases hb : body t' (is n) with u | r <;> simp [hh, hb]

theorem after_of_le (h : after head body s is n = some t) : ∀ {m : ℕ}, m ≤ n →
    ∃ t', after head body s is m = some t' := by
  induction n generalizing t with
  | zero =>
    intro m hm
    obtain rfl := Nat.le_zero.mp hm
    exact ⟨t, h⟩
  | succ n ih =>
    intro m hm
    rcases Nat.lt_or_eq_of_le hm with hlt | rfl
    · obtain ⟨t', ht', -⟩ := after_succ.mp h
      exact ih ht' (Nat.lt_succ_iff.mp hlt)
    · exact ⟨t, h⟩

theorem run_after : ∀ {n : ℕ} {t : σ}, after head body s is n = some t →
    run head body s ((List.range n).map is) = run head body t []
  | 0, t, h => by
    obtain rfl := Option.some.inj h
    rfl
  | n + 1, t, h => by
    obtain ⟨t', ht', hh, hb⟩ := after_succ.mp h
    rw [List.range_succ, List.map_append, List.map_singleton, run_append, run_after ht',
      run_nil hh]
    exact run_cons_more hh hb []

/-- The loop leaves in the iteration that starts from `t`, on the result `i`. -/
def Leaves (head : σ → Option ρ) (body : σ → ι → Outcome σ ρ) (t : σ) (i : ι) (r : ρ) : Prop :=
  head t = some r ∨ head t = none ∧ body t i = .stop r

/-- The run over the first `n` results is in the loop, or has left it in some iteration. -/
theorem after_or_leaves (head : σ → Option ρ) (body : σ → ι → Outcome σ ρ) (s : σ) (is : ℕ → ι)
    (n : ℕ) : (∃ t, after head body s is n = some t)
      ∨ ∃ m t r, after head body s is m = some t ∧ Leaves head body t (is m) r
        ∧ run head body s ((List.range n).map is) = .stop r := by
  induction n with
  | zero => exact .inl ⟨s, rfl⟩
  | succ n ih =>
    rw [List.range_succ, List.map_append]
    rcases ih with ⟨t, ht⟩ | ⟨m, t, r, ht, hr, hrun⟩
    · rcases hh : head t with _ | r
      · rcases hb : body t (is n) with t' | r
        · exact .inl ⟨t', after_succ.mpr ⟨t, ht, hh, hb⟩⟩
        · refine .inr ⟨n, t, r, ht, .inr ⟨hh, hb⟩, ?_⟩
          rw [run_append, run_after ht, run_nil hh]
          exact run_cons_stop hh hb []
      · refine .inr ⟨n, t, r, ht, .inl hh, ?_⟩
        rw [run_append, run_after ht, run_of_head hh]
    · exact .inr ⟨m, t, r, ht, hr, run_stop_append hrun _⟩

/-- A loop that leaves does so at its head or in its body, in some iteration. -/
theorem stops_iff : Stops head body s is r ↔
    ∃ n t, after head body s is n = some t ∧ Leaves head body t (is n) r := by
  constructor
  · rintro ⟨n, hn⟩
    rcases after_or_leaves head body s is n with ⟨t, ht⟩ | ⟨m, t, u, ht, hu, hrun⟩
    · rw [run_after ht] at hn
      rcases hh : head t with _ | u
      · rw [run_nil hh] at hn
        cases hn
      · rw [run_of_head hh] at hn
        cases hn
        exact ⟨n, t, ht, .inl hh⟩
    · rw [hrun] at hn
      cases hn
      exact ⟨m, t, ht, hu⟩
  · rintro ⟨n, t, ht, hh | ⟨hh, hb⟩⟩
    · exact ⟨n, by rw [run_after ht, run_of_head hh]⟩
    · refine ⟨n + 1, ?_⟩
      rw [List.range_succ, List.map_append, List.map_singleton, run_append, run_after ht,
        run_nil hh]
      exact run_cons_stop hh hb []

/-- A loop leaves with one result. -/
theorem Stops.unique {r' : ρ} (h : Stops head body s is r) (h' : Stops head body s is r') :
    r = r' := by
  obtain ⟨n, hn⟩ := h
  obtain ⟨m, hm⟩ := h'
  rcases Nat.le_total n m with hle | hle
  · obtain ⟨k, rfl⟩ := Nat.exists_eq_add_of_le hle
    rw [List.range_add, List.map_append, run_stop_append hn] at hm
    exact Outcome.stop.inj hm
  · obtain ⟨k, rfl⟩ := Nat.exists_eq_add_of_le hle
    rw [List.range_add, List.map_append, run_stop_append hm] at hn
    exact (Outcome.stop.inj hn).symm

/-- The loop leaves with `r` when it has taken `n` results, and waits for a further one until
then. -/
def StopsAfter (head : σ → Option ρ) (body : σ → ι → Outcome σ ρ) (s : σ) (is : ℕ → ι) (n : ℕ)
    (r : ρ) : Prop :=
  run head body s ((List.range n).map is) = .stop r
    ∧ ∀ m < n, ∃ t, run head body s ((List.range m).map is) = .more t

theorem waits_of_after : ∀ {n : ℕ} {t : σ}, after head body s is n = some t → ∀ m < n,
    ∃ t', run head body s ((List.range m).map is) = .more t'
  | 0, _, _, m, hm => absurd hm (Nat.not_lt_zero m)
  | n + 1, t, h, m, hm => by
    obtain ⟨t', ht', hh, -⟩ := after_succ.mp h
    rcases Nat.lt_succ_iff_lt_or_eq.mp hm with hlt | rfl
    · exact waits_of_after ht' m hlt
    · exact ⟨t', by rw [run_after ht', run_nil hh]⟩

theorem StopsAfter.of_head (h : after head body s is n = some t) (hh : head t = some r) :
    StopsAfter head body s is n r :=
  ⟨by rw [run_after h, run_of_head hh], waits_of_after h⟩

theorem StopsAfter.of_body (h : after head body s is n = some t) (hh : head t = none)
    (hb : body t (is n) = .stop r) : StopsAfter head body s is (n + 1) r := by
  refine ⟨?_, fun m hm => ?_⟩
  · rw [List.range_succ, List.map_append, List.map_singleton, run_append, run_after h, run_nil hh]
    exact run_cons_stop hh hb []
  · rcases Nat.lt_succ_iff_lt_or_eq.mp hm with hlt | rfl
    · exact waits_of_after h m hlt
    · exact ⟨t, by rw [run_after h, run_nil hh]⟩

/-! ### Loops with a measure -/

section Measure

variable {I : σ → Prop} {Q : ρ → Prop} {rank : σ → ℕ}

/-- Iterations that keep `I` and lower the rank can be made no more often than the rank says. -/
theorem after_rank (hbody : ∀ s n s', I s → head s = none → body s (is n) = .more s' →
    I s' ∧ rank s' < rank s) (hs : I s) : ∀ {n : ℕ} {t : σ}, after head body s is n = some t →
      I t ∧ rank t + n ≤ rank s
  | 0, t, h => by
    obtain rfl := Option.some.inj h
    exact ⟨hs, le_rfl⟩
  | n + 1, t, h => by
    obtain ⟨t', ht', hh, hb⟩ := after_succ.mp h
    obtain ⟨hI, hle⟩ := after_rank hbody hs ht'
    obtain ⟨hI', hlt⟩ := hbody t' n t hI hh hb
    exact ⟨hI', by omega⟩

/-- The while rule for total correctness: the loop is left, whatever its calls return. -/
theorem stopsAfter_of_rank (hbody : ∀ s n s', I s → head s = none → body s (is n) = .more s' →
      I s' ∧ rank s' < rank s)
    (hhead : ∀ s r, I s → head s = some r → Q r)
    (hstop : ∀ s n r, I s → head s = none → body s (is n) = .stop r → Q r) (hs : I s) :
    ∃ n r, StopsAfter head body s is n r ∧ Q r := by
  rcases after_or_leaves head body s is (rank s + 1) with ⟨t, ht⟩ | ⟨m, t, r, ht, hleaves, -⟩
  · have := (after_rank hbody hs ht).2
    omega
  · obtain ⟨hI, -⟩ := after_rank hbody hs ht
    rcases hleaves with hh | ⟨hh, hb⟩
    · exact ⟨m, r, .of_head ht hh, hhead t r hI hh⟩
    · exact ⟨m + 1, r, .of_body ht hh hb, hstop t m r hI hh hb⟩

end Measure

/-! ### Bodies that go on -/

section Orbit

variable {f : ℕ → σ}

/-- A loop whose body goes on from `f n` to `f (n + 1)` comes to `f n` unless its head leaves. -/
theorem after_orbit (hbody : ∀ n, body (f n) (is n) = .more (f (n + 1))) :
    after head body (f 0) is n = some t ↔ t = f n ∧ ∀ m < n, head (f m) = none := by
  induction n generalizing t with
  | zero => simp [after, eq_comm]
  | succ n ih =>
    rw [after_succ]
    constructor
    · rintro ⟨t', ht', hh, hb⟩
      obtain ⟨rfl, hbefore⟩ := ih.mp ht'
      refine ⟨?_, fun m hm => ?_⟩
      · rw [hbody n] at hb
        exact (Outcome.more.inj hb).symm
      · rcases Nat.lt_succ_iff_lt_or_eq.mp hm with hlt | rfl
        · exact hbefore m hlt
        · exact hh
    · rintro ⟨rfl, hbefore⟩
      exact ⟨f n, ih.mpr ⟨rfl, fun m hm => hbefore m (Nat.lt_succ_of_lt hm)⟩,
        hbefore n (Nat.lt_succ_self n), hbody n⟩

/-- Such a loop leaves where its head first does. -/
theorem stops_orbit (hbody : ∀ n, body (f n) (is n) = .more (f (n + 1))) :
    Stops head body (f 0) is r ↔ ∃ n, head (f n) = some r ∧ ∀ m < n, head (f m) = none := by
  rw [stops_iff]
  refine exists_congr fun n => ⟨?_, ?_⟩
  · rintro ⟨t, ht, hleave⟩
    obtain ⟨rfl, hbefore⟩ := (after_orbit hbody).mp ht
    rcases hleave with hh | ⟨-, hb⟩
    · exact ⟨hh, hbefore⟩
    · rw [hbody n] at hb
      cases hb
  · rintro ⟨hh, hbefore⟩
    exact ⟨f n, (after_orbit hbody).mpr ⟨rfl, hbefore⟩, .inl hh⟩

end Orbit

end Loop
