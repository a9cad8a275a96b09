import FileServices.Lib.Loop

/-!
# Bisection

A search of a list for an item that compares equal, where the items that compare smaller than
what is looked for stand before the others.  The bounds are signed and the read of an item can
go outside the list: that it never does is part of `search_spec`.
-/

namespace Bisect

variable {α : Type*}

/-- The items `lo..hi` are those that are left. -/
structure Range where
  lo : ℤ
  hi : ℤ
  deriving DecidableEq

/-- What a search ends with: a read outside the list, no item, or one that compares equal. -/
inductive Found (α : Type*)
  | outside
  | absent
  | found (a : α)
  deriving DecidableEq

def head (s : Range) : Option (Found α) := if s.lo ≤ s.hi then none else some .absent

/-- One item is compared: `compare a` is how what is looked for stands to `a`. -/
def body (compare : α → Ordering) (items : List α) (s : Range) (_ : Unit) :
    Loop.Outcome Range (Found α) :=
  let mid := s.lo + (s.hi - s.lo) / 2
  if mid < 0 then .stop .outside
  else
    match items[mid.toNat]? with
    | none => .stop .outside
    | some a =>
      match compare a with
      | .lt => .more { s with hi := mid - 1 }
      | .gt => .more { s with lo := mid + 1 }
      | .eq => .stop (.found a)

/-- The search, run for `n` iterations. -/
def search (compare : α → Ordering) (items : List α) (n : ℕ) : Loop.Outcome Range (Found α) :=
  Loop.run head (body compare items) ⟨0, items.length - 1⟩ (List.replicate n ())

/-- What is looked for is not before an item that is too small, nor after one that is too large. -/
def Parted (compare : α → Ordering) (items : List α) : Prop :=
  items.Pairwise fun a b =>
    (compare a = .lt → compare b = .lt) ∧ (compare b = .gt → compare a = .gt)

/-- What the search says is so. -/
def Found.Right (compare : α → Ordering) (items : List α) : Found α → Prop
  | .outside => False
  | .absent => ∀ a ∈ items, compare a ≠ .eq
  | .found a => a ∈ items ∧ compare a = .eq

/-- The items outside the range are too small or too large. -/
structure Narrowed (compare : α → Ordering) (items : List α) (s : Range) : Prop where
  lo_nonneg : 0 ≤ s.lo
  hi_lt : s.hi < items.length
  below : ∀ (i : ℕ) a, items[i]? = some a → (i : ℤ) < s.lo → compare a = .gt
  above : ∀ (i : ℕ) a, items[i]? = some a → s.hi < (i : ℤ) → compare a = .lt

variable {compare : α → Ordering} {items : List α} {s : Range}

theorem narrowed_start : Narrowed compare items ⟨0, items.length - 1⟩ where
  lo_nonneg := le_rfl
  hi_lt := by dsimp only; omega
  below i _ _ h := by dsimp only at h; omega
  above i a h hi := by
    obtain ⟨hlt, -⟩ := List.getElem?_eq_some_iff.mp h
    dsimp only at hi
    omega

theorem Parted.of_le (h : Parted compare items) {i j : ℕ} {a b : α} (ha : items[i]? = some a)
    (hb : items[j]? = some b) (hij : i ≤ j) :
    (compare a = .lt → compare b = .lt) ∧ (compare b = .gt → compare a = .gt) := by
  rcases Nat.lt_or_eq_of_le hij with hlt | rfl
  · obtain ⟨hi, rfl⟩ := List.getElem?_eq_some_iff.mp ha
    obtain ⟨hj, rfl⟩ := List.getElem?_eq_some_iff.mp hb
    exact List.pairwise_iff_getElem.mp h i j hi hj hlt
  · obtain rfl := Option.some.inj (ha.symm.trans hb)
    exact ⟨id, id⟩

/-- An iteration reads inside the list and finds the item or halves the range. -/
theorem Narrowed.body (hs : Narrowed compare items s) (hparted : Parted compare items)
    (hle : s.lo ≤ s.hi) : (∃ a, body compare items s () = .stop (.found a)
        ∧ (Found.found a).Right compare items)
      ∨ ∃ s', body compare items s () = .more s' ∧ Narrowed compare items s'
        ∧ s'.hi - s'.lo < s.hi - s.lo := by
  have hlo := hs.lo_nonneg
  have hhi := hs.hi_lt
  obtain ⟨mid, hmid⟩ := Int.eq_ofNat_of_zero_le
    (show 0 ≤ s.lo + (s.hi - s.lo) / 2 by omega)
  have hlt : mid < items.length := by omega
  have hget : items[mid]? = some items[mid] := List.getElem?_eq_getElem hlt
  simp only [Bisect.body, hmid, Int.toNat_natCast, hget]
  rw [if_neg (by omega)]
  rcases hc : compare items[mid] with _ | _ | _
  · refine .inr ⟨_, rfl, ⟨hlo, by dsimp only; omega, hs.below, fun i a ha hi => ?_⟩, by
      dsimp only; omega⟩
    exact (hparted.of_le hget ha (by dsimp only at hi; omega)).1 hc
  · exact .inl ⟨_, rfl, List.getElem_mem hlt, hc⟩
  · refine .inr ⟨_, rfl, ⟨by dsimp only; omega, hhi, fun i a ha hi => ?_, hs.above⟩, by
      dsimp only; omega⟩
    exact (hparted.of_le ha hget (by dsimp only at hi; omega)).2 hc

theorem Narrowed.absent (hs : Narrowed compare items s) (hlt : s.hi < s.lo) :
    (Found.absent : Found α).Right compare items := by
  intro a ha heq
  obtain ⟨i, hi⟩ := List.getElem?_of_mem ha
  rcases lt_or_ge (i : ℤ) s.lo with h | h
  · rw [hs.below i a hi h] at heq
    cases heq
  · rw [hs.above i a hi (by omega)] at heq
    cases heq

theorem Narrowed.run (hparted : Parted compare items) : ∀ (n : ℕ) (s : Range),
    Narrowed compare items s → s.hi - s.lo < n →
      ∃ r, Loop.run head (Bisect.body compare items) s (List.replicate n ()) = .stop r
        ∧ r.Right compare items
  | n, s, hs, hn => by
    by_cases hle : s.lo ≤ s.hi
    · have hhead : (head s : Option (Found α)) = none := if_pos hle
      match n with
      | 0 => omega
      | n + 1 =>
        rw [List.replicate_succ]
        rcases hs.body hparted hle with ⟨a, hstop, hright⟩ | ⟨s', hmore, hs', hlt⟩
        · exact ⟨_, Loop.run_cons_stop hhead hstop _, hright⟩
        · rw [Loop.run_cons_more hhead hmore]
          exact Narrowed.run hparted n s' hs' (by push_cast at hn; omega)
    · have hhead : (head s : Option (Found α)) = some .absent := if_neg hle
      exact ⟨_, Loop.run_of_head hhead _, hs.absent (not_le.mp hle)⟩

/-- The search ends, has read inside the list only, and finds an item that compares equal just
when there is one. -/
theorem search_spec (hparted : Parted compare items) {n : ℕ} (hn : items.length ≤ n) :
    ∃ r, search compare items n = .stop r ∧ r.Right compare items :=
  narrowed_start.run hparted n _ (by dsimp only; omega)

end Bisect
