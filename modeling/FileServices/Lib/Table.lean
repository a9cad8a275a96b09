import Mathlib

/-!
# Tables with room for so many entries

A table has a fixed number of places.  An entry goes into the lowest free place, and a table
without a free place takes no more.
-/

/-- What each place of a table is taken for. -/
structure Table (α : Type*) where
  places : List (Option α)
  deriving DecidableEq

namespace Table

variable {α : Type*}

/-- Puts `a` into the lowest free place. -/
def takePlace (a : α) : List (Option α) → Option (ℕ × List (Option α))
  | [] => none
  | none :: es => some (0, some a :: es)
  | some b :: es => (takePlace a es).map fun r => (r.1 + 1, some b :: r.2)

/-- The number of the place that `a` is given, and the table with `a` in it. -/
def take (t : Table α) (a : α) : Option (ℕ × Table α) :=
  (takePlace a t.places).map fun r => (r.1, ⟨r.2⟩)

def room (t : Table α) : ℕ := t.places.countP Option.isNone

def Holds (t : Table α) (a : α) : Prop := some a ∈ t.places

/-- The table without the entries that meet the test. -/
def less (t : Table α) (test : α → Bool) : Table α :=
  ⟨t.places.map fun e => e.filter fun a => !test a⟩

variable {t t' : Table α} {a b : α} {n : ℕ} {test : α → Bool}

theorem takePlace_eq_none : ∀ {es : List (Option α)},
    takePlace a es = none ↔ es.countP Option.isNone = 0
  | [] => by simp [takePlace]
  | none :: es => by simp [takePlace]
  | some b :: es => by simpa [takePlace] using takePlace_eq_none

theorem takePlace_eq_some : ∀ {es es' : List (Option α)} {n : ℕ},
    takePlace a es = some (n, es') → ∃ taken free, es = taken ++ none :: free
      ∧ es' = taken ++ some a :: free ∧ taken.length = n ∧ none ∉ taken
  | [], es', n, h => by simp [takePlace] at h
  | none :: es, es', n, h => by
    obtain ⟨rfl, rfl⟩ := Prod.mk.inj (Option.some.inj h)
    exact ⟨[], es, rfl, rfl, rfl, List.not_mem_nil⟩
  | some b :: es, es', n, h => by
    obtain ⟨⟨m, rest⟩, hrest, hr⟩ := Option.map_eq_some_iff.mp h
    obtain ⟨rfl, rfl⟩ := Prod.mk.inj hr
    obtain ⟨taken, free, rfl, rfl, rfl, hno⟩ := takePlace_eq_some hrest
    exact ⟨some b :: taken, free, rfl, rfl, rfl, by simpa using hno⟩

/-- A table takes an entry unless it is full. -/
theorem take_eq_none : t.take a = none ↔ t.room = 0 := by
  rw [take, Option.map_eq_none_iff, takePlace_eq_none, room]

theorem take_eq_some (h : t.take a = some (n, t')) : ∃ taken free,
    t.places = taken ++ none :: free ∧ t'.places = taken ++ some a :: free
      ∧ taken.length = n ∧ none ∉ taken := by
  obtain ⟨⟨m, places⟩, hplace, hr⟩ := Option.map_eq_some_iff.mp h
  obtain ⟨rfl, rfl⟩ := Prod.mk.inj hr
  exact takePlace_eq_some hplace

theorem room_take (h : t.take a = some (n, t')) : t.room = t'.room + 1 := by
  obtain ⟨taken, free, ht, ht', -, -⟩ := take_eq_some h
  simp only [room, ht, ht', List.countP_append, List.countP_cons]
  simp [Nat.add_assoc]

theorem holds_take (h : t.take a = some (n, t')) : t'.Holds b ↔ b = a ∨ t.Holds b := by
  obtain ⟨taken, free, ht, ht', -, -⟩ := take_eq_some h
  simp only [Holds, ht, ht', List.mem_append, List.mem_cons, Option.some.injEq, reduceCtorEq,
    false_or]
  tauto

/-- An entry that meets the test makes no difference to the rest. -/
theorem less_take (ha : test a = true) (h : t.take a = some (n, t')) :
    t'.less test = t.less test := by
  obtain ⟨taken, free, ht, ht', -, -⟩ := take_eq_some h
  simp [less, ht, ht', ha]

theorem holds_less : (t.less test).Holds a ↔ t.Holds a ∧ test a = false := by
  simp [Holds, less, Option.filter_eq_some_iff]

end Table
