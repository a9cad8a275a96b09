import Mathlib

/-!
# Where a path leads

A path is resolved by its text: `.` and the empty component are left out, and `..` cancels the
name before it.  A `..` with nothing before it stays at the root of a rooted path and leads one
level up from where any other path starts.
-/

namespace Path

variable {ν : Type*}

inductive Component (ν : Type*)
  | stay
  | up
  | name (n : ν)
  deriving DecidableEq

/-- How far up from the start, and the names from there. -/
structure Place (ν : Type*) where
  rooted : Bool
  up : ℕ
  names : List ν
  deriving DecidableEq

namespace Place

def step (p : Place ν) : Component ν → Place ν
  | .stay => p
  | .up =>
    if p.names.isEmpty then if p.rooted then p else { p with up := p.up + 1 }
    else { p with names := p.names.dropLast }
  | .name n => { p with names := p.names ++ [n] }

def walk (p : Place ν) (cs : List (Component ν)) : Place ν := cs.foldl step p

/-- Where a path that is not rooted starts. -/
def start : Place ν := ⟨false, 0, []⟩

def StrictlyBelow (p q : Place ν) : Prop :=
  p.rooted = q.rooted ∧ p.up = q.up ∧ ∃ n ns, p.names = q.names ++ n :: ns

variable {p q : Place ν} {c : Component ν} {cs cs' : List (Component ν)}

@[simp] theorem walk_nil : p.walk [] = p := rfl

@[simp] theorem walk_cons : p.walk (c :: cs) = (p.step c).walk cs := rfl

theorem walk_append : p.walk (cs ++ cs') = (p.walk cs).walk cs' := List.foldl_append

theorem up_le_step (p : Place ν) (c : Component ν) : p.up ≤ (p.step c).up := by
  cases c with
  | stay => exact le_rfl
  | up =>
    unfold step
    split_ifs
    · exact le_rfl
    · exact Nat.le_succ _
    · exact le_rfl
  | name n => exact le_rfl

theorem step_up_concat (rooted : Bool) (up : ℕ) (ns : List ν) (n : ν) :
    step ⟨rooted, up, ns ++ [n]⟩ .up = ⟨rooted, up, ns⟩ := by
  simp [step]

/-- What has been climbed above the start is never taken back. -/
theorem up_le_walk : ∀ (cs : List (Component ν)) (p : Place ν), p.up ≤ (p.walk cs).up
  | [], _ => le_rfl
  | c :: cs, p => (up_le_step p c).trans (up_le_walk cs (p.step c))

/-- A walk that never climbs above its start is the same walk from anywhere. -/
theorem walk_of_up_eq_zero (p : Place ν) : ∀ (cs : List (Component ν)) (ns : List ν),
    (walk ⟨false, 0, ns⟩ cs).up = 0 → walk { p with names := p.names ++ ns } cs
      = { p with names := p.names ++ (walk ⟨false, 0, ns⟩ cs).names }
  | [], _, _ => rfl
  | .stay :: cs, ns, h => walk_of_up_eq_zero p cs ns h
  | .name n :: cs, ns, h => by
    have ih := walk_of_up_eq_zero p cs (ns ++ [n]) h
    rw [← List.append_assoc] at ih
    exact ih
  | .up :: cs, ns, h => by
    rcases List.eq_nil_or_concat' ns with rfl | ⟨ns, n, rfl⟩
    · have hle : 1 ≤ (walk ⟨false, 0, []⟩ (.up :: cs) : Place ν).up :=
        up_le_walk cs (⟨false, 1, []⟩ : Place ν)
      omega
    · have ih := walk_of_up_eq_zero p cs ns
      rw [walk_cons, step_up_concat] at h
      rw [walk_cons, walk_cons, step_up_concat, ← List.append_assoc, step_up_concat]
      exact ih h

/-- Where a walk from the start ends below it, the same walk from any place ends below that. -/
theorem strictlyBelow_walk (h : (start.walk cs).StrictlyBelow start) (p : Place ν) :
    (p.walk cs).StrictlyBelow p := by
  obtain ⟨-, hup, n, ns, hnames⟩ := h
  have hwalk := walk_of_up_eq_zero p cs [] hup
  rw [List.append_nil] at hwalk
  rw [hwalk]
  exact ⟨rfl, rfl, n, ns, by rw [← start, hnames]; rfl⟩

end Place

/-! ### Paths in bytes -/

def component (c : List UInt8) : Component (List UInt8) :=
  if c = [] ∨ c = [0x2e] then .stay else if c = [0x2e, 0x2e] then .up else .name c

def components (path : List UInt8) : List (Component (List UInt8)) :=
  (path.splitOn 0x2f).map component

def resolve (path : List UInt8) : Place (List UInt8) :=
  Place.walk ⟨path.head? = some 0x2f, 0, []⟩ (components path)

theorem components_append (dir path : List UInt8) :
    components (dir ++ 0x2f :: path) = components dir ++ components path := by
  rw [components, List.splitOn_eq_splitOnP, List.splitOnP_append_cons _ _ (by decide),
    List.map_append]
  simp only [components, List.splitOn_eq_splitOnP]

/-- A path appended to a directory is walked from there. -/
theorem resolve_append (dir path : List UInt8) :
    resolve (dir ++ 0x2f :: path) = (resolve (dir ++ [0x2f])).walk (components path) := by
  have hdir : components (dir ++ [0x2f]) = components dir ++ [.stay] := components_append dir []
  have hhead : (dir ++ 0x2f :: path).head? = (dir ++ [0x2f]).head? := by
    cases dir <;> rfl
  rw [resolve, resolve, hhead, components_append, hdir, Place.walk_append, Place.walk_append]
  rfl

theorem components_of_notMem {base : List UInt8} (h : 0x2f ∉ base) :
    components base = [component base] := by
  rw [components, List.splitOn_eq_singleton h]
  rfl

theorem component_of_length {base : List UInt8} (h : 3 ≤ base.length) :
    component base = .name base := by
  unfold component
  rw [if_neg, if_neg]
  · rintro rfl
    simp at h
  · rintro (rfl | rfl) <;> simp at h

theorem resolve_of_notMem {base : List UInt8} (h : 0x2f ∉ base) (hlen : 3 ≤ base.length) :
    resolve base = ⟨false, 0, [base]⟩ := by
  have hhead : base.head? ≠ some 0x2f := fun hhead => h (List.mem_of_head? hhead)
  rw [resolve, components_of_notMem h, component_of_length hlen]
  simp [Place.step, hhead]

/-- What is behind the last `/` of a path goes before whatever is added to the path. -/
theorem exists_last (path : List UInt8) : ∃ before, ∀ base : List UInt8, 0x2f ∉ base →
    3 ≤ base.length → (resolve (path ++ base)).names.getLast? = some (before ++ base) := by
  by_cases hslash : 0x2f ∈ path
  · obtain ⟨after, dir, hsplit, hafter⟩ :=
      List.eq_append_cons_of_mem (List.mem_reverse.mpr hslash)
    have hpath : path = dir.reverse ++ 0x2f :: after.reverse := by
      rw [← List.reverse_reverse path, hsplit]
      simp
    refine ⟨after.reverse, fun base hbase hlen => ?_⟩
    have hlast : (0x2f : UInt8) ∉ after.reverse ++ base := by
      simpa using ⟨hafter, hbase⟩
    rw [hpath, List.append_assoc, List.cons_append, resolve_append, components_of_notMem hlast,
      component_of_length (by rw [List.length_append]; omega)]
    simp [Place.step]
  · refine ⟨path, fun base hbase hlen => ?_⟩
    have hlast : (0x2f : UInt8) ∉ path ++ base := by
      simpa using ⟨hslash, hbase⟩
    rw [resolve_of_notMem hlast (by rw [List.length_append]; omega)]
    rfl

example : resolve [0x2f, 0x61, 0x2f, 0x2e, 0x2e, 0x2f, 0x62] = ⟨true, 0, [[0x62]]⟩ := by decide

end Path
