import Mathlib

/-!
# Names, files and what is open

A name leads to a file, and a program that has opened the file has it by its number.  The number
goes on standing for the file when the name is gone, or has come to lead to another one.
-/

/-- The files by their numbers, of which `fresh` and all above it are free.  No file has two
names. -/
structure Disk (N B : Type*) where
  dir : N → Option ℕ
  data : ℕ → List B
  fresh : ℕ
  dir_lt : ∀ {name ino}, dir name = some ino → ino < fresh
  dir_injective : ∀ {a b ino}, dir a = some ino → dir b = some ino → a = b

namespace Disk

variable {N B : Type*} {d : Disk N B} {name other : N} {ino : ℕ}

def empty : Disk N B where
  dir := fun _ => none
  data := fun _ => []
  fresh := 0
  dir_lt := by simp
  dir_injective := by simp

/-- What the file of the name holds. -/
def read (d : Disk N B) (name : N) : Option (List B) := (d.dir name).map d.data

theorem read_of_dir (h : d.dir name = some ino) : d.read name = some (d.data ino) := by
  rw [read, h, Option.map_some]

/-- Change what the file with the number holds. -/
def modify (ino : ℕ) (f : List B → List B) (d : Disk N B) : Disk N B :=
  { d with data := Function.update d.data ino (f (d.data ino)) }

theorem read_modify (h : d.dir name = some ino) (f : List B → List B) :
    (d.modify ino f).read name = (d.read name).map f := by
  simp [read, modify, h]

theorem read_modify_other (h : d.dir other ≠ some ino) (f : List B → List B) :
    (d.modify ino f).read other = d.read other := by
  unfold read modify
  cases hdir : d.dir other with
  | none => rfl
  | some k =>
    have hne : k ≠ ino := fun he => h (by rw [hdir, he])
    simp [Function.update_of_ne hne]

variable [DecidableEq N]

def unlink (name : N) (d : Disk N B) : Disk N B where
  dir := Function.update d.dir name none
  data := d.data
  fresh := d.fresh
  dir_lt := fun {other ino} h => by
    rw [Function.update_apply] at h
    split_ifs at h
    exact d.dir_lt h
  dir_injective := fun {a b ino} ha hb => by
    rw [Function.update_apply] at ha hb
    split_ifs at ha hb
    exact d.dir_injective ha hb

theorem dir_unlink_other (h : other ≠ name) : (d.unlink name).dir other = d.dir other :=
  Function.update_of_ne h _ _

theorem read_unlink : (d.unlink name).read name = none := by
  simp [read, unlink]

theorem read_unlink_other (h : other ≠ name) : (d.unlink name).read other = d.read other := by
  rw [read, dir_unlink_other h]
  rfl

/-- A name for a new and empty file. -/
def create (name : N) (d : Disk N B) : Disk N B where
  dir := Function.update d.dir name (some d.fresh)
  data := Function.update d.data d.fresh []
  fresh := d.fresh + 1
  dir_lt := fun {other ino} h => by
    rw [Function.update_apply] at h
    split_ifs at h
    · exact Option.some.inj h ▸ Nat.lt_succ_self _
    · exact (d.dir_lt h).trans (Nat.lt_succ_self _)
  dir_injective := fun {a b ino} ha hb => by
    rw [Function.update_apply] at ha hb
    split_ifs at ha hb with hname hname'
    · exact hname.trans hname'.symm
    · exact absurd (d.dir_lt hb) (Option.some.inj ha ▸ lt_irrefl _)
    · exact absurd (d.dir_lt ha) (Option.some.inj hb ▸ lt_irrefl _)
    · exact d.dir_injective ha hb

/-- Open the name to write: its file is cut to nothing, or made. -/
def openWrite (name : N) (d : Disk N B) : ℕ × Disk N B :=
  match d.dir name with
  | some ino => (ino, d.modify ino fun _ => [])
  | none => (d.fresh, d.create name)

theorem dir_openWrite : (d.openWrite name).2.dir name = some (d.openWrite name).1 := by
  unfold openWrite
  cases h : d.dir name with
  | none => simp [create]
  | some ino => exact h

theorem read_openWrite : (d.openWrite name).2.read name = some [] := by
  unfold openWrite
  cases h : d.dir name with
  | none => simp [create, read]
  | some ino => simp [read_modify h, read_of_dir h]

theorem dir_openWrite_other (h : other ≠ name) :
    (d.openWrite name).2.dir other = d.dir other := by
  unfold openWrite
  cases d.dir name with
  | none => exact Function.update_of_ne h _ _
  | some ino => rfl

theorem read_openWrite_other (h : other ≠ name) :
    (d.openWrite name).2.read other = d.read other := by
  unfold openWrite
  cases hdir : d.dir name with
  | none =>
    unfold read create
    simp only [Function.update_of_ne h]
    cases hother : d.dir other with
    | none => rfl
    | some k => simp [Function.update_of_ne (d.dir_lt hother).ne]
  | some ino => exact read_modify_other (fun ho => h (d.dir_injective ho hdir)) _

/-- No name comes to lead to a file that was there and to which it did not lead. -/
theorem dir_of_openWrite (hlt : ino < d.fresh) (h : (d.openWrite name).2.dir other = some ino) :
    d.dir other = some ino := by
  by_cases hne : other = name
  · subst hne
    unfold openWrite at h
    cases hdir : d.dir other with
    | none =>
      simp only [hdir, create, Function.update_self, Option.some.injEq] at h
      exact absurd hlt (h ▸ lt_irrefl _)
    | some k =>
      simp only [hdir] at h
      exact hdir.symm.trans h
  · rwa [dir_openWrite_other hne] at h

theorem dir_of_unlink (h : (d.unlink name).dir other = some ino) : d.dir other = some ino := by
  unfold unlink at h
  simp only [Function.update_apply] at h
  split_ifs at h
  exact h

/-! ### Changes to one name -/

/-- The change leaves the other names with their files, and leads none to a file that it did not
lead to. -/
structure OnlyAt (name : N) (d d' : Disk N B) : Prop where
  dir : ∀ other, other ≠ name → d'.dir other = d.dir other
  read : ∀ other, other ≠ name → d'.read other = d.read other
  old : ∀ ino < d.fresh, ∀ other, d'.dir other = some ino → d.dir other = some ino
  fresh : d.fresh ≤ d'.fresh

omit [DecidableEq N] in
theorem onlyAt_refl : OnlyAt name d d :=
  ⟨fun _ _ => rfl, fun _ _ => rfl, fun _ _ _ => id, le_rfl⟩

omit [DecidableEq N] in
theorem onlyAt_modify (h : ∀ other, d.dir other = some ino → other = name)
    (f : List B → List B) : OnlyAt name d (d.modify ino f) :=
  ⟨fun _ _ => rfl, fun other hne => read_modify_other (fun hdir => hne (h other hdir)) f,
    fun _ _ _ => id, le_rfl⟩

theorem onlyAt_unlink : OnlyAt name d (d.unlink name) :=
  ⟨fun _ => dir_unlink_other, fun _ => read_unlink_other, fun _ _ _ => dir_of_unlink, le_rfl⟩

theorem onlyAt_openWrite : OnlyAt name d (d.openWrite name).2 := by
  refine ⟨fun _ => dir_openWrite_other, fun _ => read_openWrite_other,
    fun _ hlt _ => dir_of_openWrite hlt, ?_⟩
  unfold openWrite
  cases d.dir name with
  | none => exact Nat.le_succ _
  | some ino => exact le_rfl

end Disk
