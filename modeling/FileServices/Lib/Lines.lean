import FileServices.Lib.CString

/-!
# Lines of a file and their fields

`fgets` stores a line or as much of it as there is room for, and `strsep` takes a string apart at
the first delimiter.
-/

namespace CString

/-- `fgets` with room for `n` bytes before the NUL: what it stores, and what it leaves in the
file.  It stores nothing, and returns NULL, at the end of the file. -/
def fgets : ℕ → Bytes → Bytes × Bytes
  | 0, s => ([], s)
  | _ + 1, [] => ([], [])
  | n + 1, b :: s =>
    if b = 10 then ([b], s)
    else
      let (line, rest) := fgets n s
      (b :: line, rest)

/-- `strsep`: the field before the first delimiter, and what follows the delimiter if there is
one. -/
def strsep (s delims : Bytes) : Bytes × Option Bytes :=
  (s.takeWhile (· ∉ delims),
    match s.dropWhile (· ∉ delims) with
    | [] => none
    | _ :: rest => some rest)

variable {n : ℕ} {s line tail field rest delims : Bytes} {d : UInt8}

theorem fgets_line : ∀ {n : ℕ} {line : Bytes}, 10 ∉ line → line.length < n →
    fgets n (line ++ 10 :: tail) = (line ++ [10], tail)
  | 0, _, _, hlt => absurd hlt (Nat.not_lt_zero _)
  | n + 1, [], _, _ => by simp [fgets]
  | n + 1, b :: line, h, hlt => by
    have hb : b ≠ 10 := fun hb => h (hb ▸ List.mem_cons_self)
    have hline : 10 ∉ line := fun hmem => h (List.mem_cons_of_mem _ hmem)
    rw [List.cons_append, fgets, if_neg hb, fgets_line hline (Nat.lt_of_succ_lt_succ hlt)]
    rfl

/-- Without a line end in reach it stores as much as there is room for. -/
theorem fgets_cut : ∀ {n : ℕ} {s : Bytes}, 10 ∉ s.take n → fgets n s = (s.take n, s.drop n)
  | 0, _, _ => rfl
  | n + 1, [], _ => rfl
  | n + 1, b :: s, h => by
    rw [List.take_succ_cons] at h
    have hb : b ≠ 10 := fun hb => h (hb ▸ List.mem_cons_self)
    have hs : 10 ∉ s.take n := fun hmem => h (List.mem_cons_of_mem _ hmem)
    rw [fgets, if_neg hb, fgets_cut hs]
    rfl

theorem fgets_eq_nil_iff (hn : 0 < n) : (fgets n s).1 = [] ↔ s = [] := by
  obtain ⟨n, rfl⟩ : ∃ m, n = m + 1 := ⟨n - 1, by omega⟩
  rcases s with _ | ⟨b, s⟩
  · simp [fgets]
  · rw [fgets]
    split_ifs <;> simp

theorem strsep_append (h : ∀ b ∈ field, b ∉ delims) (hd : d ∈ delims) :
    strsep (field ++ d :: rest) delims = (field, some rest) := by
  have hfield : ∀ b ∈ field, decide (b ∉ delims) = true := by simpa using h
  rw [strsep, List.takeWhile_append_of_pos hfield, List.dropWhile_append_of_pos hfield]
  simp [hd]

theorem strsep_last (h : ∀ b ∈ s, b ∉ delims) : strsep s delims = (s, none) := by
  have hs : ∀ b ∈ s, decide (b ∉ delims) = true := by simpa using h
  rw [strsep, List.takeWhile_eq_self_iff.mpr hs, List.dropWhile_eq_nil_iff.mpr hs]

end CString
