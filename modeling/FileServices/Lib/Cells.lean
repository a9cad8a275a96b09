import FileServices.Lib.CString

/-!
# Arrays that may not have been written

An array is the list of its cells, `none` where nothing has been stored yet.  C leaves it undefined
what an access outside the array does, or a read of a cell before it is written; here it is a fault
that ends the computation.
-/

namespace Cells

open CString

abbrev Buffer := List (Option UInt8)

inductive Fault
  | writeOutside (i : ℕ)
  | readOutside (i : ℕ)
  | readUnwritten (i : ℕ)
  deriving DecidableEq

/-- An array as it is declared. -/
def declared (n : ℕ) : Buffer := List.replicate n none

/-- Stores bytes one behind the other, the first into cell `i`. -/
def store (buf : Buffer) (i : ℕ) : Bytes → Except Fault Buffer
  | [] => .ok buf
  | b :: bs =>
    if i < buf.length then store (buf.set i (some b)) (i + 1) bs else .error (.writeOutside i)

/-- The C string that starts with cell `i`, in the cells from there on. -/
def load (i : ℕ) : Buffer → Except Fault Bytes
  | [] => .error (.readOutside i)
  | none :: _ => .error (.readUnwritten i)
  | some b :: buf => if b = 0 then .ok [] else (load (i + 1) buf).map (b :: ·)

/-- `strncat`: it looks for the end of the string in the array and goes on from there. -/
def strncat (buf : Buffer) (src : Bytes) (n : ℕ) : Except Fault Buffer :=
  (load 0 buf).bind fun s => store buf s.length (src.take n ++ [0])

/-- The array holds the string, and no access was a fault. -/
def Holds (result : Except Fault Buffer) (s : Bytes) : Prop :=
  ∃ buf, result = .ok buf ∧ load 0 buf = .ok s

variable {buf buf' : Buffer} {s data : Bytes} {i : ℕ}

theorem store_eq : ∀ {data : Bytes} {buf : Buffer} {i : ℕ}, i + data.length ≤ buf.length →
    store buf i data = .ok (buf.take i ++ data.map some ++ buf.drop (i + data.length))
  | [], buf, i, _ => by simp [store]
  | b :: data, buf, i, h => by
    rw [List.length_cons] at h
    have hi : i < buf.length := by omega
    have hset : buf.set i (some b) = buf.take i ++ some b :: buf.drop (i + 1) :=
      List.set_eq_take_append_cons_drop.trans (if_pos hi)
    have hlen : (buf.take i).length = i := by
      rw [List.length_take]
      omega
    rw [store, if_pos hi, store_eq (by rw [List.length_set]; omega), hset]
    have htake : (buf.take i ++ some b :: buf.drop (i + 1)).take (i + 1)
        = buf.take i ++ [some b] := by
      rw [List.take_append, hlen, List.take_of_length_le (by omega), Nat.add_sub_cancel_left]
      rfl
    have hdrop : (buf.take i ++ some b :: buf.drop (i + 1)).drop (i + 1 + data.length)
        = buf.drop (i + (b :: data).length) := by
      rw [List.drop_append, hlen, List.drop_eq_nil_of_le (by omega), List.nil_append,
        show i + 1 + data.length - i = data.length + 1 by omega, List.drop_succ_cons,
        List.drop_drop, List.length_cons]
      congr 1
      omega
    rw [htake, hdrop]
    simp

/-- A store right behind what has been written. -/
theorem store_append {z : Buffer} (h : data.length ≤ z.length) :
    store (s.map some ++ z) s.length data = .ok ((s ++ data).map some ++ z.drop data.length) := by
  have hlen : (s.map some).length = s.length := List.length_map _
  rw [store_eq (by rw [List.length_append, hlen]; omega), List.take_left' hlen,
    List.drop_append, hlen, Nat.add_sub_cancel_left, List.drop_eq_nil_of_le (by omega),
    List.nil_append, List.map_append]

/-- Bytes go into the array whole or not at all. -/
theorem store_isOk_iff : ∀ {data : Bytes} {buf : Buffer} {i : ℕ}, data ≠ [] →
    ((∃ buf', store buf i data = .ok buf') ↔ i + data.length ≤ buf.length)
  | [b], buf, i, _ => by
    rw [store]
    split_ifs with hi
    · exact iff_of_true ⟨_, rfl⟩ hi
    · exact iff_of_false nofun hi
  | b :: c :: data, buf, i, _ => by
    rw [store]
    split_ifs with hi
    · rw [store_isOk_iff (List.cons_ne_nil c data), List.length_set]
      simp only [List.length_cons]
      omega
    · refine iff_of_false nofun fun hle => hi ?_
      rw [List.length_cons] at hle
      omega

theorem load_string (z : Buffer) : ∀ {s : Bytes} {i : ℕ}, 0 ∉ s →
    load i (s.map some ++ some 0 :: z) = .ok s
  | [], i, _ => by simp [load]
  | b :: s, i, h => by
    have hb : b ≠ 0 := fun h0 => h (h0 ▸ List.mem_cons_self)
    have ih := @load_string z s (i + 1) fun h0 => h (List.mem_cons_of_mem b h0)
    rw [List.map_cons, List.cons_append, load, if_neg hb, ih]
    rfl

/-- An array full of other bytes has no string in it. -/
theorem load_full : ∀ {s : Bytes} {i : ℕ}, 0 ∉ s →
    load i (s.map some) = .error (.readOutside (i + s.length))
  | [], i, _ => rfl
  | b :: s, i, h => by
    have hb : b ≠ 0 := fun h0 => h (h0 ▸ List.mem_cons_self)
    have ih := @load_full s (i + 1) fun h0 => h (List.mem_cons_of_mem b h0)
    rw [List.map_cons, load, if_neg hb, ih, List.length_cons, Nat.add_assoc, Nat.add_comm 1]
    rfl

/-- Where the bound is no less than the array, the appended string is the one that is meant just
when it fits with the terminator. -/
theorem strncat_string {n : ℕ} {src : Bytes} {z : Buffer} (hs : 0 ∉ s) (hsrc : 0 ∉ src)
    (hn : (s.map some ++ some 0 :: z).length ≤ n) :
    Holds (strncat (s.map some ++ some 0 :: z) src n) (s ++ src) ↔
      s.length + src.length < (s.map some ++ some 0 :: z).length := by
  rw [strncat, load_string z hs]
  constructor
  · rintro ⟨buf, hbuf, -⟩
    have hle := (store_isOk_iff (by simp)).mp ⟨buf, hbuf⟩
    rw [List.length_append, List.length_take, List.length_singleton] at hle
    omega
  · intro hlt
    have htake : src.take n = src := List.take_of_length_le (by omega)
    have hle : s.length + (src ++ [0]).length ≤ (s.map some ++ some 0 :: z).length := by
      rw [List.length_append, List.length_singleton]
      omega
    rw [htake]
    refine ⟨_, store_eq hle, ?_⟩
    have hfront : (s.map some ++ some 0 :: z).take s.length = s.map some :=
      List.take_left' (List.length_map ..)
    rw [hfront, List.map_append, ← List.append_assoc, ← List.map_append, List.append_assoc]
    exact load_string _ (by simp [hs, hsrc])

end Cells
