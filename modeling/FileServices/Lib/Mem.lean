import FileServices.Lib.CString

/-!
# Fields of a record

A record in memory is its bytes.  A field is written from its offset on, and a C string in it goes
on to the first NUL from there, be that in the field or behind it.  A number has its low byte
first.
-/

namespace CString

/-- A store of bytes at an offset. -/
def poke (record : Bytes) (offset : ℕ) (data : Bytes) : Bytes :=
  record.take offset ++ data ++ record.drop (offset + data.length)

/-- The C string at an offset; `none` where it runs out of the record. -/
def stringAt (record : Bytes) (offset : ℕ) : Option Bytes :=
  if 0 ∈ record.drop offset then some (cstr (record.drop offset)) else none

/-- The lowest `w` bytes of a number. -/
def leBytes : ℕ → ℕ → Bytes
  | 0, _ => []
  | w + 1, n => UInt8.ofNat n :: leBytes w (n / 256)

/-- The number that bytes spell. -/
def leValue (bs : Bytes) : ℕ := Nat.ofDigits 256 (bs.map UInt8.toNat)

def uint32Bytes (v : UInt32) : Bytes := leBytes 4 v.toNat

/-- The `uint32_t` at an offset; `none` where it runs out of the record. -/
def uint32At (record : Bytes) (offset : ℕ) : Option UInt32 :=
  if offset + 4 ≤ record.length then
    some (UInt32.ofNat (leValue ((record.drop offset).take 4)))
  else none

variable {a b s z data : Bytes} {offset : ℕ}

theorem poke_zero (record data : Bytes) :
    poke record 0 data = data ++ record.drop data.length := by
  simp [poke]

/-- A store right behind what is kept. -/
theorem poke_length (a b data : Bytes) :
    poke (a ++ b) a.length data = a ++ data ++ b.drop data.length := by
  unfold poke
  rw [List.take_left, ← List.drop_drop, List.drop_left]

/-- What stands before the offset stays. -/
theorem poke_behind (b data : Bytes) (h : a.length ≤ offset) :
    ∃ c, poke (a ++ b) offset data = a ++ c := by
  obtain ⟨k, rfl⟩ := Nat.exists_eq_add_of_le h
  refine ⟨b.take k ++ data ++ (a ++ b).drop (a.length + k + data.length), ?_⟩
  unfold poke
  rw [List.take_length_add_append, List.append_assoc, List.append_assoc, List.append_assoc]

theorem stringAt_length (a z : Bytes) (h : 0 ∉ s) :
    stringAt (a ++ s ++ 0 :: z) a.length = some s := by
  unfold stringAt
  rw [List.append_assoc, List.drop_left, if_pos (by simp), cstr_string h]

@[simp] theorem length_leBytes : ∀ w n : ℕ, (leBytes w n).length = w
  | 0, _ => rfl
  | w + 1, n => congrArg (· + 1) (length_leBytes w (n / 256))

theorem leValue_leBytes : ∀ w n : ℕ, leValue (leBytes w n) = n % 256 ^ w
  | 0, n => (Nat.mod_one n).symm
  | w + 1, n => by
    have ih : Nat.ofDigits 256 ((leBytes w (n / 256)).map UInt8.toNat) = n / 256 % 256 ^ w :=
      leValue_leBytes w (n / 256)
    have hlow : (UInt8.ofNat n).toNat = n % 256 := rfl
    rw [leValue, leBytes, List.map_cons, Nat.ofDigits_cons, ih, hlow, Nat.pow_succ',
      Nat.mod_mul]

@[simp] theorem length_uint32Bytes (v : UInt32) : (uint32Bytes v).length = 4 :=
  length_leBytes 4 v.toNat

theorem uint32At_length (a z : Bytes) (v : UInt32) :
    uint32At (a ++ (uint32Bytes v ++ z)) a.length = some v := by
  have htake : ((a ++ (uint32Bytes v ++ z)).drop a.length).take 4 = uint32Bytes v := by
    rw [List.drop_left, List.take_left' (length_uint32Bytes v)]
  have hlt : v.toNat < 256 ^ 4 := v.toNat_lt
  unfold uint32At
  rw [if_pos (by simp), htake, uint32Bytes, leValue_leBytes, Nat.mod_eq_of_lt hlt,
    UInt32.ofNat_toNat]

theorem stringAt_zero (z : Bytes) (h : 0 ∉ s) : stringAt (s ++ 0 :: z) 0 = some s :=
  stringAt_length [] z h

end CString
