import FileServices.Lib.CString

/-!
# The table of the cache

`simplecache_get` looks a key up in the table by bisection and returns the descriptor of the file.
-/

namespace FileServices

open CString

/-- `item_t`, with the key as the bytes before its NUL. -/
structure Item where
  fildes : ℕ
  key : Bytes

def strcmp : Bytes → Bytes → Ordering
  | [], [] => .eq
  | [], _ :: _ => .lt
  | _ :: _, [] => .gt
  | a :: as, b :: bs => if a < b then .lt else if b < a then .gt else strcmp as bs

/-- The loop of `simplecache_get`, where `fuel` bounds the number of items in `lo..hi`. -/
def bisect (items : List Item) (key : Bytes) : ℕ → ℤ → ℤ → ℤ
  | 0, _, _ => -1
  | fuel + 1, lo, hi =>
    if lo ≤ hi then
      let mid := lo + (hi - lo) / 2
      match items[mid.toNat]? with
      | none => -1
      | some item =>
        match strcmp key item.key with
        | .lt => bisect items key fuel lo (mid - 1)
        | .gt => bisect items key fuel (mid + 1) hi
        | .eq => item.fildes
    else -1

/-- The descriptor of the item with this key, or `-1`. -/
def simplecacheGet (items : List Item) (key : Bytes) : ℤ :=
  bisect items (cstr key) items.length 0 (items.length - 1)

/-- The loop ends by itself: it does not depend on a bound that covers the items left. -/
theorem bisect_fuel (items : List Item) (key : Bytes) : ∀ (fuel fuel' : ℕ) (lo hi : ℤ),
    hi - lo < fuel → hi - lo < fuel' →
      bisect items key fuel lo hi = bisect items key fuel' lo hi
  | 0, fuel', lo, hi, h, _ => by
    have hlt : ¬ lo ≤ hi := by omega
    cases fuel' <;> simp [bisect, hlt]
  | fuel + 1, 0, lo, hi, _, h => by
    have hlt : ¬ lo ≤ hi := by omega
    simp [bisect, hlt]
  | fuel + 1, fuel' + 1, lo, hi, h, h' => by
    by_cases hle : lo ≤ hi
    · have hlow : bisect items key fuel lo (lo + (hi - lo) / 2 - 1)
          = bisect items key fuel' lo (lo + (hi - lo) / 2 - 1) :=
        bisect_fuel items key fuel fuel' _ _ (by omega) (by omega)
      have hhigh : bisect items key fuel (lo + (hi - lo) / 2 + 1) hi
          = bisect items key fuel' (lo + (hi - lo) / 2 + 1) hi :=
        bisect_fuel items key fuel fuel' _ _ (by omega) (by omega)
      simp only [bisect, hlow, hhigh]
    · simp [bisect, hle]

end FileServices
