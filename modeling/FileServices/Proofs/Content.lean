import FileServices.Content

/-!
# What the table holds and what is found in it

The array has room for the next item whenever a line is read, and keeps its items when it grows.
`strcmp` is the order of the byte strings, so the bisection of the sorted table finds a key that
is there (`table_lookup`).
-/

namespace FileServices.Content

open CString

variable {lib : Library} {text : Bytes} {opens : ℕ → Bytes → Option ℕ} {items sorted : List Item}
  {s t : Reading} {m n : ℕ}

/-! ### The order of the keys -/

theorem strcmp_eq_compare : ∀ a b : Bytes, strcmp a b = compare a b
  | [], [] => rfl
  | [], _ :: _ => rfl
  | _ :: _, [] => rfl
  | a :: as, b :: bs => by
    rw [strcmp, List.compare_cons_cons, strcmp_eq_compare as bs,
      show compare a b = compareOfLessAndEq a b from rfl, compareOfLessAndEq]
    by_cases hlt : a < b
    · simp [hlt]
    by_cases heq : a = b
    · subst heq
      simp
    · have hgt : b < a := UInt8.lt_of_le_of_ne (UInt8.not_lt.mp hlt) (Ne.symm heq)
      simp [hlt, heq, hgt]

theorem strcmp_eq_iff {a b : Bytes} : strcmp a b = .eq ↔ a = b := by
  rw [strcmp_eq_compare, Std.LawfulEqCmp.compare_eq_iff_eq]

/-- A sorted table is parted by every key. -/
theorem Qsorted.parted (h : Qsorted items sorted) (key : Bytes) :
    Bisect.Parted (fun item : Item => strcmp key item.key) sorted := by
  refine h.sorted.imp fun {a b} hab => ?_
  simp only [strcmp_eq_compare] at hab ⊢
  have hle : (compare a.key b.key).isLE = true := Ordering.isLE_iff_ne_gt.mpr hab
  exact ⟨fun hlt => Std.TransCmp.lt_of_lt_of_isLE hlt hle,
    fun hgt => Std.TransCmp.gt_of_gt_of_isGE hgt (Std.OrientedCmp.isGE_iff_isLE.mpr hle)⟩

/-- `simplecache_get` as it is in the cache comes to the same. -/
theorem bisect_of_run {key : Bytes} {fd : ℤ} : ∀ {n : ℕ} {lo hi : ℤ} {r : Bisect.Found Item},
    0 ≤ lo → Loop.run Bisect.head (Bisect.body (fun item => strcmp key item.key) items) ⟨lo, hi⟩
      (List.replicate n ()) = .stop r → get r = .returned fd → bisect items key n lo hi = fd
  | 0, lo, hi, r, _, hrun, hget => by
    rcases hh : (Bisect.head ⟨lo, hi⟩ : Option (Bisect.Found Item)) with _ | r'
    · rw [List.replicate_zero, Loop.run_nil hh] at hrun
      cases hrun
    · rw [Loop.run_of_head hh] at hrun
      obtain rfl := Loop.Outcome.stop.inj hrun
      unfold Bisect.head at hh
      split_ifs at hh
      obtain rfl := Option.some.inj hh
      exact Get.returned.inj hget
  | n + 1, lo, hi, r, hlo, hrun, hget => by
    rw [List.replicate_succ] at hrun
    by_cases hle : lo ≤ hi
    · have hh : (Bisect.head ⟨lo, hi⟩ : Option (Bisect.Found Item)) = none := if_pos hle
      have hmid : ¬ lo + (hi - lo) / 2 < 0 := by omega
      rw [bisect, if_pos hle]
      rcases hi' : items[(lo + (hi - lo) / 2).toNat]? with _ | item
      · rw [Loop.run_cons_stop (r := .outside) hh (by simp [Bisect.body, hmid, hi'])] at hrun
        obtain rfl := Loop.Outcome.stop.inj hrun
        cases hget
      · rcases hc : strcmp key item.key with _ | _ | _
        · have hb : Bisect.body (fun item => strcmp key item.key) items ⟨lo, hi⟩ ()
              = .more ⟨lo, lo + (hi - lo) / 2 - 1⟩ := by simp [Bisect.body, hmid, hi', hc]
          rw [Loop.run_cons_more hh hb] at hrun
          simpa [hi', hc] using bisect_of_run hlo hrun hget
        · rw [Loop.run_cons_stop (r := .found item) hh (by
            simp [Bisect.body, hmid, hi', hc])] at hrun
          obtain rfl := Loop.Outcome.stop.inj hrun
          simpa [hi', hc] using Get.returned.inj hget
        · have hb : Bisect.body (fun item => strcmp key item.key) items ⟨lo, hi⟩ ()
              = .more ⟨lo + (hi - lo) / 2 + 1, hi⟩ := by simp [Bisect.body, hmid, hi', hc]
          rw [Loop.run_cons_more hh hb] at hrun
          simpa [hi', hc] using bisect_of_run (by omega) hrun hget
    · have hh : (Bisect.head ⟨lo, hi⟩ : Option (Bisect.Found Item)) = some .absent := if_neg hle
      rw [Loop.run_of_head hh] at hrun
      obtain rfl := Loop.Outcome.stop.inj hrun
      rw [bisect, if_neg hle]
      exact Get.returned.inj hget

/-- A look-up in a sorted table reads inside it and ends with the descriptor of an item that has
the key, or with -1 where there is none. -/
theorem contentGet_spec (h : Qsorted items sorted) (key : Bytes) :
    ∃ n fd, contentGet sorted key n = some (.returned fd) ∧ simplecacheGet sorted key = fd
      ∧ (fd = -1 ↔ ∀ item ∈ items, item.key ≠ cstr key)
      ∧ (fd ≠ -1 → ∃ item ∈ items, item.key = cstr key ∧ fd = item.fildes) := by
  obtain ⟨r, hr, hright⟩ := Bisect.search_spec (h.parted (cstr key)) le_rfl
  have hget : contentGet sorted key sorted.length = some (get r) := by
    simp [contentGet, hr, Loop.Outcome.result]
  have hsame : ∀ fd, get r = .returned fd → simplecacheGet sorted key = fd :=
    fun fd hfd => bisect_of_run le_rfl hr hfd
  rcases r with _ | _ | item
  · exact hright.elim
  · refine ⟨_, -1, hget, hsame _ rfl, iff_of_true rfl fun item hitem heq => ?_,
      fun hne => absurd rfl hne⟩
    exact hright item (h.perm.mem_iff.mpr hitem) (strcmp_eq_iff.mpr heq.symm)
  · obtain ⟨hmem, heq⟩ := hright
    have hitem := h.perm.mem_iff.mp hmem
    have hkey : item.key = cstr key := (strcmp_eq_iff.mp heq).symm
    exact ⟨_, item.fildes, hget, hsame _ rfl,
      iff_of_false (by omega) fun hno => hno item hitem hkey, fun _ => ⟨item, hitem, hkey, rfl⟩⟩

/-! ### The array -/

/-- There is room for the next item, and the items so far are in their cells. -/
structure Room (s : Reading) : Prop where
  length : s.items.length = s.capacity
  nitems_lt : s.nitems < s.capacity
  capacity : ∃ k ≤ 30, s.capacity = 2 ^ k
  cells : s.items.take s.nitems = s.table.map some
  opened : s.opened.length = s.nitems

theorem room_start (text : Bytes) : Room (.start text) where
  length := rfl
  nitems_lt := show 0 < 16 by decide
  capacity := ⟨4, by decide, rfl⟩
  cells := rfl
  opened := rfl

theorem Room.nitems_lt_pow (h : Room s) : s.nitems < 2 ^ 30 := by
  obtain ⟨k, hk, hcap⟩ := h.capacity
  exact (hcap ▸ h.nitems_lt).trans_le (Nat.pow_le_pow_right two_pos hk)

/-- A new item has its cell, and there is room for the next one, unless the capacity gets too
large for an `int`. -/
theorem Room.add (h : Room s) (item : Item) (path rest : Bytes) :
    (s.add item path rest = .stop .overrun ∧ 2 ^ 30 ≤ s.nitems + 1)
      ∨ ∃ t, s.add item path rest = .more t ∧ Room t ∧ t.nitems = s.nitems + 1 ∧ t.rest = rest
        ∧ t.opened = s.opened ++ [path] ∧ t.table = s.table ++ [item] := by
  have hlt := h.nitems_lt
  have hset : (s.items.set s.nitems (some item)).take (s.nitems + 1)
      = (s.table ++ [item]).map some := by
    rw [List.take_add_one, List.take_set_of_le le_rfl, h.cells,
      List.getElem?_set_self (by rw [h.length]; exact hlt)]
    simp
  have htable : ∀ t : Reading, t.items.take t.nitems = (s.table ++ [item]).map some →
      t.table = s.table ++ [item] := fun t ht => by
    rw [Reading.table, ht, List.filterMap_map]
    exact List.filterMap_some
  unfold Reading.add
  dsimp only
  split_ifs with hfull hover
  · exact .inl ⟨rfl, by omega⟩
  · have htake : ((s.items.set s.nitems (some item)) ++ List.replicate s.capacity none).take
        (s.nitems + 1) = (s.table ++ [item]).map some := by
      rw [List.take_append_of_le_length (by rw [List.length_set, h.length]; omega), hset]
    obtain ⟨k, hk, hcap⟩ := h.capacity
    refine .inr ⟨_, rfl, ⟨?_, ?_, ⟨k + 1, ?_, ?_⟩, ?_, ?_⟩, rfl, rfl, rfl, htable _ htake⟩
    · simp [h.length, Nat.mul_two]
    · dsimp only
      omega
    · have hpow : 2 ^ (k + 1) < 2 ^ 31 := by
        rw [Nat.pow_succ, ← hcap]
        omega
      exact Nat.lt_succ_iff.mp ((Nat.pow_lt_pow_iff_right (by decide)).mp hpow)
    · dsimp only
      rw [hcap, Nat.pow_succ]
    · rw [htable _ htake]
      exact htake
    · simp [h.opened]
  · refine .inr ⟨_, rfl, ⟨?_, ?_, h.capacity, ?_, ?_⟩, rfl, rfl, rfl, htable _ hset⟩
    · simp [h.length]
    · dsimp only
      omega
    · rw [htable _ hset]
      exact hset
    · simp [h.opened]

/-- An iteration with a line of the file. -/
theorem Room.body (h : Room s) {o : Bytes → Option ℕ} {line rest : Bytes}
    (hline : fgets (lib.maxKeylen - 1) s.rest = (line, rest)) (hne : cstr line ≠ []) :
    initBody lib s o = match separate (cstr line) with
      | (_, none) => .stop .exit
      | (key, some path) =>
        match o path with
        | none => .stop .exit
        | some fildes => s.add ⟨fildes, key⟩ path rest := by
  have hroom : ¬ s.items.length ≤ s.nitems := by
    rw [h.length]
    exact not_le.mpr h.nitems_lt
  simp only [initBody, hline]
  exact (if_neg hroom).trans (if_neg hne)

/-- What an iteration that goes on has done. -/
theorem Room.more (h : Room s) {o : Bytes → Option ℕ} (hbody : initBody lib s o = .more t) :
    Room t ∧ t.nitems = s.nitems + 1 ∧ ∃ key path fildes,
      separate (cstr (fgets (lib.maxKeylen - 1) s.rest).1) = (key, some path)
      ∧ o path = some fildes ∧ t.rest = (fgets (lib.maxKeylen - 1) s.rest).2
      ∧ t.opened = s.opened ++ [path] ∧ t.table = s.table ++ [⟨fildes, key⟩] := by
  rcases hline : fgets (lib.maxKeylen - 1) s.rest with ⟨line, rest⟩
  by_cases hne : cstr line = []
  · have hlt := h.nitems_lt
    simp only [initBody, hline] at hbody
    rw [if_neg (by rw [h.length]; omega), if_pos hne] at hbody
    cases hbody
  rw [h.body hline hne] at hbody
  rcases hsep : separate (cstr line) with ⟨key, _ | path⟩
  · rw [hsep] at hbody
    cases hbody
  rw [hsep] at hbody
  dsimp only at hbody
  rcases hopen : o path with _ | fildes
  · rw [hopen] at hbody
    cases hbody
  rw [hopen] at hbody
  dsimp only at hbody
  rcases h.add ⟨fildes, key⟩ path rest with ⟨hstop, -⟩ | ⟨t', ht', hroom, hn, hrest, ho, htab⟩
  · cases hstop.symm.trans hbody
  · obtain rfl := Loop.Outcome.more.inj (ht'.symm.trans hbody)
    exact ⟨hroom, hn, key, path, fildes, rfl, hopen, hrest, ho, htab⟩

theorem room_after : ∀ {n : ℕ} {s : Reading},
    Loop.after (initHead lib) (initBody lib) (.start text) opens n = some s →
      Room s ∧ s.nitems = n
  | 0, s, h => by
    obtain rfl := Option.some.inj h
    exact ⟨room_start text, rfl⟩
  | n + 1, s, h => by
    obtain ⟨t, ht, -, hbody⟩ := Loop.after_succ.mp h
    obtain ⟨hroom, hn⟩ := room_after ht
    obtain ⟨hroom', hn', -⟩ := hroom.more hbody
    exact ⟨hroom', by omega⟩

/-- Later items are added after the earlier ones. -/
theorem kept_after (hm : Loop.after (initHead lib) (initBody lib) (.start text) opens m = some t) :
    ∀ {n : ℕ} {s : Reading}, m ≤ n →
      Loop.after (initHead lib) (initBody lib) (.start text) opens n = some s →
        t.table <+: s.table ∧ t.opened <+: s.opened
  | 0, s, hle, h => by
    obtain rfl := Nat.le_zero.mp hle
    obtain rfl := Option.some.inj (hm.symm.trans h)
    exact ⟨List.prefix_rfl, List.prefix_rfl⟩
  | n + 1, s, hle, h => by
    rcases Nat.lt_or_eq_of_le hle with hlt | rfl
    · obtain ⟨s', hs', -, hbody⟩ := Loop.after_succ.mp h
      obtain ⟨htable, hopened⟩ := kept_after hm (Nat.lt_succ_iff.mp hlt) hs'
      obtain ⟨-, -, key, path, fildes, -, -, -, ho, ht⟩ := (room_after hs').1.more hbody
      rw [ho, ht]
      exact ⟨htable.trans (List.prefix_append _ _), hopened.trans (List.prefix_append _ _)⟩
    · obtain rfl := Option.some.inj (hm.symm.trans h)
      exact ⟨List.prefix_rfl, List.prefix_rfl⟩

/-- An iteration ends the loop at a line that starts with a NUL, at a file that cannot be opened,
or where an `int` cannot count the items. -/
theorem Room.stop (h : Room s) {o : Bytes → Option ℕ} {r : Init}
    (hbody : initBody lib s o = .stop r) :
    r = .underrun ∨ r = .exit ∨ r = .overrun ∧ 2 ^ 30 ≤ s.nitems + 1 := by
  rcases hline : fgets (lib.maxKeylen - 1) s.rest with ⟨line, rest⟩
  have hlt := h.nitems_lt
  by_cases hne : cstr line = []
  · simp only [initBody, hline] at hbody
    rw [if_neg (by rw [h.length]; omega), if_pos hne] at hbody
    exact .inl (Loop.Outcome.stop.inj hbody).symm
  rw [h.body hline hne] at hbody
  rcases hsep : separate (cstr line) with ⟨key, _ | path⟩
  · rw [hsep] at hbody
    exact .inr (.inl (Loop.Outcome.stop.inj hbody).symm)
  rw [hsep] at hbody
  dsimp only at hbody
  rcases hopen : o path with _ | fildes
  · rw [hopen] at hbody
    exact .inr (.inl (Loop.Outcome.stop.inj hbody).symm)
  rw [hopen] at hbody
  dsimp only at hbody
  rcases h.add ⟨fildes, key⟩ path rest with ⟨hstop, hfull⟩ | ⟨t, ht, -⟩
  · exact .inr (.inr ⟨(Loop.Outcome.stop.inj (hstop.symm.trans hbody)).symm, hfull⟩)
  · cases ht.symm.trans hbody

/-- While the file is read the next item has room and the earlier ones stay as they are.  In the
sorted table a look-up reads items of the table only and comes to a descriptor of the key, or to
-1 where the table does not have it. -/
theorem table_lookup (lib : Library) (text : Bytes) (opens : ℕ → Bytes → Option ℕ) :
    (∀ n s, Loop.after (initHead lib) (initBody lib) (.start text) opens n = some s →
      s.nitems = n ∧ n < s.items.length ∧ s.items.length = s.capacity
        ∧ s.items.take n = s.table.map some
        ∧ (∀ m t, m ≤ n →
          Loop.after (initHead lib) (initBody lib) (.start text) opens m = some t →
            t.table <+: s.table)
        ∧ (n + 1 < 2 ^ 30 → ∀ o r, initBody lib s o = .stop r → r ≠ .overrun))
    ∧ ∀ s, Loop.Stops (initHead lib) (initBody lib) (.start text) opens (.table s) →
      ∀ sorted, Qsorted s.table sorted → ∀ key, ∃ n fd,
        contentGet sorted key n = some (.returned fd) ∧ simplecacheGet sorted key = fd
        ∧ (fd = -1 ↔ ∀ item ∈ s.table, item.key ≠ cstr key)
        ∧ (fd ≠ -1 → ∃ item ∈ s.table, item.key = cstr key ∧ fd = item.fildes) := by
  constructor
  · intro n s hs
    obtain ⟨hroom, rfl⟩ := room_after hs
    refine ⟨rfl, hroom.length ▸ hroom.nitems_lt, hroom.length, hroom.cells,
      fun m t hm ht => (kept_after ht hm hs).1, fun hn o r hbody hover => ?_⟩
    rcases hroom.stop hbody with rfl | rfl | ⟨-, hfull⟩
    · cases hover
    · cases hover
    · omega
  · exact fun s _ sorted h key => contentGet_spec h key

theorem table_lookup_hi : ∃ n fd,
    contentGet [⟨3, ascii "k"⟩] (ascii "k") n = some (.returned fd)
      ∧ simplecacheGet [⟨3, ascii "k"⟩] (ascii "k") = fd
      ∧ (fd = -1 ↔ ∀ item ∈ [(⟨3, ascii "k"⟩ : Item)], item.key ≠ cstr (ascii "k"))
      ∧ (fd ≠ -1 → ∃ item ∈ [(⟨3, ascii "k"⟩ : Item)],
        item.key = cstr (ascii "k") ∧ fd = item.fildes) :=
  (table_lookup .content (ascii "k hi\n") fun _ _ => some 3).2
    ⟨1, 16, some ⟨3, ascii "k"⟩ :: List.replicate 15 none, [], [ascii "hi"]⟩ ⟨1, rfl⟩
    [⟨3, ascii "k"⟩] ⟨List.Perm.refl _, List.pairwise_singleton _ _⟩ (ascii "k")

end FileServices.Content
