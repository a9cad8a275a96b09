import FileServices.Proofs.DfsService

/-!
# What a listing says of the server

`listFiles` answers with every entry that it can `stat`, directories as well, and `List` inserts
the answer into a map without a look at what is there; the time goes through an `int` on its way
(`listing_iff`).
-/

namespace FileServices.Dfs

open CString

variable {h : Host} {names : List Bytes} {entries : List (Bytes × Bool)} {e : Bytes}
  {fileMap : Bytes → Option ℤ}

/-! ### The answer -/

/-- What `listFiles` says of an entry. -/
def itemOf (h : Host) (e : Bytes) : Option Item :=
  (h.stat (h.wrapPath e)).map fun st => ⟨e, (st.stMtime % 2 ^ 64).toNat⟩

theorem listItems_cancelled : ∀ {entries : List (Bytes × Bool)} (items : List Item),
    (∃ e ∈ entries, e.2 = true) → (listItems h entries items).1 = .deadlineExceeded
  | (filename, isCancelled) :: entries, items, hex => by
    rw [listItems]
    by_cases hnow : isCancelled = true
    · rw [if_pos hnow]
    · have hlater : ∃ e ∈ entries, e.2 = true := by
        simpa [hnow] using hex
      rw [if_neg hnow]
      rcases h.stat (h.wrapPath filename) with _ | st
      · exact listItems_cancelled items hlater
      · exact listItems_cancelled _ hlater

theorem find_itemOf (h : Host) (e : Bytes) : ∀ names : List Bytes,
    (names.filterMap (itemOf h)).find? (fun item => item.filename = e)
      = if e ∈ names then itemOf h e else none
  | [] => rfl
  | a :: names => by
    have ih := find_itemOf h e names
    rcases hitem : itemOf h a with _ | item
    · rw [List.filterMap_cons_none hitem, ih]
      by_cases hae : e = a
      · simp [hae, hitem]
      · simp [hae]
    · obtain ⟨st, -, rfl⟩ := Option.map_eq_some_iff.mp hitem
      rw [List.filterMap_cons_some hitem, List.find?_cons]
      by_cases hae : a = e
      · subst hae
        simp [hitem]
      · simp [hae, Ne.symm hae, ih]

/-! ### The map -/

theorem insertItem_apply (fileMap : Bytes → Option ℤ) (item : Item) (e : Bytes) :
    insertItem fileMap item e
      = (fileMap e).or (if item.filename = e then some (int item.mtime) else none) := by
  unfold insertItem
  generalize int item.mtime = z
  split_ifs with hin he he
  · obtain ⟨y, hy⟩ := Option.isSome_iff_exists.mp hin
    rw [← he, hy, Option.some_or]
  · rw [Option.or_none]
  · rw [← he, Function.update_self, Option.not_isSome_iff_eq_none.mp hin, Option.none_or]
  · rw [Option.or_none, Function.update_of_ne (Ne.symm he)]

/-- The first binding of a name counts, and what was in the map comes first. -/
theorem insertItems_apply : ∀ (items : List Item) (fileMap : Bytes → Option ℤ) (e : Bytes),
    items.foldl insertItem fileMap e = (fileMap e).or
      ((items.find? fun item => item.filename = e).map fun item => int item.mtime)
  | [], fileMap, e => by simp
  | item :: items, fileMap, e => by
    rw [List.foldl_cons, insertItems_apply items, insertItem_apply, Option.or_assoc,
      List.find?_cons]
    by_cases he : item.filename = e <;> simp [he]

theorem emod_bmod_of_dvd {n : ℕ} {m : ℤ} (hdvd : (n : ℤ) ∣ m) (t : ℤ) :
    (t % m).bmod n = t.bmod n := by
  rw [Int.bmod_def, Int.bmod_def, Int.emod_emod_of_dvd t hdvd]

/-- An `int` of a time has the same value, whether or not it comes as a `uint64`. -/
theorem int_uint64 (t : ℤ) : int ((t % 2 ^ 64).toNat : ℕ) = int t := by
  rw [Int.toNat_of_nonneg (Int.emod_nonneg t (by norm_num))]
  exact emod_bmod_of_dvd (by norm_num) t

theorem int_eq_iff {z : ℤ} : int z = z ↔ -2 ^ 31 ≤ z ∧ z < 2 ^ 31 := by
  refine ⟨fun heq => ?_, fun hz => int_eq hz.1 hz.2⟩
  unfold int at heq
  rw [Int.bmod_def] at heq
  split_ifs at heq <;> omega

theorem listing_eq (h : Host) (names : List Bytes) (fileMap : Bytes → Option ℤ) :
    (listing h (names.map fun e => (e, false)) fileMap).1 = .ok
      ∧ ∀ e, (listing h (names.map fun e => (e, false)) fileMap).2 e = (fileMap e).or
        (if e ∈ names then (h.stat (h.wrapPath e)).map fun st => int st.stMtime else none) := by
  have hitems : listFiles h (names.map fun e => (e, false))
      = (.ok, names.filterMap (itemOf h)) := listItems_eq h names []
  unfold listing
  rw [hitems]
  refine ⟨rfl, fun e => ?_⟩
  simp only [list, if_true]
  rw [insertItems_apply, find_itemOf]
  by_cases he : e ∈ names
  · simp only [if_pos he, itemOf, Option.map_map, Function.comp_def, int_uint64]
  · rw [if_neg he, if_neg he, Option.map_none]

/-! ### The listing -/

/-- The regular files among the entries of a directory, with their times. -/
def regularFiles (h : Host) (entries : List (Bytes × Bool)) (e : Bytes) : Option ℤ :=
  if e ∈ entries.map Prod.fst then (h.file (h.wrapPath e)).map File.mtime else none

/-- If `List` returns OK, the map is that of the regular files of the server. -/
def Lists (h : Host) (entries : List (Bytes × Bool)) (fileMap : Bytes → Option ℤ) : Prop :=
  (listing h entries fileMap).1 = .ok →
    ∀ e, (listing h entries fileMap).2 e = regularFiles h entries e

/-- All that `stat` finds in the directory is a regular file, the map holds nothing but current
times of such files, and the times that are new to it fit an `int`. -/
structure Listable (h : Host) (entries : List (Bytes × Bool)) (fileMap : Bytes → Option ℤ) :
    Prop where
  regular : ∀ e ∈ entries.map Prod.fst, (h.stat (h.wrapPath e)).isSome →
    (h.file (h.wrapPath e)).isSome
  bound : ∀ e z, fileMap e = some z → regularFiles h entries e = some z
  fits : ∀ e z, fileMap e = none → regularFiles h entries e = some z → -2 ^ 31 ≤ z ∧ z < 2 ^ 31

theorem stat_of_file {path : Bytes} {f : File} (hfile : h.file path = some f) :
    h.stat path = some ⟨f.content.length, f.mtime⟩ := by
  rw [Host.stat, hfile]

theorem listable_iff : Listable h (names.map fun e => (e, false)) fileMap ↔ ∀ e, (fileMap e).or
    (if e ∈ names then (h.stat (h.wrapPath e)).map fun st => int st.stMtime else none)
      = regularFiles h (names.map fun e => (e, false)) e := by
  have hnames : (names.map fun e => (e, false)).map Prod.fst = names := by
    simp [Function.comp_def]
  constructor
  · intro hl e
    rcases hold : fileMap e with _ | z
    · rw [Option.none_or]
      have hfits := fun z => hl.fits e z hold
      rw [regularFiles, hnames] at hfits ⊢
      by_cases he : e ∈ names
      · simp only [if_pos he] at hfits ⊢
        rcases hfile : h.file (h.wrapPath e) with _ | f
        · rcases hstat : h.stat (h.wrapPath e) with _ | st
          · rfl
          · have := hl.regular e (hnames.symm ▸ he) (by rw [hstat]; rfl)
            simp [hfile] at this
        · rw [hfile] at hfits
          rw [stat_of_file hfile, Option.map_some, Option.map_some,
            int_eq_iff.mpr (hfits f.mtime rfl)]
      · rw [if_neg he, if_neg he]
    · rw [Option.some_or, hl.bound e z hold]
  · intro hall
    refine ⟨fun e he hstat => ?_, fun e z hz => ?_, fun e z hnone hz => ?_⟩
    · have heq := hall e
      obtain ⟨st, hst⟩ := Option.isSome_iff_exists.mp hstat
      rw [regularFiles, hnames, if_pos (hnames ▸ he), if_pos (hnames ▸ he), hst] at heq
      rcases hfile : h.file (h.wrapPath e) with _ | f
      · rcases hold : fileMap e with _ | z <;> simp [hfile, hold] at heq
      · rfl
    · rw [← hall e, hz, Option.some_or]
    · have heq := hall e
      rw [hnone, Option.none_or, hz] at heq
      rw [regularFiles, hnames] at hz
      split_ifs at hz with he
      obtain ⟨f, hfile, rfl⟩ := Option.map_eq_some_iff.mp hz
      rw [if_pos he, stat_of_file hfile, Option.map_some, Option.some.injEq] at heq
      exact int_eq_iff.mp heq

/-- The listing where the context is not cancelled. -/
theorem lists_iff_listable : Lists h (names.map fun e => (e, false)) fileMap
    ↔ Listable h (names.map fun e => (e, false)) fileMap := by
  obtain ⟨hok, hmap⟩ := listing_eq h names fileMap
  rw [listable_iff, Lists]
  simp only [hok, forall_const, hmap]

/-- For every directory of the server and every map of the caller, a listing that returns OK is
that of the regular files just when there is nothing else, the map has nothing of its own, and the
times fit. -/
theorem listing_iff (h : Host) (entries : List (Bytes × Bool)) (fileMap : Bytes → Option ℤ) :
    Lists h entries fileMap ↔ (∃ e ∈ entries, e.2 = true) ∨ Listable h entries fileMap := by
  by_cases hcancel : ∃ e ∈ entries, e.2 = true
  · refine iff_of_true (fun hok => ?_) (.inl hcancel)
    have hstatus : (listFiles h entries).1 = .deadlineExceeded := listItems_cancelled [] hcancel
    unfold listing at hok
    simp [list, hstatus] at hok
  · obtain ⟨names, rfl⟩ : ∃ names : List Bytes, entries = names.map fun e => (e, false) := by
      refine ⟨entries.map Prod.fst, ?_⟩
      rw [List.map_map]
      refine (List.map_id entries).symm.trans (List.map_congr_left fun e he => ?_)
      have : e.2 = false := by
        rw [← Bool.not_eq_true]
        exact fun htrue => hcancel ⟨e, he, htrue⟩
      exact Prod.ext rfl this
    rw [or_iff_right hcancel, lists_iff_listable]

/-- A server with one regular file, in a directory that has itself and its parent as entries. -/
def oneFile : Host where
  mountPath := ascii "mnt/"
  file := fun path => if path = ascii "mnt/a" then some ⟨[], 5⟩ else none
  dir := fun path => if path = ascii "mnt/." ∨ path = ascii "mnt/.." then some ⟨4096, 5⟩ else none

theorem listing_dot : ¬ Lists oneFile
    [(ascii ".", false), (ascii "..", false), (ascii "a", false)] fun _ => none := by
  intro hlists
  have hlistable : Listable oneFile ([ascii ".", ascii "..", ascii "a"].map fun e => (e, false))
    fun _ => none := lists_iff_listable.mp hlists
  exact absurd (hlistable.regular (ascii ".") (by decide) (by decide)) (by decide)

end FileServices.Dfs
