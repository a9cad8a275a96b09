import FileServices.LocalPath
import FileServices.OpenFile

/-!
# `openFile` makes the directories above its file

The loop comes to each separator behind the first byte once, and the path is whole again when the
file is opened.
-/

namespace FileServices.OpenFile

open CString

variable {path rest : Bytes} {s : Opening} {cur : ℕ}

/-- The separators from index `i` on. -/
def separators (path : Bytes) (i : ℕ) : List ℕ := (path.drop i).findIdxs (· == slash) i

/-- The array is whole between the iterations, and the directories are those of the separators
that the loop has come to. -/
structure Opening.Ok (path rest : Bytes) (s : Opening) : Prop where
  whole : s.path = path ++ 0 :: rest
  inside : s.prev < path.length
  made : s.dirs ++ (separators path (s.prev + 1)).map path.take
    = (separators path 1).map path.take
  read : s.last ≤ path.length

theorem Opening.Ok.start (hne : path ≠ []) (rest : Bytes) :
    (Opening.start (path ++ 0 :: rest)).Ok path rest :=
  ⟨rfl, List.length_pos_iff.mpr hne, rfl, Nat.zero_le _⟩

theorem Opening.Ok.search (hs : s.Ok path rest) (h0 : 0 ∉ path) :
    strchr s.path (s.prev + 1) slash
      = (separators path (s.prev + 1)).head?.elim (.null path.length) .found := by
  rw [hs.whole]
  exact strchr_string (by decide) h0 hs.inside rest

/-- The string in the array while it is cut at `cur`. -/
theorem cstr_cut (h0 : 0 ∉ path) (hcur : cur < path.length) :
    cstr ((path ++ 0 :: rest).set cur 0) = path.take cur := by
  rw [List.set_append_left _ _ hcur, List.set_eq_take_append_cons_drop, if_pos hcur,
    List.append_assoc, List.cons_append]
  exact cstr_string fun h => h0 (List.mem_of_mem_take h)

theorem set_slash (hat : path[cur]? = some slash) :
    ((path ++ 0 :: rest).set cur 0).set cur slash = path ++ 0 :: rest := by
  obtain ⟨hcur, hbyte⟩ := List.getElem?_eq_some_iff.mp hat
  rw [List.set_set, List.set_append_left _ _ hcur, ← hbyte, List.set_getElem_self]

/-- What an iteration does at the separator that the search finds. -/
theorem Opening.Ok.body (hs : s.Ok path rest) (h0 : 0 ∉ path) {js : List ℕ}
    (hsep : separators path (s.prev + 1) = cur :: js) {mkdir : Option ℕ}
    (hmkdir : mkdir = none ∨ mkdir = some eexist) :
    ∃ t, openBody s mkdir = .more t ∧ t.Ok path rest ∧ s.prev < t.prev := by
  have hfound := hs.search h0
  rw [hsep] at hfound
  obtain ⟨hle, hat, hjs⟩ := findIdxs_tail hsep
  have hcur : cur < path.length := (List.getElem?_eq_some_iff.mp hat).1
  have hname : cstr (s.path.set cur 0) = path.take cur := by
    rw [hs.whole, cstr_cut h0 hcur]
  have hgood : mkdir.any (· ≠ eexist) = false := by
    rcases hmkdir with rfl | rfl <;> simp
  have hbody : openBody s mkdir = .more ⟨(s.path.set cur 0).set cur slash, cur,
      s.dirs ++ [path.take cur], max (max s.last cur) (path.take cur).length⟩ := by
    simp only [openBody, hfound, Opening.argument, hname, List.head?_cons, Option.elim_some, hgood]
    rfl
  refine ⟨_, hbody, ⟨?_, hcur, ?_, ?_⟩, hle⟩
  · rw [hs.whole]
    exact set_slash hat
  · rw [← hs.made, hsep, List.append_assoc, hjs]
    rfl
  · have := hs.read
    change max (max s.last cur) (path.take cur).length ≤ path.length
    rw [List.length_take]
    omega

/-- The array when all directories have been made. -/
structure Opening.Done (path rest : Bytes) (s : Opening) : Prop where
  whole : s.path = path ++ 0 :: rest
  made : s.dirs = (separators path 1).map path.take
  read : s.last ≤ path.length

theorem Opening.Ok.head (hs : s.Ok path rest) (h0 : 0 ∉ path)
    (hsep : separators path (s.prev + 1) = []) :
    ∃ t, openHead s = some (.fopen path t) ∧ t.Done path rest := by
  have hnull := hs.search h0
  rw [hsep] at hnull
  have hname : cstr s.path = path := by
    rw [hs.whole, cstr_string h0]
  have hmade := hs.made
  rw [hsep, List.map_nil, List.append_nil] at hmade
  refine ⟨⟨s.path, s.prev, s.dirs, max (max s.last path.length) path.length⟩, ?_, hs.whole, hmade,
    max_le (max_le hs.read le_rfl) le_rfl⟩
  simp only [openHead, hnull, Opening.argument, hname, List.head?_nil, Option.elim_none]

theorem Opening.Ok.exists_separator (hs : s.Ok path rest) (h0 : 0 ∉ path)
    (hhead : openHead s = none) : ∃ cur js, separators path (s.prev + 1) = cur :: js := by
  cases hsep : separators path (s.prev + 1) with
  | nil =>
    obtain ⟨t, ht, -⟩ := hs.head h0 hsep
    rw [ht] at hhead
    cases hhead
  | cons cur js => exact ⟨cur, js, rfl⟩

theorem separators_one (path : Bytes) :
    separators path 1 = (path.findIdxs (· == slash)).filter (1 ≤ ·) := by
  cases path with
  | nil => rfl
  | cons b path =>
    have hall : ∀ i ∈ path.findIdxs (· == slash) 1, decide (1 ≤ i) = true := fun i hi =>
      decide_eq_true (List.ge_of_mem_findIdxs i hi)
    rw [separators, List.findIdxs_cons]
    split_ifs
    · rw [List.filter_cons_of_neg (by decide), List.filter_eq_self.mpr hall]
      rfl
    · rw [List.filter_eq_self.mpr hall]
      rfl

/-- Where each `mkdir` succeeds or finds the directory there, the loop ends and all directories
have been made. -/
theorem openFile_done (hne : path ≠ []) (h0 : 0 ∉ path) (rest : Bytes) {mkdir : ℕ → Option ℕ}
    (hmkdir : ∀ n, mkdir n = none ∨ mkdir n = some eexist) :
    ∃ n t, Loop.StopsAfter openHead openBody (.start (path ++ 0 :: rest)) mkdir n (.fopen path t)
      ∧ t.Done path rest := by
  have hloop := @Loop.stopsAfter_of_rank _ _ _ openHead openBody (.start (path ++ 0 :: rest)) mkdir
    (Opening.Ok path rest) (fun r => ∃ t, r = .fopen path t ∧ t.Done path rest)
    (fun s => path.length - s.prev) ?_ ?_ ?_ (.start hne rest)
  · obtain ⟨n, r, hstops, t, rfl, hdone⟩ := hloop
    exact ⟨n, t, hstops, hdone⟩
  · intro s n t hs hhead hbody
    obtain ⟨cur, js, hsep⟩ := hs.exists_separator h0 hhead
    obtain ⟨t', ht', hok, hlt⟩ := hs.body h0 hsep (hmkdir n)
    obtain rfl := Loop.Outcome.more.inj (ht'.symm.trans hbody)
    have := hok.inside
    exact ⟨hok, by omega⟩
  · intro s r hs hhead
    cases hsep : separators path (s.prev + 1) with
    | nil =>
      obtain ⟨t, ht, hdone⟩ := hs.head h0 hsep
      exact ⟨t, Option.some.inj (hhead.symm.trans ht), hdone⟩
    | cons cur js =>
      have hfound := hs.search h0
      rw [hsep] at hfound
      simp [openHead, hfound] at hhead
  · intro s n r hs hhead hbody
    obtain ⟨cur, js, hsep⟩ := hs.exists_separator h0 hhead
    obtain ⟨t, ht, -⟩ := hs.body h0 hsep (hmkdir n)
    simp [ht] at hbody

theorem Opening.Done.pairwise (h : s.Done path rest) (hne : path ≠ []) :
    (s.dirs.map List.length).Pairwise (· < ·) := by
  rw [h.made, List.map_map]
  refine List.pairwise_map.mpr (List.pairwise_findIdxs.imp_of_mem fun {i j} _ hj hlt => ?_)
  have hpos := List.length_pos_iff.mpr hne
  have hle := (List.lt_add_of_mem_findIdxs j hj).le
  rw [List.length_drop] at hle
  simp only [Function.comp_apply, List.length_take]
  omega

/-- The directories are the parts of the path that end before a separator behind the first byte,
from the shortest to the longest.  Nothing behind the terminator is read, and the file is opened
under the path as it was passed. -/
theorem openFile_makes (hne : path ≠ []) (h0 : 0 ∉ path) (rest : Bytes) {mkdir : ℕ → Option ℕ}
    (hmkdir : ∀ n, mkdir n = none ∨ mkdir n = some eexist) :
    ∃ n t, Loop.StopsAfter openHead openBody (.start (path ++ 0 :: rest)) mkdir n (.fopen path t)
      ∧ t.dirs = ((path.findIdxs (· == slash)).filter (1 ≤ ·)).map path.take
      ∧ (t.dirs.map List.length).Pairwise (· < ·)
      ∧ t.last ≤ path.length
      ∧ t.path = path ++ 0 :: rest := by
  obtain ⟨n, t, hstops, hdone⟩ := openFile_done hne h0 rest hmkdir
  exact ⟨n, t, hstops, separators_one path ▸ hdone.made, hdone.pairwise hne, hdone.read,
    hdone.whole⟩

theorem openFile_makes_nested : ∃ n t, Loop.StopsAfter openHead openBody
      (.start (ascii "/d//e/f" ++ 0 :: ascii "/x")) (fun n => if n = 1 then some eexist else none) n
      (.fopen (ascii "/d//e/f") t)
    ∧ t.dirs = [ascii "/d", ascii "/d/", ascii "/d//e"] ∧ t.last ≤ 7 := by
  obtain ⟨n, t, hstops, hdirs, -, hlast, -⟩ := @openFile_makes (ascii "/d//e/f") (by decide)
    (by decide) (ascii "/x") (fun n => if n = 1 then some eexist else none)
    fun n => by split_ifs <;> simp
  exact ⟨n, t, hstops, hdirs, hlast⟩

/-! ### The names of the client -/

theorem notMem_suffix (counter : ℕ) : 0 ∉ LocalPath.suffix counter := by
  have hdigits : 0 ∉ decimal counter := fun h => absurd (isDigit_of_mem_decimal h) (by decide)
  rw [LocalPath.suffix]
  simp [hdigits, ascii]

theorem localPath_string {reqPath : Bytes} (h0 : 0 ∉ reqPath) (counter : ℕ) :
    LocalPath.localPath reqPath counter ≠ [] ∧ 0 ∉ LocalPath.localPath reqPath counter := by
  constructor
  · intro h
    rcases List.take_eq_nil_iff.mp h with h | h
    · cases h
    · simp [LocalPath.suffix, ascii] at h
  · intro h
    rcases List.mem_append.mp (List.mem_of_mem_take h) with h | h
    · exact h0 (List.mem_of_mem_tail h)
    · exact notMem_suffix counter h

/-- The client makes the directories above each file that it saves to. -/
theorem openFile_localPath {reqPath : Bytes} (h0 : 0 ∉ reqPath) (counter : ℕ) (rest : Bytes)
    {mkdir : ℕ → Option ℕ} (hmkdir : ∀ n, mkdir n = none ∨ mkdir n = some eexist) :
    ∃ n t, Loop.StopsAfter openHead openBody
        (.start (LocalPath.localPath reqPath counter ++ 0 :: rest)) mkdir n
        (.fopen (LocalPath.localPath reqPath counter) t)
      ∧ t.Done (LocalPath.localPath reqPath counter) rest := by
  obtain ⟨hne, hterm⟩ := localPath_string h0 counter
  exact openFile_done hne hterm rest hmkdir

end FileServices.OpenFile
