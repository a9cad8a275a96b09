import FileServices.Proofs.Content

/-!
# The content file as it is read

A row that fits the buffer with its line end is read as it is written.  Of a longer row, and of a
last row without a line end, `fgets` gives a part or all without the line end, and the character
that is taken off is one of the path (`content_read_iff`).
-/

namespace FileServices.Content

open CString

/-- A row of the file: a key and a path, separated by a space or a tab. -/
structure Row where
  key : Bytes
  sep : UInt8
  path : Bytes
  key_ne : key ≠ []
  path_ne : path ≠ []
  sep_mem : sep ∈ blanks
  key_plain : ∀ b ∈ key, b ∉ blanks ∧ b ≠ 10 ∧ b ≠ 0
  path_plain : ∀ b ∈ path, b ∉ blanks ∧ b ≠ 10 ∧ b ≠ 0

def Row.text (r : Row) : Bytes := r.key ++ r.sep :: r.path

/-- Rows that end their lines, and a last one that may not. -/
def fileText : List Row → Option Row → Bytes
  | [], last => last.elim [] Row.text
  | r :: rows, last => r.text ++ 10 :: fileText rows last

/-- `fgets` has room for the row with its line end. -/
def Row.Fits (lib : Library) (r : Row) : Prop := r.text.length + 2 ≤ lib.maxKeylen

/-- The items that the rows stand for, where `open` gives the descriptors `fd`. -/
def rowItems (fd : ℕ → ℕ) (rows : List Row) : List Item := rows.mapIdx fun i r => ⟨fd i, r.key⟩

/-- The table is made, each path has been opened in its turn, and there is an item for each row. -/
def ReadAsWritten (lib : Library) (rows : List Row) (last : Option Row)
    (opens : ℕ → Bytes → Option ℕ) (fd : ℕ → ℕ) : Prop :=
  ∃ n s, init lib (fileText rows last) ((List.range n).map opens) = .stop (.table s)
    ∧ s.opened = (rows ++ last.toList).map Row.path
    ∧ ∀ sorted, Qsorted s.table sorted → sorted.Perm (rowItems fd (rows ++ last.toList))

variable {lib : Library} {rows : List Row} {last : Option Row} {opens : ℕ → Bytes → Option ℕ}
  {fd : ℕ → ℕ} {r : Row} {s t : Reading} {n : ℕ}

/-! ### A row -/

theorem Row.plain (r : Row) : ∀ b ∈ r.text, b ≠ 10 ∧ b ≠ 0 := by
  intro b hb
  rcases List.mem_append.mp hb with hb | hb
  · exact (r.key_plain b hb).2
  · rcases List.mem_cons.mp hb with rfl | hb
    · exact (by decide : ∀ b ∈ blanks, b ≠ 10 ∧ b ≠ 0) r.sep r.sep_mem
    · exact (r.path_plain b hb).2

theorem Row.text_pos (r : Row) : 0 < r.text.length := by
  simp [Row.text]

/-- With a character after it, a row is taken apart as it was put together. -/
theorem separate_row (r : Row) (c : UInt8) : separate (r.text ++ [c]) = (r.key, some r.path) := by
  have hkey : ∀ b ∈ r.key, b ∉ blanks := fun b hb => (r.key_plain b hb).1
  have hpath : ∀ b ∈ r.path, b ∉ blanks := fun b hb => (r.path_plain b hb).1
  simp only [separate, List.dropLast_concat, Row.text]
  rw [strsep_append hkey r.sep_mem, Option.map_some, strsep_last hpath]

/-- Of a part of a row a shorter path is left, or none. -/
theorem separate_part (r : Row) {k : ℕ} (hk : k < r.text.length) {line : Bytes}
    (hline : line.dropLast = r.text.take k) : (separate line).2 ≠ some r.path := by
  have hkey : ∀ b ∈ r.key, b ∉ blanks := fun b hb => (r.key_plain b hb).1
  have hpath : ∀ b ∈ r.path, b ∉ blanks := fun b hb => (r.path_plain b hb).1
  have hlen : r.text.length = r.key.length + (r.path.length + 1) := by simp [Row.text]
  simp only [separate, hline, Row.text]
  rcases Nat.lt_or_ge r.key.length k with hlt | hge
  · obtain ⟨j, rfl⟩ : ∃ j, k = r.key.length + (j + 1) := ⟨k - r.key.length - 1, by omega⟩
    rw [List.take_length_add_append, List.take_succ_cons, strsep_append hkey r.sep_mem,
      Option.map_some, strsep_last fun b hb => hpath b (List.mem_of_mem_take hb)]
    intro h
    have hshort := congrArg List.length (Option.some.inj h)
    rw [List.length_take] at hshort
    omega
  · rw [List.take_append_of_le_length hge,
      strsep_last fun b hb => hkey b (List.mem_of_mem_take hb)]
    exact nofun

theorem maxKeylen_gt (lib : Library) : 2 < lib.maxKeylen := by
  cases lib <;> decide

theorem fgets_row (hfit : r.Fits lib) (tail : Bytes) :
    fgets (lib.maxKeylen - 1) (r.text ++ 10 :: tail) = (r.text ++ [10], tail) := by
  unfold Row.Fits at hfit
  exact fgets_line (fun h => (r.plain 10 h).1 rfl) (by omega)

/-- Where the line end of a row is not in reach, what is read of it lacks a character once the
last one is taken off. -/
theorem fgets_part {tail : Bytes} (h : tail = [] ∨ ¬ r.Fits lib) :
    (separate (cstr (fgets (lib.maxKeylen - 1) (r.text ++ tail)).1)).2 ≠ some r.path := by
  have hpos := r.text_pos
  have hmax := maxKeylen_gt lib
  have hreach : (r.text ++ tail).take (lib.maxKeylen - 1) = r.text.take (lib.maxKeylen - 1) := by
    rcases h with rfl | hfit
    · rw [List.append_nil]
    · unfold Row.Fits at hfit
      exact List.take_append_of_le_length (by omega)
  have hline : (fgets (lib.maxKeylen - 1) (r.text ++ tail)).1
      = r.text.take (lib.maxKeylen - 1) := by
    rw [fgets_cut, hreach]
    rw [hreach]
    exact fun hmem => (r.plain 10 (List.mem_of_mem_take hmem)).1 rfl
  rw [hline, cstr_eq_self fun hmem => (r.plain 0 (List.mem_of_mem_take hmem)).2 rfl]
  refine separate_part r (k := min (lib.maxKeylen - 1) r.text.length - 1) (by omega) ?_
  rw [List.dropLast_eq_take, List.length_take, List.take_take]
  congr 1
  omega

/-! ### The file -/

theorem fileText_drop {j : ℕ} (hj : j < rows.length) :
    fileText (rows.drop j) last = rows[j].text ++ 10 :: fileText (rows.drop (j + 1)) last := by
  rw [List.drop_eq_getElem_cons hj]
  rfl

theorem rowItems_take {j : ℕ} (hj : j < rows.length) :
    rowItems fd (rows.take (j + 1)) = rowItems fd (rows.take j) ++ [⟨fd j, rows[j].key⟩] := by
  rw [List.take_succ_eq_append_getElem hj, rowItems, List.mapIdx_concat, List.length_take,
    Nat.min_eq_left hj.le]
  rfl

variable (hopens : ∀ i r, (rows ++ last.toList)[i]? = some r → opens i r.path = some (fd i))

include hopens

/-- While the rows fit, the items are those of the rows. -/
theorem after_rows (hlen : rows.length < 2 ^ 30) : ∀ {j : ℕ}, j ≤ rows.length →
    (∀ r ∈ rows.take j, r.Fits lib) →
      ∃ s, Loop.after (initHead lib) (initBody lib) (.start (fileText rows last)) opens j = some s
        ∧ s.rest = fileText (rows.drop j) last ∧ s.opened = (rows.take j).map Row.path
        ∧ s.table = rowItems fd (rows.take j)
  | 0, _, _ => ⟨_, rfl, rfl, rfl, rfl⟩
  | j + 1, hj, hfit => by
    rw [List.take_succ_eq_append_getElem hj] at hfit
    obtain ⟨s, hs, hrest, hopened, htable⟩ := after_rows hlen (Nat.le_of_succ_le hj) fun r hr =>
      hfit r (List.mem_append_left _ hr)
    obtain ⟨hroom, hn⟩ := room_after hs
    have hline := fgets_row (hfit rows[j] (List.mem_append_right _ (List.mem_singleton_self _)))
      (fileText (rows.drop (j + 1)) last)
    rw [← fileText_drop hj, ← hrest] at hline
    have hstr : cstr (rows[j].text ++ [10]) = rows[j].text ++ [10] := cstr_eq_self fun h => by
      rcases List.mem_append.mp h with h | h
      · exact (rows[j].plain 0 h).2 rfl
      · simp at h
    have hopen : opens j rows[j].path = some (fd j) :=
      hopens j rows[j] (by rw [List.getElem?_append_left hj, List.getElem?_eq_getElem hj])
    have hhead : initHead lib s = none := by
      simp [initHead, hline]
    have hbody := hroom.body (o := opens j) hline (by simp [hstr])
    rw [hstr, separate_row] at hbody
    dsimp only at hbody
    rw [hopen] at hbody
    dsimp only at hbody
    rcases hroom.add ⟨fd j, rows[j].key⟩ rows[j].path (fileText (rows.drop (j + 1)) last) with
      ⟨-, hfull⟩ | ⟨t, ht, -, -, hrest', hopened', htable'⟩
    · omega
    · refine ⟨t, Loop.after_succ.mpr ⟨s, hs, hhead, hbody.trans ht⟩, hrest', ?_, ?_⟩
      · rw [hopened', hopened, List.take_succ_eq_append_getElem hj, List.map_append]
        rfl
      · rw [htable', htable, rowItems_take hj]

omit hopens

theorem stops_table
    (h : Loop.Stops (initHead lib) (initBody lib) (.start (fileText rows last)) opens (.table s)) :
    ∃ n, Loop.after (initHead lib) (initBody lib) (.start (fileText rows last)) opens n
      = some s := by
  obtain ⟨n, t, ht, hhead | ⟨-, hbody⟩⟩ := Loop.stops_iff.mp h
  · unfold initHead at hhead
    split_ifs at hhead
    obtain rfl := Init.table.inj (Option.some.inj hhead)
    exact ⟨n, ht⟩
  · rcases (room_after ht).1.stop hbody with h | h | ⟨h, -⟩ <;> cases h

theorem path_of_part (hs : Loop.after (initHead lib) (initBody lib)
      (.start (fileText rows last)) opens n = some s)
    (ht : Loop.after (initHead lib) (initBody lib) (.start (fileText rows last)) opens (n + 1)
      = some t) {tail : Bytes} (hrest : s.rest = r.text ++ tail)
    (h : tail = [] ∨ ¬ r.Fits lib) : ∃ path ≠ r.path, t.opened = s.opened ++ [path] := by
  obtain ⟨s', hs', -, hbody⟩ := Loop.after_succ.mp ht
  obtain rfl := Option.some.inj (hs.symm.trans hs')
  obtain ⟨-, -, key, path, fildes, hsep, -, -, hopened, -⟩ := (room_after hs).1.more hbody
  have hpart := fgets_part h
  rw [← hrest, hsep] at hpart
  exact ⟨path, fun he => hpart (congrArg some he), hopened⟩

/-- The paths that have been opened after `n` rows, where all are opened in their turn. -/
theorem opened_eq (hs : Loop.after (initHead lib) (initBody lib) (.start (fileText rows last))
      opens n = some s) (hopened : s.opened = (rows ++ last.toList).map Row.path) {j : ℕ}
    {path : Bytes} {s' t : Reading} (hs' : s'.opened = (rows.take j).map Row.path)
    (hj : j < n) (hjr : j ≤ rows.length)
    (ht : Loop.after (initHead lib) (initBody lib) (.start (fileText rows last)) opens (j + 1)
      = some t) (hpath : t.opened = s'.opened ++ [path]) :
    ∀ r, (rows ++ last.toList)[j]? = some r → path = r.path := by
  intro r hr
  obtain ⟨rest, hrest⟩ := (kept_after ht hj hs).2
  have hget := congrArg (·[j]?) (hrest.trans hopened)
  have hlen : (rows.take j).length = j := by
    rw [List.length_take, Nat.min_eq_left hjr]
  simp only [hpath, hs', List.getElem?_map, hr, Option.map_some, List.append_assoc] at hget
  rw [List.getElem?_append_right (by simp), List.length_map, hlen, Nat.sub_self] at hget
  exact Option.some.inj hget

include hopens in
/-- The table has an item with the key of each row, and the descriptor of its path, just when
each row ends its line and fits the buffer, and an `int` can count them. -/
theorem content_read_iff : ReadAsWritten lib rows last opens fd ↔
    last = none ∧ (∀ r ∈ rows, r.Fits lib) ∧ rows.length < 2 ^ 30 := by
  constructor
  · rintro ⟨m, s, hs, hopened, -⟩
    obtain ⟨n, hn⟩ := stops_table ⟨m, hs⟩
    obtain ⟨hroom, hitems⟩ := room_after hn
    have hcount : rows.length + last.toList.length = n := by
      rw [← List.length_append, ← List.length_map (f := Row.path), ← hopened, hroom.opened, hitems]
    have hlen : rows.length < 2 ^ 30 := by
      have := hroom.nitems_lt_pow
      omega
    have hfits : ∀ j ≤ rows.length, ∀ r ∈ rows.take j, r.Fits lib := by
      intro j
      induction j with
      | zero => exact fun _ r hr => by simp at hr
      | succ j ih =>
        intro hj r hr
        rw [List.take_succ_eq_append_getElem hj] at hr
        have hfit := ih (Nat.le_of_succ_le hj)
        rcases List.mem_append.mp hr with hr | hr
        · exact hfit r hr
        · obtain rfl := List.mem_singleton.mp hr
          by_contra hnot
          obtain ⟨s', hs', hrest, ho, -⟩ := after_rows hopens hlen (Nat.le_of_succ_le hj) hfit
          obtain ⟨t, ht⟩ := Loop.after_of_le hn (show j + 1 ≤ n by omega)
          rw [fileText_drop hj] at hrest
          obtain ⟨path, hne, hpath⟩ := path_of_part hs' ht hrest (.inr hnot)
          refine hne (opened_eq hn hopened ho (by omega) (Nat.le_of_succ_le hj) ht hpath _ ?_)
          rw [List.getElem?_append_left hj, List.getElem?_eq_getElem hj]
    have hall : ∀ r ∈ rows, r.Fits lib := by
      have := hfits rows.length le_rfl
      rwa [List.take_length] at this
    refine ⟨?_, hall, hlen⟩
    rcases last with _ | r
    · rfl
    · obtain ⟨s', hs', hrest, ho, -⟩ := after_rows hopens hlen le_rfl (hfits _ le_rfl)
      obtain ⟨t, ht⟩ := Loop.after_of_le hn (show rows.length + 1 ≤ n by
        rw [← hcount]
        rfl)
      rw [List.drop_length] at hrest
      obtain ⟨path, hne, hpath⟩ := path_of_part (r := r) hs' ht
        (hrest.trans (List.append_nil _).symm) (.inl rfl)
      refine absurd (opened_eq hn hopened ho ?_ le_rfl ht hpath r (by simp)) hne
      rw [← hcount]
      exact Nat.lt_succ_self _
  · rintro ⟨rfl, hfit, hlen⟩
    obtain ⟨s, hs, hrest, hopened, htable⟩ := after_rows hopens hlen le_rfl fun r hr =>
      hfit r (List.mem_of_mem_take hr)
    rw [List.drop_length] at hrest
    rw [List.take_length] at hopened htable
    have hhead : initHead lib s = some (.table s) := by
      refine if_pos ?_
      rw [hrest, fgets_eq_nil_iff (by have := maxKeylen_gt lib; omega)]
      rfl
    obtain ⟨m, hm⟩ := Loop.stops_iff.mpr ⟨_, s, hs, .inl hhead⟩
    simp only [ReadAsWritten, Option.toList_none, List.append_nil]
    exact ⟨m, s, hm, hopened, fun sorted h => htable ▸ h.perm⟩

theorem content_read_iff_hi : ReadAsWritten .content
      [⟨ascii "k", 32, ascii "hi", by decide, by decide, by decide, by decide, by decide⟩] none
      (fun _ _ => some 3) (fun _ => 3)
    ↔ (none : Option Row) = none
      ∧ (∀ r ∈ [(⟨ascii "k", 32, ascii "hi", by decide, by decide, by decide, by decide,
        by decide⟩ : Row)], r.Fits .content) ∧ 1 < 2 ^ 30 :=
  content_read_iff fun _ _ _ => rfl

theorem content_cut :
    (∃ s, init .content (ascii "k hi") [fun _ => some 3] = .stop (.table s)
        ∧ s.opened = [ascii "h"])
      ∧ ¬ ReadAsWritten .content []
        (some ⟨ascii "k", 32, ascii "hi", by decide, by decide, by decide, by decide, by decide⟩)
        (fun _ _ => some 3) (fun _ => 3) := by
  have hrun : init .content (ascii "k hi") [fun _ => some 3] = .stop (.table
      ⟨1, 16, some ⟨3, ascii "k"⟩ :: List.replicate 15 none, [], [ascii "h"]⟩) := rfl
  refine ⟨⟨_, hrun, rfl⟩, ?_⟩
  rintro ⟨n, s, hs, hopened, -⟩
  match n with
  | 0 => cases hs
  | n + 1 =>
    rw [List.range_succ_eq_map, List.map_cons] at hs
    have hsame := (Loop.run_stop_append hrun _).symm.trans hs
    obtain rfl := Init.table.inj (Loop.Outcome.stop.inj hsame)
    exact absurd hopened (by decide)

end FileServices.Content
