import FileServices.Proofs.DfsTransfer

/-!
# What an answer of `storeFile` tells

`storeFile` answers OK unless an iteration finds the call cancelled or throws.  An `ofstream` that
could not be opened, a write that fell short and a stream that broke before the last message all
come to that answer.
-/

namespace FileServices.Dfs

open CString

variable {h : Host} {f : Ofstream} {path : Bytes} {now : ℤ} {rs : List Recv}

/-- The messages `rs` have been written to the file at `path`, and a part of them is missing as
soon as a write has fallen short. -/
structure Filled (h : Host) (f : Ofstream) (path : Bytes) (rs : List Recv) : Prop
    extends Saved h f path rs where
  fits : f.good = true → ∀ r ∈ rs, r.data.length ≤ r.room
  short : f.good = false → ∀ file, h.file path = some file →
    file.content.length < (rs.map Recv.data).flatten.length

theorem Filled.open (now : ℤ) (path : Bytes) (h : Host) :
    Filled (Ofstream.open now true path h).1 (Ofstream.open now true path h).2 path [] :=
  ⟨Saved.open now path h, fun _ => by simp, nofun⟩

theorem Filled.write (hs : Filled h f path rs) (now : ℤ) (r : Recv) :
    Filled (f.write now r.room r.data h).1 (f.write now r.room r.data h).2 path (rs ++ [r]) := by
  obtain ⟨file, hfile, -, hgood⟩ := hs.file
  refine ⟨hs.toSaved.write now r, fun hg => ?_, fun hg => ?_⟩
  all_goals simp only [Ofstream.write, hs.isOpen] at hg ⊢
  · by_cases hf : f.good = true
    · rw [if_pos hf] at hg
      intro r' hr'
      rcases List.mem_append.mp hr' with hr' | hr'
      · exact hs.fits hf r' hr'
      · obtain rfl := List.mem_singleton.mp hr'
        exact of_decide_eq_true hg
    · rw [if_neg hf] at hg
      exact absurd hg hf
  · by_cases hf : f.good = true
    · obtain ⟨hcontent, hpos⟩ := hgood hf
      rw [if_pos hf] at hg ⊢
      have hroom : r.room < r.data.length := not_le.mp (of_decide_eq_false hg)
      rw [Host.put_file, hfile, Option.map_some, hpos, writeAt_end]
      intro file' hfile'
      obtain rfl := Option.some.inj hfile'
      simp [hcontent, hroom]
    · rw [if_neg hf] at hg ⊢
      intro file' hfile'
      have hlt := hs.short hg file' hfile'
      rw [List.map_append, List.flatten_append, List.length_append]
      omega

theorem receive_storeRead_ok_iff (rs : List (Option Recv)) : ∀ {h : Host} {f : Ofstream},
    (receive (storeRead now) .ok h f rs).2 = .ok ↔
      ∀ m ∈ rs, ∃ r, m = some r ∧ r.isCancelled = false := by
  induction rs with
  | nil => simp [receive]
  | cons m rs ih =>
    intro h f
    rw [List.forall_mem_cons]
    cases m with
    | none => simp [receive, storeRead]
    | some r =>
      cases hc : r.isCancelled with
      | true => simp [receive, storeRead, hc]
      | false =>
        simp only [receive, storeRead, hc, Bool.false_eq_true, if_false, ih]
        exact (and_iff_right ⟨r, rfl, hc⟩).symm

theorem taken_eq_filterMap {rs : List (Option Recv)}
    (hgo : ∀ m ∈ rs, ∃ r, m = some r ∧ r.isCancelled = false) :
    taken Recv.isCancelled rs = rs.filterMap id := by
  induction rs with
  | nil => rfl
  | cons m rs ih =>
    obtain ⟨⟨r, rfl, hc⟩, hrest⟩ := List.forall_mem_cons.mp hgo
    simp [taken, hc, ih hrest]

/-- The messages that are written fill the file, unless one falls short. -/
theorem Filled.content_eq_iff (hs : Filled h f path rs) (lost : List Bytes) :
    (h.file path).map File.content = some ((rs.map Recv.data) ++ lost).flatten ↔
      (∀ r ∈ rs, r.data.length ≤ r.room) ∧ lost.flatten = [] := by
  obtain ⟨file, hfile, hpre, hgood⟩ := hs.file
  rw [hfile, Option.map_some, Option.some_inj, List.flatten_append]
  constructor
  · intro heq
    have hlen := congrArg List.length heq
    have hle := hpre.length_le
    rw [List.length_append] at hlen
    cases hg : f.good with
    | true => exact ⟨hs.fits hg, List.length_eq_zero_iff.mp (by omega)⟩
    | false =>
      have := hs.short hg file hfile
      omega
  · rintro ⟨hfits, hlost⟩
    rw [(hgood (hs.whole hfits)).1, hlost, List.append_nil]

/-- `storeFile` answers OK only for a stored file just when it does not answer OK, or the
destination opens, takes every write and no message is lost on the way, or the destination cannot
be opened and holds all that the client wrote already. -/
theorem storeFile_stored_iff (now : ℤ) (h : Host) (filename : Option Bytes) (opens : Bool)
    (recvs : List (Option Recv)) (lost : List Bytes) :
    let r := storeFile now h filename opens recvs
    let path := h.wrapPath (filename.getD [])
    let wrote := ((recvs.filterMap id).map Recv.data ++ lost).flatten
    (r.2 = .ok → (r.1.file path).map File.content = some wrote) ↔
      (∃ m ∈ recvs, ∀ r, m = some r → r.isCancelled = true)
        ∨ (opens = true ∧ (∀ r, some r ∈ recvs → r.data.length ≤ r.room) ∧ lost.flatten = [])
        ∨ (opens = false ∧ (h.file path).map File.content = some wrote) := by
  intro r path wrote
  have hok : r.2 = .ok ↔ ∀ m ∈ recvs, ∃ r, m = some r ∧ r.isCancelled = false :=
    receive_storeRead_ok_iff recvs
  have hstops : (∃ m ∈ recvs, ∀ r, m = some r → r.isCancelled = true) ↔ ¬ r.2 = .ok := by
    rw [hok, not_forall]
    simp
  have hmem : ∀ r, some r ∈ recvs ↔ r ∈ recvs.filterMap id := by simp
  rw [hstops]
  by_cases hgo : r.2 = .ok
  · rw [imp_iff_right hgo]
    simp only [hgo, not_true, false_or]
    cases opens with
    | false =>
      have hsame : r.1 = h := storeFile_closed now h filename recvs
      simp [hsame]
    | true =>
      obtain ⟨f', hf'⟩ := @receive_storeRead_inv now (fun h f done => Filled h f path done)
        (fun hs r => hs.write now r) .ok recvs _ _ _ (Filled.open now path h)
      rw [taken_eq_filterMap (hok.mp hgo), List.nil_append] at hf'
      simp only [hmem, Bool.true_eq_false, false_and, or_false, true_and]
      exact hf'.content_eq_iff lost
  · exact iff_of_true (fun h => absurd h hgo) (.inl hgo)

/-- A destination that cannot be opened, and a message that is lost. -/
theorem storeFile_not_stored :
    let h : Host := ⟨ascii "m/", fun _ => none, fun _ => none⟩
    let closed := storeFile 0 h (some (ascii "d/f")) false [some (.whole (ascii "a"))]
    let broken := storeFile 0 h (some (ascii "f")) true []
    (closed.2 = .ok ∧ (closed.1.file (ascii "m/d/f")).map File.content = none)
      ∧ broken.2 = .ok
      ∧ (broken.1.file (ascii "m/f")).map File.content ≠ some ([] ++ [ascii "a"]).flatten := by
  decide

end FileServices.Dfs
