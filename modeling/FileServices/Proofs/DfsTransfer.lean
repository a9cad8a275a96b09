import FileServices.Dfs

/-!
# What a transfer leaves behind

A sending loop writes the file it reads in chunks that are not empty, and ends.  A receiving loop
writes in place: whatever ends it, the file holds what was received until then.
-/

namespace FileServices.Dfs

open CString

variable {h : Host} {f : Ofstream} {path p content data : Bytes} {now : ℤ} {room : ℕ}

/-! ### Writing -/

@[simp] theorem Host.put_file (h : Host) (path : Bytes) (file : Option File) :
    (h.put path file).file path = file := Function.update_self ..

theorem Host.put_file_of_ne (h : Host) (file : Option File) (hne : p ≠ path) :
    (h.put path file).file p = h.file p := Function.update_of_ne hne ..

theorem writeAt_end (content data : Bytes) :
    writeAt content content.length data = content ++ data := by
  unfold writeAt
  by_cases hdata : data = []
  · rw [if_pos hdata, hdata, List.append_nil]
  · rw [if_neg hdata, List.take_length, Nat.sub_self, List.replicate_zero, List.append_nil,
      List.drop_eq_nil_of_le (Nat.le_add_right _ _), List.append_nil]

/-- The messages `rs` have been written to the file at `path`, up to the first one of which the
system did not take all. -/
structure Saved (h : Host) (f : Ofstream) (path : Bytes) (rs : List Recv) : Prop where
  isOpen : f.path = some path
  file : ∃ file, h.file path = some file ∧ file.content <+: (rs.map Recv.data).flatten
    ∧ (f.good = true → file.content = (rs.map Recv.data).flatten ∧ f.pos = file.content.length)
  whole : (∀ r ∈ rs, r.data.length ≤ r.room) → f.good = true

theorem Saved.open (now : ℤ) (path : Bytes) (h : Host) :
    Saved (Ofstream.open now true path h).1 (Ofstream.open now true path h).2 path [] :=
  ⟨rfl, ⟨⟨[], now⟩, h.put_file _ _, List.nil_prefix, fun _ => ⟨rfl, rfl⟩⟩, fun _ => rfl⟩

theorem Saved.write {rs : List Recv} (hs : Saved h f path rs) (now : ℤ) (r : Recv) :
    Saved (f.write now r.room r.data h).1 (f.write now r.room r.data h).2 path (rs ++ [r]) := by
  obtain ⟨hopen, ⟨file, hfile, hpre, hgood⟩, hwhole⟩ := hs
  simp only [Ofstream.write, hopen]
  by_cases hf : f.good = true
  · obtain ⟨hcontent, hpos⟩ := hgood hf
    rw [if_pos hf]
    refine ⟨rfl, ⟨_, by rw [Host.put_file, hfile, Option.map_some], ?_, fun hroom => ?_⟩,
      fun hall => ?_⟩
    · rw [hpos, writeAt_end, hcontent, List.map_append, List.flatten_append]
      exact List.prefix_append_right_inj _ |>.mpr (by simpa using List.take_prefix _ _)
    · have hroom : r.data.length ≤ r.room := of_decide_eq_true hroom
      rw [hpos, writeAt_end, hcontent, List.take_of_length_le hroom]
      simp
    · exact decide_eq_true (hall r (by simp))
  · rw [if_neg hf]
    refine ⟨hopen, ⟨file, hfile, ?_, fun h => absurd h hf⟩, fun hall => absurd ?_ hf⟩
    · rw [List.map_append, List.flatten_append]
      exact hpre.trans (List.prefix_append _ _)
    · exact hwhole fun r' hr' => hall r' (List.mem_append_left _ hr')

/-- A write leaves the other files alone. -/
theorem write_frame (hopen : f.path = some path) (hp : p ≠ path) :
    (f.write now room data h).1.file p = h.file p := by
  simp only [Ofstream.write, hopen]
  split_ifs
  · exact h.put_file_of_ne _ hp
  · rfl

theorem write_closed (now : ℤ) (room : ℕ) (data : Bytes) (h : Host) (hclosed : f.path = none) :
    (f.write now room data h).1 = h ∧ (f.write now room data h).2.path = none := by
  simp [Ofstream.write, hclosed]

/-! ### Receiving -/

/-- The messages that have been received when the loop ends. -/
def taken (stops : Recv → Bool) : List (Option Recv) → List Recv
  | some r :: rs => if stops r then [] else r :: taken stops rs
  | _ => []

/-- What an iteration that goes on keeps holds of the messages that have been received, however
the loop ends. -/
theorem receive_inv
    {read : Host → Ofstream → Option Recv → Host × Loop.Outcome Ofstream StatusCode}
    {stops : Recv → Bool} {I : Host → Ofstream → List Recv → Prop}
    (hnone : ∀ h f, ∃ status, read h f none = (h, .stop status))
    (hstop : ∀ h f r, stops r = true → ∃ status, read h f (some r) = (h, .stop status))
    (hmore : ∀ {h f done}, I h f done → ∀ r, stops r = false →
      ∃ h' f', read h f (some r) = (h', .more f') ∧ I h' f' (done ++ [r]))
    (final : StatusCode) (rs : List (Option Recv)) :
    ∀ {h : Host} {f : Ofstream} {done : List Recv}, I h f done →
      ∃ f', I (receive read final h f rs).1 f' (done ++ taken stops rs) := by
  induction rs with
  | nil =>
    intro h f done hs
    exact ⟨f, by simpa [receive, taken] using hs⟩
  | cons r rs ih =>
    intro h f done hs
    cases r with
    | none =>
      obtain ⟨status, hr⟩ := hnone h f
      exact ⟨f, by simpa [receive, hr, taken] using hs⟩
    | some r =>
      cases hc : stops r with
      | true =>
        obtain ⟨status, hr⟩ := hstop h f r hc
        exact ⟨f, by simpa [receive, hr, taken, hc] using hs⟩
      | false =>
        obtain ⟨h', f', hr, hs'⟩ := hmore hs r hc
        obtain ⟨f'', hf''⟩ := ih hs'
        exact ⟨f'', by simpa [receive, hr, taken, hc] using hf''⟩

theorem receive_storeRead_inv {I : Host → Ofstream → List Recv → Prop}
    (hwrite : ∀ {h f done}, I h f done → ∀ r : Recv,
      I (f.write now r.room r.data h).1 (f.write now r.room r.data h).2 (done ++ [r]))
    (final : StatusCode) (rs : List (Option Recv)) {h : Host} {f : Ofstream} {done : List Recv}
    (hs : I h f done) :
    ∃ f', I (receive (storeRead now) final h f rs).1 f' (done ++ taken Recv.isCancelled rs) := by
  refine @receive_inv (storeRead now) Recv.isCancelled I (fun h f => ⟨_, rfl⟩)
    (fun h f r hc => ⟨.deadlineExceeded, ?_⟩)
    (fun {h f done} hs r hc => ⟨_, _, ?_, hwrite hs r⟩) final rs _ _ _ hs
  · simp only [storeRead, hc, if_true]
  · simp only [storeRead, hc, Bool.false_eq_true, if_false]

/-- The messages have been written, and the other files are those of `h₀`. -/
theorem Saved.write_frame {h₀ : Host} {rs : List Recv}
    (hs : Saved h f path rs ∧ ∀ p ≠ path, h.file p = h₀.file p) (now : ℤ) (r : Recv) :
    Saved (f.write now r.room r.data h).1 (f.write now r.room r.data h).2 path (rs ++ [r])
      ∧ ∀ p ≠ path, (f.write now r.room r.data h).1.file p = h₀.file p :=
  ⟨hs.1.write now r, fun p hp => (Dfs.write_frame hs.1.isOpen hp).trans (hs.2 p hp)⟩

theorem receive_storeRead (now : ℤ) (final : StatusCode) (rs : List (Option Recv))
    {h : Host} {f : Ofstream} {done : List Recv} (hs : Saved h f path done) :
    (∃ f', Saved (receive (storeRead now) final h f rs).1 f' path
        (done ++ taken Recv.isCancelled rs))
      ∧ ∀ p ≠ path, (receive (storeRead now) final h f rs).1.file p = h.file p := by
  obtain ⟨f', hf', hframe⟩ := @receive_storeRead_inv now
    (fun h' f' done => Saved h' f' path done ∧ ∀ p ≠ path, h'.file p = h.file p)
    (fun hs r => Saved.write_frame hs now r) final rs h f done ⟨hs, fun _ _ => rfl⟩
  exact ⟨⟨f', hf'⟩, hframe⟩

theorem receive_storeRead_closed {final : StatusCode} (rs : List (Option Recv)) :
    ∀ {f : Ofstream}, f.path = none → (receive (storeRead now) final h f rs).1 = h := by
  induction rs with
  | nil => exact fun _ => rfl
  | cons r rs ih =>
    intro f hclosed
    cases r with
    | none => rfl
    | some r =>
      by_cases hc : r.isCancelled = true
      · simp only [receive, storeRead, hc, if_true]
      · obtain ⟨hh, hf⟩ := write_closed now r.room r.data h hclosed
        simp only [receive, storeRead, hc, Bool.false_eq_true, if_false]
        rw [hh]
        exact ih hf

theorem receive_fetchRead_open (now : ℤ) (final : StatusCode) (rs : List (Option Recv))
    {h : Host} {f : Ofstream} {done : List Recv} (hs : Saved h f path done) :
    (∃ f', Saved (receive (fetchRead now path) final h f rs).1 f' path
        (done ++ taken (fun _ => false) rs))
      ∧ ∀ p ≠ path, (receive (fetchRead now path) final h f rs).1.file p = h.file p := by
  obtain ⟨f', hf', hframe⟩ := @receive_inv (fetchRead now path) (fun _ => false)
    (fun h' f' done => Saved h' f' path done ∧ ∀ p ≠ path, h'.file p = h.file p)
    (fun h f => ⟨_, rfl⟩) (fun h f r => nofun)
    (fun hs r _ => ⟨_, _, by simp only [fetchRead, hs.1.isOpen, Option.isSome_some, if_true],
      Saved.write_frame hs now r⟩) final rs h f done ⟨hs, fun _ _ => rfl⟩
  exact ⟨⟨f', hf'⟩, hframe⟩

/-- Until the file can be opened nothing is written, and from then on all of what arrives. -/
theorem receive_fetchRead (now : ℤ) (h : Host) (path : Bytes) (final : StatusCode)
    (rs : List (Option Recv)) : ∀ {f : Ofstream}, f.path = none →
      ∀ got, got = (taken (fun _ => false) rs).dropWhile (fun r => !r.opens) →
      (got = [] → (receive (fetchRead now path) final h f rs).1 = h)
      ∧ (got ≠ [] → ∃ f', Saved (receive (fetchRead now path) final h f rs).1 f' path got)
      ∧ ∀ p ≠ path, (receive (fetchRead now path) final h f rs).1.file p = h.file p := by
  induction rs with
  | nil =>
    rintro f - got rfl
    exact ⟨fun _ => rfl, fun hne => absurd rfl hne, fun p _ => rfl⟩
  | cons r rs ih =>
    rintro f hclosed got rfl
    cases r with
    | none => exact ⟨fun _ => rfl, fun hne => absurd rfl hne, fun p _ => rfl⟩
    | some r =>
      by_cases ho : r.opens = true
      · have hsaved := (Saved.open now path h).write now r
        obtain ⟨hf', hframe⟩ := receive_fetchRead_open now final rs hsaved
        simp only [receive, fetchRead, taken, hclosed, ho, Option.isSome_none, Bool.false_eq_true,
          if_false, Bool.not_true, List.dropWhile_cons_of_neg, not_false_eq_true]
        refine ⟨nofun, fun _ => by simpa using hf', fun p hp => (hframe p hp).trans ?_⟩
        rw [write_frame rfl hp]
        exact h.put_file_of_ne _ hp
      · have hopen : Ofstream.open now r.opens path h = (h, ⟨none, 0, false⟩) := if_neg ho
        simp only [receive, fetchRead, taken, hclosed, hopen, Option.isSome_none,
          Bool.false_eq_true, if_false, Ofstream.write]
        rw [List.dropWhile_cons_of_pos (by simpa using ho)]
        exact ih rfl _ rfl

/-- A call of a receiving loop stays in the mount directory. -/
theorem write_mount (now : ℤ) (room : ℕ) (data : Bytes) (h : Host) (f : Ofstream) :
    (f.write now room data h).1.mountPath = h.mountPath
      ∧ (f.write now room data h).1.dir = h.dir := by
  unfold Ofstream.write
  cases f.path with
  | none => exact ⟨rfl, rfl⟩
  | some path => split_ifs <;> exact ⟨rfl, rfl⟩

theorem storeRead_mount (now : ℤ) (h : Host) (f : Ofstream) (r : Option Recv) :
    (storeRead now h f r).1.mountPath = h.mountPath ∧ (storeRead now h f r).1.dir = h.dir := by
  cases r with
  | none => exact ⟨rfl, rfl⟩
  | some r =>
    unfold storeRead
    dsimp only
    split_ifs
    · exact ⟨rfl, rfl⟩
    · exact write_mount now r.room r.data h f

theorem fetchRead_mount (now : ℤ) (path : Bytes) (h : Host) (f : Ofstream) (r : Option Recv) :
    (fetchRead now path h f r).1.mountPath = h.mountPath
      ∧ (fetchRead now path h f r).1.dir = h.dir := by
  cases r with
  | none => exact ⟨rfl, rfl⟩
  | some r =>
    unfold fetchRead Ofstream.open
    dsimp only
    split_ifs <;> exact write_mount now r.room r.data _ _

theorem receive_mount (final : StatusCode)
    {read : Host → Ofstream → Option Recv → Host × Loop.Outcome Ofstream StatusCode}
    (hread : ∀ h f r, (read h f r).1.mountPath = h.mountPath ∧ (read h f r).1.dir = h.dir)
    (rs : List (Option Recv)) : ∀ {h : Host} {f : Ofstream},
      (receive read final h f rs).1.mountPath = h.mountPath
        ∧ (receive read final h f rs).1.dir = h.dir := by
  induction rs with
  | nil => exact ⟨rfl, rfl⟩
  | cons r rs ih =>
    intro h f
    have hstep := hread h f r
    unfold receive
    cases hr : read h f r with
    | mk h' out =>
      rw [hr] at hstep
      cases out with
      | stop status => exact hstep
      | more f' =>
        obtain ⟨hmount, hdir⟩ := @ih h' f'
        exact ⟨hmount.trans hstep.1, hdir.trans hstep.2⟩

/-! ### What is left of a transfer -/

/-- The file at `path` holds the messages, or what the system took of them. -/
def Holds (h : Host) (path : Bytes) (rs : List Recv) : Prop :=
  ∃ file, h.file path = some file ∧ file.content <+: (rs.map Recv.data).flatten
    ∧ ((∀ r ∈ rs, r.data.length ≤ r.room) → file.content = (rs.map Recv.data).flatten)

theorem Saved.holds {rs : List Recv} (hs : Saved h f path rs) : Holds h path rs := by
  obtain ⟨file, hfile, hpre, hgood⟩ := hs.file
  exact ⟨file, hfile, hpre, fun hall => (hgood (hs.whole hall)).1⟩

theorem storeFile_closed (now : ℤ) (h : Host) (filename : Option Bytes)
    (recvs : List (Option Recv)) : (storeFile now h filename false recvs).1 = h :=
  receive_storeRead_closed recvs rfl

/-- `storeFile` leaves the other files alone. -/
theorem storeFile_frame (now : ℤ) (h : Host) (filename : Option Bytes) (opens : Bool)
    (recvs : List (Option Recv)) (hp : p ≠ h.wrapPath (filename.getD [])) :
    (storeFile now h filename opens recvs).1.file p = h.file p := by
  cases opens with
  | false => rw [storeFile_closed]
  | true =>
    obtain ⟨-, hframe⟩ := receive_storeRead now .ok recvs
      (Saved.open now (h.wrapPath (filename.getD [])) h)
    exact (hframe p hp).trans (h.put_file_of_ne _ hp)

end FileServices.Dfs
