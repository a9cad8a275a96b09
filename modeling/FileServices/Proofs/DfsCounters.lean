import FileServices.Proofs.DfsService

/-!
# The counters of a transfer

Both sending loops compare two `int`s: the size that `stat` announced, and the bytes the stream
has given.  The loop goes through the file in chunks without a look at the stream or at `Write`, so
where it leaves is a matter of these two numbers only.
-/

namespace FileServices.Dfs

open CString

variable {content : Bytes} {stSize : ℕ} {opens : Bool}

/-! ### `int` -/

theorem int_lt (z : ℤ) : int z < 2 ^ 31 := Int.bmod_lt (by norm_num)

theorem int_natCast_le (n : ℕ) : int n ≤ n := by
  rcases Nat.lt_or_ge n (2 ^ 31) with hlt | hge
  · exact (int_natCast hlt).le
  · have := int_lt n
    omega

theorem int_chunks_le (n : ℕ) : int (1024 * n : ℕ) ≤ 2 ^ 31 - 1024 := by
  unfold int Int.bmod
  dsimp only
  split_ifs <;> omega

/-! ### The states of a sending loop -/

/-- What a stream that has been opened, or not, gives in all. -/
def given (opens : Bool) (content : Bytes) : Bytes := if opens then content else []

/-- What it has given after `n` reads of a chunk. -/
def reach (data : Bytes) (n : ℕ) : ℕ := min (chunkSize * n) data.length

/-- The message of an iteration. -/
def piece (data : Bytes) (k : ℕ) : Bytes := (data.drop (chunkSize * k)).take chunkSize

theorem reach_eq (data : Bytes) (n : ℕ) : reach data n = min (1024 * n) data.length := rfl

theorem reach_zero (data : Bytes) : reach data 0 = 0 := by simp [reach]

theorem length_piece (data : Bytes) (k : ℕ) :
    (piece data k).length = min 1024 (data.length - 1024 * k) := by
  simp [piece, chunkSize]

theorem reach_succ (data : Bytes) (n : ℕ) :
    reach data (n + 1) = reach data n + (piece data n).length := by
  rw [length_piece, reach_eq, reach_eq]
  omega

theorem flatten_pieces (data : Bytes) (n : ℕ) :
    ((List.range n).map (piece data)).flatten = data.take (chunkSize * n) := by
  induction n with
  | zero => simp
  | succ n ih =>
    rw [List.range_succ, List.map_append, List.flatten_append, ih, List.map_singleton,
      List.flatten_singleton, Nat.mul_succ, List.take_add, piece]

/-- The variables after `n` iterations. -/
def Sender.turn (stSize : ℕ) (opens : Bool) (content : Bytes) (n : ℕ) : Sender where
  filesize := int stSize
  bytesRead := int (reach (given opens content) n)
  stream := ⟨reach (given opens content) n, opens && chunkSize * n ≤ content.length⟩
  sent := (List.range n).map (piece (given opens content))

@[simp] theorem turn_filesize (n : ℕ) :
    (Sender.turn stSize opens content n).filesize = int stSize := by
  simp only [Sender.turn]

@[simp] theorem turn_bytesRead (n : ℕ) :
    (Sender.turn stSize opens content n).bytesRead = int (reach (given opens content) n) := by
  simp only [Sender.turn]

@[simp] theorem turn_sent (n : ℕ) : (Sender.turn stSize opens content n).sent
    = (List.range n).map (piece (given opens content)) := by
  simp only [Sender.turn]

theorem turn_zero : Sender.turn stSize opens content 0 = .start stSize opens := by
  simp [Sender.turn, Sender.start, reach_zero, int]

/-- A read gives the next piece. -/
theorem read_turn (n : ℕ) : (Sender.turn stSize opens content n).stream.read content chunkSize
    = (piece (given opens content) n, (Sender.turn stSize opens content (n + 1)).stream) := by
  have hsize : chunkSize = 1024 := rfl
  have hlen : ((content.drop (1024 * n)).take 1024).length
      = min 1024 (content.length - 1024 * n) := length_piece content n
  cases opens with
  | false => simp [Sender.turn, Ifstream.read, given, piece, reach]
  | true =>
    simp only [Sender.turn, Ifstream.read, given, if_true, Bool.true_and, reach_eq, piece, hsize]
    by_cases hle : 1024 * n ≤ content.length
    · rw [if_pos (decide_eq_true hle), min_eq_left hle, hlen]
      congr 2
      · omega
      · exact decide_eq_decide.mpr (by omega)
    · have hnil : (content.drop (1024 * n)).take 1024 = [] :=
        List.length_eq_zero_iff.mp (by omega)
      rw [if_neg (by simpa using hle), min_eq_right (by omega), min_eq_right (by omega), hnil]
      congr 2
      exact decide_eq_decide.mpr (by omega)

theorem chunk_turn (n : ℕ) : (Sender.turn stSize opens content n).chunk content
    = .turn stSize opens content (n + 1) := by
  unfold Sender.chunk
  rw [read_turn]
  simp only [Sender.turn, Sender.mk.injEq, true_and]
  constructor
  · rw [reach_succ]
    unfold int
    rw [Int.bmod_add_bmod, Nat.cast_add]
  · rw [List.range_succ, List.map_append, List.map_singleton]

theorem head_turn (n : ℕ) : (Sender.turn stSize opens content n).head =
    if int (reach (given opens content) n) < int stSize then none
    else some (.ok, (List.range n).map (piece (given opens content))) := by
  unfold Sender.head
  rw [turn_bytesRead, turn_filesize, turn_sent]

section Loop

variable {body : Sender → Turn → Loop.Outcome Sender (StatusCode × List Bytes)}
  (hbody : ∀ t, body t .goes = .more (t.chunk content))

include hbody

/-- The loop leaves where the bytes read come up to the size, as `int`s. -/
theorem sending_ends_iff {r : StatusCode × List Bytes} :
    (∃ n, Loop.run Sender.head body (.start stSize opens) (List.replicate n .goes) = .stop r) ↔
      ∃ n, IsLeast {m | int stSize ≤ int (reach (given opens content) m)} n
        ∧ r = (.ok, (List.range n).map (piece (given opens content))) := by
  have hstops : (∃ n, Loop.run Sender.head body (.start stSize opens) (List.replicate n .goes)
      = .stop r) ↔ Loop.Stops Sender.head body (.start stSize opens) (fun _ => .goes) r := by
    simp [Loop.Stops, List.map_const']
  rw [hstops, ← @turn_zero content stSize opens,
    Loop.stops_orbit fun n => by rw [hbody, chunk_turn]]
  simp only [head_turn]
  refine exists_congr fun n => ⟨?_, ?_⟩
  · rintro ⟨hn, hbefore⟩
    split_ifs at hn with hlt
    refine ⟨⟨not_lt.mp hlt, fun m hm => ?_⟩, (Option.some.inj hn).symm⟩
    by_contra hmn
    have hm' := hbefore m (not_le.mp hmn)
    rw [if_neg (not_lt.mpr hm)] at hm'
    cases hm'
  · rintro ⟨⟨hle, hleast⟩, rfl⟩
    refine ⟨if_neg (not_lt.mpr hle), fun m hm => if_pos (not_le.mp fun hm' => ?_)⟩
    exact absurd (hleast hm') (not_le.mpr hm)

end Loop

/-! ### Where it leaves -/

section Exit

variable {data : Bytes} {F : ℤ} {n : ℕ}

/-- A size of at most so many chunks as an `int` counts is come up to where the stream gives it. -/
theorem le_int_reach (hF : F ≤ 2 ^ 31 - 1024) (hle : F ≤ data.length) :
    F ≤ int (reach data ((F.toNat + 1023) / 1024)) := by
  have hreach := reach_eq data ((F.toNat + 1023) / 1024)
  rw [int_natCast (by omega)]
  omega

/-- Reads of whole chunks keep the counter off the last values of an `int`, so that near them only
the whole of what the stream gives can end the loop. -/
theorem exit_nonempty_iff (hF : F < 2 ^ 31) :
    (∃ n, IsLeast {m | F ≤ int (reach data m)} n) ↔
      F ≤ 0 ∨ F ≤ data.length ∧ (F ≤ 2 ^ 31 - 1024 ∨ F ≤ int data.length) := by
  have hleast : (∃ n, IsLeast {m | F ≤ int (reach data m)} n) ↔ ∃ n, F ≤ int (reach data n) :=
    ⟨fun ⟨n, hn, _⟩ => ⟨n, hn⟩, fun h => ⟨_, Nat.sInf_mem h, fun _ hm => Nat.sInf_le hm⟩⟩
  rw [hleast]
  constructor
  · rintro ⟨n, hn⟩
    have hle : F ≤ data.length := by
      by_contra hlt
      have hreach : reach data n ≤ data.length := min_le_right _ _
      rw [int_natCast (by omega)] at hn
      omega
    rcases le_total (1024 * n) data.length with hcut | hall
    · rw [reach_eq, min_eq_left hcut] at hn
      exact .inr ⟨hle, .inl (hn.trans (int_chunks_le n))⟩
    · rw [reach_eq, min_eq_right hall] at hn
      exact .inr ⟨hle, .inr hn⟩
  · rintro (h0 | ⟨hle, hsmall | hwhole⟩)
    · refine ⟨0, ?_⟩
      rw [reach_zero, int_natCast (by norm_num)]
      exact h0
    · exact ⟨_, le_int_reach hsmall hle⟩
    · refine ⟨data.length, ?_⟩
      rwa [reach_eq, min_eq_right (by omega)]

/-- When the stream gives what was announced, the loop leaves with all of it just when the size
fits an `int`, or is one that the counter cannot come up to before its end. -/
theorem exit_whole_iff (hleast : IsLeast {m | int stSize ≤ int (reach data m)} n)
    (hlen : data.length = stSize) :
    stSize ≤ 1024 * n ↔ stSize < 2 ^ 31 ∨ 2 ^ 31 - 1024 < int stSize := by
  obtain ⟨hn, hmin⟩ := hleast
  replace hn : int stSize ≤ int (reach data n) := hn
  constructor
  · intro hall
    by_contra hnot
    obtain ⟨hbig, hsmall⟩ := not_or.mp hnot
    -- The chunks up to the narrowed size end the loop, and they are not the whole file.
    have hfew := hmin (le_int_reach (not_lt.mp hsmall) (by have := int_lt stSize; omega))
    omega
  · rintro (hlt | hlast)
    · have hreach : reach data n ≤ stSize := hlen ▸ min_le_right _ _
      rw [int_natCast hlt, int_natCast (by omega)] at hn
      have := reach_eq data n
      omega
    · by_contra hcut
      rw [reach_eq, min_eq_left (by omega)] at hn
      have := int_chunks_le n
      omega

end Exit

/-! ### What has been written -/

theorem sum_pieces (data : Bytes) (n : ℕ) :
    ∑ k ∈ Finset.range n, (piece data k).length = reach data n := by
  induction n with
  | zero => rw [Finset.sum_range_zero, reach_zero]
  | succ n ih => rw [Finset.sum_range_succ, ih, reach_succ]

theorem written_pieces (writes : ℕ → Bool) (data : Bytes) (n : ℕ) :
    written writes ((List.range n).map (piece data))
      = ∑ k ∈ Finset.range n, if writes k then (piece data k).length else 0 := by
  unfold written
  induction n with
  | zero => rfl
  | succ n ih =>
    rw [Finset.sum_range_succ, ← ih, List.range_succ, List.map_append, List.zipIdx_append,
      List.filter_append, List.map_append, List.sum_append]
    by_cases hw : writes n <;> simp [hw]

/-- All that was announced has been written when the stream gave it, the loop went through it and
no `Write` of a part of it failed. -/
theorem written_eq_iff {writes : ℕ → Bool} {data : Bytes} {n : ℕ} (hle : data.length ≤ stSize) :
    written writes ((List.range n).map (piece data)) = stSize ↔ data.length = stSize
      ∧ stSize ≤ 1024 * n ∧ ∀ k, 1024 * k < stSize → writes k = true := by
  have hpiece : ∀ k ∈ Finset.range n, (if writes k then (piece data k).length else 0)
      ≤ (piece data k).length := fun k _ => by split_ifs <;> omega
  have hsum := Finset.sum_le_sum hpiece
  have heq := Finset.sum_eq_sum_iff_of_le hpiece
  rw [sum_pieces] at hsum heq
  rw [written_pieces]
  have hreach := reach_eq data n
  constructor
  · intro hall
    refine ⟨by omega, by omega, fun k hk => ?_⟩
    have hk' := heq.mp (by omega) k (Finset.mem_range.mpr (by omega))
    by_contra hw
    rw [if_neg hw, length_piece] at hk'
    omega
  · rintro ⟨hlen, hn, hw⟩
    rw [heq.mpr fun k hk => ?_]
    · omega
    · by_cases hk : 1024 * k < stSize
      · rw [if_pos (hw k hk)]
      · rw [length_piece, hlen]
        split_ifs <;> omega

/-! ### `Store` -/

/-- Where `stat` succeeds, `Store` is `storeSend` and then what `Finish` returns. -/
theorem store_storeSend (h : Host) (filename : Bytes) (opens : Bool) (turns : List Turn) :
    store (h.stat (h.wrapPath filename)) (h.content (h.wrapPath filename)) opens .ok turns
      = storeSend h filename opens turns := by
  unfold store storeSend
  cases h.stat (h.wrapPath filename) with
  | none => rfl
  | some filestat =>
    dsimp only
    split <;> simp_all

theorem store_stops_iff {st : Stat} {finish code : StatusCode} {sent : List Bytes} :
    (∃ n, store (some st) content opens finish (List.replicate n .goes) = .stop (code, sent)) ↔
      code = finish ∧ ∃ n, IsLeast {m | int st.stSize ≤ int (reach (given opens content) m)} n
        ∧ sent = (List.range n).map (piece (given opens content)) := by
  have hends := fun r => @sending_ends_iff content st.stSize opens (storeBody content)
    (fun _ => rfl) r
  constructor
  · rintro ⟨n, hn⟩
    unfold store at hn
    rcases hrun : Loop.run Sender.head (storeBody content) (.start st.stSize opens)
        (List.replicate n .goes) with t | r
    · simp [hrun] at hn
    · obtain ⟨m, hm, rfl⟩ := (hends r).mp ⟨n, hrun⟩
      simp only [hrun, Loop.Outcome.stop.injEq, Prod.mk.injEq] at hn
      exact ⟨hn.1.symm, m, hm, hn.2.symm⟩
  · rintro ⟨rfl, m, hm, rfl⟩
    obtain ⟨n, hrun⟩ := (hends _).mpr ⟨m, hm, rfl⟩
    exact ⟨n, by simp [store, hrun]⟩

/-- For every size that `stat` may give, every stream that gives no more, every result of `Write`
and of `Finish`: `Store` returns, and with OK only when it has sent what was announced, just when
the stream gives it all and every part is written, or `Finish` fails and the loop ends. -/
theorem store_returns_iff {st : Stat} (hle : content.length ≤ st.stSize) (opens : Bool)
    (finish : StatusCode) (writes : ℕ → Bool) :
    let size := int st.stSize
    let d := (given opens content).length
    (∃ n code sent, store (some st) content opens finish (List.replicate n .goes)
        = .stop (code, sent) ∧ (code = .ok → written writes sent = st.stSize)) ↔
      (d = st.stSize ∧ (st.stSize < 2 ^ 31 ∨ 2 ^ 31 - 1024 < size)
          ∧ ∀ k, 1024 * k < st.stSize → writes k = true)
        ∨ finish ≠ .ok ∧ (size ≤ 0 ∨ size ≤ d ∧ (size ≤ 2 ^ 31 - 1024 ∨ size ≤ int d)) := by
  intro size d
  have hexit := @exit_nonempty_iff (given opens content) size (int_lt _)
  have hd : d ≤ st.stSize := by
    have : d ≤ content.length := by
      simp only [d, given]
      split_ifs <;> simp
    omega
  constructor
  · rintro ⟨n, code, sent, hn, hwritten⟩
    obtain ⟨rfl, m, hm, rfl⟩ := store_stops_iff.mp ⟨n, hn⟩
    by_cases hok : code = .ok
    · obtain ⟨hlen, hall, hw⟩ := (written_eq_iff hd).mp (hwritten hok)
      exact .inl ⟨hlen, (exit_whole_iff hm hlen).mp hall, hw⟩
    · exact .inr ⟨hok, hexit.mp ⟨m, hm⟩⟩
  · rintro (⟨hlen, hsize, hw⟩ | ⟨hok, hends⟩)
    · have hends : size ≤ 0 ∨ size ≤ d ∧ (size ≤ 2 ^ 31 - 1024 ∨ size ≤ int d) := by
        rw [hlen]
        exact .inr ⟨int_natCast_le _, .inr le_rfl⟩
      obtain ⟨m, hm⟩ := hexit.mpr hends
      obtain ⟨n, hn⟩ := store_stops_iff.mpr ⟨rfl, m, hm, rfl⟩
      exact ⟨n, _, _, hn, fun _ => (written_eq_iff hd).mpr
        ⟨hlen, (exit_whole_iff hm hlen).mpr hsize, hw⟩⟩
    · obtain ⟨m, hm⟩ := hexit.mpr hends
      obtain ⟨n, hn⟩ := store_stops_iff.mpr ⟨rfl, m, hm, rfl⟩
      exact ⟨n, _, _, hn, fun h => absurd h hok⟩

/-- A file of two bytes. -/
theorem store_returns_iff_hi :
    let size := int 2
    (∃ n code sent, store (some ⟨2, 0⟩) (ascii "hi") true .ok (List.replicate n .goes)
        = .stop (code, sent) ∧ (code = .ok → written (fun _ => true) sent = 2)) ↔
      ((given true (ascii "hi")).length = 2 ∧ (2 < 2 ^ 31 ∨ 2 ^ 31 - 1024 < size)
          ∧ ∀ k, 1024 * k < 2 → true = true)
        ∨ StatusCode.ok ≠ .ok ∧ (size ≤ 0 ∨ size ≤ (given true (ascii "hi")).length
          ∧ (size ≤ 2 ^ 31 - 1024 ∨ size ≤ int (given true (ascii "hi")).length)) :=
  @store_returns_iff (ascii "hi") ⟨2, 0⟩ (by decide) true .ok fun _ => true

/-- The file has become empty since `stat` gave it a byte: the loop goes on for ever.  A file of
2^32 bytes is stored without a message, and one of a byte that `Write` does not take is stored
too. -/
theorem store_held :
    (¬ ∃ n code sent, store (some ⟨1, 0⟩) [] true .ok (List.replicate n .goes)
      = .stop (code, sent))
      ∧ (∀ content, store (some ⟨2 ^ 32, 0⟩) content true .ok [] = .stop (.ok, []))
      ∧ store (some ⟨1, 0⟩) (ascii "a") true .ok [.goes] = .stop (.ok, [ascii "a"])
      ∧ written (fun _ => false) [ascii "a"] = 0 := by
  refine ⟨?_, fun content => by simp [store, Loop.run, Sender.head, Sender.start, int], by decide,
    by decide⟩
  rintro ⟨n, code, sent, hn⟩
  obtain ⟨-, m, ⟨hm, -⟩, -⟩ := store_stops_iff.mp ⟨n, hn⟩
  have hreach : reach (given true []) m = 0 := by simp [reach, given]
  replace hm : int (1 : ℕ) ≤ int (reach (given true []) m) := hm
  rw [hreach, int_natCast (by norm_num), int_natCast (by norm_num)] at hm
  omega

/-! ### Sizes -/

section Sizes

variable {h : Host} {filename : Bytes} {file : File}
  {body : Sender → Turn → Loop.Outcome Sender (StatusCode × List Bytes)}

/-- In every state of a sending loop that no call stops, `filesize` is the size of the file and
`bytes_read` is the number of bytes read. -/
def Counts (body : Sender → Turn → Loop.Outcome Sender (StatusCode × List Bytes))
    (size : ℕ) : Prop :=
  ∀ n t, Loop.after Sender.head body (.start size true) (fun _ => .goes) n = some t →
    t.filesize = size ∧ t.bytesRead = t.sent.flatten.length

/-- The loop sends the whole file. -/
def SendsAll (call : List Turn → Loop.Outcome Sender (StatusCode × List Bytes))
    (content : Bytes) : Prop :=
  ∃ n sent, call (List.replicate n .goes) = .stop (.ok, sent) ∧ sent.flatten = content

/-- `getFileAttrs` reports the size, and `Stat` prints it. -/
def Reports (h : Host) (filename : Bytes) (size : ℕ) : Prop :=
  ∀ stCtime, let r := getFileAttrs h filename false stCtime
    r.2.filsize = size ∧ ascii "File size =" ++ decimal size ∈ (stat filename r.1 r.2).2

theorem counts_iff (hbody : ∀ t, body t .goes = .more (t.chunk file.content)) :
    Counts body file.content.length ↔ file.content.length < 2 ^ 31 := by
  constructor
  · intro hall
    obtain ⟨hsize, -⟩ := hall 0 _ rfl
    have := int_lt file.content.length
    simp only [Sender.start] at hsize
    omega
  · intro hlt n t ht
    rw [← @turn_zero file.content, Loop.after_orbit fun n => by rw [hbody, chunk_turn]] at ht
    obtain ⟨rfl, -⟩ := ht
    rw [turn_filesize, turn_bytesRead, turn_sent, flatten_pieces, List.length_take]
    have hreach : reach (given true file.content) n ≤ file.content.length := min_le_right _ _
    exact ⟨int_natCast hlt, int_natCast (by omega)⟩

theorem sendsAll_iff (hbody : ∀ t, body t .goes = .more (t.chunk file.content)) :
    SendsAll (Loop.run Sender.head body (.start file.content.length true)) file.content ↔
      file.content.length < 2 ^ 31 ∨ 2 ^ 31 - 1024 < int file.content.length := by
  have hends := fun r =>
    @sending_ends_iff file.content file.content.length true body hbody r
  rw [show given true file.content = file.content from rfl] at hends
  constructor
  · rintro ⟨n, sent, hn, hsent⟩
    obtain ⟨m, hm, hr⟩ := (hends _).mp ⟨n, hn⟩
    obtain rfl := (Prod.mk.inj hr).2
    refine (exit_whole_iff hm rfl).mp ?_
    rw [flatten_pieces] at hsent
    have hlen := congrArg List.length hsent
    rw [List.length_take] at hlen
    have hsize : chunkSize = 1024 := rfl
    rw [hsize] at hlen
    omega
  · intro hsize
    obtain ⟨m, hm⟩ := (@exit_nonempty_iff file.content _ (int_lt _)).mpr
      (.inr ⟨int_natCast_le _, .inr le_rfl⟩)
    obtain ⟨n, hn⟩ := (hends _).mpr ⟨m, hm, rfl⟩
    refine ⟨n, _, hn, ?_⟩
    rw [flatten_pieces]
    exact List.take_of_length_le ((exit_whole_iff hm rfl).mpr hsize)

theorem reports_iff (hfile : h.file (h.wrapPath filename) = some file) :
    Reports h filename file.content.length ↔ file.content.length < 2 ^ 32 := by
  have hstat := (Host.stat_file hfile).1
  constructor
  · intro hall
    have hsize := (hall 0).1
    simp only [getFileAttrs, Bool.false_eq_true, if_false, hstat] at hsize
    omega
  · intro hlt stCtime
    simp only [getFileAttrs, Bool.false_eq_true, if_false, hstat, Nat.mod_eq_of_lt hlt, stat,
      if_true]
    simp

/-- The size of a file survives the counters of `Store` and `fetchFile` and the message of
`getFileAttrs` just when it fits an `int`.  The message alone takes all sizes below 2^32, and the
loops would send some larger files whole if their counters may wrap around. -/
theorem size_survives_iff (hfile : h.file (h.wrapPath filename) = some file) :
    let size := file.content.length
    (((Counts (storeBody file.content) size ∧ SendsAll (storeSend h filename true) file.content)
        ∧ (Counts (fetchBody file.content) size
          ∧ SendsAll (fetchFile h filename true) file.content)
        ∧ Reports h filename size) ↔ size < 2 ^ 31)
      ∧ (Reports h filename size ↔ size < 2 ^ 32)
      ∧ ∀ call ∈ [storeSend h filename true, fetchFile h filename true],
        (SendsAll call file.content ↔ size < 2 ^ 31 ∨ 2 ^ 31 - 1024 < int size) := by
  intro size
  obtain ⟨hstat, hcontent⟩ := Host.stat_file hfile
  have hstore : storeSend h filename true
      = Loop.run Sender.head (storeBody file.content) (.start size true) := by
    funext turns
    simp only [storeSend, hstat, hcontent, size]
  have hfetch : fetchFile h filename true
      = Loop.run Sender.head (fetchBody file.content) (.start size true) := by
    funext turns
    simp only [fetchFile, hstat, hcontent, size]
  have hstored := @sendsAll_iff file (storeBody file.content) fun _ => rfl
  have hfetched := @sendsAll_iff file (fetchBody file.content) fun _ => rfl
  rw [← hstore] at hstored
  rw [← hfetch] at hfetched
  have hreports := reports_iff hfile
  refine ⟨?_, hreports, by simpa using ⟨hstored, hfetched⟩⟩
  rw [counts_iff fun _ => rfl, counts_iff fun _ => rfl, hstored, hfetched, hreports]
  constructor
  · exact fun hall => hall.1.1
  · intro hlt
    exact ⟨⟨hlt, .inl hlt⟩, ⟨hlt, .inl hlt⟩, by omega⟩

theorem size_survives_iff_hi :
    let h : Host := ⟨ascii "m/", fun _ => some ⟨ascii "hi", 0⟩, fun _ => none⟩
    (((Counts (storeBody (ascii "hi")) 2 ∧ SendsAll (storeSend h (ascii "f") true) (ascii "hi"))
        ∧ (Counts (fetchBody (ascii "hi")) 2
          ∧ SendsAll (fetchFile h (ascii "f") true) (ascii "hi"))
        ∧ Reports h (ascii "f") 2) ↔ 2 < 2 ^ 31)
      ∧ (Reports h (ascii "f") 2 ↔ 2 < 2 ^ 32)
      ∧ ∀ call ∈ [storeSend h (ascii "f") true, fetchFile h (ascii "f") true],
        (SendsAll call (ascii "hi") ↔ 2 < 2 ^ 31 ∨ 2 ^ 31 - 1024 < int 2) :=
  @size_survives_iff _ _ ⟨ascii "hi", 0⟩ rfl

/-- A file of 2^31 bytes: nothing is sent either way, and each call goes well. -/
theorem size_lost : ∃ content : Bytes, content.length = 2 ^ 31 ∧
    let h : Host := ⟨ascii "m/", fun _ => some ⟨content, 0⟩, fun _ => none⟩
    storeSend h (ascii "f") true [] = .stop (.ok, [])
      ∧ fetchFile h (ascii "f") true [] = .stop (.ok, [])
      ∧ ¬ SendsAll (storeSend h (ascii "f") true) content := by
  refine ⟨List.replicate (2 ^ 31) 0, List.length_replicate, ?_⟩
  have hlen : (List.replicate (2 ^ 31) (0 : UInt8)).length = 2 ^ 31 := List.length_replicate
  generalize List.replicate (2 ^ 31) (0 : UInt8) = content at hlen ⊢
  intro h
  have hstat : h.stat (h.wrapPath (ascii "f")) = some ⟨content.length, 0⟩ := rfl
  have hhead : (Sender.start content.length true).head = some (.ok, []) := by
    simp [Sender.head, Sender.start, hlen, int]
  have hstore : ∀ turns, storeSend h (ascii "f") true turns = .stop (.ok, []) := fun turns => by
    simp only [storeSend, hstat, Loop.run_of_head hhead]
  refine ⟨hstore [], by simp only [fetchFile, hstat, Loop.run_of_head hhead], ?_⟩
  rintro ⟨n, sent, hn, rfl⟩
  rw [hstore] at hn
  obtain rfl := (Prod.mk.inj (Loop.Outcome.stop.inj hn)).2
  cases hlen

end Sizes

end FileServices.Dfs
