import FileServices.Handlers

/-!
# When the callbacks of the proxy keep their contract

After an OK header a handler has to return a non-negative number, which its counter is only as
long as no failed call has been added to it.  Before a header it has to return a negative one.
-/

namespace FileServices.Handlers

open CString
open Cache (gfOk gfFileNotFound size)

/-- What the first `n` calls returned, added up. -/
def sum (f : ℕ → ℤ) (n : ℕ) : ℤ := ∑ k ∈ Finset.range n, f k

variable {f : ℕ → ℤ} {n : ℕ}

theorem sum_zero : sum f 0 = 0 := rfl

theorem sum_succ : sum f (n + 1) = sum f n + f n := Finset.sum_range_succ f n

theorem ssize_nonneg {b : ℕ} (hb : b < 2 ^ 64) : 0 ≤ ssize b ↔ b < 2 ^ 63 := by
  unfold ssize
  rw [Int.bmod_def]
  push_cast
  split_ifs <;> omega

theorem int_nonneg {b : ℕ} : 0 ≤ (b : ℤ).bmod (2 ^ 32) ↔ b % 2 ^ 32 < 2 ^ 31 := by
  rw [Int.bmod_def]
  push_cast
  split_ifs <;> omega

/-! ### The loops on `gfs_send` -/

/-- The loop leaves after `n` calls that were counted: they add up to `total`, or the next call
returns 0. -/
structure Sends (total : ℕ) (send : ℕ → ℤ) (n : ℕ) : Prop where
  counted : ∀ k < n, sum send k < total ∧ send k ≠ 0
  nonneg : ∀ k ≤ n, 0 ≤ sum send k
  last : total ≤ sum send n ∨ send n = 0

section Send

variable {ι : Type*} {call : ℕ → ι → Call} {ret : ι → ℤ} {is : ℕ → ι} {total : ℕ}
  {calls : List Call} {s : Sending}

/-- The loop has counted `n` calls. -/
structure Counted (total : ℕ) (send : ℕ → ℤ) (calls : List Call) (n : ℕ) (s : Sending) : Prop where
  counted : ∀ k < n, 0 ≤ sum send k ∧ sum send k < total ∧ send k ≠ 0
  bytes : s.bytes = size (sum send n)
  calls : s.calls.countP Call.isHeader = calls.countP Call.isHeader

theorem Counted.bounds (h : Counted total (fun k => ret (is k)) calls n s)
    (htotal : total < 2 ^ 63) (hret : ∀ k, -1 ≤ ret (is k) ∧ ret (is k) < 2 ^ 63) :
    -1 ≤ sum (fun k => ret (is k)) n ∧ sum (fun k => ret (is k)) n < 2 ^ 64 := by
  cases n with
  | zero =>
    rw [sum_zero]
    omega
  | succ n =>
    obtain ⟨hpos, hlt, -⟩ := h.counted n n.lt_succ_self
    have hn := hret n
    rw [sum_succ]
    omega

/-- Before the next call nothing has been lost, or the counter is at its last value. -/
theorem Counted.bytes_cases (h : Counted total (fun k => ret (is k)) calls n s)
    (htotal : total < 2 ^ 63) (hret : ∀ k, -1 ≤ ret (is k) ∧ ret (is k) < 2 ^ 63) :
    0 ≤ sum (fun k => ret (is k)) n ∧ (s.bytes : ℤ) = sum (fun k => ret (is k)) n
      ∨ sum (fun k => ret (is k)) n < 0 ∧ s.bytes = 2 ^ 64 - 1 := by
  have hb := h.bytes
  have hbounds := h.bounds htotal hret
  simp only [size] at hb
  omega

theorem counted_after (hcall : ∀ b i, (call b i).isHeader = false) (htotal : total < 2 ^ 63)
    (hret : ∀ k, -1 ≤ ret (is k) ∧ ret (is k) < 2 ^ 63) : ∀ {n : ℕ} {s : Sending},
      Loop.after (sendHead total) (sendBody call ret) ⟨calls, 0⟩ is n = some s →
        Counted total (fun k => ret (is k)) calls n s
  | 0, s, h => by
    obtain rfl := Option.some.inj h
    exact ⟨nofun, rfl, rfl⟩
  | n + 1, s, h => by
    obtain ⟨t, ht, hhead, hbody⟩ := Loop.after_succ.mp h
    have hi := counted_after hcall htotal hret ht
    have hn := hret n
    simp only [sendHead] at hhead
    split_ifs at hhead with hlt
    simp only [sendBody] at hbody
    split_ifs at hbody with hz
    obtain rfl := Loop.Outcome.more.inj hbody
    -- the counter is below `total`, so that nothing has been lost
    rcases hi.bytes_cases htotal hret with ⟨hpos, hb⟩ | ⟨-, hb⟩
    · refine ⟨fun k hk => ?_, ?_, ?_⟩
      · rcases Nat.lt_succ_iff_lt_or_eq.mp hk with hk | rfl
        · exact hi.counted k hk
        · refine ⟨hpos, by omega, fun h0 => hz ?_⟩
          change ret (is k) = 0 at h0
          rw [h0]
          rfl
      · rw [sum_succ]
        simp only [size]
        omega
      · simp [hi.calls, hcall]
    · omega

/-- The loop comes to where the sums say. -/
theorem after_of_counted (calls : List Call) (htotal : total < 2 ^ 63)
    (hret : ∀ k, -1 ≤ ret (is k) ∧ ret (is k) < 2 ^ 63)
    (hcall : ∀ b i, (call b i).isHeader = false) : ∀ {n : ℕ},
      (∀ k < n, 0 ≤ sum (fun k => ret (is k)) k ∧ sum (fun k => ret (is k)) k < total
        ∧ ret (is k) ≠ 0) →
      ∃ s, Loop.after (sendHead total) (sendBody call ret) ⟨calls, 0⟩ is n = some s
  | 0, _ => ⟨_, rfl⟩
  | n + 1, h => by
    obtain ⟨s, hs⟩ := after_of_counted calls htotal hret hcall fun k hk =>
      h k (Nat.lt_succ_of_lt hk)
    have hi := counted_after hcall htotal hret hs
    obtain ⟨hpos, hlt, hne⟩ := h n n.lt_succ_self
    have hb := hi.bytes
    have hn := hret n
    simp only [size] at hb
    refine ⟨_, Loop.after_succ.mpr ⟨s, hs, if_pos (by omega), if_neg ?_⟩⟩
    simp only [size]
    omega

theorem Sends.stops (calls : List Call) (hcall : ∀ b i, (call b i).isHeader = false)
    (htotal : total < 2 ^ 63)
    (hret : ∀ k, -1 ≤ ret (is k) ∧ ret (is k) < 2 ^ 63) (h : Sends total (fun k => ret (is k)) n) :
    ∃ s, Loop.Stops (sendHead total) (sendBody call ret) ⟨calls, 0⟩ is s
      ∧ (s.bytes : ℤ) = sum (fun k => ret (is k)) n
      ∧ s.calls.countP Call.isHeader = calls.countP Call.isHeader := by
  obtain ⟨s, hs⟩ := after_of_counted calls htotal hret hcall fun k hk =>
    ⟨h.nonneg k hk.le, h.counted k hk⟩
  have hi := counted_after hcall htotal hret hs
  have hpos := h.nonneg n le_rfl
  have hb : (s.bytes : ℤ) = sum (fun k => ret (is k)) n := by
    rcases hi.bytes_cases htotal hret with ⟨-, hb⟩ | ⟨hneg, -⟩
    · exact hb
    · omega
  by_cases hle : s.bytes < total
  · have h0 : ret (is n) = 0 := h.last.resolve_left (by omega)
    refine ⟨{ s with calls := s.calls ++ [call s.bytes (is n)] },
      Loop.stops_iff.mpr ⟨n, s, hs, .inr ⟨if_pos hle, if_pos (by rw [h0]; rfl)⟩⟩, hb, ?_⟩
    simp [hi.calls, hcall]
  · exact ⟨s, Loop.stops_iff.mpr ⟨n, s, hs, .inl (if_neg hle)⟩, hb, hi.calls⟩

theorem Sends.bytes_lt (htotal : total < 2 ^ 63)
    (hret : ∀ k, -1 ≤ ret (is k) ∧ ret (is k) < 2 ^ 63) (h : Sends total (fun k => ret (is k)) n)
    {b : ℕ} (hb : (b : ℤ) = sum (fun k => ret (is k)) n) : b < 2 ^ 64 := by
  cases n with
  | zero =>
    rw [sum_zero] at hb
    omega
  | succ n =>
    have hlt := (h.counted n n.lt_succ_self).1
    have hn := hret n
    rw [sum_succ] at hb
    omega

theorem sends_of_stops (hcall : ∀ b i, (call b i).isHeader = false) (htotal : total < 2 ^ 63)
    (hret : ∀ k, -1 ≤ ret (is k) ∧ ret (is k) < 2 ^ 63)
    (h : Loop.Stops (sendHead total) (sendBody call ret) ⟨calls, 0⟩ is s) :
    s.calls.countP Call.isHeader = calls.countP Call.isHeader
      ∧ ((∃ n, Sends total (fun k => ret (is k)) n ∧ (s.bytes : ℤ) = sum (fun k => ret (is k)) n)
        ∨ s.bytes = 2 ^ 64 - 1) := by
  obtain ⟨n, t, ht, hor⟩ := Loop.stops_iff.mp h
  have hi := counted_after hcall htotal hret ht
  have hsends : 0 ≤ sum (fun k => ret (is k)) n →
      (total ≤ sum (fun k => ret (is k)) n ∨ ret (is n) = 0) →
        Sends total (fun k => ret (is k)) n := fun hpos hlast =>
    ⟨fun k hk => (hi.counted k hk).2, fun k hk => (lt_or_eq_of_le hk).elim
      (fun hk => (hi.counted k hk).1) fun hk => hk ▸ hpos, hlast⟩
  rcases hor with hhead | ⟨hhead, hbody⟩
  · simp only [sendHead] at hhead
    split_ifs at hhead with hle
    obtain rfl := Option.some.inj hhead
    exact ⟨hi.calls, (hi.bytes_cases htotal hret).imp
      (fun ⟨hpos, hb⟩ => ⟨n, hsends hpos (.inl (by omega)), hb⟩) And.right⟩
  · simp only [sendBody] at hbody
    split_ifs at hbody with hz
    obtain rfl := Loop.Outcome.stop.inj hbody
    have h0 : ret (is n) = 0 := by
      have hn := hret n
      simp only [size] at hz
      omega
    exact ⟨by simp [hi.calls, hcall], (hi.bytes_cases htotal hret).imp
      (fun ⟨hpos, hb⟩ => ⟨n, hsends hpos (.inr h0), hb⟩) And.right⟩

end Send

/-! ### The thread of the proxy -/

section Thread

variable {c : Cache.Config} {s s' : Cache.State c} {i : Fin c.nproxies} {g : Fin c.nsegments}
  {bytesTransferred readLen : ℕ} {ret : ℤ}

/-- A thread of the proxy takes the test of the loop. -/
theorem processResponse_loop (hpc : (s.proxy i).pc = .loop g bytesTransferred)
    (h : Cache.processResponse i ret s = some s') (calls : List Call) :
    (s'.proxy i).pc = match sendHead (s.seg g).filesize ⟨calls, bytesTransferred⟩ with
      | none => .waitProxysem g bytesTransferred
      | some t => .queue g (.sent t.bytes) .readLen := by
  simp only [Cache.processResponse, hpc, Option.some.injEq] at h
  subst h
  simp only [Cache.State.goto, Function.update_self, sendHead]
  split_ifs <;> rfl

/-- A thread of the proxy takes an iteration of the loop with each call of `gfs_send`. -/
theorem processResponse_send (hpc : (s.proxy i).pc = .send g bytesTransferred readLen)
    (h : Cache.processResponse i ret s = some s') (calls : List Call) :
    (s'.proxy i).pc = match responseBody ⟨calls, bytesTransferred⟩ (readLen, ret) with
      | .more t => .postCachesem g t.bytes
      | .stop t => .queue g (.sent t.bytes) .readLen := by
  simp only [Cache.processResponse, hpc, Nat.le_zero] at h
  simp only [responseBody, sendBody]
  split_ifs at h ⊢ <;> obtain rfl := Option.some.inj h <;>
    simp only [Cache.State.goto, Cache.State.tell, Function.update_self]

end Thread

/-! ### The loop of `handle_with_file` -/

/-- The loop leaves after `n` reads, each of which was sent in full. -/
structure Copies (fileLen : ℕ) (read send : ℕ → ℤ) (n : ℕ) : Prop where
  copied : ∀ k < n, sum read k < fileLen ∧ 1 ≤ read k ∧ send k = read k
  last : fileLen ≤ sum read n

section Copy

variable {read send : ℕ → ℤ} {fileLen : ℕ} {calls : List Call} {s : Sending}

theorem copied_after (hlen : fileLen < 2 ^ 63) (hread : ∀ k, read k ≤ bufsize) :
    ∀ {n : ℕ} {s : Sending}, Loop.after (fileHead fileLen) fileBody ⟨calls, 0⟩
        (fun k => (read k, send k)) n = some s →
      (∀ k < n, sum read k < fileLen ∧ 1 ≤ read k ∧ send k = read k)
        ∧ (s.bytes : ℤ) = sum read n
        ∧ s.calls.countP Call.isHeader = calls.countP Call.isHeader
  | 0, s, h => by
    obtain rfl := Option.some.inj h
    exact ⟨nofun, rfl, rfl⟩
  | n + 1, s, h => by
    obtain ⟨t, ht, hhead, hbody⟩ := Loop.after_succ.mp h
    obtain ⟨hcopied, hb, hcalls⟩ := copied_after hlen hread ht
    have hn := hread n
    simp only [fileHead] at hhead
    split_ifs at hhead with hlt
    simp only [fileBody] at hbody
    split_ifs at hbody with hpos hall
    obtain rfl := Loop.Outcome.more.inj hbody
    refine ⟨fun k hk => ?_, ?_, ?_⟩
    · rcases Nat.lt_succ_iff_lt_or_eq.mp hk with hk | rfl
      · exact hcopied k hk
      · exact ⟨by omega, by omega, by simpa using hall⟩
    · rw [sum_succ]
      simp only [size, bufsize] at hn ⊢
      omega
    · simp [hcalls, Call.isHeader]

theorem after_of_copied (calls : List Call) (hlen : fileLen < 2 ^ 63)
    (hread : ∀ k, read k ≤ bufsize) : ∀ {n : ℕ},
    (∀ k < n, sum read k < fileLen ∧ 1 ≤ read k ∧ send k = read k) →
      ∃ s, Loop.after (fileHead fileLen) fileBody ⟨calls, 0⟩ (fun k => (read k, send k)) n = some s
  | 0, _ => ⟨_, rfl⟩
  | n + 1, h => by
    obtain ⟨s, hs⟩ := after_of_copied calls hlen hread fun k hk => h k (Nat.lt_succ_of_lt hk)
    obtain ⟨-, hb, -⟩ := copied_after hlen hread hs
    obtain ⟨hlt, hpos, hall⟩ := h n n.lt_succ_self
    have hbody : fileBody s (read n, send n) = .more
        ⟨s.calls ++ [.send 0 (read n).toNat], (s.bytes + size (send n)) % 2 ^ 64⟩ := by
      simp only [fileBody]
      rw [if_neg (by omega), if_neg (by simpa using hall)]
    exact ⟨_, Loop.after_succ.mpr ⟨s, hs, if_pos (by omega), hbody⟩⟩

theorem Copies.stops (calls : List Call) (hlen : fileLen < 2 ^ 63) (hread : ∀ k, read k ≤ bufsize)
    (h : Copies fileLen read send n) :
    ∃ s : Sending, Loop.Stops (fileHead fileLen) fileBody ⟨calls, 0⟩ (fun k => (read k, send k))
        (s.calls, some s.bytes)
      ∧ (s.bytes : ℤ) = sum read n ∧ s.calls.countP Call.isHeader = calls.countP Call.isHeader := by
  obtain ⟨s, hs⟩ := after_of_copied calls hlen hread h.copied
  obtain ⟨-, hb, hcalls⟩ := copied_after hlen hread hs
  have hlast := h.last
  exact ⟨s, Loop.stops_iff.mpr ⟨n, s, hs, .inl (if_neg (by omega))⟩, hb, hcalls⟩

/-- The loop leaves with `SERVER_FAILURE`, or it has copied the file. -/
theorem copies_of_stops (hlen : fileLen < 2 ^ 63) (hread : ∀ k, read k ≤ bufsize)
    {r : List Call × Option ℕ}
    (h : Loop.Stops (fileHead fileLen) fileBody ⟨calls, 0⟩ (fun k => (read k, send k)) r) :
    r.1.countP Call.isHeader = calls.countP Call.isHeader
      ∧ (r.2 = none ∨ ∃ n b, r.2 = some b ∧ Copies fileLen read send n ∧ (b : ℤ) = sum read n) := by
  obtain ⟨n, t, ht, hor⟩ := Loop.stops_iff.mp h
  obtain ⟨hcopied, hb, hcalls⟩ := copied_after hlen hread ht
  rcases hor with hhead | ⟨-, hbody⟩
  · simp only [fileHead] at hhead
    split_ifs at hhead with hle
    obtain rfl := Option.some.inj hhead
    exact ⟨hcalls, .inr ⟨n, t.bytes, rfl, ⟨hcopied, by omega⟩, hb⟩⟩
  · simp only [fileBody] at hbody
    split_ifs at hbody <;> obtain rfl := Loop.Outcome.stop.inj hbody
    · exact ⟨hcalls, .inl rfl⟩
    · exact ⟨by simp [hcalls, Call.isHeader], .inl rfl⟩

/-- The counter that is returned as a non-negative number is one. -/
theorem Copies.value_lt (hlen : fileLen < 2 ^ 63) (hread : ∀ k, read k ≤ bufsize)
    (h : Copies fileLen read send n) {b : ℕ} (hb : (b : ℤ) = sum read n) (hvalue : 0 ≤ ssize b) :
    (b : ℤ) < 2 ^ 63 := by
  have hb64 : b < 2 ^ 64 := by
    cases n with
    | zero =>
      rw [sum_zero] at hb
      omega
    | succ n =>
      have hlt := (h.copied n n.lt_succ_self).1
      have hn := hread n
      rw [sum_succ] at hb
      simp only [bufsize] at hn
      omega
  have := (ssize_nonneg hb64).mp hvalue
  omega

end Copy

/-! ### The contract -/

theorem keepsContract_loop {σ ι ρ : Type*} {head : σ → Option ρ}
    {body : σ → ι → Loop.Outcome σ ρ} {s : σ} {is : ℕ → ι} (answer : ρ → Answer) :
    KeepsContract (fun n =>
        (Loop.run head body s ((List.range n).map is)).result.map answer)
      ↔ ∃ r, Loop.Stops head body s is r ∧ (answer r).Kept := by
  constructor
  · rintro ⟨n, a, ha, hkept⟩
    obtain ⟨r, hr, rfl⟩ := Option.map_eq_some_iff.mp ha
    exact ⟨r, ⟨n, Loop.Outcome.result_eq_some.mp hr⟩, hkept⟩
  · rintro ⟨r, ⟨n, hn⟩, hkept⟩
    exact ⟨n, answer r, Option.map_eq_some_iff.mpr
      ⟨r, Loop.Outcome.result_eq_some.mpr hn, rfl⟩, hkept⟩

theorem keepsContract_const {a : Answer} : KeepsContract (fun _ => some a) ↔ a.Kept :=
  ⟨fun ⟨_, _, h, hkept⟩ => Option.some.inj h ▸ hkept, fun h => ⟨0, a, rfl, h⟩⟩

/-- After its header a handler keeps the contract by returning a non-negative number. -/
theorem kept_of_header {calls : List Call} {value : ℤ} (h : calls.countP Call.isHeader = 1) :
    Answer.Kept ⟨calls, value⟩ ↔ 0 ≤ value := by
  simp [Answer.Kept, h]

theorem kept_notFound {headerLen : ℕ} :
    Answer.Kept ⟨[.sendheader gfFileNotFound 0], headerLen⟩ :=
  (kept_of_header rfl).mpr (Int.natCast_nonneg _)

theorem kept_failure : Answer.Kept ⟨[], serverFailure⟩ := .inr ⟨rfl, by decide⟩

/-- A loop on `gfs_send` whose counter is returned as `value` keeps the contract where it leaves
with a sum that `value` leaves non-negative. -/
theorem sendLoop_keeps {ι : Type*} {call : ℕ → ι → Call} {ret : ι → ℤ} {is : ℕ → ι} {total : ℕ}
    {calls : List Call} (hcall : ∀ b i, (call b i).isHeader = false) (htotal : total < 2 ^ 63)
    (hret : ∀ k, -1 ≤ ret (is k) ∧ ret (is k) < 2 ^ 63) (value : ℕ → ℤ)
    (hlost : value (2 ^ 64 - 1) < 0) (hcalls : calls.countP Call.isHeader = 1) :
    (∃ s, Loop.Stops (sendHead total) (sendBody call ret) ⟨calls, 0⟩ is s
        ∧ Answer.Kept ⟨s.calls, value s.bytes⟩)
      ↔ ∃ n b, Sends total (fun k => ret (is k)) n ∧ sum (fun k => ret (is k)) n = (b : ℕ)
        ∧ b < 2 ^ 64 ∧ 0 ≤ value b := by
  constructor
  · rintro ⟨s, hs, hkept⟩
    obtain ⟨hsame, ⟨n, hsends, hb⟩ | hb⟩ := sends_of_stops hcall htotal hret hs
    · exact ⟨n, s.bytes, hsends, hb.symm, hsends.bytes_lt htotal hret hb,
        (kept_of_header (hsame.trans hcalls)).mp hkept⟩
    · have hvalue := (kept_of_header (hsame.trans hcalls)).mp hkept
      simp only [hb] at hvalue
      omega
  · rintro ⟨n, b, hsends, hb, -, hvalue⟩
    obtain ⟨s, hs, hbytes, hsame⟩ := hsends.stops calls hcall htotal hret
    obtain rfl : s.bytes = b := by omega
    exact ⟨s, hs, (kept_of_header (hsame.trans hcalls)).mpr hvalue⟩

theorem handleWithCurl_keeps (o : CurlCalls) : KeepsContract (handleWithCurl o) ↔
    o.result = 0 ∧ (o.responseCode = 200 →
      ∃ n, Sends o.response.length o.gfsSend n ∧ sum o.gfsSend n < 2 ^ 63) := by
  have hlt := o.response_lt
  have hret : ∀ k, -1 ≤ id (o.gfsSend k) ∧ id (o.gfsSend k) < 2 ^ 63 := fun k => by
    have := o.gfsSend_le k
    simp only [id]
    omega
  have hlost : ssize (2 ^ 64 - 1) < 0 := by decide
  unfold handleWithCurl
  split_ifs with hok hfound hmissing
  · rw [keepsContract_loop, curlBody, sendLoop_keeps (fun _ _ => rfl) hlt hret ssize hlost rfl]
    refine ⟨fun ⟨n, b, hsends, hb, hb64, hvalue⟩ => ⟨hok, fun _ => ⟨n, hsends, ?_⟩⟩, fun h => ?_⟩
    · have hb63 := (ssize_nonneg hb64).mp hvalue
      have hb : sum o.gfsSend n = b := hb
      omega
    · obtain ⟨n, hsends, hsum⟩ := h.2 hfound
      obtain ⟨b, hb⟩ := Int.eq_ofNat_of_zero_le (hsends.nonneg n le_rfl)
      exact ⟨n, b, hsends, hb, by omega, (ssize_nonneg (by omega)).mpr (by omega)⟩
  · exact iff_of_true (keepsContract_const.mpr kept_notFound) ⟨hok, fun h => absurd h hfound⟩
  · exact iff_of_true (keepsContract_const.mpr kept_failure) ⟨hok, fun h => absurd h hfound⟩
  · refine iff_of_false (fun h => ?_) fun h => hok h.1
    have hkept := keepsContract_const.mp h
    simp [Answer.Kept] at hkept

theorem handleWithFile_keeps (o : FileCalls) : KeepsContract (handleWithFile o) ↔
    (o.opened = .fildes → ∀ fileLen ∈ o.fstat,
      ∃ n, Copies fileLen o.read o.gfsSend n ∧ sum o.read n < 2 ^ 63) := by
  unfold handleWithFile
  cases hopen : o.opened with
  | enoent => exact iff_of_true (keepsContract_const.mpr kept_notFound) nofun
  | failed => exact iff_of_true (keepsContract_const.mpr kept_failure) nofun
  | fildes =>
    cases hstat : o.fstat with
    | none => exact iff_of_true (keepsContract_const.mpr kept_failure) fun _ => nofun
    | some fileLen =>
      have hlt := o.fstat_lt fileLen hstat
      have hread : ∀ k, o.read k ≤ bufsize := fun k => (o.read_le k).2
      simp only [keepsContract_loop, Option.mem_def, Option.some.injEq, forall_eq', true_implies]
      constructor
      · rintro ⟨⟨calls, r⟩, hs, hkept⟩
        obtain ⟨hcalls, rfl | ⟨n, b, rfl, hcopies, hb⟩⟩ := copies_of_stops hlt hread hs
        · have hvalue : 0 ≤ serverFailure := (kept_of_header hcalls).mp hkept
          exact absurd hvalue (by decide)
        · rw [Option.elim_some] at hkept
          have hvalue : 0 ≤ ssize b := (kept_of_header hcalls).mp hkept
          have hlt := hcopies.value_lt hlt hread hb hvalue
          exact ⟨n, hcopies, by omega⟩
      · rintro ⟨n, hcopies, hsum⟩
        obtain ⟨s, hs, hb, hcalls⟩ := hcopies.stops [.sendheader gfOk fileLen] hlt hread
        have hvalue : 0 ≤ ssize s.bytes :=
          (ssize_nonneg (show s.bytes < 2 ^ 64 by omega)).mpr (by omega)
        refine ⟨_, hs, ?_⟩
        rw [Option.elim_some]
        exact (kept_of_header hcalls).mpr hvalue

theorem handleWithCache_keeps (o : CacheCalls) : KeepsContract (handleWithCache o) ↔
    o.status = 404 ∨ o.status = 200 ∧
      ∃ n, Sends o.filesize o.gfsSend n ∧ sum o.gfsSend n % 2 ^ 32 < 2 ^ 31 := by
  have hlt := o.filesize_lt
  have hret : ∀ k, -1 ≤ (o.readLen k, o.gfsSend k).2 ∧ (o.readLen k, o.gfsSend k).2 < 2 ^ 63 :=
    fun k => by
      have := o.gfsSend_le k
      have := o.readLen_lt k
      simp only
      omega
  unfold handleWithCache processResponse
  split_ifs with hfound hmissing
  · rw [keepsContract_loop fun s : Sending => ⟨s.calls, (s.bytes : ℤ).bmod (2 ^ 32)⟩, responseBody,
      sendLoop_keeps (fun _ _ => rfl) hlt hret (fun b => (b : ℤ).bmod (2 ^ 32)) (by decide) rfl]
    constructor
    · rintro ⟨n, b, hsends, hb, -, hvalue⟩
      have hb32 := int_nonneg.mp hvalue
      have hb : sum o.gfsSend n = b := hb
      exact .inr ⟨hfound, n, hsends, by omega⟩
    · rintro (h | ⟨-, n, hsends, hsum⟩)
      · omega
      · obtain ⟨b, hb⟩ := Int.eq_ofNat_of_zero_le (hsends.nonneg n le_rfl)
        exact ⟨n, b, hsends, hb, hsends.bytes_lt hlt hret hb.symm, int_nonneg.mpr (by omega)⟩
  · have hlt := o.headerLen_lt
    have hvalue : 0 ≤ (o.headerLen : ℤ).bmod (2 ^ 32) := int_nonneg.mpr (by omega)
    refine iff_of_true (keepsContract_const.mpr ?_) (.inl hmissing)
    exact (kept_of_header rfl).mpr hvalue
  · refine iff_of_false (fun h => ?_) fun h => ?_
    · have hkept := keepsContract_const.mp h
      simp [Answer.Kept] at hkept
    · rcases h with h | ⟨h, -⟩
      · exact hmissing h
      · exact hfound h

/-- When the callbacks answer their client exactly once, as the server's library expects. -/
theorem handlers_keep_contract (curl : CurlCalls) (file : FileCalls) (cache : CacheCalls) :
    (KeepsContract (handleWithCurl curl) ↔
        curl.result = 0 ∧ (curl.responseCode = 200 →
          ∃ n, Sends curl.response.length curl.gfsSend n ∧ sum curl.gfsSend n < 2 ^ 63))
      ∧ (KeepsContract (handleWithFile file) ↔
        (file.opened = .fildes → ∀ fileLen ∈ file.fstat,
          ∃ n, Copies fileLen file.read file.gfsSend n ∧ sum file.read n < 2 ^ 63))
      ∧ (KeepsContract (handleWithCache cache) ↔
        cache.status = 404 ∨ cache.status = 200 ∧
          ∃ n, Sends cache.filesize cache.gfsSend n ∧ sum cache.gfsSend n % 2 ^ 32 < 2 ^ 31) :=
  ⟨handleWithCurl_keeps curl, handleWithFile_keeps file, handleWithCache_keeps cache⟩

theorem headerLen_zero : 0 < 2 ^ 31 := by decide

/-- curl cannot resolve the host. -/
def unresolved : CurlCalls where
  result := 6
  responseCode := 0
  contentLength := -1
  response := []
  headerLen := 0
  gfsSend := fun _ => 0
  response_lt := by decide
  headerLen_lt := headerLen_zero
  gfsSend_le := fun _ => ⟨by decide, le_rfl⟩

/-- A transfer that fails leaves the client without an answer. -/
theorem client_unanswered : ¬ ((∀ o : CurlCalls, KeepsContract (handleWithCurl o))
    ∧ (∀ o : FileCalls, KeepsContract (handleWithFile o))
    ∧ ∀ o : CacheCalls, KeepsContract (handleWithCache o)) := by
  rintro ⟨hcurl, -, -⟩
  obtain ⟨n, a, ha, hkept⟩ := hcurl unresolved
  obtain rfl : ⟨[], 0⟩ = a := Option.some.inj ha
  simp [Answer.Kept] at hkept

end FileServices.Handlers
