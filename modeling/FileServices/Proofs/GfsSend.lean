import FileServices.Gfserver

/-!
# What `gfs_send` and `gfs_sendheader` put on the socket

`gfs_send` goes on from where the last `send` stopped, so what it returns is what it has sent.
`gfs_sendheader` calls `send` once: a header that the socket does not take whole stays torn.
-/

namespace FileServices

open CString

variable {data : Bytes} {s t : SendState} {k : ℤ} {n : ℕ}

/-! ### An iteration -/

/-- What the loop has put on the wire. -/
structure Puts (data : Bytes) (s : SendState) : Prop where
  total_le : s.total ≤ data.length
  wire : s.wire = data.take s.total

theorem puts_start (data : Bytes) : Puts data ⟨0, []⟩ := ⟨Nat.zero_le _, rfl⟩

theorem Puts.more (h : Puts data s) (hbody : gfsSendBody data s k = .more t) :
    Puts data t ∧ s.total < t.total ∧ 0 < k := by
  have hle := h.total_le
  unfold gfsSendBody at hbody
  dsimp only at hbody
  split_ifs at hbody with hz
  obtain rfl := Loop.Outcome.more.inj hbody
  simp only [sendResult, List.length_drop] at hz ⊢
  refine ⟨⟨?_, ?_⟩, ?_, ?_⟩
  · dsimp only
    omega
  · rw [List.take_add, h.wire]
  · omega
  · omega

/-- With something left to send, only a `send` that takes nothing ends the loop in its body. -/
theorem gfsSendBody_stop (hlt : s.total < data.length) (hbody : gfsSendBody data s k = .stop t) :
    t = s ∧ k ≤ 0 := by
  unfold gfsSendBody at hbody
  dsimp only at hbody
  split_ifs at hbody with hz
  refine ⟨(Loop.Outcome.stop.inj hbody).symm, ?_⟩
  simp only [sendResult, List.length_drop] at hz
  omega

/-! ### The loop -/

/-- The loop of `gfs_send` where it stands, and the calls it has made. -/
structure Sent (data : Bytes) (ks : ℕ → ℤ) (n : ℕ) (s : SendState) : Prop extends Puts data s where
  calls_le : n ≤ s.total
  pos : ∀ m < n, 0 < ks m

theorem sent_after (data : Bytes) (ks : ℕ → ℤ) : ∀ {n : ℕ} {s : SendState},
    Loop.after (fun s : SendState => if s.total < data.length then none else some s)
      (gfsSendBody data) ⟨0, []⟩ ks n = some s → Sent data ks n s
  | 0, s, h => by
    obtain rfl := Option.some.inj h
    exact ⟨puts_start data, le_rfl, nofun⟩
  | n + 1, s, h => by
    obtain ⟨t, ht, -, hbody⟩ := Loop.after_succ.mp h
    have hi := sent_after data ks ht
    obtain ⟨hputs, hlt, hk⟩ := hi.toPuts.more hbody
    have hle := hi.calls_le
    refine ⟨hputs, by omega, fun m hm => ?_⟩
    rcases Nat.lt_succ_iff_lt_or_eq.mp hm with hm | rfl
    · exact hi.pos m hm
    · exact hk

/-- The `ssize_t` of a count that fits. -/
theorem SendState.result_eq (h : s.total < 2 ^ 63) : s.result = s.total := by
  exact Int.bmod_eq_of_le (by omega) (by norm_num; omega)

/-- `gfs_send` ends when the buffer is sent, or with the first `send` that takes nothing, and
returns how many bytes of the buffer it has put on the socket. -/
theorem gfsSend_reports (hlen : data.length < 2 ^ 63) (ks : ℕ → ℤ) :
    ∃ n st, gfsSend data ((List.range n).map ks) = .stop st
      ∧ (∀ m < n, ∃ t, gfsSend data ((List.range m).map ks) = .more t)
      ∧ (∀ m, m + 1 < n → 0 < ks m)
      ∧ (st.result = data.length ∨ ∃ m, n = m + 1 ∧ ks m ≤ 0)
      ∧ 0 ≤ st.result ∧ st.result ≤ data.length ∧ st.wire = data.take st.result.toNat
      ∧ (st.result = data.length ↔ ∀ m < n, 0 < ks m) := by
  rcases Loop.after_or_leaves (fun s : SendState => if s.total < data.length then none else some s)
    (gfsSendBody data) ⟨0, []⟩ ks (data.length + 1) with ⟨t, ht⟩ | ⟨n, t, st, ht, hleaves, -⟩
  · have hi := sent_after data ks ht
    have hle := hi.total_le
    have hcalls := hi.calls_le
    omega
  have hi := sent_after data ks ht
  have hle := hi.total_le
  have hresult := SendState.result_eq (hle.trans_lt hlen)
  have hwire : t.wire = data.take t.result.toNat := by
    rw [hresult, Int.toNat_natCast, hi.wire]
  rcases hleaves with hhead | ⟨hhead, hbody⟩
  · obtain ⟨hstop, hwaits⟩ := Loop.StopsAfter.of_head ht hhead
    beta_reduce at hhead
    split_ifs at hhead with hlt
    obtain rfl := Option.some.inj hhead
    have hall : t.result = data.length := by omega
    exact ⟨n, t, hstop, hwaits, fun m hm => hi.pos m (by omega), .inl hall, by omega, by omega,
      hwire, iff_of_true hall hi.pos⟩
  · obtain ⟨hstop, hwaits⟩ := Loop.StopsAfter.of_body ht hhead hbody
    beta_reduce at hhead
    split_ifs at hhead with hlt
    obtain ⟨rfl, hz⟩ := gfsSendBody_stop hlt hbody
    refine ⟨n + 1, st, hstop, hwaits, fun m hm => hi.pos m (by omega), .inr ⟨n, rfl, hz⟩, by omega,
      by omega, hwire, iff_of_false (by omega) fun hpos => ?_⟩
    exact absurd hz (not_le.mpr (hpos n n.lt_succ_self))

theorem gfsSend_reports_hi :
    ∃ n st, gfsSend (ascii "hi") ((List.range n).map fun m => if m = 0 then 1 else -1) = .stop st
      ∧ (∀ m < n, ∃ t,
        gfsSend (ascii "hi") ((List.range m).map fun m => if m = 0 then 1 else -1) = .more t)
      ∧ (∀ m, m + 1 < n → (0 : ℤ) < if m = 0 then 1 else -1)
      ∧ (st.result = (ascii "hi").length ∨ ∃ m, n = m + 1 ∧ (if m = 0 then (1 : ℤ) else -1) ≤ 0)
      ∧ 0 ≤ st.result ∧ st.result ≤ (ascii "hi").length
      ∧ st.wire = (ascii "hi").take st.result.toNat
      ∧ (st.result = (ascii "hi").length ↔ ∀ m < n, (0 : ℤ) < if m = 0 then 1 else -1) :=
  gfsSend_reports (by decide) fun m => if m = 0 then 1 else -1

/-! ### A header and what follows it -/

/-- As long as the socket takes something, `gfs_send` puts `data` on it whole. -/
theorem gfsSend_stop {ks : List ℤ} (hpos : ∀ k ∈ ks, 0 < k) {st : SendState}
    (h : gfsSend data ks = .stop st) : st = ⟨data.length, data⟩ := by
  have hloop := @Loop.run_induction _ _ _
    (fun s : SendState => if s.total < data.length then none else some s) (gfsSendBody data)
    (Puts data) (fun k => 0 < k) (fun r => r = ⟨data.length, data⟩) ?_ ?_ ?_ ks ⟨0, []⟩
    (puts_start data) hpos
  · rw [← gfsSend, h] at hloop
    exact hloop
  · intro s k s' hs hk _ hbody
    exact (hs.more hbody).1
  · intro s r hs hhead
    have hle := hs.total_le
    split_ifs at hhead with hlt
    obtain rfl := Option.some.inj hhead
    have hfull : s.total = data.length := by omega
    have hwire := hs.wire
    rw [hfull, List.take_length] at hwire
    cases s
    simp_all
  · intro s k r hs hk hhead hbody
    split_ifs at hhead with hlt
    exact absurd (gfsSendBody_stop hlt hbody).2 (not_le.mpr hk)

/-- Each `send` takes a byte or ends the loop, so `data.length` of them are enough. -/
theorem gfsSend_stops (ks : ℕ → ℤ) {m : ℕ} (hm : data.length ≤ m) :
    ∃ st, gfsSend data ((List.range m).map ks) = .stop st := by
  rcases Loop.after_or_leaves (fun s : SendState => if s.total < data.length then none else some s)
    (gfsSendBody data) ⟨0, []⟩ ks m with ⟨t, ht⟩ | ⟨-, -, st, -, -, hrun⟩
  · have hcalls := (sent_after data ks ht).calls_le
    have hhead : ¬ t.total < data.length := by omega
    refine ⟨t, ?_⟩
    rw [gfsSend, Loop.run_after ht, Loop.run]
    simp only [if_neg hhead]
  · exact ⟨st, hrun⟩

theorem gfsSends_eq {wire : Bytes} : ∀ {pieces : List Bytes} {kss : List (List ℤ)},
    (∀ ks ∈ kss, ∀ k ∈ ks, 0 < k) → gfsSends pieces kss = some wire → wire = pieces.flatten
  | [], _, _, h => (Option.some.inj h).symm
  | _ :: _, [], _, h => by simp [gfsSends] at h
  | data :: pieces, ks :: kss, hpos, h => by
    rcases hs : gfsSend data ks with s | st
    · simp [gfsSends, hs] at h
    · simp only [gfsSends, hs, Option.map_eq_some_iff] at h
      obtain ⟨rest, hrest, rfl⟩ := h
      rw [gfsSends_eq (fun ks hks => hpos ks (List.mem_cons_of_mem _ hks)) hrest,
        gfsSend_stop (hpos ks List.mem_cons_self) hs, List.flatten_cons]

theorem gfsSends_stops : ∀ (pieces : List Bytes) (ks : ℕ → ℕ → ℤ) {m : ℕ},
    (∀ data ∈ pieces, data.length ≤ m) → ∃ wire, gfsSends pieces
      ((List.range pieces.length).map fun i => (List.range m).map (ks i)) = some wire
  | [], _, _, _ => ⟨[], rfl⟩
  | data :: pieces, ks, m, hm => by
    obtain ⟨st, hs⟩ := gfsSend_stops (ks 0) (hm data List.mem_cons_self)
    obtain ⟨wire, hw⟩ := gfsSends_stops pieces (fun i => ks (i + 1))
      fun d hd => hm d (List.mem_cons_of_mem _ hd)
    refine ⟨st.wire ++ wire, ?_⟩
    rw [List.length_cons, List.range_succ_eq_map, List.map_cons, List.map_map]
    simp only [gfsSends, hs, Option.map_eq_some_iff]
    exact ⟨wire, hw, rfl⟩

/-- An OK response is complete on the wire just when the one `send` of its header takes all the
header's bytes. -/
theorem response_complete_iff {pieces : List Bytes} {text : Bytes}
    (htext : headerText .ok pieces.flatten.length = some text) {k : ℤ} (hk : 1 ≤ k)
    {ks : ℕ → ℕ → ℤ} (hks : ∀ i j, 1 ≤ ks i j) :
    (∃ m wire, gfsSends pieces
          ((List.range pieces.length).map fun i => (List.range m).map (ks i)) = some wire
        ∧ (gfsSendheader .ok pieces.flatten.length k).1 ++ wire = text ++ pieces.flatten)
      ↔ text.length ≤ k := by
  have hpos : ∀ i j, 0 < ks i j := hks
  have hall : ∀ {m wire}, gfsSends pieces
      ((List.range pieces.length).map fun i => (List.range m).map (ks i)) = some wire →
        wire = pieces.flatten := fun h => gfsSends_eq (by simpa using fun i _ j _ => hpos i j) h
  have hhead : (gfsSendheader .ok pieces.flatten.length k).1 = text.take k.toNat := by
    simp only [gfsSendheader, htext, sendResult]
    rw [List.take_eq_take_iff]
    omega
  constructor
  · rintro ⟨m, wire, hwire, hsame⟩
    obtain rfl := hall hwire
    rw [hhead, List.append_cancel_right_eq, List.take_eq_self_iff] at hsame
    omega
  · intro hlen
    obtain ⟨wire, hwire⟩ := gfsSends_stops pieces ks
      fun data hdata => (List.sublist_flatten_of_mem hdata).length_le
    refine ⟨_, wire, hwire, ?_⟩
    rw [hhead, hall hwire, List.take_of_length_le (by omega)]

theorem response_complete_iff_hi :
    (∃ m wire, gfsSends [ascii "h", ascii "i"]
          ((List.range 2).map fun _ => (List.range m).map fun _ => 1) = some wire
        ∧ (gfsSendheader .ok 2 20).1 ++ wire = ascii "GETFILE OK 2 \r\n\r\n" ++ ascii "hi")
      ↔ (ascii "GETFILE OK 2 \r\n\r\n").length ≤ (20 : ℤ) :=
  @response_complete_iff [ascii "h", ascii "i"] (ascii "GETFILE OK 2 \r\n\r\n") (by decide) 20
    (by decide) (fun _ _ => 1) fun _ _ => le_rfl

/-- A header the socket takes five bytes of: the content follows in its middle. -/
theorem response_torn : gfsSends [ascii "hi"] [[2]] = some (ascii "hi")
    ∧ (gfsSendheader .ok 2 5).1 ++ ascii "hi" = ascii "GETFIhi"
    ∧ (gfsSendheader .ok 2 5).1 ++ ascii "hi" ≠ ascii "GETFILE OK 2 \r\n\r\n" ++ ascii "hi" := by
  decide

end FileServices
