import FileServices.Handlers

/-!
# The body of a web server's response

`write_callback` puts the chunks one after the other.  The header has the length that curl
reports, and each call of `gfs_send` after the first is given an address before the start of the
buffer, so the body goes out only with the first call.
-/

namespace FileServices.Handlers

open CString
open Cache (gfOk size)

variable {o : CurlCalls} {chunks : List Bytes} {value : UInt8} {n : ℕ} {s t : Sending}

/-! ### The buffer -/

theorem received_eq (value : UInt8) (chunks : List Bytes) :
    (received value chunks).filesize = chunks.flatten.length
      ∧ ∃ b, (received value chunks).response = chunks.flatten ++ [b] := by
  induction chunks using List.reverseRecOn with
  | nil => exact ⟨rfl, value, rfl⟩
  | append_singleton chunks data ih =>
    obtain ⟨hsize, b, hresponse⟩ := ih
    have hstep : received value (chunks ++ [data])
        = writeCallback (received value chunks) data := by
      simp [received]
    rw [hstep, List.flatten_append, List.flatten_singleton]
    refine ⟨?_, 0, ?_⟩
    · simp [writeCallback, hsize]
    · simp [writeCallback, hsize, hresponse]

/-! ### The calls -/

/-- The calls that have been made stay in front. -/
theorem calls_run : ∀ (rets : List ℤ) (s : Sending) {t : Sending} {total : ℕ},
    Loop.run (sendHead total) (curlBody total) s rets = .stop t → s.calls <+: t.calls
  | rets, s, t, total, h => by
    by_cases hlt : s.bytes < total
    · have hhead : sendHead total s = none := if_pos hlt
      match rets with
      | [] =>
        rw [Loop.run_nil hhead] at h
        cases h
      | ret :: rets =>
        by_cases hz : size (id ret) = 0
        · rw [Loop.run_cons_stop hhead (if_pos hz)] at h
          obtain rfl := Loop.Outcome.stop.inj h
          exact List.prefix_append _ _
        · rw [Loop.run_cons_more hhead (if_neg hz)] at h
          exact (List.prefix_append _ _).trans (calls_run rets _ h)
    · have hhead : sendHead total s = some s := if_neg hlt
      rw [Loop.run_of_head hhead] at h
      obtain rfl := Loop.Outcome.stop.inj h
      exact List.prefix_rfl

/-- A call with some of the buffer before its start. -/
theorem bodySent_outside {buffer : Bytes} {start : ℤ} (h : start < 0) (len : ℕ) (calls : List Call)
    (rets : List ℤ) : bodySent buffer (.send start len :: calls) rets = none := by
  cases rets with
  | nil => rfl
  | cons ret rets => exact if_neg fun hle => absurd hle.1 (not_le.mpr h)

theorem curlBody_first {total : ℕ} {ret : ℤ} {calls : List Call} {bytes : ℕ} (hret : 1 ≤ ret)
    (hlt : ret < 2 ^ 63) (hbytes : bytes + ret.toNat < 2 ^ 64) :
    curlBody total ⟨calls, bytes⟩ ret
      = .more ⟨calls ++ [.send (-bytes) total], bytes + ret.toNat⟩ := by
  have hsize : size ret = ret.toNat := by
    rw [size, Int.emod_eq_of_lt (by omega) (by omega)]
  simp only [curlBody, sendBody, id, hsize]
  rw [if_neg (by omega), Nat.mod_eq_of_lt hbytes]

/-- After a first call that sends a part there is a second one, which starts before the buffer. -/
theorem second_call {header : Call} {rets : ℕ → ℤ} {total : ℕ} (htotal : total < 2 ^ 63)
    (hrets : ∀ k, 1 ≤ rets k ∧ rets k ≤ total) (hshort : rets 0 < total)
    (h : Loop.run (sendHead total) (curlBody total) ⟨[header], 0⟩ ((List.range n).map rets)
      = .stop s) :
    ∃ start < 0, ∃ calls, s.calls = header :: .send 0 total :: .send start total :: calls := by
  have h0 := hrets 0
  have h1 := hrets 1
  have hhead : ∀ {calls : List Call} {bytes : ℕ}, bytes < total →
      sendHead total ⟨calls, bytes⟩ = none := fun h => if_pos h
  have hbody₀ : curlBody total ⟨[header], 0⟩ (rets 0) = _ :=
    curlBody_first h0.1 (by omega) (by omega)
  have hbody₁ : curlBody total ⟨[header] ++ [.send (-(0 : ℕ)) total], 0 + (rets 0).toNat⟩ (rets 1)
      = _ := curlBody_first h1.1 (by omega) (by omega)
  match n with
  | 0 =>
    rw [List.range_zero, List.map_nil, Loop.run_nil (hhead (by omega))] at h
    cases h
  | 1 =>
    rw [List.range_one, List.map_singleton, Loop.run_cons_more (hhead (by omega)) hbody₀,
      Loop.run_nil (hhead (by omega))] at h
    cases h
  | n + 2 =>
    rw [List.range_succ_eq_map, List.range_succ_eq_map] at h
    change Loop.run _ _ _ (rets 0 :: rets 1 :: _) = _ at h
    rw [Loop.run_cons_more (hhead (by omega)) hbody₀,
      Loop.run_cons_more (hhead (by omega)) hbody₁] at h
    obtain ⟨calls, hcalls⟩ := calls_run _ _ h
    exact ⟨-(0 + (rets 0).toNat : ℕ), by omega, calls, hcalls.symm⟩

theorem only_call {header : Call} {rets : ℕ → ℤ} {total : ℕ} (htotal : total < 2 ^ 63)
    (hpos : 0 < total) (hwhole : rets 0 = total) :
    Loop.run (sendHead total) (curlBody total) ⟨[header], 0⟩ ((List.range 1).map rets)
      = .stop ⟨[header, .send 0 total], total⟩ := by
  have hhead : sendHead total ⟨[header], 0⟩ = none := if_pos hpos
  have hbody : curlBody total ⟨[header], 0⟩ (rets 0) = _ :=
    curlBody_first (by omega) (by omega) (by omega)
  have hend : sendHead total ⟨[header] ++ [.send (-(0 : ℕ)) total], 0 + (rets 0).toNat⟩
      = some ⟨[header, .send 0 total], total⟩ := by
    rw [hwhole]
    simp [sendHead]
  rw [List.range_one, List.map_singleton, Loop.run_cons_more hhead hbody, Loop.run_of_head hend]

theorem filled_received (value : UInt8) (chunks : List Bytes) :
    (received value chunks).filled = chunks.flatten := by
  obtain ⟨hsize, b, hresponse⟩ := received_eq value chunks
  rw [Customdata.filled, hsize, hresponse, List.take_left']
  rfl

/-- The header has the length of the body, and the calls after it send the body, each byte once
and in order, from inside the buffer. -/
def Forwards (o : CurlCalls) (value : UInt8) (chunks : List Bytes) : Prop :=
  ∃ n a calls, handleWithCurl o n = some a
    ∧ a.calls = .sendheader gfOk chunks.flatten.length :: calls
    ∧ bodySent (received value chunks).filled calls ((List.range n).map o.gfsSend)
      = some chunks.flatten

section Forward

variable (hok : o.result = 0) (hfound : o.responseCode = 200)
  (hlength : -1 ≤ o.contentLength ∧ o.contentLength < 2 ^ 63)
  (hresponse : o.response = (received value chunks).filled) (hsend : ∀ k, 1 ≤ o.gfsSend k)

include hlength in
/-- Only the length that curl reports comes out of the conversion as it is. -/
theorem reported_iff : size o.contentLength = o.response.length
    ↔ o.contentLength = o.response.length := by
  have hlen := o.response_lt
  simp only [size]
  omega

include hok hfound hlength hresponse hsend

theorem whole_of_forwards (h : Forwards o value chunks) :
    o.contentLength = chunks.flatten.length
      ∧ (chunks.flatten = [] ∨ chunks.flatten.length ≤ o.gfsSend 0) := by
  rw [filled_received] at hresponse
  simp only [Forwards, handleWithCurl, if_pos hok, if_pos hfound, filled_received, ← hresponse] at h
  rw [← hresponse]
  obtain ⟨n, a, calls, ha, hcalls, hsent⟩ := h
  obtain ⟨s, hs, rfl⟩ := Option.map_eq_some_iff.mp ha
  rw [Loop.Outcome.result_eq_some] at hs
  have hcalls : s.calls = .sendheader gfOk o.response.length :: calls := hcalls
  have hheader := calls_run _ _ hs
  rw [hcalls, List.cons_prefix_cons, Call.sendheader.injEq, reported_iff hlength] at hheader
  refine ⟨hheader.1.2, ?_⟩
  by_contra hshort
  push Not at hshort
  obtain ⟨start, hstart, rest, hrest⟩ := second_call o.response_lt
    (fun k => ⟨hsend k, (o.gfsSend_le k).2⟩) hshort.2 hs
  obtain rfl := (List.cons.inj (hcalls.symm.trans hrest)).2
  generalize (List.range n).map o.gfsSend = rets at hsent
  rcases rets with _ | ⟨ret, rets⟩
  · cases hsent
  · rw [bodySent, if_pos ⟨le_rfl, by omega⟩, bodySent_outside hstart] at hsent
    cases hsent

omit hsend in
theorem forwards_of_whole (hreport : o.contentLength = chunks.flatten.length)
    (hwhole : chunks.flatten = [] ∨ chunks.flatten.length ≤ o.gfsSend 0) :
    Forwards o value chunks := by
  rw [filled_received] at hresponse
  simp only [Forwards, handleWithCurl, if_pos hok, if_pos hfound, filled_received, ← hresponse]
  rw [← hresponse] at hreport hwhole
  rw [(reported_iff hlength).mpr hreport]
  by_cases hempty : o.response = []
  · refine ⟨0, ⟨[.sendheader gfOk o.response.length], ssize 0⟩, [], ?_, rfl, by
      rw [hempty]
      rfl⟩
    simp [hempty, Loop.run, sendHead, Loop.Outcome.result]
  · have hall : o.gfsSend 0 = o.response.length := by
      have hfirst := (o.gfsSend_le 0).2
      have := hwhole.resolve_left hempty
      omega
    have hrun := @only_call (.sendheader gfOk o.response.length) o.gfsSend _ o.response_lt
      (List.length_pos_of_ne_nil hempty) hall
    refine ⟨1, ⟨[.sendheader gfOk o.response.length, .send 0 o.response.length],
      ssize o.response.length⟩, [.send 0 o.response.length], ?_, rfl, ?_⟩
    · rw [hrun]
      rfl
    · rw [List.range_one, List.map_singleton, bodySent, if_pos ⟨le_rfl, by omega⟩, hall]
      simp [bodySent]

/-- The handler forwards the body just when curl reports its length and the first call of
`gfs_send` sends all of it. -/
theorem curl_forwards_iff : Forwards o value chunks ↔ o.contentLength = chunks.flatten.length
    ∧ (chunks.flatten = [] ∨ chunks.flatten.length ≤ o.gfsSend 0) :=
  ⟨whole_of_forwards hok hfound hlength hresponse hsend,
    fun h => forwards_of_whole hok hfound hlength hresponse h.1 h.2⟩

end Forward

/-- curl gets two bytes, of which each call of `gfs_send` sends `sent`. -/
def twoBytes (contentLength : ℤ) (sent : ℤ) (h : -1 ≤ sent ∧ sent ≤ 2) : CurlCalls where
  result := 0
  responseCode := 200
  contentLength := contentLength
  response := ascii "hi"
  headerLen := 0
  gfsSend := fun _ => sent
  response_lt := by decide
  headerLen_lt := by decide
  gfsSend_le := fun _ => h

theorem curl_forwards_iff_hi : Forwards (twoBytes 2 2 (by decide)) 0 [ascii "h", ascii "i"]
    ↔ (2 : ℤ) = [ascii "h", ascii "i"].flatten.length
      ∧ ([ascii "h", ascii "i"].flatten = []
        ∨ [ascii "h", ascii "i"].flatten.length ≤ (2 : ℤ)) :=
  curl_forwards_iff (o := twoBytes 2 2 (by decide)) rfl rfl (by decide) (by decide)
    fun _ => show (1 : ℤ) ≤ 2 by decide

/-- A call that sends a byte is followed by one that starts before the buffer.  Where curl does
not know the length the header has another one. -/
theorem curl_loses :
    (handleWithCurl (twoBytes 2 1 (by decide)) 2).map Answer.calls
        = some [.sendheader gfOk 2, .send 0 2, .send (-1) 2]
      ∧ ¬ Forwards (twoBytes 2 1 (by decide)) 0 [ascii "hi"]
      ∧ (handleWithCurl (twoBytes (-1) 2 (by decide)) 1).map Answer.calls
        = some [.sendheader gfOk (2 ^ 64 - 1), .send 0 2]
      ∧ ¬ Forwards (twoBytes (-1) 2 (by decide)) 0 [ascii "hi"] := by
  refine ⟨by decide, fun h => ?_, by decide, fun h => ?_⟩
  · have hwhole := whole_of_forwards (o := twoBytes 2 1 (by decide)) rfl rfl (by decide) (by decide)
      (fun _ => show (1 : ℤ) ≤ 1 by decide) h
    exact absurd hwhole.2 (by decide)
  · have hwhole := whole_of_forwards (o := twoBytes (-1) 2 (by decide)) rfl rfl (by decide)
      (by decide) (fun _ => show (1 : ℤ) ≤ 2 by decide) h
    exact absurd hwhole.1 (by decide)

end FileServices.Handlers
