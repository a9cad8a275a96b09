import FileServices.Receiver
import FileServices.Proofs.Header

/-!
# The loop with its calls against the plain one

Where the plain loop is defined the two come to the same request, and the lengths handed to the
callback are those of the buffers it was called with (`receive_logs`).  Without an OK header the
callback is never called, and the counts stay where they were (`receive_ok_of_call`).
-/

namespace FileServices

open CString

/-- The offsets and lengths handed to `write_func`. -/
def calls (log : List Iteration) : List (ℕ × ℕ) := log.filterMap (·.writeFunc)

theorem calls_append (log : List Iteration) (i : Iteration) :
    calls (log ++ [i]) = calls log ++ i.writeFunc.toList := by
  rcases h : i.writeFunc with _ | w <;> simp [calls, h]

theorem calls_record (s : Receiver) (packet : Bytes) (call : Option (ℕ × ℕ)) :
    calls (s.record packet call).log = calls s.log ++ call.toList :=
  calls_append _ _

/-! ### The plain loop -/

/-- The request as the plain loop has it. -/
structure Logs (gfr : GfcRequest) (s : Receiver) : Prop where
  bytesReceived : s.bytesReceived = gfr.bytesReceived
  fileLength : s.fileLength = gfr.fileLength
  status : s.status = gfr.status
  writeFunc : s.writeFunc = gfr.writeFunc
  written : (calls s.log).map Prod.snd = gfr.written.map List.length

/-- The loop where the plain one is. -/
structure LogsAt (t : RecvState) (s : Receiver) : Prop extends Logs t.gfr s where
  headerRcvd : s.headerRcvd = t.headerRcvd
  len : s.len = t.len

/-- What the loop comes to where the plain one does. -/
def LogsTo : Loop.Outcome RecvState Result → Loop.Outcome Receiver Received → Prop
  | .more t, o => ∃ s, o = .more s ∧ LogsAt t s
  | .stop .undefined, _ => True
  | .stop (.returned gfr _), o => ∃ s, o = .stop (.returned s) ∧ Logs gfr s

variable {gfr : GfcRequest} {t : RecvState} {s : Receiver} {packet : Bytes} {len : ℕ}

theorem sizeSub_of_le {a b : ℕ} (hle : b ≤ a) (ha : a < 2 ^ 64) : sizeSub a b = a - b := by
  rw [sizeSub, show a + (2 ^ 64 - b) = a - b + 2 ^ 64 by omega, Nat.add_mod_right]
  exact Nat.mod_eq_of_lt (by omega)

theorem Logs.answer (h : Logs gfr s) (status : GfStatus) (packet : Bytes) :
    Logs { gfr with status := status } (s.answer status packet) :=
  ⟨h.bytesReceived, h.fileLength, rfl, h.writeFunc, by
    simpa [Receiver.answer, calls_record] using h.written⟩

theorem LogsAt.test (h : LogsAt t s) : LogsTo (gfcTest t) (receiveTest s) := by
  have hb := h.bytesReceived
  have hl := h.len
  unfold gfcTest receiveTest
  split_ifs with h₁ h₂
  · exact ⟨s, rfl, h.toLogs⟩
  · omega
  · omega
  · exact ⟨s, rfl, h⟩

theorem LogsAt.content (h : LogsAt t s) (packet : Bytes) :
    LogsTo (gfcContent t packet) (receiveContent s packet) := by
  have hb := h.bytesReceived
  simp only [gfcContent, receiveContent, hb, h.len, h.writeFunc]
  split_ifs with h₁ h₂
  · exact ⟨_, rfl, h.answer .ok packet⟩
  · trivial
  · refine LogsAt.test ⟨⟨?_, h.fileLength, h.status, h.writeFunc, ?_⟩, h.headerRcvd, h.len⟩
    · simp [Receiver.content, Receiver.record, hb]
    · simp [Receiver.content, calls_record, h.written, GfcRequest.write]

theorem LogsAt.first (h : LogsAt t s) (hcap : packet.length ≤ bufsize) :
    LogsTo (gfcFirst t.gfr packet) (receiveFirst s packet) := by
  have hlt : packet.length < 2 ^ 64 := hcap.trans_lt (by decide)
  unfold gfcFirst receiveFirst
  split_ifs with hp
  · exact ⟨_, rfl, h.answer .error packet⟩
  rcases hdec : decodeHeader packet with _ | status | len
  · trivial
  · exact ⟨_, rfl, h.answer status packet⟩
  · dsimp only
    split_ifs with hw hshort
    · refine LogsAt.test ⟨⟨?_, rfl, rfl, h.writeFunc, ?_⟩, rfl, rfl⟩
      · simp [Receiver.header, Receiver.record, h.bytesReceived]
      · simpa [Receiver.header, calls_record, h.writeFunc, hw] using h.written
    · trivial
    · refine LogsAt.test ⟨⟨?_, rfl, rfl, h.writeFunc, ?_⟩, rfl, rfl⟩
      · simp [Receiver.header, Receiver.record, GfcRequest.write, h.bytesReceived]
      · simp [Receiver.header, calls_record, h.writeFunc, hw, GfcRequest.write, h.written,
          sizeSub_of_le (not_lt.mp hshort) hlt]

theorem LogsAt.run : ∀ {rs : List (Option Bytes)} {t : RecvState} {s : Receiver}, LogsAt t s →
    (∀ p, some p ∈ rs → p.length ≤ bufsize) →
      LogsTo (Loop.run (fun _ => none) gfcBody t rs) (Loop.run (fun _ => none) receiveBody s rs)
  | [], t, s, h, _ => ⟨s, rfl, h⟩
  | none :: rs, t, s, h, _ => by
    rw [Loop.run_cons_stop (r := Result.undefined) rfl rfl]
    trivial
  | some p :: rs, t, s, h, hcap => by
    have hbody : LogsTo (gfcBody t (some p)) (receiveBody s (some p)) := by
      simp only [gfcBody, receiveBody, h.headerRcvd]
      split_ifs
      · exact h.content p
      · exact h.first (hcap p List.mem_cons_self)
    rcases hg : gfcBody t (some p) with t' | ⟨_ | ⟨gfr, code⟩⟩ <;> rw [hg] at hbody
    · obtain ⟨s', hs', hlogs⟩ := hbody
      rw [Loop.run_cons_more rfl hg, Loop.run_cons_more rfl hs']
      exact hlogs.run fun q hq => hcap q (List.mem_cons_of_mem _ hq)
    · rw [Loop.run_cons_stop rfl hg]
      trivial
    · obtain ⟨s', hs', hlogs⟩ := hbody
      rw [Loop.run_cons_stop rfl hg, Loop.run_cons_stop rfl hs']
      exact ⟨s', rfl, hlogs⟩

/-- Where `gfc_perform` returns, the loop with its calls returns the same request, and has handed
on buffers of the same lengths. -/
theorem receive_logs {rs : List (Option Bytes)} (hcap : ∀ p, some p ∈ rs → p.length ≤ bufsize)
    {code : ℤ} (h : gfcPerform freshRequest rs = .stop (.returned gfr code)) :
    ∃ s, receive rs = .stop (.returned s) ∧ Logs gfr s := by
  have hstart : LogsAt ⟨freshRequest, false, 0⟩ (.start freshRequest) :=
    ⟨⟨rfl, rfl, rfl, rfl, rfl⟩, rfl, rfl⟩
  have hrun := hstart.run hcap
  rw [← gfcPerform, h] at hrun
  exact hrun

/-! ### The steps -/

/-- The loop from the end of an iteration. -/
def resume (s : Receiver) (rs : List (Option Bytes)) : Loop.Outcome Receiver Received :=
  if s.len = s.bytesReceived then .stop (.returned s)
  else Loop.run (fun _ => none) receiveBody s rs

theorem run_of_test {s' : Receiver} {r : Option Bytes} (h : receiveBody s r = receiveTest s')
    (rs : List (Option Bytes)) :
    Loop.run (fun _ => none) receiveBody s (r :: rs) = resume s' rs := by
  unfold receiveTest at h
  unfold resume
  split_ifs at h ⊢
  · exact Loop.run_cons_stop rfl h rs
  · exact Loop.run_cons_more rfl h rs

theorem receive_closed (rs : List (Option Bytes)) :
    receive (some [] :: rs) = .stop (.returned ((Receiver.start freshRequest).answer .error [])) :=
  Loop.run_cons_stop rfl rfl rs

theorem receive_undefined (hf : packet ≠ []) (hdec : decodeHeader packet = .undefined)
    (rs : List (Option Bytes)) : receive (some packet :: rs)
      = .stop (.undefined ((Receiver.start freshRequest).record packet none).log) :=
  Loop.run_cons_stop rfl (by simp [receiveBody, Receiver.start, receiveFirst, hf, hdec]) rs

theorem receive_reply {status : GfStatus} (hf : packet ≠ [])
    (hdec : decodeHeader packet = .reply status) (rs : List (Option Bytes)) :
    receive (some packet :: rs)
      = .stop (.returned ((Receiver.start freshRequest).answer status packet)) :=
  Loop.run_cons_stop rfl (by simp [receiveBody, Receiver.start, receiveFirst, hf, hdec]) rs

theorem receive_header (hf : packet ≠ []) (hdec : decodeHeader packet = .ok len)
    (rs : List (Option Bytes)) :
    receive (some packet :: rs) = resume ((Receiver.start freshRequest).header len packet) rs :=
  run_of_test (by simp [receiveBody, Receiver.start, receiveFirst, hf, hdec]) rs

section Content

variable (hs : s.headerRcvd = true)

include hs

theorem run_eof (hlt : s.bytesReceived < s.len) (rs : List (Option Bytes)) :
    Loop.run (fun _ => none) receiveBody s (some [] :: rs)
      = .stop (.returned (s.answer .ok [])) :=
  Loop.run_cons_stop rfl (by simp [receiveBody, hs, receiveContent, hlt]) rs

theorem run_content_packet (hw : s.writeFunc = true)
    (hp : ¬ (packet = [] ∧ s.bytesReceived < s.len)) (rs : List (Option Bytes)) :
    Loop.run (fun _ => none) receiveBody s (some packet :: rs) = resume (s.content packet) rs :=
  run_of_test (by simp [receiveBody, hs, receiveContent, hp, hw]) rs

end Content

/-! ### The status and the callback -/

/-- The header was an OK one, and every iteration has kept the status. -/
structure StaysOk (s : Receiver) : Prop where
  headerRcvd : s.headerRcvd = true
  status : s.status = .ok
  log : ∀ i ∈ s.log, i.status = .ok

theorem StaysOk.record (h : StaysOk s) (packet : Bytes) (call : Option (ℕ × ℕ)) :
    StaysOk (s.record packet call) := by
  refine ⟨h.headerRcvd, h.status, fun i hi => ?_⟩
  rcases List.mem_append.mp hi with hi | hi
  · exact h.log i hi
  · rw [List.mem_singleton.mp hi]
    exact h.status

theorem StaysOk.content (h : StaysOk s) (packet : Bytes) : StaysOk (s.content packet) :=
  StaysOk.record (s := { s with bytesReceived := sizeAdd s.bytesReceived packet.length })
    ⟨h.headerRcvd, h.status, h.log⟩ _ _

theorem StaysOk.answer (h : StaysOk s) (packet : Bytes) : StaysOk (s.answer .ok packet) :=
  StaysOk.record (s := { s with status := .ok }) ⟨h.headerRcvd, rfl, h.log⟩ _ _

theorem staysOk_header (f : Bytes) (n : ℕ) : StaysOk ((Receiver.start freshRequest).header n f) :=
  StaysOk.record ⟨rfl, rfl, List.forall_mem_nil _⟩ _ _

theorem StaysOk.run : ∀ {rs : List (Option Bytes)} {s s' : Receiver}, StaysOk s →
    s.writeFunc = true → resume s rs = .stop (.returned s') → StaysOk s'
  | rs, s, s', h, hw, hrun => by
    unfold resume at hrun
    split_ifs at hrun with hlen
    · obtain rfl := Received.returned.inj (Loop.Outcome.stop.inj hrun)
      exact h
    match rs with
    | [] =>
      rw [Loop.run_nil rfl] at hrun
      cases hrun
    | none :: rs =>
      rw [Loop.run_cons_stop rfl rfl] at hrun
      cases hrun
    | some p :: rs =>
      by_cases hp : p = [] ∧ s.bytesReceived < s.len
      · obtain ⟨rfl, hlt⟩ := hp
        rw [run_eof h.headerRcvd hlt] at hrun
        obtain rfl := Received.returned.inj (Loop.Outcome.stop.inj hrun)
        exact h.answer []
      · rw [run_content_packet h.headerRcvd hw hp] at hrun
        exact (h.content p).run hw hrun

/-- Without an OK header nothing is handed to the callback and nothing is counted, and once
something is, the first packet was an OK header and the status stays. -/
theorem receive_ok_of_call {packets : List Bytes}
    (h : receive (packets.map some) = .stop (.returned s)) :
    (s.status ≠ .ok → calls s.log = [] ∧ s.bytesReceived = 0 ∧ s.fileLength = 0)
      ∧ (calls s.log ≠ [] → (∃ f rest n, packets = f :: rest ∧ decodeHeader f = .ok n)
        ∧ s.status = .ok ∧ ∀ i ∈ s.log, i.status = .ok) := by
  rcases packets with _ | ⟨f, rest⟩
  · rw [receive, List.map_nil, Loop.run_nil rfl] at h
    cases h
  rw [List.map_cons] at h
  have hanswer : ∀ status, calls ((Receiver.start freshRequest).answer status f).log = [] :=
    fun status => calls_record _ _ _
  rcases eq_or_ne f [] with rfl | hf
  · rw [receive_closed] at h
    obtain rfl := Received.returned.inj (Loop.Outcome.stop.inj h)
    exact ⟨fun _ => ⟨hanswer _, rfl, rfl⟩, fun hcall => absurd (hanswer _) hcall⟩
  rcases hdec : decodeHeader f with _ | status | n
  · rw [receive_undefined hf hdec] at h
    cases h
  · rw [receive_reply hf hdec] at h
    obtain rfl := Received.returned.inj (Loop.Outcome.stop.inj h)
    exact ⟨fun _ => ⟨hanswer _, rfl, rfl⟩, fun hcall => absurd (hanswer _) hcall⟩
  · rw [receive_header hf hdec] at h
    have hstays := (staysOk_header f n).run rfl h
    exact ⟨fun hne => absurd hstays.status hne, fun _ => ⟨⟨f, rest, n, rfl, hdec⟩,
      hstays.status, hstays.log⟩⟩

theorem receive_ok_of_call_hi :
    let s := (Receiver.start freshRequest).header 2 (ascii "GETFILE OK 2\r\n\r\nhi")
    (s.status ≠ .ok → calls s.log = [] ∧ s.bytesReceived = 0 ∧ s.fileLength = 0)
      ∧ (calls s.log ≠ [] → (∃ f rest n, [ascii "GETFILE OK 2\r\n\r\nhi"] = f :: rest
          ∧ decodeHeader f = .ok n) ∧ s.status = .ok ∧ ∀ i ∈ s.log, i.status = .ok) :=
  @receive_ok_of_call _ [ascii "GETFILE OK 2\r\n\r\nhi"] (by decide)

end FileServices
