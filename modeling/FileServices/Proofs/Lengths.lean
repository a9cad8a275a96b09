import FileServices.Proofs.Receiver
import FileServices.Proofs.Segmentation

/-!
# The lengths in the receive loop

A failed `recv` goes to `memcpy` as a huge length, and a printed header longer than the packet
makes the offset too large and the length wrap.  Nothing else goes wrong before the content
reaches `2 ^ 64` bytes (`lengths_right_iff`).
-/

namespace FileServices

open CString

/-! ### The log -/

/-- The bytes handed to `write_func`. -/
def handedOn (log : List Iteration) : ℕ := ((calls log).map Prod.snd).sum

/-- An iteration whose lengths and offset stay inside what it received. -/
structure Iteration.Fits (i : Iteration) : Prop where
  memcpy : (i.memcpyLen : ℤ) ≤ i.packetBytesRcvd
  offset : ∀ w ∈ i.writeFunc, (w.1 : ℤ) ≤ i.packetBytesRcvd
  length : ∀ w ∈ i.writeFunc, (w.2 : ℤ) ≤ i.packetBytesRcvd

/-- The lengths of all iterations fit, and after each `bytes_received` is what was handed on. -/
structure Right (log : List Iteration) : Prop where
  fits : ∀ i ∈ log, i.Fits
  counts : ∀ as i bs, log = as ++ i :: bs → i.bytesReceived = handedOn (as ++ [i])

/-- A run that C defines and whose lengths are right. -/
def LengthsRight (o : Loop.Outcome Receiver Received) : Prop :=
  (∀ log, o ≠ .stop (.undefined log)) ∧ Right (iterations o)

variable {log log' : List Iteration} {i : Iteration} {s : Receiver} {packet : Bytes}

theorem right_nil : Right [] := ⟨List.forall_mem_nil _, fun as i bs h => by simp at h⟩

theorem right_append_iff :
    Right (log ++ [i]) ↔ Right log ∧ i.Fits ∧ i.bytesReceived = handedOn (log ++ [i]) := by
  constructor
  · intro h
    exact ⟨⟨fun j hj => h.fits j (by simp [hj]), fun as j bs hab => h.counts as j (bs ++ [i]) (by
      simp [hab])⟩, h.fits i (by simp), h.counts log i [] rfl⟩
  · rintro ⟨h, hfits, hcount⟩
    refine ⟨fun j hj => ?_, fun as j bs hab => ?_⟩
    · rcases List.mem_append.mp hj with hj | hj
      · exact h.fits j hj
      · exact List.mem_singleton.mp hj ▸ hfits
    · rcases List.eq_nil_or_concat bs with rfl | ⟨bs, b, rfl⟩
      · obtain ⟨rfl, hij⟩ := List.append_inj' hab rfl
        obtain rfl : i = j := by simpa using hij
        exact hcount
      · have hab' : log ++ [i] = (as ++ j :: bs) ++ [b] := by rw [hab]; simp
        obtain ⟨rfl, -⟩ := List.append_inj' hab' rfl
        exact h.counts as j bs rfl

theorem Right.left (h : Right (log ++ log')) : Right log :=
  ⟨fun i hi => h.fits i (by simp [hi]), fun as i bs hab => h.counts as i (bs ++ log') (by
    simp [hab])⟩

theorem handedOn_append :
    handedOn (log ++ [i]) = handedOn log + (i.writeFunc.map Prod.snd).getD 0 := by
  rcases h : i.writeFunc with _ | w <;> simp [handedOn, calls_append, h]

/-- A run keeps the iterations it has made. -/
theorem log_prefix_body (s : Receiver) (r : Option Bytes) :
    s.log <+: iterations (receiveBody s r) := by
  have htest : ∀ s' : Receiver, s.log <+: s'.log → s.log <+: iterations (receiveTest s') := by
    intro s' h
    unfold receiveTest
    split_ifs <;> exact h
  rcases r with _ | p
  · exact List.prefix_append _ _
  · simp only [receiveBody, receiveContent, receiveFirst]
    split_ifs
    · exact List.prefix_append _ _
    · exact List.prefix_append _ _
    · exact htest _ (List.prefix_append _ _)
    · exact List.prefix_append _ _
    · rcases decodeHeader p with _ | status | n
      · exact List.prefix_append _ _
      · exact List.prefix_append _ _
      · exact htest _ (List.prefix_append _ _)

theorem log_prefix_run : ∀ (rs : List (Option Bytes)) (s : Receiver),
    s.log <+: iterations (Loop.run (fun _ => none) receiveBody s rs)
  | [], _ => List.prefix_rfl
  | r :: rs, s => by
    have hbody := log_prefix_body s r
    rcases hb : receiveBody s r with s' | o <;> rw [hb] at hbody
    · rw [Loop.run_cons_more rfl hb]
      exact hbody.trans (log_prefix_run rs s')
    · rwa [Loop.run_cons_stop rfl hb]

theorem LengthsRight.right {rs : List (Option Bytes)} (h : LengthsRight (resume s rs)) :
    Right s.log := by
  have hpre : s.log <+: iterations (resume s rs) := by
    unfold resume
    split_ifs
    · exact List.prefix_rfl
    · exact log_prefix_run rs s
  obtain ⟨rest, hrest⟩ := hpre
  exact Right.left (hrest ▸ h.2)

theorem lengthsRight_more : LengthsRight (.more s) ↔ Right s.log :=
  ⟨And.right, fun h => ⟨nofun, h⟩⟩

theorem lengthsRight_returned : LengthsRight (.stop (.returned s)) ↔ Right s.log :=
  ⟨And.right, fun h => ⟨nofun, h⟩⟩

theorem not_lengthsRight_undefined : ¬ LengthsRight (.stop (.undefined log)) :=
  fun h => h.1 log rfl

/-! ### The input -/

/-- The results that hand over the content of `n` bytes, `count` of which are in: as long as the
loop goes on none of them fails, and the content stays below `2 ^ 64` bytes.  The loop is left
where all is in, and at the end of the stream where some is missing. -/
def ContentSound (n : ℕ) : ℕ → List (Option Bytes) → Prop
  | _, [] => True
  | count, r :: rs => count = n ∨ ∃ p, r = some p ∧ ((p = [] ∧ count < n)
      ∨ (count + p.length < 2 ^ 64 ∧ ContentSound n (count + p.length) rs))

/-- The first result does not fail.  It is the end of the stream, or says what no content follows,
or is an OK header that is not shorter than the client prints it, and its content is sound. -/
def Sound : List (Option Bytes) → Prop
  | [] => True
  | r :: rs => ∃ f, r = some f ∧ (f = [] ∨ (∃ status, Says f (.reply status))
      ∨ ∃ n, Says f (.ok n) ∧ headerLength n ≤ f.length
        ∧ ContentSound n (f.length - headerLength n) rs)

/-! ### The runs -/

/-- The log and the count of a loop in which nothing has gone wrong. -/
structure Counts (s : Receiver) : Prop where
  right : Right s.log
  count : s.bytesReceived = handedOn s.log

theorem Counts.answer (h : Counts s) (status : GfStatus) (packet : Bytes) :
    Right (s.answer status packet).log :=
  right_append_iff.mpr ⟨h.right, ⟨le_rfl, nofun, nofun⟩, by
    rw [handedOn_append]
    exact h.count⟩

theorem Counts.content (h : Counts s) :
    (Right (s.content packet).log → s.bytesReceived + packet.length < 2 ^ 64)
      ∧ (s.bytesReceived + packet.length < 2 ^ 64 → Counts (s.content packet)
        ∧ (s.content packet).bytesReceived = s.bytesReceived + packet.length) := by
  have hbytes : (s.content packet).bytesReceived
      = (s.bytesReceived + packet.length) % 2 ^ 64 := rfl
  have hlog : handedOn (s.content packet).log = s.bytesReceived + packet.length := by
    rw [h.count]
    exact handedOn_append
  constructor
  · intro hr
    obtain ⟨-, -, hc⟩ := right_append_iff.mp hr
    have hsame : (s.bytesReceived + packet.length) % 2 ^ 64 = s.bytesReceived + packet.length :=
      hc.trans hlog
    rw [← hsame]
    exact Nat.mod_lt _ (by decide)
  · intro hlt
    rw [Nat.mod_eq_of_lt hlt] at hbytes
    refine ⟨⟨right_append_iff.mpr ⟨h.right, ⟨le_rfl, ?_, ?_⟩, hbytes.trans hlog.symm⟩,
      hbytes.trans hlog.symm⟩, hbytes⟩
    · rintro w ⟨⟩
      exact Int.natCast_nonneg _
    · rintro w ⟨⟩
      exact le_rfl

theorem content_right : ∀ (rs : List (Option Bytes)) (s : Receiver), s.headerRcvd = true →
    s.writeFunc = true → Counts s →
      (LengthsRight (resume s rs) ↔ ContentSound s.len s.bytesReceived rs)
  | rs, s, hh, hw, h => by
    by_cases hlen : s.len = s.bytesReceived
    · rw [resume, if_pos hlen, lengthsRight_returned]
      refine iff_of_true h.right ?_
      rcases rs with _ | ⟨r, rs⟩
      · trivial
      · exact .inl hlen.symm
    rw [resume, if_neg hlen]
    match rs with
    | [] =>
      rw [Loop.run_nil rfl, lengthsRight_more]
      exact iff_of_true h.right trivial
    | none :: rs =>
      rw [Loop.run_cons_stop rfl rfl]
      refine iff_of_false not_lengthsRight_undefined ?_
      rintro (hn | ⟨p, hp, -⟩)
      · exact hlen hn.symm
      · cases hp
    | some p :: rs =>
      by_cases hp : p = [] ∧ s.bytesReceived < s.len
      · obtain ⟨rfl, hlt⟩ := hp
        rw [run_eof hh hlt, lengthsRight_returned]
        exact iff_of_true (h.answer _ _) (.inr ⟨[], rfl, .inl ⟨rfl, hlt⟩⟩)
      rw [run_content_packet hh hw hp]
      have hc := @Counts.content _ p h
      constructor
      · intro hr
        have hlt := hc.1 hr.right
        obtain ⟨hcounts, hbytes⟩ := hc.2 hlt
        have hrest := (content_right rs (s.content p) hh hw hcounts).mp hr
        rw [hbytes] at hrest
        exact .inr ⟨p, rfl, .inr ⟨hlt, hrest⟩⟩
      · rintro (hn | ⟨q, hq, hsound⟩)
        · exact absurd hn.symm hlen
        · obtain rfl := Option.some.inj hq
          obtain ⟨hlt, hrest⟩ := hsound.resolve_left hp
          obtain ⟨hcounts, hbytes⟩ := hc.2 hlt
          rw [← hbytes] at hrest
          exact (content_right rs (s.content p) hh hw hcounts).mpr hrest

theorem header_right {n : ℕ} (hcap : packet.length ≤ bufsize) :
    (Right ((Receiver.start freshRequest).header n packet).log →
        headerLength n ≤ packet.length)
      ∧ (headerLength n ≤ packet.length → Counts ((Receiver.start freshRequest).header n packet)
        ∧ ((Receiver.start freshRequest).header n packet).bytesReceived
          = packet.length - headerLength n) := by
  have hlt : packet.length < 2 ^ 64 := hcap.trans_lt (by decide)
  constructor
  · intro h
    obtain ⟨-, hfits, -⟩ := right_append_iff.mp h
    have hoffset := hfits.offset (headerLength n, sizeSub packet.length (headerLength n)) rfl
    exact Int.ofNat_le.mp hoffset
  · intro hfit
    have hsub := sizeSub_of_le hfit hlt
    have hbytes : ((Receiver.start freshRequest).header n packet).bytesReceived
        = packet.length - headerLength n := by
      change (0 + sizeSub packet.length (headerLength n)) % 2 ^ 64 = _
      rw [hsub, Nat.zero_add, Nat.mod_eq_of_lt (by omega)]
    have hcount : ((Receiver.start freshRequest).header n packet).bytesReceived
        = handedOn ((Receiver.start freshRequest).header n packet).log := by
      rw [hbytes, ← hsub]
      exact (handedOn_append.trans (Nat.zero_add _)).symm
    refine ⟨⟨right_append_iff.mpr ⟨right_nil, ⟨le_rfl, ?_, ?_⟩, hcount⟩, hcount⟩, hbytes⟩
    · rintro w ⟨⟩
      exact Int.ofNat_le.mpr hfit
    · rintro w ⟨⟩
      change ((sizeSub packet.length (headerLength n) : ℕ) : ℤ) ≤ (packet.length : ℤ)
      omega

/-- The lengths in the receive loop are right just when what it receives is sound. -/
theorem lengths_right_iff {rs : List (Option Bytes)}
    (hcap : ∀ p, some p ∈ rs → p.length ≤ bufsize) : LengthsRight (receive rs) ↔ Sound rs := by
  match rs with
  | [] =>
    rw [receive, Loop.run_nil rfl, lengthsRight_more]
    exact iff_of_true right_nil trivial
  | none :: rs =>
    rw [receive, Loop.run_cons_stop rfl rfl]
    refine iff_of_false not_lengthsRight_undefined ?_
    rintro ⟨f, hf, -⟩
    cases hf
  | some f :: rs =>
    have hstart : Counts (.start freshRequest) := ⟨right_nil, rfl⟩
    have hsound : Sound (some f :: rs) ↔ f = [] ∨ (∃ status, Says f (.reply status))
        ∨ ∃ n, Says f (.ok n) ∧ headerLength n ≤ f.length
          ∧ ContentSound n (f.length - headerLength n) rs := by simp [Sound]
    rw [hsound]
    rcases eq_or_ne f [] with rfl | hf
    · rw [receive_closed, lengthsRight_returned]
      exact iff_of_true (hstart.answer _ _) (.inl rfl)
    simp only [hf, false_or, says_answer_iff]
    rcases hdec : decodeHeader f with _ | status | n
    · rw [receive_undefined hf hdec]
      exact iff_of_false not_lengthsRight_undefined id
    · rw [receive_reply hf hdec, lengthsRight_returned]
      exact iff_of_true (hstart.answer _ _) trivial
    · rw [receive_header hf hdec]
      obtain ⟨hfits, hcounts⟩ := header_right (n := n) (hcap f List.mem_cons_self)
      constructor
      · intro h
        have hfit := hfits h.right
        obtain ⟨hc, hbytes⟩ := hcounts hfit
        have hrest := (content_right rs _ rfl rfl hc).mp h
        rw [hbytes] at hrest
        exact ⟨hfit, hrest⟩
      · rintro ⟨hfit, hrest⟩
        obtain ⟨hc, hbytes⟩ := hcounts hfit
        rw [← hbytes] at hrest
        exact (content_right rs _ rfl rfl hc).mpr hrest

theorem lengths_right_iff_hi :
    LengthsRight (receive [some (okHeader 2 ++ ascii "h"), some (ascii "i")])
      ↔ Sound [some (okHeader 2 ++ ascii "h"), some (ascii "i")] :=
  lengths_right_iff (by simp [okHeader, ascii, decimal, bufsize])

/-- An OK header without its first space, a byte shorter than the client prints it: the offset is
past the packet and the length wraps.  And a `recv` that fails. -/
theorem lengths_wrong :
    iterations (receive [some (ascii "GETFILEOK 2\r\n\r\n")])
        = [⟨15, 15, some (16, 2 ^ 64 - 1), 2 ^ 64 - 1, .ok⟩]
      ∧ ¬ LengthsRight (receive [some (ascii "GETFILEOK 2\r\n\r\n")])
      ∧ iterations (receive [none]) = [⟨-1, 2 ^ 64 - 1, none, 0, .invalid⟩]
      ∧ ¬ LengthsRight (receive [none]) := by
  have hlog : iterations (receive [some (ascii "GETFILEOK 2\r\n\r\n")])
      = [⟨15, 15, some (16, 2 ^ 64 - 1), 2 ^ 64 - 1, .ok⟩] := by decide
  refine ⟨hlog, fun h => ?_, by decide, not_lengthsRight_undefined⟩
  have hfits := h.2.fits _ (hlog ▸ List.mem_singleton_self _)
  exact absurd (hfits.offset (16, 2 ^ 64 - 1) rfl) (by decide)

end FileServices
