import FileServices.Proofs.GfsSend
import FileServices.Proofs.Gfclient

/-!
# A response of the server, read by the client

`gfs_sendheader` puts a space before the delimiter, so the header it sends is one byte longer
than the one the client prints again.  The client then takes the last line feed of an OK header
for the first byte of the file, and its count runs one ahead.
-/

namespace FileServices

open CString Cut

/-! ### Headers -/

theorem headerText_ok (n : ℕ) :
    headerText .ok n = some (ascii "GETFILE OK " ++ decimal n ++ [32] ++ crlf2) := by
  simp only [headerText, show ascii " \r\n\r\n" = [32] ++ crlf2 by decide, List.append_assoc]

theorem gfsSendheader_wire {status : GfStatus} {n : ℕ} {text : Bytes} {k : ℤ}
    (htext : headerText status n = some text) (hk : text.length ≤ k) :
    (gfsSendheader status n k).1 = text := by
  have : (sendResult k text).toNat = text.length := by
    simp only [sendResult]
    omega
  simp only [gfsSendheader, htext, this, List.take_length]

/-! ### The client on the server's response -/

/-- What the client should come to on a response with this status and content. -/
def Agrees (status : GfStatus) (c : Bytes) (pieces : List Bytes) : Prop :=
  ∃ gfr code, Ends pieces (.returned gfr code) ∧ gfr.status = status
    ∧ (status = .ok → gfr.fileLength = c.length ∧ gfr.bytesReceived = c.length
      ∧ gfr.written.flatten = c ∧ code = 0)

/-- A list that starts with itself shifted by `x` repeats `x`. -/
theorem eq_of_prefix_cons {x : UInt8} : ∀ {c : Bytes}, c <+: x :: c → ∀ b ∈ c, b = x
  | [], _, _, hb => by simp at hb
  | a :: c, h, b, hb => by
    obtain ⟨rfl, htail⟩ := List.cons_prefix_cons.mp h
    rcases List.mem_cons.mp hb with rfl | hmem
    · rfl
    · exact eq_of_prefix_cons htail b hmem

theorem eq_singleton_of_length {bs : List Bytes} (hne : ∀ b ∈ bs, b ≠ [])
    (h : bs.flatten.length = 1) : ∃ x, bs = [[x]] := by
  rcases bs with _ | ⟨b, bs⟩
  · simp at h
  have hb : 0 < b.length := List.length_pos_of_ne_nil (hne b (by simp))
  simp only [List.flatten_cons, List.length_append] at h
  rcases bs with _ | ⟨b', bs⟩
  · obtain ⟨x, rfl⟩ := List.length_eq_one_iff.mp (show b.length = 1 by omega)
    exact ⟨x, rfl⟩
  · have hb' : 0 < b'.length := List.length_pos_of_ne_nil (hne b' (by simp))
    simp only [List.flatten_cons, List.length_append] at h
    omega

def okText (n : ℕ) : Bytes := ascii "GETFILE OK " ++ decimal n ++ [32] ++ crlf2

theorem length_okText (n : ℕ) : (okText n).length = (printedHeader n).length + 1 := by
  simp only [okText, printedHeader, List.length_append, List.length_singleton]
  omega

/-- The bytes the client takes for content: the header's last line feed, then the content. -/
theorem contents_okText (n : ℕ) (r : Bytes) (ps : List Bytes) :
    contents n (okText n ++ r) ps = (10 :: r) :: ps := by
  have hsplit : okText n ++ r
      = (ascii "GETFILE OK " ++ decimal n ++ [32, 13, 10, 13]) ++ 10 :: r := by
    simp [okText, show crlf2 = [13, 10, 13, 10] by decide]
  have hlen : (ascii "GETFILE OK " ++ decimal n ++ [32, 13, 10, 13]).length
      = (printedHeader n).length := by
    rw [length_printedHeader]
    simp only [List.length_append, show (ascii "GETFILE OK ").length = 11 by decide,
      List.length_cons, List.length_nil]
    omega
  rw [contents, hsplit, List.drop_left' hlen]

/-- On an OK response the client comes to what was sent just when every byte of the content is a
line feed and the last one arrives alone. -/
theorem agrees_ok_iff {c r : Bytes} {ps : List Bytes} (hn : c.length < 2 ^ 64)
    (hcut : IsCut bufsize (okText c.length ++ c) ((okText c.length ++ r) :: ps)) :
    Agrees .ok c ((okText c.length ++ r) :: ps)
      ↔ (∀ b ∈ c, b = 10) ∧ ∃ qs b, ps = qs ++ [[b]] := by
  obtain ⟨hflat, -, hcap, hps⟩ := hcut.cons
  rw [List.append_assoc, List.append_cancel_left_eq] at hflat
  have hdec : decodeHeader (okText c.length ++ r) = .ok c.length :=
    (says_ok hn [32] r (by simp)).decodeHeader
  have hfit : (printedHeader c.length).length ≤ (okText c.length ++ r).length := by
    rw [List.length_append, length_okText]
    omega
  have hcont := contents_okText c.length r ps
  have htotal : ((10 :: r) :: ps).flatten = 10 :: c := by simp [← hflat]
  constructor
  · rintro ⟨gfr, code, hends, -, hok⟩
    obtain ⟨-, hcount, hwritten, -⟩ := hok rfl
    rcases (ends_iff hdec hfit hcap hps.ne_nil).mp hends with
      ⟨as, p, bs, hsplit, -, -, hr⟩ | ⟨-, hlt, hr⟩
    · obtain ⟨rfl, -⟩ := Result.returned.inj hr
      have hgot : (as ++ [p]).flatten = c := hwritten
      rw [hcont] at hsplit
      have hrest : 10 :: c = c ++ bs.flatten := by
        rw [← htotal, hsplit, ← hgot]
        simp
      have hone : bs.flatten.length = 1 := by
        have := congrArg List.length hrest
        simp only [List.length_cons, List.length_append] at this
        omega
      have hsub : ∃ qs, ps = qs ++ bs := by
        rcases as with _ | ⟨a, as⟩
        · exact ⟨[], (List.cons.inj hsplit).2⟩
        · exact ⟨as ++ [p], by rw [(List.cons.inj hsplit).2]; simp⟩
      obtain ⟨qs, rfl⟩ := hsub
      obtain ⟨x, rfl⟩ := eq_singleton_of_length (fun b hb => hps.ne_nil b (by simp [hb])) hone
      exact ⟨eq_of_prefix_cons ⟨_, hrest.symm⟩, qs, x, rfl⟩
    · obtain ⟨rfl, -⟩ := Result.returned.inj hr
      exact absurd hcount hlt.ne
  · rintro ⟨hall, qs, b, rfl⟩
    have hlen : ((10 :: r) :: qs).flatten.length = c.length := by
      have := congrArg List.length htotal
      simp only [← List.cons_append, List.flatten_append, List.length_append, List.length_cons,
        List.flatten_cons, List.flatten_nil, List.length_nil] at this ⊢
      omega
    have hsame : ((10 :: r) :: qs).flatten = c := by
      rw [List.eq_replicate_iff.mpr ⟨hlen, fun x hx => ?_⟩, ← List.eq_replicate_iff.mpr ⟨rfl, hall⟩]
      have hmem : x ∈ 10 :: c := by
        rw [← htotal, ← List.cons_append, List.flatten_append]
        exact List.mem_append_left _ hx
      rcases List.mem_cons.mp hmem with rfl | hmem
      · rfl
      · exact hall x hmem
    obtain ⟨as, p, hconcat⟩ := (List.eq_nil_or_concat ((10 :: r) :: qs)).resolve_left (by simp)
    rw [List.concat_eq_append] at hconcat
    have hsplit : contents c.length (okText c.length ++ r) (qs ++ [[b]]) = as ++ p :: [[b]] := by
      rw [hcont, ← List.cons_append, hconcat]
      simp
    have hcount : ((announced c.length).received ((10 :: r) :: qs)).bytesReceived = c.length := by
      rw [received_announced_lt _ (by omega), hlen]
    have hends := (ends_iff hdec hfit hcap hps.ne_nil).mpr (.inl ⟨as, p, [[b]], hsplit,
      passes_dropLast hn (fun q hq => hps.ne_nil q (by simp [hq])) hconcat hlen,
      by rw [← hconcat, hcount], rfl⟩)
    rw [← hconcat] at hends
    refine ⟨_, _, hends, rfl, fun _ => ⟨rfl, hcount, hsame, ?_⟩⟩
    rw [hcount]
    simp [GfcRequest.received, announced, getReturnCode]

theorem agrees_reply {status : GfStatus} (hst : status = .fileNotFound ∨ status = .error)
    {text : Bytes} (htext : headerText status 0 = some text) (c : Bytes) :
    Agrees status c [text] := by
  have hdec : decodeHeader text = .reply status ∧ text ≠ [] := by
    rcases hst with rfl | rfl <;> obtain rfl := Option.some.inj htext <;> decide
  refine ⟨_, _, ⟨0, gfcPerform_reply hdec.2 hdec.1 []⟩, rfl, ?_⟩
  rcases hst with rfl | rfl <;> simp

/-- The client comes to what the server sent just when there was no content to send, or all of it
is line feeds and the last one is received alone. -/
theorem response_agrees_iff {status : GfStatus}
    (hst : status = .ok ∨ status = .fileNotFound ∨ status = .error) {c : Bytes}
    (hn : c.length < 2 ^ 64) {text : Bytes} (htext : headerText status c.length = some text)
    {k : ℤ} (hk : text.length ≤ k) {ks : List ℤ} (hks : ∀ k ∈ ks, 0 < k) {st : SendState}
    (hsend : gfsSend c ks = .stop st) {f : Bytes} {ps : List Bytes} (hhead : text <+: f)
    (hcut : IsCut bufsize
      ((gfsSendheader status c.length k).1 ++ if status = .ok then st.wire else []) (f :: ps)) :
    Agrees status c (f :: ps)
      ↔ status ≠ .ok ∨ (∀ b ∈ c, b = 10) ∧ ∃ qs b, ps = qs ++ [[b]] := by
  rw [gfsSendheader_wire htext hk] at hcut
  obtain ⟨r, rfl⟩ := hhead
  by_cases hok : status = .ok
  · subst hok
    rw [headerText_ok] at htext
    obtain rfl := Option.some.inj htext
    rw [if_pos rfl, gfsSend_stop hks hsend] at hcut
    rw [← okText] at hcut ⊢
    rw [agrees_ok_iff hn hcut]
    simp
  · rw [if_neg hok, List.append_nil] at hcut
    obtain ⟨hflat, -, -, hps⟩ := hcut.cons
    have hr : r ++ ps.flatten = [] := by
      simpa using hflat
    obtain ⟨rfl, hnil⟩ := List.append_eq_nil_iff.mp hr
    rw [hnil] at hps
    obtain rfl := hps.nil_of_stream
    have hst' := hst.resolve_left hok
    have htext' : headerText status 0 = some text := by
      rcases hst' with rfl | rfl <;> exact htext
    simpa [hok] using agrees_reply hst' htext' c

theorem response_agrees_iff_hi :
    Agrees .ok (ascii "hi") [okText 2, ascii "hi"]
      ↔ GfStatus.ok ≠ .ok ∨ (∀ b ∈ ascii "hi", b = 10) ∧ ∃ qs b, [ascii "hi"] = qs ++ [[b]] :=
  have hsend : gfsSend (ascii "hi") [1, 5] = .stop ⟨2, ascii "hi"⟩ := by decide
  response_agrees_iff (c := ascii "hi") (.inl rfl) (by decide) (headerText_ok 2) (k := 20)
    (by decide) (by decide) hsend (List.prefix_refl _) (by decide)

/-- An OK response in one packet: the client is handed a line feed first and never stops. -/
theorem response_disagrees :
    gfsSend (ascii "hi") [2] = .stop ⟨2, ascii "hi"⟩
      ∧ IsCut bufsize ((gfsSendheader .ok 2 20).1 ++ ascii "hi") [okText 2 ++ ascii "hi"]
      ∧ ¬ Agrees .ok (ascii "hi") [okText 2 ++ ascii "hi"] := by
  refine ⟨by decide, by decide, fun h => ?_⟩
  have hcut : IsCut bufsize (okText (ascii "hi").length ++ ascii "hi")
      [okText (ascii "hi").length ++ ascii "hi"] := by decide
  have hall := ((agrees_ok_iff (by decide) hcut).mp h).1
  exact absurd hall (by decide)

end FileServices
