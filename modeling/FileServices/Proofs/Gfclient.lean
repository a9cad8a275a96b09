import FileServices.Proofs.Header
import FileServices.Lib.Cut

/-!
# The client's receive loop

After an OK header the loop only counts: it leaves at the first packet that brings
`bytes_received` to `len`, or at the end of the stream while the count is below it.  So what the
client makes of a stream is settled by the first packet and by where the later packets end.
-/

namespace FileServices

open CString Cut

/-! ### The content -/

/-- The request after the packets `ps` of content. -/
def GfcRequest.received (gfr : GfcRequest) (ps : List Bytes) : GfcRequest :=
  { gfr with
    bytesReceived := (gfr.bytesReceived + ps.flatten.length) % 2 ^ 64
    written := gfr.written ++ ps }

theorem received_nil {gfr : GfcRequest} (h : gfr.bytesReceived < 2 ^ 64) :
    gfr.received [] = gfr := by
  rw [GfcRequest.received, List.flatten_nil, List.length_nil, Nat.add_zero, Nat.mod_eq_of_lt h,
    List.append_nil]

@[simp]
theorem received_writeFunc (gfr : GfcRequest) (ps : List Bytes) :
    (gfr.received ps).writeFunc = gfr.writeFunc := rfl

theorem received_append (gfr : GfcRequest) (ps qs : List Bytes) :
    (gfr.received ps).received qs = gfr.received (ps ++ qs) := by
  simp [GfcRequest.received, List.append_assoc, Nat.add_assoc]

theorem received_lt (gfr : GfcRequest) (ps : List Bytes) :
    (gfr.received ps).bytesReceived < 2 ^ 64 :=
  Nat.mod_lt _ (by decide)

variable {gfr : GfcRequest} {len : ℕ}

theorem gfcTest_stop (h : gfr.bytesReceived = len) :
    gfcTest ⟨gfr, true, len⟩ = .stop (gfcReturn gfr) := by
  simp [gfcTest, h]

theorem gfcTest_more (h : gfr.bytesReceived ≠ len) :
    gfcTest ⟨gfr, true, len⟩ = .more ⟨gfr, true, len⟩ := by
  simp [gfcTest, Ne.symm h]

theorem gfcBody_content (hw : gfr.writeFunc = true) {p : Bytes}
    (hp : p ≠ [] ∨ len ≤ gfr.bytesReceived) :
    gfcBody ⟨gfr, true, len⟩ (some p) = gfcTest ⟨gfr.received [p], true, len⟩ := by
  have hc : ¬ (p = [] ∧ gfr.bytesReceived < len) := by
    rintro ⟨h1, h2⟩
    rcases hp with hp | hp
    · exact hp h1
    · omega
  simp [gfcBody, gfcContent, hc, hw, GfcRequest.received, GfcRequest.write, sizeAdd]

theorem gfcBody_eof (h : gfr.bytesReceived < len) :
    gfcBody ⟨gfr, true, len⟩ (some []) = .stop (gfcReturn { gfr with status := .ok }) := by
  simp [gfcBody, gfcContent, h]

/-- The packets `ps` leave the count at `len` after none of them. -/
def Passes (gfr : GfcRequest) (len : ℕ) (ps : List Bytes) : Prop :=
  ∀ as bs, ps = as ++ bs → as ≠ [] → (gfr.received as).bytesReceived ≠ len

theorem Passes.tail {p : Bytes} {ps : List Bytes} (h : Passes gfr len (p :: ps)) :
    (gfr.received [p]).bytesReceived ≠ len ∧ Passes (gfr.received [p]) len ps := by
  refine ⟨h [p] ps rfl (by simp), fun as bs hab _ => ?_⟩
  rw [received_append]
  exact h (p :: as) bs (by simp [hab]) (by simp)

theorem Passes.left {ps qs : List Bytes} (h : Passes gfr len (ps ++ qs)) : Passes gfr len ps := by
  rintro as bs rfl
  exact h as (bs ++ qs) (by simp)

/-- Where no packet brings the count to `len`, the loop takes them all and waits. -/
theorem run_content : ∀ (ps : List Bytes) (gfr : GfcRequest), gfr.writeFunc = true →
    gfr.bytesReceived < 2 ^ 64 → (∀ p ∈ ps, p ≠ []) → Passes gfr len ps →
      Loop.run (fun _ => none) gfcBody ⟨gfr, true, len⟩ (ps.map some)
        = .more ⟨gfr.received ps, true, len⟩
  | [], gfr, _, hlt, _, _ => by
    rw [List.map_nil, Loop.run_nil rfl, received_nil hlt]
  | p :: ps, gfr, hw, hlt, hne, hpass => by
    obtain ⟨hp, htail⟩ := hpass.tail
    have hb : gfcBody ⟨gfr, true, len⟩ (some p) = .more ⟨gfr.received [p], true, len⟩ := by
      rw [gfcBody_content hw (.inl (hne p List.mem_cons_self)), gfcTest_more hp]
    rw [List.map_cons, Loop.run_cons_more rfl hb, run_content ps (gfr.received [p]) hw
      (received_lt gfr [p]) (fun q hq => hne q (List.mem_cons_of_mem _ hq)) htail,
      received_append, List.singleton_append]

/-- The first packet that brings the count to `len` ends the loop. -/
theorem run_content_stop (hw : gfr.writeFunc = true) (hlt : gfr.bytesReceived < 2 ^ 64)
    {ps : List Bytes} {p : Bytes} (hne : ∀ q ∈ ps ++ [p], q ≠ []) (hpass : Passes gfr len ps)
    (hlen : (gfr.received (ps ++ [p])).bytesReceived = len) (rest : List (Option Bytes)) :
    Loop.run (fun _ => none) gfcBody ⟨gfr, true, len⟩ ((ps ++ [p]).map some ++ rest)
      = .stop (gfcReturn (gfr.received (ps ++ [p]))) := by
  have hps := run_content ps gfr hw hlt (fun q hq => hne q (by simp [hq])) hpass
  have hb : gfcBody ⟨gfr.received ps, true, len⟩ (some p)
      = .stop (gfcReturn (gfr.received (ps ++ [p]))) := by
    rw [gfcBody_content (by rw [received_writeFunc, hw]) (.inl (hne p (by simp))),
      received_append, gfcTest_stop hlen]
  rw [List.map_append, List.append_assoc, Loop.run_more_append hps]
  exact Loop.run_cons_stop rfl hb _

/-- At the end of the stream with the count past `len`, no further `recv` ends the loop. -/
theorem run_overrun : ∀ (k : ℕ) (gfr : GfcRequest), gfr.writeFunc = true →
    gfr.bytesReceived < 2 ^ 64 → len < gfr.bytesReceived →
      Loop.run (fun _ => none) gfcBody ⟨gfr, true, len⟩ (List.replicate k (some []))
        = .more ⟨gfr.received (List.replicate k []), true, len⟩
  | 0, gfr, _, hlt, _ => by
    rw [List.replicate_zero, Loop.run_nil rfl, List.replicate_zero, received_nil hlt]
  | k + 1, gfr, hw, hlt, hover => by
    have hsame : (gfr.received [[]]).bytesReceived = gfr.bytesReceived :=
      Nat.mod_eq_of_lt hlt
    have hb : gfcBody ⟨gfr, true, len⟩ (some []) = .more ⟨gfr.received [[]], true, len⟩ := by
      rw [gfcBody_content hw (.inr hover.le), gfcTest_more (by omega)]
    rw [List.replicate_succ, Loop.run_cons_more rfl hb, run_overrun k (gfr.received [[]]) hw
      (received_lt gfr _) (by rw [hsame]; exact hover), received_append, List.singleton_append,
      List.replicate_succ]

/-! ### A whole reception -/

/-- The request once the header has announced `len` bytes. -/
def announced (len : ℕ) : GfcRequest := { freshRequest with status := .ok, fileLength := len }

/-- The content in a delivery that starts with `f`: the code skips as many bytes as the printed
header has. -/
def contents (len : ℕ) (f : Bytes) (ps : List Bytes) : List Bytes :=
  f.drop (printedHeader len).length :: ps

theorem length_printedHeader (len : ℕ) :
    (printedHeader len).length = 15 + (decimal len).length := by
  simp only [printedHeader, List.length_append,
    show (ascii "GETFILE OK ").length = 11 by decide, show crlf2.length = 4 by decide]
  omega

variable {f : Bytes} {ps : List Bytes}

theorem gfcBody_first (hdec : decodeHeader f = .ok len)
    (hfit : (printedHeader len).length ≤ f.length) (hcap : f.length ≤ bufsize) :
    gfcBody ⟨freshRequest, false, 0⟩ (some f)
      = gfcTest ⟨(announced len).received [f.drop (printedHeader len).length], true, len⟩ := by
  have hne : f ≠ [] := by
    rintro rfl
    rw [length_printedHeader] at hfit
    simp at hfit
  have hsub : sizeSub f.length (printedHeader len).length
      = f.length - (printedHeader len).length := by
    have : f.length ≤ 512 := hcap
    rw [sizeSub, show f.length + (2 ^ 64 - (printedHeader len).length)
      = f.length - (printedHeader len).length + 2 ^ 64 by omega, Nat.add_mod_right]
    exact Nat.mod_eq_of_lt (by omega)
  have hw : freshRequest.writeFunc = true := rfl
  simp only [gfcBody, gfcFirst, hne, hdec, hw, hsub, Nat.not_lt.mpr hfit, if_false,
    Bool.false_eq_true, Bool.true_eq_false]
  congr 2
  simp [GfcRequest.write, GfcRequest.received, announced, sizeAdd, freshRequest, gfcSetWritefunc,
    gfcCreate]

theorem gfcPerform_reply {status : GfStatus} (hne : f ≠ []) (hdec : decodeHeader f = .reply status)
    (rest : List (Option Bytes)) : gfcPerform freshRequest (some f :: rest)
      = .stop (gfcReturn { freshRequest with status := status }) := by
  refine Loop.run_cons_stop rfl ?_ _
  simp [gfcBody, gfcFirst, hne, hdec]

theorem gfcPerform_waits (hdec : decodeHeader f = .ok len)
    (hfit : (printedHeader len).length ≤ f.length) (hcap : f.length ≤ bufsize)
    (hne : ∀ p ∈ ps, p ≠ []) (hpass : Passes (announced len) len (contents len f ps)) :
    gfcPerform freshRequest ((f :: ps).map some)
      = .more ⟨(announced len).received (contents len f ps), true, len⟩ := by
  obtain ⟨h1, h2⟩ := hpass.tail
  have hb := gfcBody_first hdec hfit hcap
  rw [gfcTest_more h1] at hb
  rw [gfcPerform, List.map_cons, Loop.run_cons_more rfl hb,
    run_content ps _ rfl (received_lt _ _) hne h2, received_append]
  rfl

theorem gfcPerform_stops (hdec : decodeHeader f = .ok len)
    (hfit : (printedHeader len).length ≤ f.length) (hcap : f.length ≤ bufsize)
    (hne : ∀ p ∈ ps, p ≠ []) {as bs : List Bytes} {p : Bytes}
    (hsplit : contents len f ps = as ++ p :: bs) (hpass : Passes (announced len) len as)
    (hlen : ((announced len).received (as ++ [p])).bytesReceived = len)
    (rest : List (Option Bytes)) :
    gfcPerform freshRequest ((f :: ps).map some ++ rest)
      = .stop (gfcReturn ((announced len).received (as ++ [p]))) := by
  have hb := gfcBody_first hdec hfit hcap
  rcases as with _ | ⟨a, as⟩
  · rw [List.nil_append] at hsplit hlen ⊢
    obtain ⟨rfl, rfl⟩ := List.cons.inj hsplit
    rw [gfcTest_stop hlen] at hb
    exact Loop.run_cons_stop rfl hb _
  · rw [List.cons_append] at hsplit
    obtain ⟨rfl, rfl⟩ := List.cons.inj hsplit
    obtain ⟨h1, h2⟩ := hpass.tail
    rw [gfcTest_more h1] at hb
    have hrec : (announced len).received (f.drop (printedHeader len).length :: as ++ [p])
        = ((announced len).received [f.drop (printedHeader len).length]).received (as ++ [p]) := by
      rw [received_append]
      rfl
    rw [hrec] at hlen ⊢
    rw [gfcPerform, List.map_cons, List.cons_append, Loop.run_cons_more rfl hb,
      show (as ++ p :: bs).map some ++ rest = (as ++ [p]).map some ++ (bs.map some ++ rest) by
        simp]
    exact run_content_stop rfl (received_lt _ _) (fun q hq => hne q (by
      rcases List.mem_append.mp hq with hq | hq <;> simp_all)) h2 hlen _

theorem received_announced (len : ℕ) (ps : List Bytes) :
    ((announced len).received ps).bytesReceived = ps.flatten.length % 2 ^ 64 := by
  simp only [GfcRequest.received, announced, freshRequest, gfcSetWritefunc, gfcCreate,
    Nat.zero_add]

theorem received_announced_lt (len : ℕ) {ps : List Bytes} (h : ps.flatten.length < 2 ^ 64) :
    ((announced len).received ps).bytesReceived = ps.flatten.length := by
  rw [received_announced, Nat.mod_eq_of_lt h]

theorem passes_nil : Passes gfr len [] := by
  rintro as bs hab hne
  exact absurd (List.append_eq_nil_iff.mp hab.symm).1 hne

theorem passes_of_short {n : ℕ} (hn : n < 2 ^ 64) {ps : List Bytes}
    (h : ps.flatten.length < n) : Passes (announced len) n ps := by
  rintro as bs rfl -
  have hlt : as.flatten.length < n := by
    simp only [List.flatten_append, List.length_append] at h
    omega
  rw [received_announced_lt len (hlt.trans hn)]
  omega

/-- Of the pieces that make up a stream only the last completes it. -/
theorem passes_dropLast {n : ℕ} (hn : n < 2 ^ 64) {r : Bytes} {ps as : List Bytes} {p : Bytes}
    (hne : ∀ q ∈ ps, q ≠ []) (hsplit : r :: ps = as ++ [p])
    (hlen : (r :: ps).flatten.length = n) : Passes (announced len) n as := by
  rcases as with _ | ⟨a, as⟩
  · exact passes_nil
  · rw [List.cons_append] at hsplit
    obtain ⟨rfl, rfl⟩ := List.cons.inj hsplit
    refine passes_of_short hn ?_
    have hp : 0 < p.length := List.length_pos_of_ne_nil (hne p (by simp))
    simp only [List.flatten_cons, List.flatten_append, List.length_append, List.flatten_nil,
      List.length_nil, Nat.add_zero] at hlen ⊢
    omega

theorem passes_or_hits (len : ℕ) : ∀ (ps : List Bytes) (gfr : GfcRequest), Passes gfr len ps ∨
    ∃ as p bs, ps = as ++ p :: bs ∧ Passes gfr len as
      ∧ (gfr.received (as ++ [p])).bytesReceived = len
  | [], _ => .inl passes_nil
  | p :: ps, gfr => by
    by_cases hp : (gfr.received [p]).bytesReceived = len
    · exact .inr ⟨[], p, ps, rfl, passes_nil, hp⟩
    have hcons : ∀ as, Passes (gfr.received [p]) len as → Passes gfr len (p :: as) := by
      rintro as has (_ | ⟨q, cs⟩) ds hcd hne
      · exact absurd rfl hne
      · rw [List.cons_append] at hcd
        obtain ⟨rfl, rfl⟩ := List.cons.inj hcd
        rcases cs with _ | ⟨c, cs⟩
        · exact hp
        · have := has (c :: cs) ds rfl (by simp)
          rwa [received_append] at this
    rcases passes_or_hits len ps (gfr.received [p]) with h | ⟨as, q, bs, rfl, has, hq⟩
    · exact .inl (hcons ps h)
    · rw [received_append] at hq
      exact .inr ⟨p :: as, q, bs, rfl, hcons as has, hq⟩

/-- Past the header, the reception ends at the first packet that brings the count to `len`, at
the end of the stream with the count below `len`, or not at all. -/
theorem ends_iff (hdec : decodeHeader f = .ok len)
    (hfit : (printedHeader len).length ≤ f.length) (hcap : f.length ≤ bufsize)
    (hne : ∀ p ∈ ps, p ≠ []) {r : Result} :
    Ends (f :: ps) r ↔
      (∃ as p bs, contents len f ps = as ++ p :: bs ∧ Passes (announced len) len as
        ∧ ((announced len).received (as ++ [p])).bytesReceived = len
        ∧ r = gfcReturn ((announced len).received (as ++ [p])))
      ∨ (Passes (announced len) len (contents len f ps)
        ∧ ((announced len).received (contents len f ps)).bytesReceived < len
        ∧ r = gfcReturn ((announced len).received (contents len f ps))) := by
  constructor
  · rintro ⟨k, hk⟩
    rcases passes_or_hits len (contents len f ps) (announced len) with
      hpass | ⟨as, p, bs, hsplit, hpass, hlen⟩
    · have hwait := gfcPerform_waits hdec hfit hcap hne hpass
      set g := (announced len).received (contents len f ps) with hg
      rw [gfcPerform, Loop.run_more_append hwait] at hk
      have hge : g.bytesReceived ≠ len :=
        hpass (contents len f ps) [] (by simp) (by simp [contents])
      rcases Nat.lt_or_ge g.bytesReceived len with hlt | hgt
      · rcases k with _ | k
        · rw [List.replicate_zero, Loop.run_nil rfl] at hk
          simp at hk
        · rw [List.replicate_succ, Loop.run_cons_stop rfl (gfcBody_eof hlt)] at hk
          simp only [Loop.Outcome.stop.injEq] at hk
          exact .inr ⟨hpass, hlt, hk.symm⟩
      · rw [run_overrun k g rfl (received_lt _ _) (by omega)] at hk
        simp at hk
    · have hstop := gfcPerform_stops hdec hfit hcap hne hsplit hpass hlen
        (List.replicate k (some []))
      rw [hstop] at hk
      simp only [Loop.Outcome.stop.injEq] at hk
      exact .inl ⟨as, p, bs, hsplit, hpass, hlen, hk.symm⟩
  · rintro (⟨as, p, bs, hsplit, hpass, hlen, rfl⟩ | ⟨hpass, hlt, rfl⟩)
    · exact ⟨0, gfcPerform_stops hdec hfit hcap hne hsplit hpass hlen _⟩
    · refine ⟨1, ?_⟩
      rw [gfcPerform, Loop.run_more_append (gfcPerform_waits hdec hfit hcap hne hpass)]
      exact Loop.run_cons_stop rfl (gfcBody_eof hlt) _

/-! ### Reassembly -/

/-- The protocol's OK header. -/
def okHeader (n : ℕ) : Bytes := ascii "GETFILE OK " ++ decimal n ++ ascii "\r\n\r\n"

/-- The client reassembles what it receives of an OK stream, however the stream is cut after its
header and wherever it stops. -/
theorem gfcPerform_reassembles {n : ℕ} (hn : n < 2 ^ 64) {c : Bytes} (hc : c.length = n)
    {sent : Bytes} (hsent : sent <+: okHeader n ++ c) {f : Bytes} {ps : List Bytes}
    (hcut : IsCut bufsize sent (f :: ps)) (hhead : okHeader n <+: f) :
    ∃ gfr, gfcPerform freshRequest ((f :: ps).map some
          ++ if sent = okHeader n ++ c then [] else [some []])
        = .stop (.returned gfr (if sent = okHeader n ++ c then 0 else -1))
      ∧ okHeader n ++ gfr.written.flatten = sent
      ∧ gfr.bytesReceived = gfr.written.flatten.length
      ∧ gfr.fileLength = n ∧ gfr.status = .ok := by
  obtain ⟨r, rfl⟩ := hhead
  obtain ⟨hflat, -, hcap, hps⟩ := hcut.cons
  have hdec : decodeHeader (okHeader n ++ r) = .ok n := by
    have := (says_ok hn [] r (by simp)).decodeHeader
    simpa [okHeader, crlf2] using this
  have hprint : printedHeader n = okHeader n := rfl
  have hcont : contents n (okHeader n ++ r) ps = r :: ps := by
    simp [contents, hprint]
  have hfit : (printedHeader n).length ≤ (okHeader n ++ r).length := by
    simp [hprint]
  have hr : (r :: ps).flatten <+: c := by
    rw [hflat, List.append_assoc] at hsent
    exact (List.prefix_append_right_inj _).mp hsent
  have hle := hr.length_le
  by_cases hall : sent = okHeader n ++ c
  · have hfull : (r :: ps).flatten = c := by
      rw [hflat, List.append_assoc] at hall
      exact List.append_cancel_left hall
    have hlen : (r :: ps).flatten.length = n := by rw [hfull, hc]
    obtain ⟨as, p, hsplit⟩ := (List.eq_nil_or_concat (r :: ps)).resolve_left (by simp)
    rw [List.concat_eq_append] at hsplit
    have hrecv := received_announced_lt n (show (r :: ps).flatten.length < 2 ^ 64 by omega)
    have hlast : contents n (okHeader n ++ r) ps = as ++ p :: [] := by rw [hcont, hsplit]
    have hstop := gfcPerform_stops hdec hfit hcap hps.ne_nil hlast
      (passes_dropLast hn hps.ne_nil hsplit hlen) (by rw [← hsplit, hrecv, hlen]) []
    rw [← hsplit] at hstop
    refine ⟨(announced n).received (r :: ps), ?_, ?_, ?_, rfl, rfl⟩
    · rw [if_pos hall, if_pos hall, hstop, gfcReturn, hrecv, hlen]
      simp [GfcRequest.received, announced, getReturnCode]
    · rw [hall, ← hfull]
      rfl
    · rw [hrecv]
      rfl
  · have hshort : (r :: ps).flatten.length < n := by
      refine lt_of_le_of_ne (by omega) fun h => hall ?_
      rw [hflat, List.append_assoc, ← hr.eq_of_length (by rw [h, hc])]
      rfl
    have hwait := gfcPerform_waits hdec hfit hcap hps.ne_nil
      (by rw [hcont]; exact passes_of_short hn hshort)
    have hrecv := received_announced_lt n (show (r :: ps).flatten.length < 2 ^ 64 by omega)
    rw [hcont] at hwait
    refine ⟨(announced n).received (r :: ps), ?_, ?_, ?_, rfl, rfl⟩
    · rw [if_neg hall, if_neg hall, gfcPerform, Loop.run_more_append hwait]
      rw [Loop.run_cons_stop rfl (gfcBody_eof (by rw [hrecv]; exact hshort)), gfcReturn]
      have hne : ((announced n).received (r :: ps)).bytesReceived ≠ n := by omega
      simp [GfcRequest.received, announced, getReturnCode] at hne ⊢
      exact hne
    · rw [hflat, List.append_assoc]
      rfl
    · rw [hrecv]
      rfl

theorem gfcPerform_reassembles_hi :
    ∃ gfr, gfcPerform freshRequest ([okHeader 2 ++ ascii "h", ascii "i"].map some
          ++ if okHeader 2 ++ ascii "hi" = okHeader 2 ++ ascii "hi" then [] else [some []])
        = .stop (.returned gfr
          (if okHeader 2 ++ ascii "hi" = okHeader 2 ++ ascii "hi" then 0 else -1))
      ∧ okHeader 2 ++ gfr.written.flatten = okHeader 2 ++ ascii "hi"
      ∧ gfr.bytesReceived = gfr.written.flatten.length
      ∧ gfr.fileLength = 2 ∧ gfr.status = .ok :=
  gfcPerform_reassembles (by decide) (c := ascii "hi") rfl (List.prefix_refl _) (by decide)
    (List.prefix_append _ _)

end FileServices
