import FileServices.Proofs.Segmentation

/-!
# What the return value of `gfc_perform` means

The first packet settles the status.  A packet that is refused as INVALID is answered as the
contract has it, and so is one that begins with a header of the protocol; an unresolved address,
an empty stream and a first line that only looks like a header are not.
-/

namespace FileServices

open CString Cut

/-! ### Responses of the protocol -/

def statusWord : GfStatus → Bytes
  | .ok => ascii "OK"
  | .fileNotFound => ascii "FILE_NOT_FOUND"
  | .error => ascii "ERROR"
  | .invalid => ascii "INVALID"

/-- The header lines of the protocol: a length goes with OK, and with OK only. -/
inductive HeaderLine : Bytes → Header → Prop
  | ok {n : ℕ} : n < 2 ^ 64 → HeaderLine (ascii "GETFILE OK " ++ decimal n) (.ok n)
  | bare {status : GfStatus} : status ≠ .ok →
      HeaderLine (ascii "GETFILE " ++ statusWord status) (.reply status)

/-- How much content a header announces. -/
def Header.contentLength : Header → ℕ
  | .ok n => n
  | _ => 0

/-- The stream begins with a whole header, which says `v`. -/
def HeaderArrived (s : Bytes) (v : Header) : Prop :=
  ∃ line, HeaderLine line v ∧ line ++ crlf2 <+: s

/-- The stream begins with an OK header and the content it announces, or with the header of a
FILE_NOT_FOUND or an ERROR. -/
def ResponseArrived (s : Bytes) : Prop :=
  ∃ line v content, HeaderLine line v ∧ v ≠ .reply .invalid
    ∧ content.length = v.contentLength ∧ line ++ crlf2 ++ content <+: s

/-- `gfc_perform` comes to `r` on a stream delivered as `pieces` and then closed. -/
def Performs (getaddrinfo : ℤ) (pieces : List Bytes) (r : Result) : Prop :=
  ∃ k, gfcPerformAt getaddrinfo freshRequest (pieces.map some ++ List.replicate k (some []))
    = .stop r

/-- It returns, 0 for a complete response only and a negative number otherwise, and INVALID where
no header arrived. -/
def ReturnMeans (getaddrinfo : ℤ) (s : Bytes) (pieces : List Bytes) : Prop :=
  ∃ gfr code, Performs getaddrinfo pieces (.returned gfr code)
    ∧ (code = 0 → ResponseArrived s) ∧ (code ≠ 0 → code < 0)
    ∧ ((∀ v, ¬ HeaderArrived s v) → gfr.status = .invalid)

/-- The announced length is not stepped over: a packet ends there, or the stream stops short. -/
def CountStops (n : ℕ) (pieces : List Bytes) : Prop :=
  (∃ m, Completes n pieces m)
    ∨ NeverCompletes n pieces ∧ (pieces.flatten.length - headerLength n) % 2 ^ 64 < n

variable {s f line : Bytes} {ps : List Bytes} {v : Header}

namespace HeaderLine

theorem starts_with_scheme (h : HeaderLine line v) : ascii "GETFILE" <+: line := by
  have hspell : ascii "GETFILE OK " = ascii "GETFILE" ++ ascii " OK " := by decide
  have hspell' : ascii "GETFILE " = ascii "GETFILE" ++ ascii " " := by decide
  cases h with
  | ok _ => rw [hspell, List.append_assoc]; exact List.prefix_append _ _
  | bare _ => rw [hspell', List.append_assoc]; exact List.prefix_append _ _

/-- No byte of a header line ends a line or a string. -/
theorem not_mem (h : HeaderLine line v) : ∀ b ∈ line, b ∉ crlf2 ∧ b ≠ 0 := by
  cases h with
  | ok hn =>
    simpa using not_mem_okLine (fun b hb => isDigit_of_mem_decimal hb) (List.forall_mem_nil _)
  | @bare status hst => cases status <;> decide

theorem read (h : HeaderLine line v) (rest : Bytes) : Says (line ++ crlf2 ++ rest) v := by
  cases h with
  | ok hn => simpa using says_ok hn [] rest (by simp)
  | @bare status hst =>
    obtain ⟨hmarked, hfirst⟩ := marked_firstLine
      (HeaderLine.bare hst).starts_with_scheme (HeaderLine.bare hst).not_mem rest
    have hword : replyStatus (statusWord status) = status := by
      cases status <;> first | exact absurd rfl hst | decide
    have hstatus : StatusLine (ascii "GETFILE " ++ statusWord status) (statusWord status) [] := by
      refine ⟨[32] ++ statusWord status, ?_, [32], by simp, by decide, ?_, ?_, by simp⟩
      · rw [show ascii "GETFILE " = ascii "GETFILE" ++ [32] by decide, List.append_assoc]
      · cases status <;> decide
      · cases status <;> decide
    have hnum : ∀ n rest, ¬ Numeral [] n rest := by
      rintro n rest ⟨gap, sign, digits, hnil, -, -, hdigits, -⟩
      simp [hdigits] at hnil
    have hread' := Says.bare hmarked hfirst hstatus (by cases status <;> decide) hnum
    rwa [hword] at hread'

/-- A packet with both marks has the whole header of its stream. -/
theorem prefix_of_marked (h : HeaderLine line v) (hs : line ++ crlf2 <+: s) (hf : f <+: s)
    (hmarked : Marked f) : line ++ crlf2 <+: f := by
  rcases List.prefix_or_prefix_of_prefix hs hf with hpre | ⟨t, ht⟩
  · exact hpre
  have hzero : ∀ b ∈ f, b ≠ 0 := by
    intro b hb
    have hmem : b ∈ line ++ crlf2 := ht ▸ List.mem_append_left t hb
    rcases List.mem_append.mp hmem with hmem | hmem
    · exact (h.not_mem b hmem).2
    · rcases mem_crlf2.mp hmem with rfl | rfl <;> decide
  obtain ⟨a, b, hab⟩ : crlf2 <:+: f := by
    have hcstr : cstr (fillBuffer f) = f := by
      rw [fillBuffer, cstr_append_of_ne hzero, cstr, List.takeWhile_replicate]
      simp
    exact hcstr ▸ hmarked.2
  -- the delimiter in the packet cannot begin inside the line
  have hsplit : a ++ (crlf2 ++ b ++ t) = line ++ crlf2 := by rw [← ht, ← hab]; simp
  rcases List.append_eq_append_iff.mp hsplit with ⟨l, hline, hrest⟩ | ⟨l, hline, hrest⟩
  · rcases l with _ | ⟨c, l⟩
    · rw [List.append_nil] at hline
      exact ⟨b, by rw [hline, hab]⟩
    · have hc : c = 13 := by
        rw [show crlf2 = [13, 10, 13, 10] by decide] at hrest
        exact (List.cons.inj hrest).1.symm
      exact absurd (by rw [hc]; decide) (h.not_mem c (by simp [hline])).1
  · have hl : l = [] := by
      have hlen := congrArg List.length hrest
      simp only [List.length_append] at hlen
      exact List.length_eq_zero_iff.mp (by omega)
    refine ⟨b, ?_⟩
    rw [← hab, hline, hl]
    simp

theorem length_ok {n : ℕ} (h : HeaderLine line (.ok n)) :
    (line ++ crlf2).length = headerLength n := by
  cases h with
  | ok hn => rfl

end HeaderLine

theorem ResponseArrived.header (h : ResponseArrived s) :
    ∃ v, v ≠ .reply .invalid ∧ HeaderArrived s v := by
  obtain ⟨line, v, content, hline, hv, -, hpre⟩ := h
  exact ⟨v, hv, line, hline, (List.prefix_append _ _).trans hpre⟩

/-- A packet with both marks says what the header does that its stream begins with. -/
theorem HeaderArrived.packet (h : HeaderArrived s v) (hf : f <+: s) (hmarked : Marked f) :
    HeaderArrived f v ∧ Says f v := by
  obtain ⟨line, hline, hpre⟩ := h
  obtain ⟨rest, hrest⟩ := hline.prefix_of_marked hpre hf hmarked
  exact ⟨⟨line, hline, rest, hrest⟩, hrest ▸ hline.read rest⟩

theorem HeaderArrived.mono (h : HeaderArrived f v) (hf : f <+: s) : HeaderArrived s v := by
  obtain ⟨line, hline, hpre⟩ := h
  exact ⟨line, hline, hpre.trans hf⟩

theorem HeaderArrived.read (h : HeaderArrived f v) : Says f v := by
  obtain ⟨line, hline, rest, rfl⟩ := h
  exact hline.read rest

theorem Says.unique {v' : Header} (h : Says f v) (h' : Says f v') : v = v' :=
  h.decodeHeader.symm.trans h'.decodeHeader

theorem Says.marked (h : Says f v) (hv : v ≠ .reply .invalid) : Marked f := by
  cases h with
  | unmarked => exact absurd rfl hv
  | noStatus hm => exact hm
  | bare hm => exact hm
  | misplaced hm => exact hm
  | ok hm => exact hm

/-! ### The return value -/

theorem performs_resolved {r : Result} : Performs 0 ps r ↔ Ends ps r := Iff.rfl

/-- A count that comes to `n` has passed that many bytes. -/
theorem Completes.le_length {n m : ℕ} (h : Completes n (f :: ps) m)
    (hfit : headerLength n ≤ f.length) : headerLength n + n ≤ (f :: ps).flatten.length := by
  have hle := h.headerLength_le hfit
  have hmod := Nat.mod_le (m - headerLength n) (2 ^ 64)
  rw [h.2.1] at hmod
  have := h.le
  omega

theorem returnMeans_invalid (hne : f ≠ []) (hread : Says f (.reply .invalid)) :
    ReturnMeans 0 s (f :: ps) := by
  refine ⟨_, _, performs_resolved.mpr ((ends_reply_iff hne hread).mpr rfl), ?_, ?_, fun _ => rfl⟩
  · simp [getReturnCode]
  · simp [getReturnCode]

/-- After a FILE_NOT_FOUND or an ERROR the code is 0, so the header has to be one. -/
theorem returnMeans_reply {status : GfStatus} (hne : f ≠ []) (hread : Says f (.reply status))
    (hst : status ≠ .invalid) : ReturnMeans 0 s (f :: ps) ↔ ResponseArrived s := by
  have hcode : getReturnCode status 0 0 = 0 := by
    rcases status with _ | _ | _ | _
    · exact absurd hread not_says_ok
    · rfl
    · rfl
    · exact absurd rfl hst
  constructor
  · rintro ⟨gfr, code, hperf, hzero, -, -⟩
    obtain ⟨rfl, rfl⟩ := Result.returned.inj ((ends_reply_iff hne hread).mp hperf)
    exact hzero hcode
  · intro h
    refine ⟨_, _, performs_resolved.mpr ((ends_reply_iff hne hread).mpr rfl), fun _ => h,
      fun hcode' => absurd hcode hcode', fun hnone => ?_⟩
    obtain ⟨v, -, hv⟩ := h.header
    exact absurd hv (hnone v)

/-- After an OK header the code is 0 where the content is complete. -/
theorem returnMeans_ok {n : ℕ} (hcap : f.length ≤ bufsize) (hfit : headerLength n ≤ f.length)
    (hread : Says f (.ok n)) (hne : ∀ p ∈ ps, p ≠ []) :
    ReturnMeans 0 (f :: ps).flatten (f :: ps)
      ↔ HeaderArrived f (.ok n) ∧ CountStops n (f :: ps) := by
  constructor
  · rintro ⟨gfr, code, hperf, -, -, hinvalid⟩
    obtain ⟨hstatus, -, hcases⟩ := ends_ok_cases hcap hfit hread hne hperf
    refine ⟨?_, ?_⟩
    · by_contra hnone
      refine absurd (hinvalid fun v hv => hnone ?_) (by rw [hstatus]; decide)
      obtain ⟨hf, hread'⟩ := hv.packet (by simp) (hread.marked (by simp))
      exact hread.unique hread' ▸ hf
    · rcases hcases with ⟨m, hm, -⟩ | ⟨hnever, hlt, -⟩
      · exact .inl ⟨m, hm⟩
      · exact .inr ⟨hnever, hlt⟩
  · rintro ⟨hheader, hstops⟩
    obtain ⟨gfr, code, hends⟩ := ends_ok_exists hcap hfit hread hne hstops
    have harrived := hheader.mono (s := (f :: ps).flatten) (by simp)
    obtain ⟨-, -, hcases⟩ := ends_ok_cases hcap hfit hread hne hends
    refine ⟨gfr, code, performs_resolved.mpr hends, fun hcode => ?_, fun hcode => ?_,
      fun hnone => absurd harrived (hnone _)⟩
    · rcases hcases with ⟨m, hm, -⟩ | ⟨-, -, hcode', -⟩
      · obtain ⟨line, hline, rest, hrest⟩ := harrived
        have hlen := hm.le_length hfit
        rw [← hrest, List.length_append, hline.length_ok] at hlen
        refine ⟨line, .ok n, rest.take n, hline, by simp, ?_, rest.drop n, ?_⟩
        · rw [List.length_take, Header.contentLength]
          omega
        · rw [List.append_assoc, List.take_append_drop, hrest]
      · omega
    · rcases hcases with ⟨m, -, hcode', -⟩ | ⟨-, -, hcode', -⟩
      · exact absurd hcode' hcode
      · omega

theorem ends_nil_iff {r : Result} :
    Ends [] r ↔ r = gfcReturn { freshRequest with status := .error } := by
  constructor
  · rintro ⟨_ | k, hk⟩
    · cases hk
    · exact (Loop.Outcome.stop.inj hk).symm
  · rintro rfl
    exact ⟨1, rfl⟩

theorem not_responseArrived_nil : ¬ ResponseArrived [] := by
  rintro ⟨line, v, content, -, -, -, hpre⟩
  have hnil := List.prefix_nil.mp hpre
  simp only [List.append_eq_nil_iff] at hnil
  exact absurd hnil.1.2 (by decide)

theorem not_returnMeans_nil : ¬ ReturnMeans 0 [] [] := by
  rintro ⟨gfr, code, hperf, hzero, -⟩
  obtain ⟨rfl, rfl⟩ := Result.returned.inj (ends_nil_iff.mp hperf)
  exact not_responseArrived_nil (hzero rfl)

theorem not_returnMeans_unresolved {getaddrinfo : ℤ} (h : getaddrinfo ≠ 0) :
    ¬ ReturnMeans getaddrinfo s ps := by
  rintro ⟨gfr, code, ⟨k, hk⟩, -, hneg, -⟩
  rw [gfcPerformAt, if_pos h] at hk
  obtain ⟨rfl, rfl⟩ := Result.returned.inj (Loop.Outcome.stop.inj hk)
  exact absurd (hneg (by decide)) (by decide)

theorem returnMeans_cons (hcut : IsCut bufsize s (f :: ps)) :
    ReturnMeans 0 s (f :: ps) ↔ Says f (.reply .invalid)
      ∨ ∃ v, HeaderArrived f v ∧ ∀ n, v = .ok n → CountStops n (f :: ps) := by
  obtain ⟨hs, hfne, hfcap, hps⟩ := hcut.cons
  have hf : f <+: s := ⟨_, hs.symm⟩
  by_cases hinv : Says f (.reply .invalid)
  · exact iff_of_true (returnMeans_invalid hfne hinv) (.inl hinv)
  by_cases hreply : ∃ status, Says f (.reply status)
  · obtain ⟨status, hread⟩ := hreply
    have hst : status ≠ .invalid := fun h => hinv (h ▸ hread)
    rw [returnMeans_reply hfne hread hst]
    constructor
    · intro h
      obtain ⟨v, -, hv⟩ := h.header
      obtain ⟨hv', hread'⟩ := hv.packet hf (hread.marked (by simpa using hst))
      refine .inr ⟨v, hv', ?_⟩
      rintro n rfl
      cases hread.unique hread'
    · rintro (h | ⟨v, hv, -⟩)
      · exact absurd h hinv
      · obtain rfl := hread.unique hv.read
        obtain ⟨line, hline, hpre⟩ := hv.mono hf
        exact ⟨line, _, [], hline, by simpa using hst, rfl, by simpa using hpre⟩
  by_cases hok : ∃ n, Says f (.ok n) ∧ headerLength n ≤ f.length
  · obtain ⟨n, hread, hfit⟩ := hok
    rw [← hcut.flatten, returnMeans_ok hfcap hfit hread hps.ne_nil]
    constructor
    · rintro ⟨hheader, hstops⟩
      refine .inr ⟨_, hheader, ?_⟩
      rintro m ⟨⟩
      exact hstops
    · rintro (h | ⟨v, hv, hstops⟩)
      · exact absurd h hinv
      · obtain rfl := hread.unique hv.read
        exact ⟨hv, hstops n rfl⟩
  · refine iff_of_false ?_ ?_
    · rintro ⟨gfr, code, hperf, -⟩
      exact (says_of_ends hfne hperf).elim hreply hok
    · rintro (h | ⟨v, ⟨line, hline, hpre⟩, -⟩)
      · exact hinv h
      · obtain ⟨rest, rfl⟩ := hpre
        have hread := hline.read rest
        rcases v with _ | status | n
        · cases hline
        · exact hreply ⟨status, hread⟩
        · exact hok ⟨n, hread, by rw [← hline.length_ok]; simp⟩

/-- The return value means what it should just where the address is resolved and the first packet
is refused, or begins with a header of the protocol after which the count comes to a stop. -/
theorem return_means_iff {getaddrinfo : ℤ} (hcut : IsCut bufsize s ps) :
    ReturnMeans getaddrinfo s ps ↔ getaddrinfo = 0 ∧ ∃ f ps', ps = f :: ps'
      ∧ (Says f (.reply .invalid) ∨ ∃ v, HeaderArrived f v ∧ ∀ n, v = .ok n → CountStops n ps) := by
  by_cases hgai : getaddrinfo = 0
  swap
  · exact iff_of_false (not_returnMeans_unresolved hgai) fun h => hgai h.1
  subst hgai
  rcases ps with _ | ⟨f, ps⟩
  · obtain rfl := hcut.eq_nil
    exact iff_of_false not_returnMeans_nil (by simp)
  · rw [returnMeans_cons hcut]
    simp

/-- A response in two packets. -/
theorem return_means_iff_hi :
    ReturnMeans 0 (okHeader 2 ++ ascii "hi") [okHeader 2, ascii "hi"] ↔ (0 : ℤ) = 0 ∧
      ∃ f ps', [okHeader 2, ascii "hi"] = f :: ps' ∧ (Says f (.reply .invalid)
        ∨ ∃ v, HeaderArrived f v ∧ ∀ n, v = .ok n → CountStops n [okHeader 2, ascii "hi"]) :=
  return_means_iff (by decide)

/-- 2 is returned for an address that is not resolved, and 0 for a connection closed before the
header and for a status that is none of the protocol's. -/
theorem return_misleads :
    ¬ ReturnMeans (-2) [] [] ∧ ¬ ReturnMeans 0 [] []
      ∧ IsCut bufsize (ascii "GETFILE MAYBE\r\n\r\n") [ascii "GETFILE MAYBE\r\n\r\n"]
      ∧ ¬ ReturnMeans 0 (ascii "GETFILE MAYBE\r\n\r\n") [ascii "GETFILE MAYBE\r\n\r\n"] := by
  refine ⟨not_returnMeans_unresolved (by decide), not_returnMeans_nil, by decide, ?_⟩
  have hread : Says (ascii "GETFILE MAYBE\r\n\r\n") (.reply .error) :=
    (says_iff (by decide)).mpr (by decide)
  rw [returnMeans_reply (by decide) hread (by decide)]
  intro h
  obtain ⟨v, -, hv⟩ := h.header
  obtain rfl := hread.unique hv.read
  obtain ⟨line, hline, hpre⟩ := hv
  cases hline
  exact absurd hpre (by decide)

end FileServices
