import FileServices.Gfserver
import FileServices.Proofs.Header
import FileServices.Lib.Cut

/-!
# The server's request parser

The combined test compares the whole path with `/`, so `/` is the only path that gets through,
and a packet without a path gets through as well.
-/

namespace FileServices

open CString Cut

def PathOk (p : Bytes) : Prop := p.head? = some 47 ∧ ∀ b ∈ p, b ∉ ([32, 13, 10, 0] : Bytes)

def IsRequest (s p : Bytes) : Prop :=
  PathOk p ∧ ascii "GETFILE GET " ++ p ++ ascii "\r\n\r\n" <+: s

/-- What the server should do with a stream: hand the path of a request to the handler, and
answer INVALID to anything else. -/
def Serves (s : Bytes) (out : Served) : Prop :=
  (∀ p, IsRequest s p → out = .handled (some p)) ∧ ((∀ p, ¬ IsRequest s p) → out = .invalid)

/-- The words of a packet are found inside the buffer, and one of them is not the request's: the
first is not `GETFILE`, the second not `GET`, or the third, up to a line end, not `/`. -/
def Rejects (f : Bytes) : Prop :=
  let scheme := strtok (fillBuffer f) (ascii " ")
  let method := scheme.next (ascii " ")
  let path := method.next crlf2
  method ≠ .outside ∧ path ≠ .outside ∧ ∃ w₁ r₁, scheme = .token w₁ r₁ ∧ (w₁ ≠ ascii "GETFILE"
    ∨ ∃ w₂ r₂, method = .token w₂ r₂ ∧ (w₂ ≠ ascii "GET"
      ∨ ∃ w₃ r₃, path = .token w₃ r₃ ∧ w₃ ≠ ascii "/"))

theorem rejects_iff {f : Bytes} : Rejects f ↔ parseRequest (fillBuffer f) = .invalid := by
  unfold Rejects parseRequest
  dsimp only
  generalize strtok (fillBuffer f) (ascii " ") = scheme
  generalize scheme.next (ascii " ") = method
  generalize method.next crlf2 = path
  rcases scheme with _ | _ | ⟨w₁, r₁⟩ <;> rcases method with _ | _ | ⟨w₂, r₂⟩ <;>
    rcases path with _ | _ | ⟨w₃, r₃⟩ <;> simp [checkTokens]
  all_goals
    by_cases hw : w₁ = ascii "GETFILE" <;> simp [hw]
  all_goals
    by_cases hw' : w₂ = ascii "GET" <;> simp [hw']

/-- The handler gets no path but `/`. -/
theorem handled_eq {buffer p : Bytes} (h : parseRequest buffer = .handled (some p)) :
    p = ascii "/" := by
  unfold parseRequest checkTokens at h
  dsimp only at h
  split at h
  all_goals first | (simp at h; done) | skip
  split_ifs at h
  split at h
  · split_ifs at h
    split at h
    · split_ifs at h with hp
      rw [Served.handled.injEq, Option.some.injEq] at h
      rw [← h]
      exact not_not.mp hp
    · simp at h
  · simp at h

theorem IsRequest.unique {s p q : Bytes} (hp : IsRequest s p) (hq : IsRequest s q) : p = q := by
  obtain ⟨⟨-, hp0⟩, r, hr⟩ := hp
  obtain ⟨⟨-, hq0⟩, r', hr'⟩ := hq
  have hend : ascii "\r\n\r\n" = 13 :: [10, 13, 10] := by decide
  have hsame : p ++ 13 :: ([10, 13, 10] ++ r) = q ++ 13 :: ([10, 13, 10] ++ r') := by
    rw [← hr', hend] at hr
    simpa using hr
  have hspan : ∀ {t : Bytes} (w : Bytes), (∀ b ∈ w, b ∉ ([32, 13, 10, 0] : Bytes)) →
      w = (w ++ 13 :: t).takeWhile (· ≠ 13) := fun {t} w hw =>
    (span_iff.mpr ⟨rfl, fun b hb => by
      have := hw b hb
      simp only [List.mem_cons, not_or] at this
      simpa using this.2.1, by simp⟩).1
  rw [hspan p hp0, hsame, ← hspan q hq0]

theorem fillBuffer_cons {f : Bytes} (h : f.length < bufsize) :
    ∃ t, fillBuffer f = f ++ 0 :: t := by
  obtain ⟨k, hk⟩ : ∃ k, bufsize - f.length = k + 1 := ⟨bufsize - f.length - 1, by omega⟩
  exact ⟨List.replicate k 0, by rw [fillBuffer, hk, List.replicate_succ]⟩

theorem strtok_word {w delims t : Bytes} {d : UInt8} (hne : w ≠ [])
    (hw : ∀ b ∈ w, b ∉ delims ∧ b ≠ 0) (hd : d ∈ delims ∨ d = 0) :
    strtok (w ++ d :: t) delims = .token w (if d = 0 then d :: t else t) :=
  strtok_append (List.forall_mem_nil _) hne hw hd

/-- Thirteen bytes of a request for `/` are enough for the parser. -/
theorem parseRequest_slash {d : UInt8} (hd : d = 13 ∨ d = 0) (t : Bytes) :
    parseRequest (ascii "GETFILE GET /" ++ d :: t) = .handled (some (ascii "/")) := by
  have hd' : d ∈ crlf2 ∨ d = 0 := hd.imp (by rintro rfl; decide) id
  have h₁ : strtok (ascii "GETFILE GET /" ++ d :: t) (ascii " ")
      = .token (ascii "GETFILE") (ascii "GET /" ++ d :: t) := by
    exact strtok_word (w := ascii "GETFILE") (d := 32) (t := ascii "GET /" ++ d :: t) (by decide)
      (by decide) (.inl (by decide))
  have h₂ : Token.next (.token (ascii "GETFILE") (ascii "GET /" ++ d :: t)) (ascii " ")
      = .token (ascii "GET") (ascii "/" ++ d :: t) :=
    strtok_word (w := ascii "GET") (d := 32) (t := ascii "/" ++ d :: t) (by decide)
      (by decide : ∀ b ∈ ascii "GET", b ∉ ascii " " ∧ b ≠ 0) (.inl (by decide))
  have h₃ : Token.next (.token (ascii "GET") (ascii "/" ++ d :: t)) crlf2
      = .token (ascii "/") (if d = 0 then d :: t else t) :=
    strtok_word (w := ascii "/") (by decide) (by decide) hd'
  rw [parseRequest, h₁, h₂, h₃]
  simp [checkTokens]

theorem fillBuffer_slash {f s : Bytes} (hs : ascii "GETFILE GET /\r\n\r\n" <+: s) (hf : f <+: s)
    (hlen : 13 ≤ f.length) (hcap : f.length ≤ bufsize) :
    ∃ d t, (d = 13 ∨ d = 0) ∧ fillBuffer f = ascii "GETFILE GET /" ++ d :: t := by
  have hpre : ascii "GETFILE GET /" <+: f :=
    List.prefix_of_prefix_length_le ((by decide : ascii "GETFILE GET /" <+:
      ascii "GETFILE GET /\r\n\r\n").trans hs) hf hlen
  obtain ⟨g, rfl⟩ := hpre
  rcases g with _ | ⟨d, g⟩
  · obtain ⟨t, ht⟩ := fillBuffer_cons (f := ascii "GETFILE GET /" ++ []) (by decide)
    exact ⟨0, t, .inr rfl, by rw [ht]; simp⟩
  · refine ⟨d, g ++ List.replicate (bufsize - (ascii "GETFILE GET /" ++ d :: g).length) 0, .inl ?_,
      by simp [fillBuffer]⟩
    obtain ⟨r, rfl⟩ := hs
    rw [show ascii "GETFILE GET /\r\n\r\n" = ascii "GETFILE GET /" ++ 13 :: [10, 13, 10] by
      decide, List.append_assoc, List.prefix_append_right_inj, List.cons_append,
      List.cons_prefix_cons] at hf
    exact hf.1

theorem isRequest_slash {s : Bytes} :
    IsRequest s (ascii "/") ↔ ascii "GETFILE GET /\r\n\r\n" <+: s := by
  have hok : PathOk (ascii "/") := by
    refine ⟨by decide, by decide⟩
  simp only [IsRequest, hok, true_and]
  rfl

/-- Fewer than thirteen bytes never reach the handler as `/`. -/
theorem parseRequest_short : ∀ k < 13,
    parseRequest (fillBuffer ((ascii "GETFILE GET /").take k)) ≠ .handled (some (ascii "/")) := by
  decide

/-- The server serves a stream as it should just when the stream is a request for `/` and the
first packet reaches its path, or it is no request and the first packet shows it. -/
theorem serves_iff {s : Bytes} {ps : List Bytes} (hcut : IsCut bufsize s ps) :
    Serves s (serveConnection (some (ps.headD [])))
      ↔ (IsRequest s (ascii "/") ∧ 13 ≤ (ps.headD []).length)
        ∨ (∀ p, ¬ IsRequest s p) ∧ Rejects (ps.headD []) := by
  rcases ps with _ | ⟨f, ps⟩
  · obtain rfl := hcut.eq_nil
    have hno : ∀ p, ¬ IsRequest [] p := fun p h => by
      have := List.prefix_nil.mp h.2
      simp [show ascii "\r\n\r\n" = [13, 10, 13, 10] by decide] at this
    have hrej : ¬ Rejects [] := fun h => absurd (rejects_iff.mp h) (by decide)
    simp [Serves, serveConnection, hno, hrej]
  obtain ⟨hs, hne, hcap, -⟩ := hcut.cons
  have hpre : f <+: s := ⟨_, hs.symm⟩
  have hserve : serveConnection (some f) = parseRequest (fillBuffer f) := by
    simp [serveConnection, hne]
  rw [List.headD_cons, hserve]
  constructor
  · rintro ⟨hreq, hinv⟩
    by_cases h : ∃ p, IsRequest s p
    · obtain ⟨p, hp⟩ := h
      have hout := hreq p hp
      obtain rfl := handled_eq hout
      refine .inl ⟨hp, ?_⟩
      by_contra hlt
      have htake : f = (ascii "GETFILE GET /").take f.length := by
        obtain ⟨r, rfl⟩ := isRequest_slash.mp hp
        have hlen : f.length ≤ (ascii "GETFILE GET /").length := by
          rw [show (ascii "GETFILE GET /").length = 13 by decide]
          omega
        rw [List.prefix_iff_eq_take] at hpre
        rw [show ascii "GETFILE GET /\r\n\r\n" = ascii "GETFILE GET /" ++ crlf2 by decide,
          List.append_assoc, List.take_append_of_le_length hlen] at hpre
        exact hpre
      rw [htake] at hout
      exact parseRequest_short f.length (by omega) hout
    · push Not at h
      exact .inr ⟨h, rejects_iff.mpr (hinv h)⟩
  · rintro (⟨hp, hlen⟩ | ⟨hno, hrej⟩)
    · refine ⟨fun q hq => ?_, fun h => absurd hp (h _)⟩
      obtain rfl := hp.unique hq
      obtain ⟨d, t, hd, hbuf⟩ := fillBuffer_slash (isRequest_slash.mp hp) hpre hlen hcap
      rw [hbuf, parseRequest_slash hd]
    · exact ⟨fun p hp => absurd hp (hno p), fun _ => rejects_iff.mp hrej⟩

theorem serves_iff_slash :
    Serves (requestHeader (ascii "/")) (serveConnection (some (requestHeader (ascii "/"))))
      ↔ (IsRequest (requestHeader (ascii "/")) (ascii "/")
          ∧ 13 ≤ (requestHeader (ascii "/")).length)
        ∨ (∀ p, ¬ IsRequest (requestHeader (ascii "/")) p)
          ∧ Rejects (requestHeader (ascii "/")) :=
  serves_iff (s := requestHeader (ascii "/"))
    (show IsCut bufsize _ [requestHeader (ascii "/")] by decide)

/-- The client's own request for `/foo` is answered INVALID. -/
theorem request_refused :
    IsRequest (requestHeader (ascii "/foo")) (ascii "/foo")
      ∧ serveConnection (some (requestHeader (ascii "/foo"))) = .invalid
      ∧ ¬ Serves (requestHeader (ascii "/foo"))
        (serveConnection (some (requestHeader (ascii "/foo")))) := by
  have hreq : IsRequest (requestHeader (ascii "/foo")) (ascii "/foo") :=
    ⟨⟨by decide, by decide⟩, List.prefix_refl _⟩
  have hinv : serveConnection (some (requestHeader (ascii "/foo"))) = .invalid := by decide
  refine ⟨hreq, hinv, fun h => ?_⟩
  have := h.1 _ hreq
  rw [hinv] at this
  simp at this

end FileServices
