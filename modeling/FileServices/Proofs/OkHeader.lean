import FileServices.Proofs.Receiver
import FileServices.Proofs.Segmentation

/-!
# The OK headers the client accepts

`sscanf` takes every spelling of a header line that has the words in order, and the client skips
as many bytes as it prints the header with.  On the spellings of the protocol that is right but
for numerals with leading zeros (`accepts_exactly_iff`).
-/

namespace FileServices

open CString

variable {f d : Bytes} {n : ℕ}

/-- The packet starts with the protocol's OK header, with the length spelled `d`. -/
structure Spells (f d : Bytes) : Prop where
  ne_nil : d ≠ []
  digits : ∀ b ∈ d, isDigit b = true
  value_lt : decimalValue d < 2 ^ 64
  starts : ascii "GETFILE OK " ++ d ++ crlf2 <+: f

/-- The loop after the first packet, where C defines what is done with it. -/
def afterFirst (f : Bytes) : Option Receiver :=
  match receive [some f] with
  | .more s => some s
  | .stop (.returned s) => some s
  | .stop (.undefined _) => none

/-- The client takes the OK branch on the protocol's OK headers only, takes the length from them,
and calls `write_func` from the byte after them. -/
def AcceptsExactly (f : Bytes) : Prop :=
  ∃ s, afterFirst f = some s ∧ (s.status = .ok ↔ ∃ d, Spells f d)
    ∧ ∀ d, Spells f d → s.fileLength = decimalValue d
      ∧ (calls s.log).map Prod.fst = [(ascii "GETFILE OK " ++ d ++ crlf2).length]

theorem Spells.read (h : Spells f d) : Says f (.ok (decimalValue d)) := by
  obtain ⟨rest, rfl⟩ := h.starts
  simpa using says_digits h.ne_nil h.digits h.value_lt [] rest (List.forall_mem_nil _)

/-- A packet spells its length in one way. -/
theorem Spells.unique {e : Bytes} (h : Spells f d) (h' : Spells f e) : d = e := by
  have hspan : ∀ {ds : Bytes}, Spells f ds → ds = (f.drop 11).takeWhile isDigit := by
    rintro ds ⟨-, hdig, -, rest, rfl⟩
    refine (span_iff (b := crlf2 ++ rest) |>.mpr ⟨?_, hdig, ?_⟩).1
    · rw [List.append_assoc, List.append_assoc]
      exact List.drop_left' (by decide)
    · simp [show crlf2 = [13, 10, 13, 10] by decide, isDigit]
  rw [hspan h, hspan h']

theorem spells_decimal (hn : n < 2 ^ 64) (h : okHeader n <+: f) : Spells f (decimal n) :=
  ⟨decimal_ne_nil n, fun _ hb => isDigit_of_mem_decimal hb, by rwa [decimalValue_decimal], h⟩

theorem afterFirst_undefined (hf : f ≠ []) (hdec : decodeHeader f = .undefined) :
    afterFirst f = none := by
  simp only [afterFirst, receive_undefined hf hdec]

theorem afterFirst_reply {status : GfStatus} (hf : f ≠ []) (hdec : decodeHeader f = .reply status) :
    afterFirst f = some ((Receiver.start freshRequest).answer status f) := by
  simp only [afterFirst, receive_reply hf hdec]

theorem afterFirst_ok (hf : f ≠ []) (hdec : decodeHeader f = .ok n) :
    afterFirst f = some ((Receiver.start freshRequest).header n f) := by
  simp only [afterFirst, receive_header hf hdec, resume]
  split_ifs
  · rfl
  · rw [Loop.run_nil rfl]

theorem says_okHeader (hn : n < 2 ^ 64) (h : okHeader n <+: f) : Says f (.ok n) := by
  simpa using (spells_decimal hn h).read

/-- On an OK header the client is right just when it spells the length as the client does. -/
theorem accepts_ok_iff (hf : f ≠ []) (hdec : decodeHeader f = .ok n) :
    AcceptsExactly f ↔ n < 2 ^ 64 ∧ okHeader n <+: f := by
  have hlog : (calls ((Receiver.start freshRequest).header n f).log).map Prod.fst
      = [(okHeader n).length] := rfl
  constructor
  · rintro ⟨s, hs, hstatus, hread⟩
    rw [afterFirst_ok hf hdec] at hs
    obtain rfl := Option.some.inj hs
    obtain ⟨d, hd⟩ := hstatus.mp rfl
    obtain ⟨hlen, hoffset⟩ := hread d hd
    have hval : n = decimalValue d := hlen
    rw [hlog] at hoffset
    have hsame : decimal n = d := by
      refine decimalValue_inj ?_ (fun _ hb => isDigit_of_mem_decimal hb) hd.digits (by
        rw [decimalValue_decimal, hval])
      simpa [okHeader, crlf2] using hoffset
    refine ⟨hval ▸ hd.value_lt, ?_⟩
    rw [okHeader, hsame]
    exact hd.starts
  · rintro ⟨hn, h⟩
    have hspells := spells_decimal hn h
    refine ⟨_, afterFirst_ok hf hdec, iff_of_true rfl ⟨_, hspells⟩, fun d hd => ?_⟩
    obtain rfl := hspells.unique hd
    exact ⟨(decimalValue_decimal n).symm, hlog⟩

/-- The client accepts exactly the protocol's OK header just when the packet says what no content
follows, or starts with the header as the client prints it. -/
theorem accepts_exactly_iff (hf : f ≠ []) :
    AcceptsExactly f ↔ (∃ status, Says f (.reply status)) ∨ ∃ n < 2 ^ 64, okHeader n <+: f := by
  have hstarts : (∃ n < 2 ^ 64, okHeader n <+: f)
      ↔ ∃ n, Says f (.ok n) ∧ n < 2 ^ 64 ∧ okHeader n <+: f :=
    ⟨fun ⟨n, hn, h⟩ => ⟨n, says_okHeader hn h, hn, h⟩, fun ⟨n, _, hn, h⟩ => ⟨n, hn, h⟩⟩
  rw [hstarts, says_answer_iff]
  rcases hdec : decodeHeader f with _ | status | n
  · refine iff_of_false ?_ id
    rintro ⟨s, hs, -⟩
    simp [afterFirst_undefined hf hdec] at hs
  · have hno : ∀ d, ¬ Spells f d := fun d h => by
      simp [h.read.decodeHeader] at hdec
    refine iff_of_true ⟨_, afterFirst_reply hf hdec, ?_, fun d h => absurd h (hno d)⟩ trivial
    refine iff_of_false (fun hst => ?_) fun ⟨d, h⟩ => hno d h
    obtain rfl : status = .ok := hst
    exact not_says_ok ((says_iff (by simp)).mpr hdec)
  · exact accepts_ok_iff hf hdec

theorem accepts_exactly_iff_hi :
    AcceptsExactly (okHeader 2 ++ ascii "hi")
      ↔ (∃ status, Says (okHeader 2 ++ ascii "hi") (.reply status))
        ∨ ∃ n < 2 ^ 64, okHeader n <+: okHeader 2 ++ ascii "hi" :=
  accepts_exactly_iff (by decide)

/-- A header that is no header of the protocol and is taken for one, and one of the protocol whose
last byte is taken for content. -/
theorem accepts_too_much :
    (afterFirst (ascii "GETFILEOK\t+2x\r\n\r\n")).map Receiver.status = some .ok
      ∧ ¬ AcceptsExactly (ascii "GETFILEOK\t+2x\r\n\r\n")
      ∧ Spells (ascii "GETFILE OK 02\r\n\r\nhi") (ascii "02")
      ∧ ¬ AcceptsExactly (ascii "GETFILE OK 02\r\n\r\nhi") := by
  have hlax : (afterFirst (ascii "GETFILEOK\t+2x\r\n\r\n")).map Receiver.status = some .ok := by
    decide
  have hspells : Spells (ascii "GETFILE OK 02\r\n\r\nhi") (ascii "02") :=
    ⟨by decide, by decide, by decide, by decide⟩
  refine ⟨hlax, ?_, hspells, ?_⟩
  · rintro ⟨s, hs, hstatus, -⟩
    rw [hs, Option.map_some, Option.some.injEq] at hlax
    obtain ⟨d, hd⟩ := hstatus.mp hlax
    have hstart : ascii "GETFILE OK " <+: ascii "GETFILEOK\t+2x\r\n\r\n" :=
      ((List.prefix_append _ _).trans (List.prefix_append _ _)).trans hd.starts
    exact absurd hstart (by decide)
  · rintro ⟨s, hs, -, hread⟩
    have hoffset : (afterFirst (ascii "GETFILE OK 02\r\n\r\nhi")).map
        (fun s => (calls s.log).map Prod.fst) = some [16] := by decide
    rw [hs, Option.map_some, (hread _ hspells).2] at hoffset
    exact absurd hoffset (by decide)

end FileServices
