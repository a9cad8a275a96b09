import FileServices.Receiver
import FileServices.Proofs.Header

/-!
# The status word and its buffer

`%s` has no width in either format, so `header_status` holds what is stored in it just when the
word after `GETFILE` is short.
-/

namespace FileServices

open CString

variable {f line word tail : Bytes}

/-- Each word stored in `header_status` fits with its NUL. -/
def StatusFits (f : Bytes) : Prop :=
  ∃ words, headerStatus f = some words ∧ ∀ w ∈ words, w.length + 1 ≤ headerStatusSize

theorem statusWords_noStatus (h : ∀ word tail, ¬ StatusLine line word tail) :
    statusWords line = [] := by
  have h₁ := sscanf_noStatus h [.space, .size, .space, .space, .space, .space]
  have h₂ := sscanf_noStatus h [.space, .space, .space, .space]
  simp [statusWords, sscanf, directives_withLength, directives_withoutLength, h₁, h₂, strings]

/-- All that is stored is the word after `GETFILE`. -/
theorem mem_statusWords (h : StatusLine line word tail) {w : Bytes} :
    w ∈ statusWords line ↔ w = word := by
  have h₁ := sscanf_status h [.space, .size, .space, .space, .space, .space]
  have h₂ := sscanf_status h [.space, .space, .space, .space]
  rw [scan_spaces] at h₂
  by_cases hn : ∃ n rest, Numeral tail n rest
  · obtain ⟨n, rest, hn⟩ := hn
    rw [hn.scan_eq, scan_spaces] at h₁
    simp [statusWords, sscanf, directives_withLength, h₁, strings]
  · rw [(scan_numeral tail _).resolve_right hn] at h₁
    simp [statusWords, sscanf, directives_withLength, directives_withoutLength, h₁, h₂, strings]

theorem statusWords_fit_iff : (∀ w ∈ statusWords line, w.length + 1 ≤ headerStatusSize)
    ↔ ∀ word tail, StatusLine line word tail → word.length < headerStatusSize := by
  constructor
  · exact fun h word tail hs => h word ((mem_statusWords hs).mpr rfl)
  · intro h w hw
    by_cases hs : ∃ word tail, StatusLine line word tail
    · obtain ⟨word, tail, hs⟩ := hs
      obtain rfl := (mem_statusWords hs).mp hw
      exact h w tail hs
    · rw [statusWords_noStatus fun word tail h => hs ⟨word, tail, h⟩] at hw
      simp at hw

theorem decodeLine_defined_iff : decodeLine line ≠ .undefined
    ↔ ∀ word tail, StatusLine line word tail → word.length < headerStatusSize := by
  constructor
  · intro h word tail hs
    by_contra hlong
    exact h (decodeLine_long hs (not_lt.mp hlong))
  · intro h
    by_cases hs : ∃ word tail, StatusLine line word tail
    · obtain ⟨word, tail, hs⟩ := hs
      by_cases hn : ∃ n rest, Numeral tail n rest
      · obtain ⟨n, rest, hn⟩ := hn
        rw [decodeLine_numeral hs (h word tail hs) hn]
        split_ifs <;> simp
      · rw [decodeLine_bare hs (h word tail hs) fun n rest h => hn ⟨n, rest, h⟩]
        simp
    · rw [decodeLine_noStatus fun word tail h => hs ⟨word, tail, h⟩]
      simp

/-- The decoder goes on with the header line. -/
theorem decodeHeader_eq (f : Bytes) : decodeHeader f = match bufferHeader f with
    | .outside => .undefined
    | .null => .reply .invalid
    | .token line _ => decodeLine line := by
  unfold decodeHeader bufferHeader
  dsimp only
  rcases strstr (fillBuffer f) (ascii "GETFILE") with _ | _ | _ <;>
    rcases strstr (fillBuffer f) crlf2 with _ | _ | _ <;> rfl

/-- The decoder is defined just where what it stores fits. -/
theorem statusFits_iff_defined : StatusFits f ↔ decodeHeader f ≠ .undefined := by
  rw [decodeHeader_eq]
  rcases hb : bufferHeader f with _ | _ | ⟨line, rest⟩
  · simp [StatusFits, headerStatus, hb]
  · simp [StatusFits, headerStatus, hb]
  · simp only [StatusFits, headerStatus, hb, Option.some.injEq, exists_eq_left']
    rw [statusWords_fit_iff, decodeLine_defined_iff]

/-- In a packet with both marks only a NUL can hide them. -/
theorem nul_of_unmarked (hg : ascii "GETFILE" <:+: f) (hc : crlf2 <:+: f) (h : ¬ Marked f) :
    0 ∈ fillBuffer f := by
  by_contra h0
  have hf : f <:+: cstr (fillBuffer f) := by
    rw [cstr_eq_self h0]
    exact (List.prefix_append _ _).isInfix
  exact h ⟨hg.trans hf, hc.trans hf⟩

/-- What is stored in `header_status` fits just when a NUL hides a mark, or the first line is
inside the buffer and its word after `GETFILE` has fewer than 16 bytes. -/
theorem status_fits_iff (hg : ascii "GETFILE" <:+: f) (hc : crlf2 <:+: f) :
    StatusFits f ↔ ¬ Marked f ∨ ∃ line, FirstLine f line
      ∧ ∀ word tail, StatusLine line word tail → word.length < headerStatusSize := by
  rw [statusFits_iff_defined]
  by_cases hm : Marked f
  · simp only [hm, not_true_eq_false, false_or]
    constructor
    · intro hdef
      obtain ⟨line, hline⟩ := (exists_firstLine hm).resolve_right hdef
      rw [decodeHeader_of_firstLine hm hline] at hdef
      exact ⟨line, hline, decodeLine_defined_iff.mp hdef⟩
    · rintro ⟨line, hline, hword⟩
      rw [decodeHeader_of_firstLine hm hline]
      exact decodeLine_defined_iff.mpr hword
  · refine iff_of_true ?_ (.inl hm)
    rw [decodeHeader_of_unmarked hm (nul_of_unmarked hg hc hm)]
    simp

theorem status_fits_iff_hi :
    StatusFits (ascii "GETFILE OK 2\r\n\r\n") ↔ ¬ Marked (ascii "GETFILE OK 2\r\n\r\n")
      ∨ ∃ line, FirstLine (ascii "GETFILE OK 2\r\n\r\n") line
        ∧ ∀ word tail, StatusLine line word tail → word.length < headerStatusSize :=
  status_fits_iff (by decide) (by decide)

/-- A word of twenty bytes for the status: both calls write past the end of the buffer. -/
theorem status_overflows :
    headerStatus (ascii "GETFILE AAAAAAAAAAAAAAAAAAAA\r\n\r\n")
        = some [List.replicate 20 65, List.replicate 20 65]
      ∧ ¬ StatusFits (ascii "GETFILE AAAAAAAAAAAAAAAAAAAA\r\n\r\n") := by
  have hwords : headerStatus (ascii "GETFILE AAAAAAAAAAAAAAAAAAAA\r\n\r\n")
      = some [List.replicate 20 65, List.replicate 20 65] := by decide
  refine ⟨hwords, ?_⟩
  rintro ⟨words, hw, hfits⟩
  obtain rfl := Option.some.inj (hwords.symm.trans hw)
  exact absurd (hfits (List.replicate 20 65) (by decide)) (by decide)

end FileServices
