import FileServices.Header

/-!
# The client's header decoder against the grammar

`strstr`, `strtok` and the two `sscanf` calls take a first packet as `Says` describes, and the
only packets they leave undefined are the ones it does not describe.
-/

namespace FileServices

open CString

variable {f line : Bytes}

theorem mem_crlf2 {b : UInt8} : b ∈ crlf2 ↔ b = 13 ∨ b = 10 := by
  have h : crlf2 = [13, 10, 13, 10] := by decide
  rw [h]
  simp
  tauto

theorem decodeHeader_of_unmarked (h : ¬ Marked f) (h0 : 0 ∈ fillBuffer f) :
    decodeHeader f = .reply .invalid := by
  by_cases hg : ascii "GETFILE" <:+: cstr (fillBuffer f)
  · have hc : ¬ crlf2 <:+: cstr (fillBuffer f) := fun hc => h ⟨hg, hc⟩
    simp [decodeHeader, strstr, hg, hc, h0]
  · simp [decodeHeader, strstr, hg, h0]

theorem firstLine_iff :
    FirstLine f line ↔ ∃ rest, strtok (fillBuffer f) crlf2 = .token line rest := by
  constructor
  · rintro ⟨skip, d, rest, hbuf, hskip, hne, hmem, hd⟩
    exact ⟨_, hbuf ▸ strtok_append hskip hne hmem hd⟩
  · rintro ⟨after, ht⟩
    obtain ⟨skip, d, rest, hbuf, hskip, hne, hmem, hd, -⟩ := strtok_token_iff.mp ht
    exact ⟨skip, d, rest, hbuf, hskip, hne, hmem, hd⟩

theorem decodeHeader_of_firstLine (h : Marked f) (hline : FirstLine f line) :
    decodeHeader f = decodeLine line := by
  obtain ⟨rest, htok⟩ := firstLine_iff.mp hline
  simp only [decodeHeader, strstr_eq_some_true.mpr h.1, strstr_eq_some_true.mpr h.2, htok]

/-- The line ends do not reach the terminator before the scheme. -/
theorem strtok_ne_null (h : Marked f) : strtok (fillBuffer f) crlf2 ≠ .null := by
  intro ht
  obtain ⟨skip, rest, hbuf, hskip⟩ := (strtok_null_iff (by decide)).mp ht
  have hskip0 : ∀ b ∈ skip, b ≠ 0 := by
    rintro b hb rfl
    exact absurd (hskip 0 hb) (by decide)
  have hG : (71 : UInt8) ∈ cstr (fillBuffer f) := h.1.subset (by decide)
  rw [hbuf, cstr_append_of_ne hskip0] at hG
  rcases List.mem_append.mp hG with hG | hG
  · exact absurd (hskip 71 hG) (by decide)
  · simp [cstr] at hG

/-- A packet with both marks has a first line, or its first line runs off the buffer. -/
theorem exists_firstLine (h : Marked f) :
    (∃ line, FirstLine f line) ∨ decodeHeader f = .undefined := by
  rcases ht : strtok (fillBuffer f) crlf2 with _ | _ | ⟨line, after⟩
  · right
    simp only [decodeHeader, strstr_eq_some_true.mpr h.1, strstr_eq_some_true.mpr h.2, ht]
  · exact absurd ht (strtok_ne_null h)
  · exact .inl ⟨line, firstLine_iff.mpr ⟨after, ht⟩⟩

/-! ### The line -/

theorem directives_withoutLength : directives (ascii "GETFILE %s\r\n\r\n")
    = (ascii "GETFILE").map Directive.lit
      ++ [Directive.space, .str, .space, .space, .space, .space] := by
  decide

theorem directives_withLength : directives (ascii "GETFILE %s %zu\r\n\r\n")
    = (ascii "GETFILE").map Directive.lit
      ++ [Directive.space, .str, .space, .size, .space, .space, .space, .space] := by
  decide

/-- The line ends of the formats store nothing. -/
theorem scan_spaces (s : Bytes) : (scan [.space, .space, .space, .space] s).1 = [] := rfl

theorem sscanf_noStatus (h : ∀ word tail, ¬ StatusLine line word tail) (fmt : List Directive) :
    (scan ((ascii "GETFILE").map .lit ++ .space :: .str :: fmt) line).1 = [] := by
  by_cases hpre : ascii "GETFILE" <+: line
  · obtain ⟨rest, rfl⟩ := hpre
    rw [scan_lits]
    exact (scan_word rest fmt).resolve_right fun ⟨w, tail, hw⟩ => h w tail ⟨rest, rfl, hw⟩
  · exact scan_lits_of_not_prefix _ _ _ hpre

theorem sscanf_status {word tail : Bytes} (h : StatusLine line word tail) (fmt : List Directive) :
    (scan ((ascii "GETFILE").map .lit ++ .space :: .str :: fmt) line).1
      = .str word :: (scan fmt tail).1 := by
  obtain ⟨rest, rfl, hw⟩ := h
  rw [scan_lits, hw.scan_eq]

theorem decodeLine_noStatus (h : ∀ word tail, ¬ StatusLine line word tail) :
    decodeLine line = .reply .invalid := by
  have h1 := sscanf_noStatus h [.space, .size, .space, .space, .space, .space]
  have h2 := sscanf_noStatus h [.space, .space, .space, .space]
  simp [decodeLine, sscanf, directives_withLength, directives_withoutLength, h1, h2, overflows]

theorem overflows_cons {word : Bytes} {args : List Arg} (h : word.length < headerStatusSize)
    (hargs : overflows args = false) : overflows (.str word :: args) = false := by
  simp only [overflows, List.any_cons, Bool.or_eq_false_iff, decide_eq_false_iff_not] at hargs ⊢
  exact ⟨by omega, hargs⟩

theorem decodeLine_numeral {word tail rest : Bytes} {n : ℕ} (h : StatusLine line word tail)
    (hword : word.length < headerStatusSize) (hn : Numeral tail n rest) :
    decodeLine line = if word = ascii "OK" then .ok n else .reply .invalid := by
  have h1 := sscanf_status h [.space, .size, .space, .space, .space, .space]
  rw [hn.scan_eq, scan_spaces] at h1
  have hov : overflows [.str word, .size n] = false := overflows_cons hword rfl
  simp [decodeLine, sscanf, directives_withLength, h1, hov]

theorem decodeLine_bare {word tail : Bytes} (h : StatusLine line word tail)
    (hword : word.length < headerStatusSize) (hn : ∀ n rest, ¬ Numeral tail n rest) :
    decodeLine line = .reply (replyStatus word) := by
  have h1 := sscanf_status h [.space, .size, .space, .space, .space, .space]
  rw [(scan_numeral tail _).resolve_right fun ⟨n, rest, h⟩ => hn n rest h] at h1
  have h2 := sscanf_status h [.space, .space, .space, .space]
  rw [scan_spaces] at h2
  have hov : overflows [.str word] = false := overflows_cons hword rfl
  simp [decodeLine, sscanf, directives_withLength, directives_withoutLength, h1, h2, hov]

theorem decodeLine_long {word tail : Bytes} (h : StatusLine line word tail)
    (hword : headerStatusSize ≤ word.length) : decodeLine line = .undefined := by
  have h1 := sscanf_status h [.space, .size, .space, .space, .space, .space]
  have hov : ∀ args, overflows (.str word :: args) = true := fun args => by
    simp only [overflows, List.any_cons, Bool.or_eq_true, decide_eq_true_eq]
    left
    omega
  simp [decodeLine, sscanf, directives_withLength, h1, hov]

/-! ### The packet -/

theorem Says.decodeHeader {v : Header} (h : Says f v) : decodeHeader f = v := by
  cases h with
  | unmarked hm h0 => exact decodeHeader_of_unmarked hm h0
  | noStatus hm hl hs => rw [decodeHeader_of_firstLine hm hl, decodeLine_noStatus hs]
  | bare hm hl hs hw hn => rw [decodeHeader_of_firstLine hm hl, decodeLine_bare hs hw hn]
  | misplaced hm hl hs hw hn hne =>
    rw [decodeHeader_of_firstLine hm hl, decodeLine_numeral hs hw hn, if_neg hne]
  | ok hm hl hs hn =>
    rw [decodeHeader_of_firstLine hm hl, decodeLine_numeral hs (by decide) hn, if_pos rfl]

/-- The decoder takes a packet as the grammar says, or the packet is none of its packets. -/
theorem says_or_undefined (f : Bytes) : (∃ v, Says f v) ∨ decodeHeader f = .undefined := by
  by_cases hm : Marked f
  · rcases exists_firstLine hm with ⟨line, hl⟩ | h
    · by_cases hs : ∃ word tail, StatusLine line word tail
      · obtain ⟨word, tail, hs⟩ := hs
        rcases Nat.lt_or_ge word.length headerStatusSize with hw | hw
        · by_cases hn : ∃ n rest, Numeral tail n rest
          · obtain ⟨n, rest, hn⟩ := hn
            by_cases hok : word = ascii "OK"
            · subst hok
              exact .inl ⟨_, .ok hm hl hs hn⟩
            · exact .inl ⟨_, .misplaced hm hl hs hw hn hok⟩
          · exact .inl ⟨_, .bare hm hl hs hw fun n rest h => hn ⟨n, rest, h⟩⟩
        · right
          rw [decodeHeader_of_firstLine hm hl, decodeLine_long hs hw]
      · exact .inl ⟨_, .noStatus hm hl fun w t h => hs ⟨w, t, h⟩⟩
    · exact .inr h
  · by_cases h0 : 0 ∈ fillBuffer f
    · exact .inl ⟨_, .unmarked hm h0⟩
    · right
      by_cases hg : ascii "GETFILE" <:+: cstr (fillBuffer f)
      · have hc : ¬ crlf2 <:+: cstr (fillBuffer f) := fun hc => hm ⟨hg, hc⟩
        simp [decodeHeader, strstr, hg, hc, h0]
      · simp [decodeHeader, strstr, hg, h0]

theorem says_iff {v : Header} (hv : v ≠ .undefined) : Says f v ↔ decodeHeader f = v := by
  refine ⟨Says.decodeHeader, fun h => ?_⟩
  rcases says_or_undefined f with ⟨w, hw⟩ | hu
  · rwa [← h, hw.decodeHeader]
  · exact absurd (h.symm.trans hu) hv

/-- A packet that says what no content follows, or announces content that is as it should be. -/
theorem says_answer_iff {P : ℕ → Prop} :
    ((∃ status, Says f (.reply status)) ∨ ∃ n, Says f (.ok n) ∧ P n)
      ↔ match decodeHeader f with
        | .undefined => False
        | .reply _ => True
        | .ok n => P n := by
  have hreply : ∀ status, Says f (.reply status) ↔ decodeHeader f = .reply status :=
    fun _ => says_iff (by simp)
  have hok : ∀ n, Says f (.ok n) ↔ decodeHeader f = .ok n := fun _ =>
    says_iff (by simp)
  simp only [hreply, hok]
  rcases decodeHeader f with _ | status | n <;> simp

theorem not_says_ok : ¬ Says f (.reply .ok) := by
  intro h
  generalize hv : Header.reply .ok = v at h
  cases h <;> simp at hv
  rename_i word _ _ _ _ _ _
  unfold replyStatus at hv
  split_ifs at hv

/-! ### The OK header -/

/-- A packet that starts with a line and the delimiter has both marks and that first line. -/
theorem marked_firstLine (hpre : ascii "GETFILE" <+: line)
    (hline : ∀ b ∈ line, b ∉ crlf2 ∧ b ≠ 0) (rest : Bytes) :
    Marked (line ++ crlf2 ++ rest) ∧ FirstLine (line ++ crlf2 ++ rest) line := by
  set f := line ++ crlf2 ++ rest with hf
  set pad := List.replicate (bufsize - f.length) (0 : UInt8)
  have hstr : cstr (fillBuffer f) = line ++ crlf2 ++ cstr (rest ++ pad) := by
    have h0 : ∀ b ∈ line ++ crlf2, b ≠ 0 := fun b hb => by
      rcases List.mem_append.mp hb with hb | hb
      · exact (hline b hb).2
      · rcases mem_crlf2.mp hb with rfl | rfl <;> decide
    rw [← cstr_append_of_ne h0, fillBuffer, hf, List.append_assoc]
  refine ⟨⟨?_, ?_⟩, [], 13, [10, 13, 10] ++ rest ++ pad, ?_, by simp, ?_, hline, by decide⟩
  · rw [hstr, List.append_assoc]
    exact (hpre.trans (List.prefix_append _ _)).isInfix
  · rw [hstr]
    exact ⟨line, _, rfl⟩
  · change f ++ pad = _
    rw [hf, show crlf2 = [13, 10, 13, 10] by decide]
    simp
  · rintro rfl
    exact absurd (List.prefix_nil.mp hpre) (by decide)

/-- No byte of an OK header line ends a line or a string. -/
theorem not_mem_okLine {digits tail : Bytes} (hdig : ∀ b ∈ digits, isDigit b = true)
    (htail : ∀ b ∈ tail, b = 32) :
    ∀ b ∈ ascii "GETFILE OK " ++ digits ++ tail, b ∉ crlf2 ∧ b ≠ 0 := by
  intro b hb
  rcases List.mem_append.mp hb with hb | hb
  · rcases List.mem_append.mp hb with hb | hb
    · exact (by decide : ∀ b ∈ ascii "GETFILE OK ", b ∉ crlf2 ∧ b ≠ 0) b hb
    · have hd := hdig b hb
      refine ⟨fun h => ?_, ?_⟩
      · rcases mem_crlf2.mp h with rfl | rfl <;> exact absurd hd (by decide)
      · rintro rfl
        exact absurd hd (by decide)
  · rw [htail b hb]
    decide

/-- The OK headers with any digits, `tail` being what stands between length and delimiter. -/
theorem says_digits {digits : Bytes} (hne : digits ≠ []) (hdig : ∀ b ∈ digits, isDigit b = true)
    (hv : decimalValue digits < 2 ^ 64) (tail rest : Bytes) (htail : ∀ b ∈ tail, b = 32) :
    Says (ascii "GETFILE OK " ++ digits ++ tail ++ crlf2 ++ rest) (.ok (decimalValue digits)) := by
  have hspell : ascii "GETFILE OK " = ascii "GETFILE" ++ ([32] ++ ascii "OK" ++ [32]) := by decide
  obtain ⟨hm, hl⟩ := marked_firstLine
    ⟨[32] ++ ascii "OK" ++ [32] ++ digits ++ tail, by rw [hspell]; simp⟩
    (not_mem_okLine hdig htail) rest
  refine .ok hm hl ⟨[32] ++ ascii "OK" ++ ([32] ++ digits ++ tail), ?_, [32], rfl,
    by decide, by decide, by decide, by simp [isSpace]⟩
    (numeral_digits hne hdig hv (by decide) fun b hb => ?_)
  · rw [hspell]
    simp
  · rw [htail b (List.mem_of_mem_head? hb)]
    decide

/-- The OK headers of either side. -/
theorem says_ok {n : ℕ} (hn : n < 2 ^ 64) (tail rest : Bytes) (htail : ∀ b ∈ tail, b = 32) :
    Says (ascii "GETFILE OK " ++ decimal n ++ tail ++ crlf2 ++ rest) (.ok n) := by
  have h := says_digits (decimal_ne_nil n) (fun b hb => isDigit_of_mem_decimal hb)
    (by rwa [decimalValue_decimal]) tail rest htail
  rwa [decimalValue_decimal] at h

end FileServices
