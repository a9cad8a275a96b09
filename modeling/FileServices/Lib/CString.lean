import Mathlib

/-!
# C strings in byte buffers

A buffer is the list of its bytes, and the C string in it is what stands before the first NUL.
The library functions are total on lists; reading past the end of the buffer, which C leaves
undefined, is a result of its own.
-/

namespace CString

abbrev Bytes := List UInt8

/-- The bytes of an ASCII literal. -/
def ascii (s : String) : Bytes := s.toList.map fun c => UInt8.ofNat c.toNat

-- A test of all bytes of a text is to range over the text, not over `UInt8`.
instance (priority := 1100) decidableForallMem {P : UInt8 → Prop} [DecidablePred P] (l : Bytes) :
    Decidable (∀ b ∈ l, P b) := List.decidableBAll P l

/-- The C string at the start of a buffer. -/
def cstr (buf : Bytes) : Bytes := buf.takeWhile (· ≠ 0)

/-- `isspace` in the C locale. -/
def isSpace (b : UInt8) : Bool := b = 32 || (9 ≤ b && b ≤ 13)

/-- `isdigit`. -/
def isDigit (b : UInt8) : Bool := 48 ≤ b && b ≤ 57

theorem isDigit_iff {b : UInt8} : isDigit b = true ↔ 48 ≤ b.toNat ∧ b.toNat ≤ 57 := by
  simp [isDigit, UInt8.le_iff_toNat_le]

theorem isSpace_of_isDigit {b : UInt8} (h : isDigit b = true) : isSpace b = false := by
  have hd := isDigit_iff.mp h
  have h32 : b ≠ 32 := by
    rintro rfl
    exact absurd hd (by decide)
  have h13 : ¬ b ≤ 13 := fun hb => by
    have : b.toNat ≤ 13 := UInt8.le_iff_toNat_le.mp hb
    omega
  simp [isSpace, h32, h13]

/-! ### `strstr` and `strtok` -/

/-- Whether `strstr(buf, pat)` is nonnull; `none` when the search runs off the buffer. -/
def strstr (buf pat : Bytes) : Option Bool :=
  if pat <:+: cstr buf then some true
  else if 0 ∈ buf then some false
  else none

/-- What `strtok` comes to: off the buffer, `NULL`, or a token with the bytes from which the next
call goes on. -/
inductive Token
  | outside
  | null
  | token (tok rest : Bytes)
  deriving DecidableEq

/-- `strtok` on a buffer: it skips delimiters, takes the run after them, and steps over the
delimiter that ended the run unless that is the terminator. -/
def strtok (buf delims : Bytes) : Token :=
  match buf.dropWhile (· ∈ delims) with
  | [] => .outside
  | b :: bs =>
    if b = 0 then .null
    else
      match (b :: bs).dropWhile (fun c => c ∉ delims ∧ c ≠ 0) with
      | [] => .outside
      | c :: cs =>
        .token ((b :: bs).takeWhile fun c => c ∉ delims ∧ c ≠ 0) (if c = 0 then c :: cs else cs)

/-- `strtok(NULL, delims)` after the call that gave `t`. -/
def Token.next (t : Token) (delims : Bytes) : Token :=
  match t with
  | .outside => .outside
  | .null => .null
  | .token _ rest => strtok rest delims

/-- The string that `strtok` returns, or NULL. -/
def Token.pointer : Token → Option Bytes
  | .token tok _ => some tok
  | _ => none

/-- The token between delimiters and a byte that ends it. -/
theorem strtok_append {delims skip tok rest : Bytes} {d : UInt8} (hskip : ∀ b ∈ skip, b ∈ delims)
    (htok : tok ≠ []) (hmem : ∀ b ∈ tok, b ∉ delims ∧ b ≠ 0) (hd : d ∈ delims ∨ d = 0) :
    strtok (skip ++ tok ++ d :: rest) delims
      = .token tok (if d = 0 then d :: rest else rest) := by
  obtain ⟨b, bs, rfl⟩ := List.exists_cons_of_ne_nil htok
  have hb := hmem b List.mem_cons_self
  have hdrop : (skip ++ (b :: bs) ++ d :: rest).dropWhile (· ∈ delims)
      = b :: (bs ++ d :: rest) := by
    rw [List.append_assoc, List.dropWhile_append_of_pos (by simpa using hskip)]
    simp [hb.1]
  have hrun : ∀ c ∈ b :: bs, decide (c ∉ delims ∧ c ≠ 0) = true := fun c hc => by
    simpa using hmem c hc
  have hend : decide (d ∉ delims ∧ d ≠ 0) = false := by
    rcases hd with hd | hd <;> simp [hd]
  simp only [strtok, hdrop, hb.2, if_false]
  rw [show b :: (bs ++ d :: rest) = (b :: bs) ++ d :: rest from rfl,
    List.dropWhile_append_of_pos hrun, List.takeWhile_append_of_pos hrun,
    List.dropWhile_cons_of_neg (by simpa using hend), List.takeWhile_cons_of_neg (by
      simpa using hend), List.append_nil]

/-- The longest run of `p` at the start of a list, and what follows it. -/
theorem span_iff {p : UInt8 → Bool} {s a b : Bytes} :
    a = s.takeWhile p ∧ b = s.dropWhile p
      ↔ s = a ++ b ∧ (∀ x ∈ a, p x = true) ∧ ∀ x ∈ b.head?, p x = false := by
  constructor
  · rintro ⟨rfl, rfl⟩
    refine ⟨(List.takeWhile_append_dropWhile).symm, fun x hx => List.mem_takeWhile_imp hx,
      fun x hx => ?_⟩
    have := List.head?_dropWhile_not p s
    rw [Option.mem_def.mp hx] at this
    simpa using this
  · rintro ⟨rfl, ha, hb⟩
    rw [List.takeWhile_append_of_pos ha, List.dropWhile_append_of_pos ha]
    rcases b with _ | ⟨x, b⟩
    · simp
    · have hx : p x = false := hb x (by simp)
      simp [hx]

/-- A token is a run between delimiters, ended by one of them or by the terminator. -/
theorem strtok_token_iff {delims buf tok after : Bytes} :
    strtok buf delims = .token tok after ↔ ∃ skip d rest, buf = skip ++ tok ++ d :: rest
      ∧ (∀ b ∈ skip, b ∈ delims) ∧ tok ≠ [] ∧ (∀ b ∈ tok, b ∉ delims ∧ b ≠ 0)
      ∧ (d ∈ delims ∨ d = 0) ∧ after = if d = 0 then d :: rest else rest := by
  constructor
  · intro h
    obtain ⟨hbuf, hskip, hhead⟩ := span_iff.mp
      (⟨rfl, rfl⟩ : buf.takeWhile (· ∈ delims) = _ ∧ buf.dropWhile (· ∈ delims) = _)
    rcases hs : buf.dropWhile (· ∈ delims) with _ | ⟨b, bs⟩
    · simp [strtok, hs] at h
    rw [hs] at hbuf hhead
    have hb : b ∉ delims := by simpa using hhead b (by simp)
    by_cases hb0 : b = 0
    · simp [strtok, hs, hb0] at h
    obtain ⟨hrun, htok, hend⟩ := span_iff.mp
      (⟨rfl, rfl⟩ : (b :: bs).takeWhile (fun c => decide (c ∉ delims ∧ c ≠ 0)) = _
        ∧ (b :: bs).dropWhile (fun c => decide (c ∉ delims ∧ c ≠ 0)) = _)
    rcases hr : (b :: bs).dropWhile (fun c => decide (c ∉ delims ∧ c ≠ 0)) with _ | ⟨d, rest⟩
    · simp only [strtok, hs, hb0, if_false, hr] at h
      simp at h
    simp only [strtok, hs, hb0, if_false, hr, Token.token.injEq] at h
    obtain ⟨rfl, rfl⟩ := h
    refine ⟨buf.takeWhile (· ∈ delims), d, rest, ?_, fun x hx => by simpa using hskip x hx, ?_,
      fun x hx => by simpa using htok x hx, ?_, rfl⟩
    · rw [List.append_assoc, ← hr, ← hrun, ← hbuf]
    · simp [hb, hb0]
    · have := hend d (by rw [hr]; simp)
      simp only [decide_eq_false_iff_not, not_and_or, not_not] at this
      exact this
  · rintro ⟨skip, d, rest, rfl, hskip, hne, hmem, hd, rfl⟩
    exact strtok_append hskip hne hmem hd

/-- There is no token where only delimiters stand before the terminator. -/
theorem strtok_null_iff {delims buf : Bytes} (h0 : 0 ∉ delims) :
    strtok buf delims = .null ↔ ∃ skip rest, buf = skip ++ 0 :: rest ∧ ∀ b ∈ skip, b ∈ delims := by
  constructor
  · intro h
    obtain ⟨hbuf, hskip, -⟩ := span_iff.mp
      (⟨rfl, rfl⟩ : buf.takeWhile (· ∈ delims) = _ ∧ buf.dropWhile (· ∈ delims) = _)
    rcases hs : buf.dropWhile (· ∈ delims) with _ | ⟨b, bs⟩
    · simp [strtok, hs] at h
    have hb : b = 0 := by
      by_contra hb
      simp only [strtok, hs, hb, if_false] at h
      split at h <;> simp at h
    subst hb
    exact ⟨_, bs, by rw [← hs, ← hbuf], fun x hx => by simpa using hskip x hx⟩
  · rintro ⟨skip, rest, rfl, hskip⟩
    have hdrop : (skip ++ 0 :: rest).dropWhile (· ∈ delims) = 0 :: rest := by
      rw [List.dropWhile_append_of_pos (by simpa using hskip)]
      simp [h0]
    simp [strtok, hdrop]

/-- A terminated string keeps every token inside the buffer. -/
theorem strtok_ne_outside {delims buf : Bytes} (h0 : 0 ∉ delims) (hbuf : 0 ∈ buf) :
    strtok buf delims ≠ .outside := by
  have hdrop : ∀ {p : UInt8 → Bool} {s : Bytes}, p 0 = false → 0 ∈ s → 0 ∈ s.dropWhile p := by
    intro p s hp hs
    rw [← List.takeWhile_append_dropWhile (p := p) (l := s)] at hs
    refine (List.mem_append.mp hs).resolve_left fun hmem => ?_
    simpa [hp] using List.mem_takeWhile_imp hmem
  intro h
  have h₁ := hdrop (p := (· ∈ delims)) (by simpa using h0) hbuf
  rcases hs : buf.dropWhile (· ∈ delims) with _ | ⟨b, bs⟩
  · simp [hs] at h₁
  rw [hs] at h₁
  have h₂ := hdrop (p := fun c => decide (c ∉ delims ∧ c ≠ 0)) (by simp) h₁
  rcases hr : (b :: bs).dropWhile (fun c => decide (c ∉ delims ∧ c ≠ 0)) with _ | ⟨d, rest⟩
  · rw [hr] at h₂
    exact List.not_mem_nil h₂
  · simp only [strtok, hs, hr] at h
    split_ifs at h

/-! ### Strings and buffers -/

section Strings

variable {c buffer delims tok after z : Bytes}

theorem strstr_eq_some_true {buf pat : Bytes} : strstr buf pat = some true ↔ pat <:+: cstr buf := by
  unfold strstr
  split_ifs with h <;> simp [h]

theorem cstr_append_of_ne {s t : Bytes} (h : ∀ b ∈ s, b ≠ 0) : cstr (s ++ t) = s ++ cstr t :=
  List.takeWhile_append_of_pos (by simpa using h)

theorem cstr_eq_self {s : Bytes} (h : 0 ∉ s) : cstr s = s :=
  List.takeWhile_eq_self_iff.mpr fun b hb => by
    simpa using fun h0 : b = 0 => h (h0 ▸ hb)

theorem notMem_cstr (s : Bytes) : 0 ∉ cstr s := fun h => by
  simpa using List.mem_takeWhile_imp h

theorem cstr_terminated {s : Bytes} (h : 0 ∈ s) : ∃ z, s = cstr s ++ 0 :: z := by
  obtain ⟨hs, -, hhead⟩ := span_iff.mp
    (⟨rfl, rfl⟩ : s.takeWhile (· ≠ 0) = _ ∧ s.dropWhile (· ≠ 0) = _)
  rcases hd : s.dropWhile (· ≠ 0) with _ | ⟨b, z⟩
  · rw [hd, List.append_nil] at hs
    rw [hs] at h
    exact absurd h (notMem_cstr s)
  · rw [hd] at hs hhead
    obtain rfl : b = 0 := by simpa using hhead b rfl
    exact ⟨z, hs⟩

theorem cstr_string (hc : 0 ∉ c) : cstr (c ++ 0 :: z) = c := by
  rw [cstr_append_of_ne fun b hb => ne_of_mem_of_not_mem hb hc]
  simp [cstr]

theorem strtok_string_null (h0 : 0 ∉ delims) (hc : 0 ∉ c) :
    strtok (c ++ 0 :: z) delims = .null ↔ ∀ b ∈ c, b ∈ delims := by
  rw [strtok_null_iff h0]
  constructor
  · rintro ⟨skip, rest, heq, hskip⟩
    have hs : (0 : UInt8) ∉ skip := fun h => h0 (hskip 0 h)
    have hsame := congrArg cstr heq
    rw [cstr_string hc, cstr_string hs] at hsame
    exact hsame ▸ hskip
  · exact fun h => ⟨c, z, rfl, h⟩

/-- A token of a string, with what follows it in the string. -/
theorem strtok_string_token (h0 : 0 ∉ delims) (hc : 0 ∉ c) :
    strtok (c ++ 0 :: z) delims = .token tok after ↔ ∃ skip tail, c = skip ++ tok ++ tail
      ∧ (∀ b ∈ skip, b ∈ delims) ∧ tok ≠ [] ∧ (∀ b ∈ tok, b ∉ delims)
      ∧ (∀ d ∈ tail.head?, d ∈ delims) ∧ after = tail.tail ++ 0 :: z := by
  rw [strtok_token_iff]
  constructor
  · rintro ⟨skip, d, rest, heq, hskip, hne, htok, hd, rfl⟩
    have hst : (0 : UInt8) ∉ skip ++ tok := fun h =>
      (List.mem_append.mp h).elim (fun h => h0 (hskip 0 h)) fun h => (htok 0 h).2 rfl
    rcases List.append_eq_append_iff.mp heq with ⟨_ | ⟨x, e⟩, he, hz⟩ | ⟨_ | ⟨x, e⟩, rfl, hz⟩
    · obtain ⟨rfl, rfl⟩ := List.cons.inj hz
      exact ⟨skip, [], by rw [List.append_nil] at he; simp [he], hskip, hne,
        fun b hb => (htok b hb).1, by simp, by simp⟩
    · rw [(List.cons.inj hz).1, he] at hst
      simp at hst
    · obtain ⟨rfl, rfl⟩ := List.cons.inj hz
      exact ⟨skip, [], by simp, hskip, hne, fun b hb => (htok b hb).1, by simp, by simp⟩
    · obtain ⟨rfl, rfl⟩ := List.cons.inj hz
      have hd0 : d ≠ 0 := by
        rintro rfl
        exact hc (by simp)
      exact ⟨skip, d :: e, rfl, hskip, hne, fun b hb => (htok b hb).1,
        by simpa using hd.resolve_right hd0, by simp [hd0]⟩
  · rintro ⟨skip, tail, rfl, hskip, hne, htok, htail, rfl⟩
    have hne0 : ∀ b ∈ tok, b ∉ delims ∧ b ≠ 0 := fun b hb =>
      ⟨htok b hb, by rintro rfl; exact hc (by simp [hb])⟩
    rcases tail with _ | ⟨d, tail⟩
    · exact ⟨skip, 0, z, by simp, hskip, hne, hne0, .inr rfl, by simp⟩
    · have hd0 : d ≠ 0 := by
        rintro rfl
        exact hc (by simp)
      exact ⟨skip, d, tail ++ 0 :: z, by simp, hskip, hne, hne0, .inl (htail d rfl), by simp [hd0]⟩

theorem pointer_eq_some {t : Token} {w : Bytes} : t.pointer = some w ↔ ∃ r, t = .token w r := by
  rcases t with _ | _ | ⟨w', r⟩ <;> simp [Token.pointer]

theorem pointer_eq_none {t : Token} (h : t ≠ .outside) : t.pointer = none ↔ t = .null := by
  rcases t with _ | _ | ⟨w', r⟩ <;> simp_all [Token.pointer]

/-- The token and the rest of a terminated string. -/
def Token.Inside (t : Token) : Prop := t ≠ .outside ∧ ∀ w r, t = .token w r → 0 ∈ r

theorem strtok_inside (h0 : 0 ∉ delims) (hbuf : 0 ∈ buffer) : (strtok buffer delims).Inside := by
  refine ⟨strtok_ne_outside h0 hbuf, fun w r h => ?_⟩
  obtain ⟨skip, d, rest, rfl, hskip, -, htok, -, rfl⟩ := strtok_token_iff.mp h
  split_ifs with hd
  · simp [hd]
  · simp only [List.mem_append, List.mem_cons] at hbuf
    rcases hbuf with (h | h) | h | h
    · exact absurd (hskip 0 h) h0
    · exact absurd rfl (htok 0 h).2
    · exact absurd h.symm hd
    · exact h

theorem Token.Inside.next {t : Token} (h : t.Inside) (h0 : 0 ∉ delims) :
    (t.next delims).Inside := by
  rcases t with _ | _ | ⟨w, r⟩
  · exact absurd rfl h.1
  · exact ⟨nofun, nofun⟩
  · exact strtok_inside h0 (h.2 w r rfl)

/-- In a buffer without a NUL a token ends at a delimiter. -/
theorem strtok_full_token (hbuf : 0 ∉ buffer) : strtok buffer delims = .token tok after ↔
    ∃ skip d, buffer = skip ++ tok ++ d :: after ∧ (∀ b ∈ skip, b ∈ delims) ∧ tok ≠ []
      ∧ (∀ b ∈ tok, b ∉ delims) ∧ d ∈ delims := by
  rw [strtok_token_iff]
  constructor
  · rintro ⟨skip, d, rest, rfl, hskip, hne, htok, hd, rfl⟩
    have hd0 : d ≠ 0 := by
      rintro rfl
      exact hbuf (by simp)
    exact ⟨skip, d, by simp [hd0], hskip, hne, fun b hb => (htok b hb).1, hd.resolve_right hd0⟩
  · rintro ⟨skip, d, rfl, hskip, hne, htok, hd⟩
    have hd0 : d ≠ 0 := by
      rintro rfl
      exact hbuf (by simp)
    exact ⟨skip, d, after, rfl, hskip, hne, fun b hb => ⟨htok b hb, by
      rintro rfl
      exact hbuf (by simp [hb])⟩, .inl hd, by simp [hd0]⟩

theorem strtok_full (h0 : 0 ∉ delims) (hbuf : 0 ∉ buffer) :
    strtok buffer delims = .outside ∨ ∃ w r, strtok buffer delims = .token w r ∧ 0 ∉ r := by
  rcases ht : strtok buffer delims with _ | _ | ⟨w, r⟩
  · exact .inl rfl
  · obtain ⟨skip, rest, rfl, -⟩ := (strtok_null_iff h0).mp ht
    simp at hbuf
  · obtain ⟨skip, d, rfl, -⟩ := (strtok_full_token hbuf).mp ht
    exact .inr ⟨w, r, rfl, fun h => hbuf (by simp [h])⟩

end Strings

/-! ### `strchr` -/

/-- Where a search for a byte ends: at the byte, at the terminator, or off the buffer. -/
inductive Search
  | outside
  | null (i : ℕ)
  | found (i : ℕ)
  deriving DecidableEq

/-- The search for `c` in what is left of a buffer from index `i` on. -/
def searchFrom (c : UInt8) : ℕ → Bytes → Search
  | _, [] => .outside
  | i, b :: bs => if b = c then .found i else if b = 0 then .null i else searchFrom c (i + 1) bs

/-- `strchr(buf + i, c)`. -/
def strchr (buf : Bytes) (i : ℕ) (c : UInt8) : Search := searchFrom c i (buf.drop i)

theorem searchFrom_string {c : UInt8} (hc : c ≠ 0) (rest : Bytes) : ∀ {s : Bytes} {i : ℕ}, 0 ∉ s →
    searchFrom c i (s ++ 0 :: rest)
      = (s.findIdxs (· == c) i).head?.elim (.null (i + s.length)) .found
  | [], i, _ => by simp [searchFrom, hc.symm]
  | b :: s, i, h => by
    have hb : b ≠ 0 := fun h0 => h (h0 ▸ List.mem_cons_self)
    have ih := searchFrom_string hc rest (i := i + 1) fun h0 => h (List.mem_cons_of_mem b h0)
    rw [List.cons_append, searchFrom, List.findIdxs_cons]
    by_cases hbc : b = c
    · simp [hbc]
    · rw [if_neg hbc, if_neg hb, ih, if_neg (by simpa using hbc), List.length_cons,
        Nat.add_assoc, Nat.add_comm 1]

/-- Below the terminator a search finds the first place of the byte, or the terminator. -/
theorem strchr_string {s : Bytes} {i : ℕ} {c : UInt8} (hc : c ≠ 0) (hs : 0 ∉ s)
    (hi : i ≤ s.length) (rest : Bytes) : strchr (s ++ 0 :: rest) i c
      = ((s.drop i).findIdxs (· == c) i).head?.elim (.null s.length) .found := by
  rw [strchr, List.drop_append_of_le_length hi,
    searchFrom_string hc rest fun h0 => hs (List.mem_of_mem_drop h0), List.length_drop,
    Nat.add_sub_cancel' hi]

/-- The places behind the first one are those from the next byte on. -/
theorem findIdxs_tail {c : UInt8} : ∀ {s : Bytes} {i j : ℕ} {js : List ℕ},
    (s.drop i).findIdxs (· == c) i = j :: js →
      i ≤ j ∧ s[j]? = some c ∧ js = (s.drop (j + 1)).findIdxs (· == c) (j + 1) := by
  intro s i j js h
  induction hn : s.length - i generalizing i with
  | zero =>
    rw [List.drop_eq_nil_of_le (by omega)] at h
    cases h
  | succ n ih =>
    have hi : i < s.length := by omega
    rw [List.drop_eq_getElem_cons hi, List.findIdxs_cons] at h
    split_ifs at h with hc
    · obtain ⟨rfl, rfl⟩ := List.cons.inj h
      exact ⟨le_rfl, by rw [List.getElem?_eq_getElem hi, beq_iff_eq.mp hc], rfl⟩
    · obtain ⟨hle, hat, hjs⟩ := ih h (by omega)
      exact ⟨by omega, hat, hjs⟩

/-! ### Decimal numerals -/

/-- What `%zu` prints. -/
def decimal (n : ℕ) : Bytes :=
  if n = 0 then [48] else (Nat.digits 10 n).reverse.map fun d => UInt8.ofNat (48 + d)

/-- The value of a string of decimal digits. -/
def decimalValue (ds : Bytes) : ℕ := Nat.ofDigits 10 (ds.reverse.map fun b => b.toNat - 48)

theorem decimal_ne_nil (n : ℕ) : decimal n ≠ [] := by
  unfold decimal
  split_ifs with h
  · simp
  · simpa using Nat.digits_ne_nil_iff_ne_zero.mpr h

theorem isDigit_of_mem_decimal {n : ℕ} {b : UInt8} (h : b ∈ decimal n) : isDigit b = true := by
  unfold decimal at h
  split_ifs at h with h0
  · rw [List.mem_singleton.mp h]
    decide
  · obtain ⟨d, hd, rfl⟩ := List.mem_map.mp h
    have hlt : d < 10 := Nat.digits_lt_base (by decide) (List.mem_reverse.mp hd)
    interval_cases d <;> decide

@[simp]
theorem decimalValue_decimal (n : ℕ) : decimalValue (decimal n) = n := by
  unfold decimal decimalValue
  split_ifs with h
  · subst h
    decide
  · have hval : ∀ d ∈ Nat.digits 10 n, ((UInt8.ofNat (48 + d)).toNat - 48) = d := by
      intro d hd
      have hlt : d < 10 := Nat.digits_lt_base (by decide) hd
      interval_cases d <;> decide
    rw [← List.map_reverse, List.reverse_reverse, List.map_map,
      List.map_congr_left (f := _ ∘ _) (g := id) hval, List.map_id, Nat.ofDigits_digits]

/-- Digits of one length that have one value are the same. -/
theorem decimalValue_inj {ds es : Bytes} (hlen : ds.length = es.length)
    (hds : ∀ b ∈ ds, isDigit b = true) (hes : ∀ b ∈ es, isDigit b = true)
    (h : decimalValue ds = decimalValue es) : ds = es := by
  have hlt : ∀ {l : Bytes}, (∀ b ∈ l, isDigit b = true) →
      ∀ d ∈ l.reverse.map fun b => b.toNat - 48, d < 10 := by
    intro l hl d hd
    obtain ⟨b, hb, rfl⟩ := List.mem_map.mp hd
    have := isDigit_iff.mp (hl b (List.mem_reverse.mp hb))
    omega
  have hback : ∀ {l : Bytes}, (∀ b ∈ l, isDigit b = true) →
      (l.map fun b => b.toNat - 48).map (fun d => UInt8.ofNat (48 + d)) = l := by
    intro l hl
    rw [List.map_map]
    refine (List.map_congr_left fun b hb => ?_).trans (List.map_id l)
    have := isDigit_iff.mp (hl b hb)
    rw [Function.comp_apply, show 48 + (b.toNat - 48) = b.toNat by omega, UInt8.ofNat_toNat, id]
  have hmap := Nat.ofDigits_inj_of_len_eq (by decide : 1 < 10) (by simpa using hlen) (hlt hds)
    (hlt hes) h
  rw [List.map_reverse, List.map_reverse, List.reverse_inj] at hmap
  rw [← hback hds, hmap, hback hes]

/-! ### `sscanf` -/

/-- The directives of a `scanf` format. -/
inductive Directive
  | space
  | lit (b : UInt8)
  | str
  | size
  deriving DecidableEq

/-- The directives a format string spells: white space, `%s`, `%zu`, and bytes to match. -/
def directives : Bytes → List Directive
  | 37 :: 115 :: fmt => .str :: directives fmt
  | 37 :: 122 :: 117 :: fmt => .size :: directives fmt
  | b :: fmt => (if isSpace b then .space else .lit b) :: directives fmt
  | [] => []

/-- What a conversion stores. -/
inductive Arg
  | str (s : Bytes)
  | size (n : ℕ)
  deriving DecidableEq

/-- An optional sign and the rest. -/
def unsign : Bytes → Bool × Bytes
  | 45 :: s => (true, s)
  | 43 :: s => (false, s)
  | s => (false, s)

/-- `strtoull` in base 10 on a 64-bit `size_t`: too large a value becomes the largest one, and a
minus sign negates modulo `2 ^ 64`. -/
def toSize (neg : Bool) (v : ℕ) : ℕ :=
  if 2 ^ 64 ≤ v then 2 ^ 64 - 1
  else if neg then (2 ^ 64 - v) % 2 ^ 64
  else v

/-- The conversions made before the first failure, and whether that was the end of the input. -/
def scan : List Directive → Bytes → List Arg × Bool
  | [], _ => ([], false)
  | .space :: fmt, s => scan fmt (s.dropWhile isSpace)
  | .lit _ :: _, [] => ([], true)
  | .lit b :: fmt, c :: s => if b = c then scan fmt s else ([], false)
  | .str :: fmt, s =>
    match s.dropWhile isSpace with
    | [] => ([], true)
    | t =>
      let r := scan fmt (t.dropWhile fun b => !isSpace b)
      (.str (t.takeWhile fun b => !isSpace b) :: r.1, r.2)
  | .size :: fmt, s =>
    match s.dropWhile isSpace with
    | [] => ([], true)
    | t =>
      let u := unsign t
      if u.2.takeWhile isDigit = [] then ([], false)
      else
        let r := scan fmt (u.2.dropWhile isDigit)
        (.size (toSize u.1 (decimalValue (u.2.takeWhile isDigit))) :: r.1, r.2)

/-- `sscanf`: its return value (`EOF` is -1) and what it stored. -/
def sscanf (s : Bytes) (fmt : Bytes) : ℤ × List Arg :=
  let r := scan (directives fmt) s
  (if r.1 = [] ∧ r.2 then -1 else r.1.length, r.1)

theorem scan_lits : ∀ (l : Bytes) (fmt : List Directive) (s : Bytes),
    scan (l.map .lit ++ fmt) (l ++ s) = scan fmt s
  | [], _, _ => rfl
  | b :: l, fmt, s => by simp [scan, scan_lits l]

/-- `%s` takes a word up to white space or the end. -/
theorem scan_str {w rest : Bytes} {fmt : List Directive} (hw : w ≠ [])
    (hws : ∀ b ∈ w, isSpace b = false) (hrest : rest.takeWhile (fun b => !isSpace b) = []) :
    scan (.str :: fmt) (w ++ rest) = (.str w :: (scan fmt rest).1, (scan fmt rest).2) := by
  obtain ⟨b, bs, rfl⟩ := List.exists_cons_of_ne_nil hw
  have hrun : ∀ c ∈ b :: bs, (!isSpace c) = true := fun c hc => by simp [hws c hc]
  have hdrop : ((b :: bs) ++ rest).dropWhile isSpace = b :: (bs ++ rest) := by
    simp [hws b List.mem_cons_self]
  have hrest' : rest.dropWhile (fun b => !isSpace b) = rest := by
    have := List.takeWhile_append_dropWhile (p := fun b => !isSpace b) (l := rest)
    rwa [hrest, List.nil_append] at this
  simp only [scan, hdrop]
  rw [show b :: (bs ++ rest) = (b :: bs) ++ rest from rfl,
    List.takeWhile_append_of_pos hrun, List.dropWhile_append_of_pos hrun, hrest, hrest']
  simp

theorem scan_lits_of_not_prefix : ∀ (l : Bytes) (fmt : List Directive) (s : Bytes), ¬ l <+: s →
    (scan (l.map .lit ++ fmt) s).1 = []
  | [], _, s, h => absurd (List.nil_prefix) h
  | b :: l, fmt, [], _ => by simp [scan]
  | b :: l, fmt, c :: s, h => by
    by_cases hbc : b = c
    · subst hbc
      have hl : ¬ l <+: s := fun hl => h (List.cons_prefix_cons.mpr ⟨rfl, hl⟩)
      simpa [scan] using scan_lits_of_not_prefix l fmt s hl
    · simp [scan, hbc]

/-- What `%s` reads: white space, then a word that ends at white space or the end. -/
def Word (s w rest : Bytes) : Prop :=
  ∃ gap, s = gap ++ w ++ rest ∧ (∀ b ∈ gap, isSpace b = true) ∧ w ≠ []
    ∧ (∀ b ∈ w, isSpace b = false) ∧ ∀ b ∈ rest.head?, isSpace b = true

/-- What `%zu` reads: white space, a sign or none, and digits up to a byte that is none. -/
def Numeral (s : Bytes) (n : ℕ) (rest : Bytes) : Prop :=
  ∃ gap sign digits, s = gap ++ sign ++ digits ++ rest ∧ (∀ b ∈ gap, isSpace b = true)
    ∧ sign ∈ [[], [43], [45]] ∧ digits ≠ [] ∧ (∀ b ∈ digits, isDigit b = true)
    ∧ (∀ b ∈ rest.head?, isDigit b = false)
    ∧ n = toSize (sign = [45]) (decimalValue digits)

theorem dropWhile_gap {gap s : Bytes} (hgap : ∀ b ∈ gap, isSpace b = true)
    (hs : ∀ b ∈ s.head?, isSpace b = false) : (gap ++ s).dropWhile isSpace = s :=
  (span_iff.mpr ⟨rfl, hgap, hs⟩).2.symm

theorem Word.scan_eq {s w rest : Bytes} (h : Word s w rest) (fmt : List Directive) :
    scan (.space :: .str :: fmt) s = (.str w :: (scan fmt rest).1, (scan fmt rest).2) := by
  obtain ⟨gap, rfl, hgap, hw, hws, hrest⟩ := h
  have hhead : ∀ b ∈ (w ++ rest).head?, isSpace b = false := by
    obtain ⟨b, bs, rfl⟩ := List.exists_cons_of_ne_nil hw
    simpa using hws b (by simp)
  have hstop : rest.takeWhile (fun b => !isSpace b) = [] := by
    refine (span_iff.mpr ⟨(List.nil_append rest).symm, by simp, fun b hb => ?_⟩).1.symm
    simp [hrest b hb]
  rw [scan, List.append_assoc, dropWhile_gap hgap hhead, scan_str hw hws hstop]

/-- `%s` stores a word if there is one. -/
theorem scan_word (s : Bytes) (fmt : List Directive) :
    (scan (.space :: .str :: fmt) s).1 = [] ∨ ∃ w rest, Word s w rest := by
  obtain ⟨hs, hgap, hhead⟩ := span_iff.mp
    (⟨rfl, rfl⟩ : s.takeWhile isSpace = _ ∧ s.dropWhile isSpace = _)
  rcases ht : s.dropWhile isSpace with _ | ⟨b, t⟩
  · left
    simp [scan, ht]
  · right
    rw [ht] at hs hhead
    obtain ⟨htok, hw, hrest⟩ := span_iff.mp
      (⟨rfl, rfl⟩ : (b :: t).takeWhile (fun c => !isSpace c) = _
        ∧ (b :: t).dropWhile (fun c => !isSpace c) = _)
    refine ⟨_, _, s.takeWhile isSpace, by rw [List.append_assoc, ← htok, ← hs], hgap, ?_,
      fun c hc => by simpa using hw c hc, fun c hc => by simpa using hrest c hc⟩
    have hb : isSpace b = false := hhead b (by simp)
    simp [hb]

theorem unsign_append {sign digits : Bytes} (rest : Bytes)
    (hsign : sign ∈ ([[], [43], [45]] : List Bytes)) (hd : digits ≠ [])
    (hdig : ∀ b ∈ digits, isDigit b = true) :
    unsign (sign ++ digits ++ rest) = (decide (sign = [45]), digits ++ rest) := by
  obtain ⟨b, bs, rfl⟩ := List.exists_cons_of_ne_nil hd
  have hb : isDigit b = true := hdig b (by simp)
  simp only [List.mem_cons, List.not_mem_nil, or_false] at hsign
  rcases hsign with rfl | rfl | rfl
  · unfold unsign
    split
    · rename_i heq
      rw [(List.cons.inj heq).1] at hb
      exact absurd hb (by decide)
    · rename_i heq
      rw [(List.cons.inj heq).1] at hb
      exact absurd hb (by decide)
    · simp
  · rfl
  · rfl

theorem Numeral.scan_eq {s rest : Bytes} {n : ℕ} (h : Numeral s n rest) (fmt : List Directive) :
    scan (.space :: .size :: fmt) s = (.size n :: (scan fmt rest).1, (scan fmt rest).2) := by
  obtain ⟨gap, sign, digits, rfl, hgap, hsign, hd, hdig, hrest, rfl⟩ := h
  have hun := unsign_append rest hsign hd hdig
  obtain ⟨b, bs, hcons⟩ : ∃ b bs, sign ++ digits ++ rest = b :: bs :=
    List.exists_cons_of_ne_nil (by simp [hd])
  have hb : isSpace b = false := by
    simp only [List.mem_cons, List.not_mem_nil, or_false] at hsign
    rcases hsign with rfl | rfl | rfl
    · obtain ⟨d, ds, rfl⟩ := List.exists_cons_of_ne_nil hd
      rw [← (List.cons.inj hcons).1]
      exact isSpace_of_isDigit (hdig d (by simp))
    · rw [← (List.cons.inj hcons).1]
      rfl
    · rw [← (List.cons.inj hcons).1]
      rfl
  have hdrop : (gap ++ sign ++ digits ++ rest).dropWhile isSpace = b :: bs := by
    rw [← hcons, List.append_assoc, List.append_assoc, ← List.append_assoc sign]
    exact dropWhile_gap hgap (by simpa [hcons] using hb)
  obtain ⟨htake, hrem⟩ := span_iff.mpr (⟨rfl, hdig, hrest⟩ : digits ++ rest = _ ∧ _ ∧ _)
  have hidem : (b :: bs).dropWhile isSpace = b :: bs := by simp [hb]
  simp only [scan, hdrop, hidem]
  rw [← hcons, hun]
  simp [← htake, ← hrem, hd]

/-- `%zu` reads digits whose value fits. -/
theorem numeral_digits {digits : Bytes} (hne : digits ≠ []) (hdig : ∀ b ∈ digits, isDigit b = true)
    (hv : decimalValue digits < 2 ^ 64) {gap rest : Bytes} (hgap : ∀ b ∈ gap, isSpace b = true)
    (hrest : ∀ b ∈ rest.head?, isDigit b = false) :
    Numeral (gap ++ digits ++ rest) (decimalValue digits) rest := by
  refine ⟨gap, [], digits, by simp, hgap, by simp, hne, hdig, hrest, ?_⟩
  simp only [toSize, Nat.not_le.mpr hv, if_false]
  simp

/-- `%zu` stores a number if there is a numeral. -/
theorem scan_numeral (s : Bytes) (fmt : List Directive) :
    (scan (.space :: .size :: fmt) s).1 = [] ∨ ∃ n rest, Numeral s n rest := by
  obtain ⟨hs, hgap, hhead⟩ := span_iff.mp
    (⟨rfl, rfl⟩ : s.takeWhile isSpace = _ ∧ s.dropWhile isSpace = _)
  rcases ht : s.dropWhile isSpace with _ | ⟨b, t⟩
  · left
    simp [scan, ht]
  rw [ht] at hs hhead
  have hb : isSpace b = false := hhead b (by simp)
  have hidem : (b :: t).dropWhile isSpace = b :: t := by simp [hb]
  obtain ⟨hun, hdig, hrest⟩ := span_iff.mp (⟨rfl, rfl⟩ :
    (unsign (b :: t)).2.takeWhile isDigit = _ ∧ (unsign (b :: t)).2.dropWhile isDigit = _)
  by_cases hnil : (unsign (b :: t)).2.takeWhile isDigit = []
  · left
    simp [scan, ht, hidem, hnil]
  · right
    obtain ⟨sign, hsign, happ⟩ : ∃ sign ∈ ([[], [43], [45]] : List Bytes),
        b :: t = sign ++ (unsign (b :: t)).2 := by
      unfold unsign
      split
      · rename_i heq
        exact ⟨[45], by simp, heq⟩
      · rename_i heq
        exact ⟨[43], by simp, heq⟩
      · exact ⟨[], by simp, rfl⟩
    refine ⟨_, _, s.takeWhile isSpace, sign, _, ?_, hgap, hsign, hnil, hdig, hrest, rfl⟩
    rw [List.append_assoc, List.append_assoc, ← hun, ← happ, ← hs]

end CString
