import FileServices.Request
import FileServices.Proofs.Gfserver

/-!
# The tokens the server uses

The combined test stops at the first word that is not the request's, so a word that `strtok` did
not find is used only where the words before it were right.  Which requests lack such a word is
written out on the bytes (`Lacks`).
-/

namespace FileServices

open CString

variable {c f buffer delims tok after z : Bytes}

/-! ### The three words -/

/-- Only spaces. -/
def Blank (gap : Bytes) : Prop := ∀ b ∈ gap, b = 32

/-- The string of a request lacks a word that the server goes on to use: it has none at all, none
after `GETFILE`, or no path after `GETFILE GET`. -/
inductive Lacks (c : Bytes) : Prop
  | scheme : Blank c → Lacks c
  | method {gap gap' : Bytes} : c = gap ++ ascii "GETFILE" ++ gap' → Blank gap → Blank gap' →
      Lacks c
  | path {gap gap' tail : Bytes} : c = gap ++ ascii "GETFILE" ++ gap' ++ ascii "GET" ++ tail →
      Blank gap → Blank gap' → gap' ≠ [] →
      (tail = [] ∨ ∃ ends, tail = 32 :: ends ∧ ∀ b ∈ ends, b ∈ crlf2) → Lacks c

/-- Three words of a buffer without a NUL, the third up to a line end, all inside the buffer. -/
def ThreeWords (f : Bytes) : Prop :=
  ∃ gap w₁ gap' w₂ ends w₃ d rest,
    f = gap ++ w₁ ++ gap' ++ w₂ ++ 32 :: ends ++ w₃ ++ d :: rest
    ∧ Blank gap ∧ w₁ ≠ [] ∧ 32 ∉ w₁ ∧ gap' ≠ [] ∧ Blank gap' ∧ w₂ ≠ [] ∧ 32 ∉ w₂
    ∧ (∀ b ∈ ends, b ∈ crlf2) ∧ w₃ ≠ [] ∧ (∀ b ∈ w₃, b ∉ crlf2) ∧ d ∈ crlf2

theorem pointerUses_null_iff {scheme method path : Option Bytes} :
    none ∈ pointerUses scheme method path ↔ scheme = none
      ∨ scheme = some (ascii "GETFILE") ∧ (method = none
        ∨ method = some (ascii "GET") ∧ path = none) := by
  unfold pointerUses
  split_ifs with h₁ h₂ h₃ h₄ <;> rcases scheme with _ | s <;> rcases method with _ | m <;>
    rcases path with _ | p <;> simp_all

/-- The uses are free of NULL just when the parser is defined and hands the handler a path. -/
theorem tokenUses_iff : (∃ uses, tokenUses buffer = some uses ∧ none ∉ uses)
    ↔ parseRequest buffer ≠ .undefined ∧ parseRequest buffer ≠ .handled none := by
  unfold tokenUses parseRequest
  dsimp only
  generalize strtok buffer (ascii " ") = scheme
  generalize scheme.next (ascii " ") = method
  generalize method.next crlf2 = path
  rcases scheme with _ | _ | ⟨w₁, r₁⟩ <;> rcases method with _ | _ | ⟨w₂, r₂⟩ <;>
    rcases path with _ | _ | ⟨w₃, r₃⟩ <;>
    simp [checkTokens, Token.pointer, pointerUses_null_iff]
  all_goals
    by_cases hw : w₁ = ascii "GETFILE" <;> simp [hw]
  all_goals
    by_cases hw' : w₂ = ascii "GET" <;> simp [hw']
  by_cases hw'' : w₃ = ascii "/" <;> simp [hw'']

theorem space_notMem : (0 : UInt8) ∉ ascii " " := by decide

theorem mem_space {b : UInt8} : b ∈ ascii " " ↔ b = 32 := by
  rw [show ascii " " = [32] by decide, List.mem_singleton]

theorem Blank.tail {gap : Bytes} (h : Blank gap) : Blank gap.tail :=
  fun b hb => h b (List.mem_of_mem_tail hb)

theorem blank_of_tail {gap : Bytes} (hhead : ∀ b ∈ gap.head?, b ∈ ascii " ")
    (htail : ∀ b ∈ gap.tail, b ∈ ascii " ") : Blank gap := by
  rcases gap with _ | ⟨x, gap⟩
  · exact List.forall_mem_nil _
  · intro b hb
    rcases List.mem_cons.mp hb with rfl | hb
    · exact mem_space.mp (hhead b rfl)
    · exact mem_space.mp (htail b hb)

/-- Where `strtok` finds the word `w` in a string, and where it goes on. -/
theorem word_iff (hc : 0 ∉ c) {w r : Bytes} (hw : w ≠ []) (hw32 : 32 ∉ w) :
    strtok (c ++ 0 :: z) (ascii " ") = .token w r ↔ ∃ gap tail, c = gap ++ w ++ tail
      ∧ Blank gap ∧ (∀ d ∈ tail.head?, d ∈ ascii " ") ∧ r = tail.tail ++ 0 :: z := by
  rw [strtok_string_token space_notMem hc]
  constructor
  · rintro ⟨gap, tail, h, hgap, -, -, htail, hr⟩
    exact ⟨gap, tail, h, fun b hb => mem_space.mp (hgap b hb), htail, hr⟩
  · rintro ⟨gap, tail, h, hgap, htail, hr⟩
    exact ⟨gap, tail, h, fun b hb => mem_space.mpr (hgap b hb), hw,
      fun b hb hb' => hw32 (mem_space.mp hb' ▸ hb), htail, hr⟩

theorem null_of_lacks (hc : 0 ∉ c) (h : Lacks c) :
    let scheme := strtok (c ++ 0 :: z) (ascii " ")
    let method := scheme.next (ascii " ")
    scheme.pointer = none ∨ scheme.pointer = some (ascii "GETFILE")
      ∧ (method.pointer = none ∨ method.pointer = some (ascii "GET")
        ∧ (method.next crlf2).pointer = none) := by
  dsimp only
  cases h with
  | scheme hblank =>
    left
    rw [(strtok_string_null space_notMem hc).mpr fun b hb => mem_space.mpr (hblank b hb)]
    rfl
  | @method gap gap' heq hgap hgap' =>
    right
    have htail : (0 : UInt8) ∉ gap'.tail := fun h => hc (by simp [heq, List.mem_of_mem_tail h])
    rw [(word_iff hc (by decide) (by decide)).mpr ⟨gap, gap', heq, hgap,
      fun d hd => mem_space.mpr (hgap' d (List.mem_of_mem_head? hd)), rfl⟩]
    refine ⟨rfl, .inl ?_⟩
    rw [Token.next, (strtok_string_null space_notMem htail).mpr fun b hb =>
      mem_space.mpr (hgap'.tail b hb)]
    rfl
  | @path gap gap' tail heq hgap hgap' hne htail =>
    right
    obtain ⟨x, g, rfl⟩ := List.exists_cons_of_ne_nil hne
    obtain rfl : x = 32 := hgap' x List.mem_cons_self
    have hrest : (0 : UInt8) ∉ g ++ ascii "GET" ++ tail := fun h => hc (by
      rw [heq]
      simp only [List.mem_append, List.mem_cons] at h ⊢
      tauto)
    have hend : (0 : UInt8) ∉ tail.tail := fun h => hrest (by simp [List.mem_of_mem_tail h])
    have hhead : ∀ d ∈ tail.head?, d ∈ ascii " " := by
      rcases htail with rfl | ⟨ends, rfl, -⟩ <;> simp [mem_space]
    have hlast : ∀ b ∈ tail.tail, b ∈ crlf2 := by
      rcases htail with rfl | ⟨ends, rfl, hends⟩
      · simp
      · exact hends
    rw [(word_iff (w := ascii "GETFILE") hc (by decide) (by decide)).mpr
      ⟨gap, 32 :: g ++ ascii "GET" ++ tail, by simp [heq], hgap, by simp [mem_space], rfl⟩]
    refine ⟨rfl, .inr ?_⟩
    rw [Token.next, show (32 :: g ++ ascii "GET" ++ tail).tail = g ++ ascii "GET" ++ tail from rfl,
      (word_iff (w := ascii "GET") hrest (by decide) (by decide)).mpr ⟨g, tail, rfl,
        fun b hb => hgap' b (List.mem_cons_of_mem _ hb), hhead, rfl⟩]
    refine ⟨rfl, ?_⟩
    rw [Token.next, (strtok_string_null (by decide) hend).mpr hlast]
    rfl

theorem lacks_of_null (hc : 0 ∉ c)
    (h : let scheme := strtok (c ++ 0 :: z) (ascii " ")
      let method := scheme.next (ascii " ")
      scheme.pointer = none ∨ scheme.pointer = some (ascii "GETFILE")
        ∧ (method.pointer = none ∨ method.pointer = some (ascii "GET")
          ∧ (method.next crlf2).pointer = none)) : Lacks c := by
  have hs : (strtok (c ++ 0 :: z) (ascii " ")).Inside := strtok_inside space_notMem (by simp)
  have hm := hs.next space_notMem
  have hp := hm.next (by decide : (0 : UInt8) ∉ crlf2)
  rcases h with h | ⟨h, hrest⟩
  · rw [pointer_eq_none hs.1, strtok_string_null space_notMem hc] at h
    exact .scheme fun b hb => mem_space.mp (h b hb)
  obtain ⟨r, hr⟩ := pointer_eq_some.mp h
  rw [hr] at hm hp hrest
  obtain ⟨gap, tail, heq, hgap, hhead, rfl⟩ := (word_iff hc (by decide) (by decide)).mp hr
  have htail : (0 : UInt8) ∉ tail.tail := fun h => hc (by simp [heq, List.mem_of_mem_tail h])
  rcases hrest with h' | ⟨h', hnull⟩
  · rw [pointer_eq_none hm.1, Token.next, strtok_string_null space_notMem htail] at h'
    exact .method heq hgap (blank_of_tail hhead h')
  obtain ⟨r', hr'⟩ := pointer_eq_some.mp h'
  rw [hr'] at hp hnull
  obtain ⟨gap', tail', heq', hgap', hhead', rfl⟩ :=
    (word_iff htail (by decide) (by decide)).mp hr'
  have htail' : (0 : UInt8) ∉ tail'.tail := fun h =>
    htail (by simp [heq', List.mem_of_mem_tail h])
  rw [pointer_eq_none hp.1, Token.next, strtok_string_null (by decide) htail'] at hnull
  rcases tail with _ | ⟨x, tail⟩
  · simp [show ascii "GET" = [71, 69, 84] by decide] at heq'
  obtain rfl : x = 32 := mem_space.mp (hhead x rfl)
  refine @Lacks.path _ gap (32 :: gap') tail' ?_ hgap ?_ (by simp) ?_
  · rw [heq, show tail = gap' ++ ascii "GET" ++ tail' from heq']
    simp
  · intro b hb
    rcases List.mem_cons.mp hb with rfl | hb
    · rfl
    · exact hgap' b hb
  · rcases tail' with _ | ⟨y, ends⟩
    · exact .inl rfl
    · exact .inr ⟨ends, by rw [mem_space.mp (hhead' y rfl)], hnull⟩

/-- On a terminated string the three calls stay inside the buffer, and the uses have a NULL
among them just when the string lacks a word. -/
theorem tokenUses_string (hc : 0 ∉ c) :
    ∃ uses, tokenUses (c ++ 0 :: z) = some uses ∧ (none ∈ uses ↔ Lacks c) := by
  have hs : (strtok (c ++ 0 :: z) (ascii " ")).Inside := strtok_inside space_notMem (by simp)
  have hm := hs.next space_notMem
  have hp := hm.next (by decide : (0 : UInt8) ∉ crlf2)
  refine ⟨_, if_neg (by simp [hs.1, hm.1, hp.1]), ?_⟩
  rw [pointerUses_null_iff]
  exact ⟨lacks_of_null hc, null_of_lacks hc⟩

/-! ### A buffer without a NUL -/

/-- In a buffer without a NUL a word is found or the search runs off it. -/
theorem tokenUses_full (hbuf : 0 ∉ f) :
    (∃ uses, tokenUses f = some uses ∧ none ∉ uses) ↔ ThreeWords f := by
  constructor
  · rintro ⟨uses, huses, -⟩
    by_cases hout : strtok f (ascii " ") = .outside
        ∨ (strtok f (ascii " ")).next (ascii " ") = .outside
        ∨ ((strtok f (ascii " ")).next (ascii " ")).next crlf2 = .outside
    · simp [tokenUses, hout] at huses
    push Not at hout
    obtain ⟨h₁, h₂, h₃⟩ := hout
    obtain ⟨w₁, r₁, ht₁, hr₁⟩ := (strtok_full space_notMem hbuf).resolve_left h₁
    rw [ht₁, Token.next] at h₂ h₃
    obtain ⟨w₂, r₂, ht₂, hr₂⟩ := (strtok_full space_notMem hr₁).resolve_left h₂
    rw [ht₂, Token.next] at h₃
    obtain ⟨w₃, r₃, ht₃, -⟩ := (strtok_full (by decide) hr₂).resolve_left h₃
    obtain ⟨gap, d₁, rfl, hgap, hne₁, hw₁, hd₁⟩ := (strtok_full_token hbuf).mp ht₁
    obtain ⟨gap', d₂, rfl, hgap', hne₂, hw₂, hd₂⟩ := (strtok_full_token hr₁).mp ht₂
    obtain ⟨ends, d₃, rfl, hends, hne₃, hw₃, hd₃⟩ := (strtok_full_token hr₂).mp ht₃
    simp only [mem_space] at hgap hgap' hd₁ hd₂ hw₁ hw₂
    subst hd₁ hd₂
    refine ⟨gap, w₁, 32 :: gap', w₂, ends, w₃, d₃, r₃, by simp, hgap, hne₁,
      fun h => hw₁ 32 h rfl, by simp, ?_, hne₂, fun h => hw₂ 32 h rfl, hends, hne₃, hw₃, hd₃⟩
    intro b hb
    rcases List.mem_cons.mp hb with rfl | hb
    · rfl
    · exact hgap' b hb
  · rintro ⟨gap, w₁, gap', w₂, ends, w₃, d, rest, rfl, hgap, hne₁, hw₁, hne, hgap', hne₂, hw₂,
      hends, hne₃, hw₃, hd⟩
    obtain ⟨x, g, rfl⟩ := List.exists_cons_of_ne_nil hne
    obtain rfl : x = 32 := hgap' x List.mem_cons_self
    have hg : Blank g := fun b hb => hgap' b (List.mem_cons_of_mem _ hb)
    have hword : ∀ {w : Bytes}, 32 ∉ w → ∀ b ∈ w, b ∉ ascii " " := fun hw b hb hb' =>
      hw (mem_space.mp hb' ▸ hb)
    have hblank : ∀ {gap : Bytes}, Blank gap → ∀ b ∈ gap, b ∈ ascii " " := fun h b hb =>
      mem_space.mpr (h b hb)
    have hr₁ : (0 : UInt8) ∉ g ++ w₂ ++ 32 :: ends ++ w₃ ++ d :: rest := fun h => hbuf (by
      simp only [List.mem_append, List.mem_cons] at h ⊢
      tauto)
    have hr₂ : (0 : UInt8) ∉ ends ++ w₃ ++ d :: rest := fun h => hr₁ (by
      simp only [List.mem_append, List.mem_cons] at h ⊢
      tauto)
    have ht₁ : strtok (gap ++ w₁ ++ 32 :: g ++ w₂ ++ 32 :: ends ++ w₃ ++ d :: rest) (ascii " ")
        = .token w₁ (g ++ w₂ ++ 32 :: ends ++ w₃ ++ d :: rest) :=
      (strtok_full_token hbuf).mpr
        ⟨gap, 32, by simp, hblank hgap, hne₁, hword hw₁, by decide⟩
    have ht₂ : strtok (g ++ w₂ ++ 32 :: ends ++ w₃ ++ d :: rest) (ascii " ")
        = .token w₂ (ends ++ w₃ ++ d :: rest) :=
      (strtok_full_token hr₁).mpr ⟨g, 32, by simp, hblank hg, hne₂, hword hw₂, by decide⟩
    have ht₃ : strtok (ends ++ w₃ ++ d :: rest) crlf2 = .token w₃ rest :=
      (strtok_full_token hr₂).mpr ⟨ends, d, rfl, hends, hne₃, hw₃, hd⟩
    refine ⟨pointerUses (some w₁) (some w₂) (some w₃), ?_, ?_⟩
    · simp only [tokenUses, ht₁, Token.next, ht₂, ht₃, Token.pointer]
      exact if_neg (by simp)
    · simp [pointerUses_null_iff]

/-! ### A connection -/

theorem fillBuffer_string (h : f.length < bufsize ∨ 0 ∈ f) :
    ∃ z, fillBuffer f = cstr f ++ 0 :: z := by
  by_cases h0 : 0 ∈ f
  · obtain ⟨z, hz⟩ := cstr_terminated h0
    refine ⟨z ++ List.replicate (bufsize - f.length) 0, ?_⟩
    rw [fillBuffer]
    nth_rewrite 1 [hz]
    simp
  · obtain ⟨z, hz⟩ := fillBuffer_cons (h.resolve_right h0)
    exact ⟨z, by rw [hz, cstr_eq_self h0]⟩

/-- No NULL is passed to `strcmp` or to the handler just when the `recv` delivers something and
the request lacks no word that is used; or it fills the buffer without a NUL and the three words
end inside. -/
theorem tokens_used_iff (r : Option Bytes) :
    (∃ uses, connectionUses r = some uses ∧ none ∉ uses) ↔ ∃ f, r = some f
      ∧ (f = [] ∨ if f.length < bufsize ∨ 0 ∈ f then ¬ Lacks (cstr f) else ThreeWords f) := by
  rcases r with _ | f
  · obtain ⟨z, hz⟩ := fillBuffer_string (f := []) (.inl (by decide))
    obtain ⟨uses, huses, hnull⟩ := tokenUses_string (z := z) (notMem_cstr [])
    have hlacks : Lacks (cstr []) := .scheme (List.forall_mem_nil _)
    simp [connectionUses, hz, huses, hnull, hlacks]
  rcases eq_or_ne f [] with rfl | hne
  · simp [connectionUses]
  simp only [connectionUses, hne, if_false, Option.some.injEq, exists_eq_left', false_or]
  split_ifs with h
  · obtain ⟨z, hz⟩ := fillBuffer_string h
    obtain ⟨uses, huses, hnull⟩ := tokenUses_string (z := z) (notMem_cstr f)
    simp [hz, huses, hnull]
  · obtain ⟨hfull, h0⟩ := not_or.mp h
    have hbuf : fillBuffer f = f := by
      simp [fillBuffer, Nat.sub_eq_zero_of_le (not_lt.mp hfull)]
    rw [hbuf]
    exact tokenUses_full h0

/-- A request of one word: its missing second word is compared with `GET`. -/
theorem tokens_missing :
    connectionUses (some (ascii "GETFILE")) = some [some (ascii "GETFILE"), none]
      ∧ connectionUses (some (ascii "GETFILE GET "))
        = some [some (ascii "GETFILE"), some (ascii "GET"), none]
      ∧ connectionUses none = some [none] := by
  decide

end FileServices
