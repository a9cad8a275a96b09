import FileServices.Proofs.Receiver
import FileServices.Proofs.Segmentation

/-!
# When the receive loop is left

The loop compares the count with the announced length after each packet, and with the end of the
stream only as long as the count is smaller.  A count that steps over the length is never equal
to it and never smaller again, and every `recv` after the stream has ended comes back to the same
test.
-/

namespace FileServices

open CString Cut

variable {s : Receiver} {n : ℕ} {f : Bytes} {ps : List Bytes}

theorem sizeAdd_lt (a b : ℕ) : sizeAdd a b < 2 ^ 64 := Nat.mod_lt _ (by decide)

theorem sizeAdd_zero {a : ℕ} (h : a < 2 ^ 64) : sizeAdd a 0 = a := Nat.mod_eq_of_lt h

theorem sizeAdd_sizeAdd (a b c : ℕ) : sizeAdd (sizeAdd a b) c = sizeAdd a (b + c) := by
  simp [sizeAdd, Nat.add_assoc]

theorem sizeAdd_sizeSub (a b c : ℕ) : sizeAdd (sizeSub a b) c = sizeSub (a + c) b := by
  rw [sizeAdd, sizeSub, sizeSub, Nat.mod_add_mod, Nat.add_right_comm]

/-! ### The content -/

/-- Past the length, the end of the stream does not end the loop. -/
theorem resume_overrun : ∀ (k : ℕ) (s : Receiver), s.headerRcvd = true → s.writeFunc = true →
    s.bytesReceived < 2 ^ 64 → s.len < s.bytesReceived → ∀ r,
      resume s (List.replicate k (some [])) ≠ .stop r
  | k, s, hh, hw, hlt, hover, r => by
    rw [resume, if_neg hover.ne]
    match k with
    | 0 =>
      rw [List.replicate_zero, Loop.run_nil rfl]
      exact nofun
    | k + 1 =>
      have hsame : (s.content []).bytesReceived = s.bytesReceived := sizeAdd_zero hlt
      rw [List.replicate_succ, run_content_packet hh hw fun h => absurd h.2 (not_lt.mpr hover.le)]
      exact resume_overrun k (s.content []) hh hw (by rwa [hsame])
        (by rw [hsame]; exact hover) r

/-- From the end of an iteration the loop is left where a packet brings the count to the length,
or where the stream ends with a smaller count. -/
theorem resume_leaves_iff : ∀ (ps : List Bytes) (s : Receiver), s.headerRcvd = true →
    s.writeFunc = true → s.bytesReceived < 2 ^ 64 → (∀ p ∈ ps, p ≠ []) →
      ((∃ k r, resume s (ps.map some ++ List.replicate k (some [])) = .stop (.returned r))
        ↔ (∃ as bs, ps = as ++ bs ∧ sizeAdd s.bytesReceived as.flatten.length = s.len)
          ∨ sizeAdd s.bytesReceived ps.flatten.length < s.len)
  | ps, s, hh, hw, hlt, hne => by
    by_cases hlen : s.len = s.bytesReceived
    · refine iff_of_true ⟨0, s, if_pos hlen⟩ (.inl ⟨[], ps, rfl, ?_⟩)
      rw [hlen]
      exact sizeAdd_zero hlt
    match ps with
    | [] =>
      have hhit : ¬ ∃ as bs, ([] : List Bytes) = as ++ bs
          ∧ sizeAdd s.bytesReceived as.flatten.length = s.len := by
        rintro ⟨as, bs, hab, has⟩
        obtain ⟨rfl, -⟩ := List.append_eq_nil_iff.mp hab.symm
        exact hlen (has.symm.trans (sizeAdd_zero hlt))
      simp only [hhit, false_or, List.map_nil, List.nil_append, List.flatten_nil, List.length_nil,
        sizeAdd_zero hlt]
      constructor
      · rintro ⟨k, r, hk⟩
        by_contra hge
        exact resume_overrun k s hh hw hlt (by omega) _ hk
      · intro hshort
        refine ⟨1, s.answer .ok [], ?_⟩
        rw [resume, if_neg hlen]
        exact run_eof hh hshort []
    | p :: ps =>
      have hp : ¬ (p = [] ∧ s.bytesReceived < s.len) := fun h => hne p List.mem_cons_self h.1
      have hstep : ∀ k, resume s ((p :: ps).map some ++ List.replicate k (some []))
          = resume (s.content p) (ps.map some ++ List.replicate k (some [])) := fun k => by
        rw [resume, if_neg hlen, List.map_cons, List.cons_append, run_content_packet hh hw hp]
      simp only [hstep]
      rw [resume_leaves_iff ps (s.content p) hh hw (sizeAdd_lt _ _)
        fun q hq => hne q (List.mem_cons_of_mem _ hq)]
      have hbytes : (s.content p).bytesReceived = sizeAdd s.bytesReceived p.length := rfl
      have hlen' : (s.content p).len = s.len := rfl
      rw [hbytes, hlen', sizeAdd_sizeAdd, List.flatten_cons, List.length_append]
      refine or_congr ⟨?_, ?_⟩ Iff.rfl
      · rintro ⟨as, bs, rfl, has⟩
        refine ⟨p :: as, bs, rfl, ?_⟩
        rwa [sizeAdd_sizeAdd, ← List.length_append, ← List.flatten_cons] at has
      · rintro ⟨_ | ⟨a, as⟩, bs, hab, has⟩
        · exact absurd (has.symm.trans (sizeAdd_zero hlt)) hlen
        · obtain ⟨rfl, rfl⟩ := List.cons.inj hab
          refine ⟨as, bs, rfl, ?_⟩
          rwa [sizeAdd_sizeAdd, ← List.length_append, ← List.flatten_cons]

/-! ### A stream -/

/-- The stream is empty; or its first packet says what no content follows; or it announces `n`
bytes, and a packet ends where `n` bytes are counted past the header, or the whole stream counts
fewer. -/
def Leavable (ps : List Bytes) : Prop :=
  ps = [] ∨ ∃ f qs, ps = f :: qs ∧ ((∃ status, Says f (.reply status))
    ∨ ∃ n, Says f (.ok n) ∧ ((∃ m, EndsAt ps m ∧ sizeSub m (headerLength n) = n)
      ∨ sizeSub ps.flatten.length (headerLength n) < n))

theorem receive_leaves_ok (hf : f ≠ []) (hdec : decodeHeader f = .ok n) (hne : ∀ p ∈ ps, p ≠ []) :
    (∃ k r, receive ((f :: ps).map some ++ List.replicate k (some [])) = .stop (.returned r))
      ↔ (∃ m, EndsAt (f :: ps) m ∧ sizeSub m (headerLength n) = n)
        ∨ sizeSub (f :: ps).flatten.length (headerLength n) < n := by
  have hrun : ∀ k, receive ((f :: ps).map some ++ List.replicate k (some []))
      = resume ((Receiver.start freshRequest).header n f)
        (ps.map some ++ List.replicate k (some [])) := fun k => by
    rw [List.map_cons, List.cons_append, receive_header hf hdec]
  have hbytes : ((Receiver.start freshRequest).header n f).bytesReceived
      = sizeSub f.length (headerLength n) := by
    change (0 + sizeSub f.length (headerLength n)) % 2 ^ 64 = _
    rw [Nat.zero_add]
    exact Nat.mod_eq_of_lt (Nat.mod_lt _ (by decide))
  have hlen : ((Receiver.start freshRequest).header n f).len = n := rfl
  simp only [hrun]
  rw [resume_leaves_iff ps _ rfl rfl (sizeAdd_lt _ _) hne, hbytes, hlen, sizeAdd_sizeSub,
    List.flatten_cons, List.length_append]
  refine or_congr ⟨?_, ?_⟩ Iff.rfl
  · rintro ⟨as, bs, rfl, has⟩
    refine ⟨_, endsAt_cons.mpr ⟨as, bs, rfl, rfl⟩, ?_⟩
    rwa [sizeAdd_sizeSub, ← List.length_append, ← List.flatten_cons] at has
  · rintro ⟨m, hm, hcount⟩
    obtain ⟨as, bs, rfl, rfl⟩ := endsAt_cons.mp hm
    refine ⟨as, bs, rfl, ?_⟩
    rwa [sizeAdd_sizeSub, ← List.length_append, ← List.flatten_cons]

/-- The loop is left just when the stream can be: its count does not step over the length, and
its first packet is one that C defines the checks on. -/
theorem receive_leaves_iff {stream : Bytes} (hcut : IsCut bufsize stream ps) :
    (∃ k r, receive (ps.map some ++ List.replicate k (some [])) = .stop (.returned r))
      ↔ Leavable ps := by
  rcases ps with _ | ⟨f, ps⟩
  · exact iff_of_true ⟨1, _, receive_closed []⟩ (.inl rfl)
  obtain ⟨-, hf, -, hps⟩ := hcut.cons
  have hleav : Leavable (f :: ps) ↔ (∃ status, Says f (.reply status))
      ∨ ∃ n, Says f (.ok n) ∧ ((∃ m, EndsAt (f :: ps) m ∧ sizeSub m (headerLength n) = n)
        ∨ sizeSub (f :: ps).flatten.length (headerLength n) < n) := by
    constructor
    · rintro (h | ⟨g, qs, h, hg⟩)
      · cases h
      · obtain ⟨rfl, rfl⟩ := List.cons.inj h
        exact hg
    · exact fun h => .inr ⟨f, ps, rfl, h⟩
  rw [hleav, says_answer_iff]
  rcases hdec : decodeHeader f with _ | status | n
  · refine iff_of_false ?_ id
    rintro ⟨k, r, hk⟩
    rw [List.map_cons, List.cons_append, receive_undefined hf hdec] at hk
    cases hk
  · exact iff_of_true ⟨0, _, receive_reply hf hdec _⟩ trivial
  · exact receive_leaves_ok hf hdec hps.ne_nil

theorem receive_leaves_iff_hi :
    (∃ k r, receive ([okHeader 2, ascii "hi"].map some ++ List.replicate k (some []))
        = .stop (.returned r)) ↔ Leavable [okHeader 2, ascii "hi"] :=
  receive_leaves_iff (show IsCut bufsize (okHeader 2 ++ ascii "hi") _ by decide)

/-- A byte more than announced, in the packet of the header: the loop never ends. -/
theorem receive_spins :
    IsCut bufsize (okHeader 2 ++ ascii "hi!") [okHeader 2 ++ ascii "hi!"]
      ∧ ¬ ∃ k r, receive ([okHeader 2 ++ ascii "hi!"].map some ++ List.replicate k (some []))
        = .stop (.returned r) := by
  refine ⟨by decide, fun h => ?_⟩
  have hdec : decodeHeader (okHeader 2 ++ ascii "hi!") = .ok 2 := by decide
  rcases (receive_leaves_ok (by decide) hdec (List.forall_mem_nil _)).mp h with
    ⟨m, hm, hcount⟩ | hshort
  · obtain ⟨cs, bs, hnil, rfl⟩ := endsAt_cons.mp hm
    obtain ⟨rfl, -⟩ := List.append_eq_nil_iff.mp hnil.symm
    exact absurd hcount (by decide)
  · exact absurd hshort (by decide)

end FileServices
