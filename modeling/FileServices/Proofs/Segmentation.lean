import FileServices.Proofs.Gfclient

/-!
# One stream cut in two ways

`recv` decides where a stream is cut, and the client looks for the header in its first packet
only and for the end of the content only where a packet ends.  Two cuts of a stream come to the
same thing just when neither of the two shows (`sameReception_iff`).
-/

namespace FileServices

open CString Cut

/-- The length the client takes the header to have. -/
def headerLength (n : ℕ) : ℕ := (printedHeader n).length

/-- The first packet to end where `n` bytes are counted past the header ends at `m`. -/
def Completes (n : ℕ) (ps : List Bytes) (m : ℕ) : Prop :=
  EndsAt ps m ∧ (m - headerLength n) % 2 ^ 64 = n
    ∧ ∀ m' < m, EndsAt ps m' → (m' - headerLength n) % 2 ^ 64 ≠ n

/-- No packet ends where `n` bytes are counted past the header. -/
def NeverCompletes (n : ℕ) (ps : List Bytes) : Prop :=
  ∀ m, EndsAt ps m → (m - headerLength n) % 2 ^ 64 ≠ n

theorem Completes.unique {n m m' : ℕ} {ps : List Bytes} (h : Completes n ps m)
    (h' : Completes n ps m') : m = m' := by
  obtain ⟨he, hc, hmin⟩ := h
  obtain ⟨he', hc', hmin'⟩ := h'
  rcases Nat.lt_trichotomy m m' with hlt | heq | hgt
  · exact absurd hc (hmin' m hlt he)
  · exact heq
  · exact absurd hc' (hmin m' hgt he')

section Contents

variable {n : ℕ} {f : Bytes} {ps : List Bytes}

/-- The count after the packets `f :: cs`. -/
def countAt (n : ℕ) (f : Bytes) (cs : List Bytes) : ℕ :=
  ((f :: cs).flatten.length - headerLength n) % 2 ^ 64

theorem flatten_contents (hfit : headerLength n ≤ f.length) (cs : List Bytes) :
    (contents n f cs).flatten = (f :: cs).flatten.drop (headerLength n) := by
  rw [contents, List.flatten_cons, List.flatten_cons, List.drop_append_of_le_length hfit]
  rfl

theorem received_contents (hfit : headerLength n ≤ f.length) (cs : List Bytes) :
    ((announced n).received (contents n f cs)).bytesReceived = countAt n f cs := by
  rw [received_announced, flatten_contents hfit, List.length_drop, countAt]

theorem contents_append {as bs : List Bytes} (hne : as ≠ []) :
    contents n f ps = as ++ bs ↔ ∃ cs, ps = cs ++ bs ∧ as = contents n f cs := by
  obtain ⟨a, cs, rfl⟩ := List.exists_cons_of_ne_nil hne
  constructor
  · intro h
    rw [contents, List.cons_append] at h
    obtain ⟨rfl, rfl⟩ := List.cons.inj h
    exact ⟨cs, rfl, rfl⟩
  · rintro ⟨ds, rfl, has⟩
    rw [has]
    rfl

theorem passes_contents (hfit : headerLength n ≤ f.length) (cs : List Bytes) :
    Passes (announced n) n (contents n f cs) ↔ ∀ ds es, cs = ds ++ es → countAt n f ds ≠ n := by
  constructor
  · intro h ds es hde
    rw [← received_contents hfit]
    exact h _ es ((contents_append (by simp [contents])).mpr ⟨ds, hde, rfl⟩) (by simp [contents])
  · intro h as bs hab hne
    obtain ⟨ds, hds, rfl⟩ := (contents_append hne).mp hab
    rw [received_contents hfit]
    exact h ds bs hds

theorem neverCompletes_iff :
    NeverCompletes n (f :: ps) ↔ ∀ cs bs, ps = cs ++ bs → countAt n f cs ≠ n := by
  constructor
  · exact fun h cs bs hcb => h _ (endsAt_cons.mpr ⟨cs, bs, hcb, rfl⟩)
  · rintro h m hm
    obtain ⟨cs, bs, hcb, rfl⟩ := endsAt_cons.mp hm
    exact h cs bs hcb

theorem completes_iff (hne : ∀ p ∈ ps, p ≠ []) {m : ℕ} :
    Completes n (f :: ps) m ↔ ∃ cs bs, ps = cs ++ bs ∧ (f :: cs).flatten.length = m
      ∧ countAt n f cs = n ∧ ∀ ds es, cs = ds ++ es → es ≠ [] → countAt n f ds ≠ n := by
  constructor
  · rintro ⟨hm, hcount, hmin⟩
    obtain ⟨cs, bs, rfl, rfl⟩ := endsAt_cons.mp hm
    refine ⟨cs, bs, rfl, rfl, hcount, ?_⟩
    rintro ds es rfl hes
    refine hmin _ ?_ (endsAt_cons.mpr ⟨ds, es ++ bs, by simp, rfl⟩)
    have heq : ds ++ (es ++ bs) = (ds ++ es) ++ bs := by simp
    have := (lt_flatten_iff heq hne).mpr ⟨es, hes, rfl⟩
    simp only [List.flatten_cons, List.length_append] at this ⊢
    omega
  · rintro ⟨cs, bs, rfl, rfl, hcount, hmin⟩
    refine ⟨endsAt_cons.mpr ⟨cs, bs, rfl, rfl⟩, hcount, fun m' hlt hm' => ?_⟩
    obtain ⟨ds, es, hde, rfl⟩ := endsAt_cons.mp hm'
    have hlt' : ds.flatten.length < cs.flatten.length := by
      simp only [List.flatten_cons, List.length_append] at hlt
      omega
    obtain ⟨ws, hws, rfl⟩ := (lt_flatten_iff hde.symm hne).mp hlt'
    exact hmin ds ws rfl hws

/-- The first packet that completes the content, as `ends_iff` has it. -/
theorem hits_iff (hfit : headerLength n ≤ f.length) {R : List Bytes → Prop} :
    (∃ as p bs, contents n f ps = as ++ p :: bs ∧ Passes (announced n) n as
        ∧ ((announced n).received (as ++ [p])).bytesReceived = n ∧ R (as ++ [p]))
      ↔ ∃ cs bs, ps = cs ++ bs ∧ countAt n f cs = n
        ∧ (∀ ds es, cs = ds ++ es → es ≠ [] → countAt n f ds ≠ n) ∧ R (contents n f cs) := by
  constructor
  · rintro ⟨as, p, bs, hsplit, hpass, hlen, hR⟩
    have hsplit' : contents n f ps = (as ++ [p]) ++ bs := by rw [hsplit]; simp
    obtain ⟨cs, hcs, hap⟩ := (contents_append (by simp)).mp hsplit'
    rw [hap] at hR hlen
    rw [received_contents hfit] at hlen
    refine ⟨cs, bs, hcs, hlen, ?_, hR⟩
    rintro ds es rfl hes
    obtain ⟨es, e, rfl⟩ := (List.eq_nil_or_concat es).resolve_left hes
    rw [List.concat_eq_append] at hap
    have has : as = contents n f (ds ++ es) ∧ p = e := by
      have : as ++ [p] = contents n f (ds ++ es) ++ [e] := by rw [hap]; simp [contents]
      simpa using List.append_inj' this rfl
    exact (passes_contents hfit _).mp (has.1 ▸ hpass) ds es rfl
  · rintro ⟨cs, bs, rfl, hcount, hmin, hR⟩
    obtain ⟨as, p, hap⟩ := (List.eq_nil_or_concat (contents n f cs)).resolve_left
      (by simp [contents])
    rw [List.concat_eq_append] at hap
    refine ⟨as, p, bs, ?_, ?_, ?_, hap ▸ hR⟩
    · have : contents n f (cs ++ bs) = contents n f cs ++ bs := rfl
      rw [this, hap]
      simp
    · rcases as with _ | ⟨a, as⟩
      · exact passes_nil
      · obtain ⟨ds, hds, has⟩ := (contents_append (by simp)).mp hap
        rw [has]
        refine (passes_contents hfit _).mpr ?_
        rintro ws es rfl
        exact hmin ws (es ++ [p]) (by rw [hds]; simp) (by simp)
    · rw [← hap, received_contents hfit, hcount]

/-- What the reception of an OK stream comes to. -/
theorem ends_ok_cases (hcap : f.length ≤ bufsize) (hfit : headerLength n ≤ f.length)
    (hread : Says f (.ok n)) (hne : ∀ p ∈ ps, p ≠ []) {gfr : GfcRequest} {code : ℤ}
    (h : Ends (f :: ps) (.returned gfr code)) :
    gfr.status = .ok ∧ gfr.fileLength = n
      ∧ ((∃ m, Completes n (f :: ps) m ∧ code = 0 ∧ gfr.bytesReceived = n
          ∧ gfr.written.flatten = ((f :: ps).flatten.take m).drop (headerLength n))
        ∨ (NeverCompletes n (f :: ps) ∧ countAt n f ps < n ∧ code = -1
          ∧ gfr.bytesReceived = countAt n f ps
          ∧ gfr.written.flatten = (f :: ps).flatten.drop (headerLength n))) := by
  rcases (ends_iff hread.decodeHeader hfit hcap hne).mp h with hhit | ⟨hpass, hlt, hr⟩
  · obtain ⟨cs, bs, hcs, hcount, hmin, hr⟩ := (hits_iff hfit
      (R := fun as => Result.returned gfr code = gfcReturn ((announced n).received as))).mp hhit
    obtain ⟨rfl, rfl⟩ := Result.returned.inj hr
    have hbr := received_contents hfit cs
    refine ⟨rfl, rfl, .inl ⟨_, (completes_iff hne).mpr ⟨cs, bs, hcs, rfl, hcount, hmin⟩, ?_,
      hbr.trans hcount, ?_⟩⟩
    · rw [hbr, hcount]
      simp [GfcRequest.received, announced, getReturnCode]
    · rw [hcs, ← List.cons_append, take_flatten, ← flatten_contents hfit]
      rfl
  · obtain ⟨rfl, rfl⟩ := Result.returned.inj hr
    have hbr := received_contents hfit ps
    rw [hbr] at hlt
    refine ⟨rfl, rfl, .inr ⟨neverCompletes_iff.mpr ((passes_contents hfit ps).mp hpass), hlt, ?_,
      hbr, ?_⟩⟩
    · rw [hbr]
      have : countAt n f ps ≠ n := by omega
      simp [GfcRequest.received, announced, getReturnCode, this]
    · rw [← flatten_contents hfit]
      rfl

theorem ends_ok_exists (hcap : f.length ≤ bufsize) (hfit : headerLength n ≤ f.length)
    (hread : Says f (.ok n)) (hne : ∀ p ∈ ps, p ≠ [])
    (h : (∃ m, Completes n (f :: ps) m)
      ∨ NeverCompletes n (f :: ps) ∧ countAt n f ps < n) :
    ∃ gfr code, Ends (f :: ps) (.returned gfr code) := by
  rcases h with ⟨m, hm⟩ | ⟨hnever, hlt⟩
  · obtain ⟨cs, bs, hcs, -, hcount, hmin⟩ := (completes_iff hne).mp hm
    have hhit := (hits_iff hfit (R := fun as => gfcReturn ((announced n).received (contents n f cs))
      = gfcReturn ((announced n).received as))).mpr ⟨cs, bs, hcs, hcount, hmin, rfl⟩
    exact ⟨_, _, (ends_iff hread.decodeHeader hfit hcap hne).mpr (.inl hhit)⟩
  · have hpass := (passes_contents hfit ps).mpr (neverCompletes_iff.mp hnever)
    exact ⟨_, _, (ends_iff hread.decodeHeader hfit hcap hne).mpr
      (.inr ⟨hpass, by rw [received_contents hfit]; exact hlt, rfl⟩)⟩

/-- What comes of a stream whose content is complete where a packet ends. -/
theorem ends_ok_of_completes (hcap : f.length ≤ bufsize) (hfit : headerLength n ≤ f.length)
    (hread : Says f (.ok n)) (hne : ∀ p ∈ ps, p ≠ []) {m : ℕ} (hm : Completes n (f :: ps) m) :
    ∃ gfr, Ends (f :: ps) (.returned gfr 0) ∧ gfr.status = .ok ∧ gfr.fileLength = n
      ∧ gfr.bytesReceived = n
      ∧ gfr.written.flatten = ((f :: ps).flatten.take m).drop (headerLength n) := by
  obtain ⟨gfr, code, h⟩ := ends_ok_exists hcap hfit hread hne (.inl ⟨m, hm⟩)
  obtain ⟨hok, hn, ⟨m', hm', rfl, hb, hw⟩ | ⟨hv, -⟩⟩ := ends_ok_cases hcap hfit hread hne h
  · obtain rfl := hm.unique hm'
    exact ⟨gfr, h, hok, hn, hb, hw⟩
  · exact absurd hm.2.1 (hv m hm.1)

/-- What comes of a stream that falls short. -/
theorem ends_ok_of_never (hcap : f.length ≤ bufsize) (hfit : headerLength n ≤ f.length)
    (hread : Says f (.ok n)) (hne : ∀ p ∈ ps, p ≠ []) (hv : NeverCompletes n (f :: ps))
    (hlt : countAt n f ps < n) :
    ∃ gfr, Ends (f :: ps) (.returned gfr (-1)) ∧ gfr.status = .ok ∧ gfr.fileLength = n
      ∧ gfr.bytesReceived = countAt n f ps
      ∧ gfr.written.flatten = (f :: ps).flatten.drop (headerLength n) := by
  obtain ⟨gfr, code, h⟩ := ends_ok_exists hcap hfit hread hne (.inr ⟨hv, hlt⟩)
  obtain ⟨hok, hn, ⟨m, hm, -⟩ | ⟨-, -, rfl, hb, hw⟩⟩ := ends_ok_cases hcap hfit hread hne h
  · exact absurd hm.2.1 (hv m hm.1)
  · exact ⟨gfr, h, hok, hn, hb, hw⟩

end Contents

/-! ### The first packet -/

section First

variable {f : Bytes} {ps : List Bytes}

theorem gfcPerform_undefined (h : gfcBody ⟨freshRequest, false, 0⟩ (some f)
    = .stop .undefined) {r : Result} : Ends (f :: ps) r ↔ r = .undefined := by
  have hrun : ∀ k, gfcPerform freshRequest ((f :: ps).map some ++ List.replicate k (some []))
      = .stop .undefined := fun k => Loop.run_cons_stop rfl h _
  simp only [Ends, hrun, Loop.Outcome.stop.injEq, exists_const]
  exact eq_comm

theorem ends_reply_iff {status : GfStatus} (hne : f ≠ []) (hread : Says f (.reply status))
    {r : Result} :
    Ends (f :: ps) r ↔ r = gfcReturn { freshRequest with status := status } := by
  have hrun : ∀ k, gfcPerform freshRequest ((f :: ps).map some ++ List.replicate k (some []))
      = .stop (gfcReturn { freshRequest with status := status }) := fun k =>
    gfcPerform_reply hne hread.decodeHeader _
  simp only [Ends, hrun, Loop.Outcome.stop.injEq, exists_const]
  exact eq_comm

/-- A reception that ends does so from a packet the grammar describes, and long enough for the
header the client prints. -/
theorem says_of_ends (hne : f ≠ []) {gfr : GfcRequest} {code : ℤ}
    (h : Ends (f :: ps) (.returned gfr code)) :
    (∃ status, Says f (.reply status)) ∨ ∃ n, Says f (.ok n) ∧ headerLength n ≤ f.length := by
  rcases says_or_undefined f with ⟨v, hv⟩ | hu
  · rcases v with _ | status | n
    · exact absurd hv (by rintro ⟨⟩)
    · exact .inl ⟨status, hv⟩
    · refine .inr ⟨n, hv, ?_⟩
      by_contra hlt
      have hb : gfcBody ⟨freshRequest, false, 0⟩ (some f) = .stop .undefined := by
        have hw : freshRequest.writeFunc = true := rfl
        have hlt' : f.length < (printedHeader n).length := by
          simpa [headerLength] using hlt
        simp [gfcBody, gfcFirst, hne, hv.decodeHeader, hw, hlt']
      simpa using (gfcPerform_undefined hb).mp h
  · have hb : gfcBody ⟨freshRequest, false, 0⟩ (some f) = .stop .undefined := by
      simp [gfcBody, gfcFirst, hne, hu]
    simpa using (gfcPerform_undefined hb).mp h

/-- The status that a reception ends with tells what its first packet says. -/
theorem status_of_ends (hf : f ≠ []) (hcap : f.length ≤ bufsize) (hne : ∀ p ∈ ps, p ≠ [])
    {gfr : GfcRequest} {code : ℤ} (h : Ends (f :: ps) (.returned gfr code)) :
    (Says f (.reply gfr.status) ∧ gfr.status ≠ .ok)
      ∨ ∃ n, Says f (.ok n) ∧ headerLength n ≤ f.length ∧ gfr.status = .ok := by
  rcases says_of_ends hf h with ⟨status, hs⟩ | ⟨n, hs, hfit⟩
  · obtain ⟨rfl, -⟩ := Result.returned.inj ((ends_reply_iff hf hs).mp h)
    refine .inl ⟨hs, fun hok => ?_⟩
    obtain rfl : status = .ok := hok
    exact not_says_ok hs
  · exact .inr ⟨n, hs, hfit, (ends_ok_cases hcap hfit hs hne h).1⟩

end First

/-! ### Two cuts -/

/-- Both receptions end, and nothing the caller can see tells them apart. -/
def SameReception (ps qs : List Bytes) : Prop :=
  ∃ g₁ g₂ code, Ends ps (.returned g₁ code) ∧ Ends qs (.returned g₂ code)
    ∧ g₁.status = g₂.status ∧ g₁.fileLength = g₂.fileLength
    ∧ g₁.bytesReceived = g₂.bytesReceived ∧ g₁.written.flatten = g₂.written.flatten

/-- The first packets say the same, and the content is complete after the same byte in both
cuts or falls short in both. -/
def CutsAlike (ps qs : List Bytes) : Prop :=
  (ps = [] ∧ qs = []) ∨ ∃ f ps' g qs', ps = f :: ps' ∧ qs = g :: qs' ∧
    ((∃ status, Says f (.reply status) ∧ Says g (.reply status))
      ∨ ∃ n, Says f (.ok n) ∧ Says g (.ok n) ∧ headerLength n ≤ f.length
        ∧ headerLength n ≤ g.length
        ∧ ((∃ m, Completes n ps m ∧ Completes n qs m)
          ∨ NeverCompletes n ps ∧ NeverCompletes n qs
            ∧ (ps.flatten.length - headerLength n) % 2 ^ 64 < n))

theorem sameReception_nil : SameReception [] [] :=
  ⟨_, _, _, ⟨1, rfl⟩, ⟨1, rfl⟩, rfl, rfl, rfl, rfl⟩

theorem Completes.headerLength_le {n m : ℕ} {f : Bytes} {ps : List Bytes}
    (h : Completes n (f :: ps) m) (hfit : headerLength n ≤ f.length) : headerLength n ≤ m := by
  obtain ⟨cs, bs, -, rfl⟩ := endsAt_cons.mp h.1
  simp only [List.flatten_cons, List.length_append]
  omega

theorem Completes.le {n m : ℕ} {ps : List Bytes} (h : Completes n ps m) :
    m ≤ ps.flatten.length := by
  obtain ⟨as, bs, rfl, -, rfl⟩ := h.1
  simp

/-- Where as much was written, the content was complete after the same byte. -/
theorem Completes.eq_of_written {n m m' : ℕ} {f g : Bytes} {ps qs : List Bytes}
    (hm : Completes n (f :: ps) m) (hm' : Completes n (g :: qs) m')
    (hfit : headerLength n ≤ f.length) (hfit' : headerLength n ≤ g.length)
    (h : ((f :: ps).flatten.take m).drop (headerLength n)
      = ((g :: qs).flatten.take m').drop (headerLength n)) : m = m' := by
  have hlen := congrArg List.length h
  have hle := hm.le
  have hle' := hm'.le
  have hhead := hm.headerLength_le hfit
  have hhead' := hm'.headerLength_le hfit'
  simp only [List.length_drop, List.length_take] at hlen
  omega

section Cons

variable {f g : Bytes} {ps qs : List Bytes}

theorem SameReception.cutsAlike (h : SameReception (f :: ps) (g :: qs)) (hf : f ≠ [])
    (hg : g ≠ []) (hfcap : f.length ≤ bufsize) (hgcap : g.length ≤ bufsize)
    (hps : ∀ p ∈ ps, p ≠ []) (hqs : ∀ q ∈ qs, q ≠ []) : CutsAlike (f :: ps) (g :: qs) := by
  obtain ⟨g₁, g₂, code, h₁, h₂, hstatus, hlength, hcount, hwritten⟩ := h
  refine .inr ⟨f, ps, g, qs, rfl, rfl, ?_⟩
  rcases status_of_ends hf hfcap hps h₁ with ⟨hs₁, hnok₁⟩ | ⟨n₁, hs₁, hfit₁, hok₁⟩ <;>
    rcases status_of_ends hg hgcap hqs h₂ with ⟨hs₂, hnok₂⟩ | ⟨n₂, hs₂, hfit₂, hok₂⟩
  · exact .inl ⟨_, hs₁, hstatus ▸ hs₂⟩
  · exact absurd (hstatus.trans hok₂) hnok₁
  · exact absurd (hstatus.symm.trans hok₁) hnok₂
  · obtain ⟨-, hn₁, c₁⟩ := ends_ok_cases hfcap hfit₁ hs₁ hps h₁
    obtain ⟨-, hn₂, c₂⟩ := ends_ok_cases hgcap hfit₂ hs₂ hqs h₂
    obtain rfl : n₁ = n₂ := by rw [← hn₁, ← hn₂, hlength]
    refine .inr ⟨n₁, hs₁, hs₂, hfit₁, hfit₂, ?_⟩
    rcases c₁ with ⟨m₁, hm₁, hc₁, -, hw₁⟩ | ⟨hv₁, hlt₁, hc₁, -⟩ <;>
      rcases c₂ with ⟨m₂, hm₂, hc₂, -, hw₂⟩ | ⟨hv₂, -, hc₂, -⟩
    · obtain rfl := hm₁.eq_of_written hm₂ hfit₁ hfit₂ (hw₁.symm.trans (hwritten.trans hw₂))
      exact .inl ⟨m₁, hm₁, hm₂⟩
    · omega
    · omega
    · exact .inr ⟨hv₁, hv₂, hlt₁⟩

theorem CutsAlike.sameReception (h : CutsAlike (f :: ps) (g :: qs))
    (hstream : (f :: ps).flatten = (g :: qs).flatten) (hf : f ≠ []) (hg : g ≠ [])
    (hfcap : f.length ≤ bufsize) (hgcap : g.length ≤ bufsize) (hps : ∀ p ∈ ps, p ≠ [])
    (hqs : ∀ q ∈ qs, q ≠ []) : SameReception (f :: ps) (g :: qs) := by
  obtain ⟨h, -⟩ | ⟨f', ps', g', qs', hf', hg', halike⟩ := h
  · simp at h
  obtain ⟨rfl, rfl⟩ := List.cons.inj hf'
  obtain ⟨rfl, rfl⟩ := List.cons.inj hg'
  rcases halike with ⟨st, hs₁, hs₂⟩ | ⟨n, hs₁, hs₂, hfit₁, hfit₂, ⟨m, hm, hm'⟩ | ⟨hv, hv', hlt⟩⟩
  · exact ⟨_, _, _, (ends_reply_iff hf hs₁).mpr rfl, (ends_reply_iff hg hs₂).mpr rfl,
      rfl, rfl, rfl, rfl⟩
  · obtain ⟨g₁, h₁, hok₁, hn₁, hb₁, hw₁⟩ := ends_ok_of_completes hfcap hfit₁ hs₁ hps hm
    obtain ⟨g₂, h₂, hok₂, hn₂, hb₂, hw₂⟩ := ends_ok_of_completes hgcap hfit₂ hs₂ hqs hm'
    exact ⟨g₁, g₂, 0, h₁, h₂, hok₁.trans hok₂.symm, hn₁.trans hn₂.symm, hb₁.trans hb₂.symm,
      by rw [hw₁, hw₂, hstream]⟩
  · have hlt' : countAt n g qs < n := by rwa [hstream] at hlt
    obtain ⟨g₁, h₁, hok₁, hn₁, hb₁, hw₁⟩ := ends_ok_of_never hfcap hfit₁ hs₁ hps hv hlt
    obtain ⟨g₂, h₂, hok₂, hn₂, hb₂, hw₂⟩ := ends_ok_of_never hgcap hfit₂ hs₂ hqs hv' hlt'
    exact ⟨g₁, g₂, -1, h₁, h₂, hok₁.trans hok₂.symm, hn₁.trans hn₂.symm,
      by rw [hb₁, hb₂, countAt, countAt, hstream], by rw [hw₁, hw₂, hstream]⟩

end Cons

/-- Two cuts of one stream come to the same just when they are alike. -/
theorem sameReception_iff {s : Bytes} {ps qs : List Bytes} (hps : IsCut bufsize s ps)
    (hqs : IsCut bufsize s qs) : SameReception ps qs ↔ CutsAlike ps qs := by
  rcases ps with _ | ⟨f, ps⟩
  · obtain rfl := hps.eq_nil
    obtain rfl := hqs.nil_of_stream
    exact ⟨fun _ => .inl ⟨rfl, rfl⟩, fun _ => sameReception_nil⟩
  rcases qs with _ | ⟨g, qs⟩
  · obtain rfl := hqs.eq_nil
    simpa using hps.nil_of_stream
  have hstream : (f :: ps).flatten = (g :: qs).flatten := hps.flatten.trans hqs.flatten.symm
  obtain ⟨-, hfne, hfcap, hps'⟩ := hps.cons
  obtain ⟨-, hgne, hgcap, hqs'⟩ := hqs.cons
  exact ⟨fun h => h.cutsAlike hfne hgne hfcap hgcap hps'.ne_nil hqs'.ne_nil,
    fun h => h.sameReception hstream hfne hgne hfcap hgcap hps'.ne_nil hqs'.ne_nil⟩

theorem sameReception_iff_hi :
    SameReception [okHeader 2, ascii "hi"] [okHeader 2 ++ ascii "hi"]
      ↔ CutsAlike [okHeader 2, ascii "hi"] [okHeader 2 ++ ascii "hi"] :=
  sameReception_iff (s := okHeader 2 ++ ascii "hi") (by decide) (by decide)

/-- A response whose first packet stops inside the header is taken for INVALID. -/
theorem segmentation_shows :
    IsCut bufsize (okHeader 2 ++ ascii "hi") [okHeader 2 ++ ascii "hi"]
      ∧ IsCut bufsize (okHeader 2 ++ ascii "hi") [ascii "GETFILE", ascii " OK 2\r\n\r\nhi"]
      ∧ ¬ SameReception [okHeader 2 ++ ascii "hi"]
        [ascii "GETFILE", ascii " OK 2\r\n\r\nhi"] := by
  refine ⟨by decide, by decide, ?_⟩
  rintro ⟨g₁, g₂, code, h₁, h₂, hstatus, -⟩
  have hs₁ : Says (okHeader 2 ++ ascii "hi") (.ok 2) := (says_iff (by decide)).mpr (by decide)
  have hs₂ : Says (ascii "GETFILE") (.reply .invalid) := (says_iff (by decide)).mpr (by decide)
  obtain ⟨hok, -⟩ := ends_ok_cases (by decide) (by decide) hs₁ (List.forall_mem_nil _) h₁
  obtain ⟨rfl, -⟩ := Result.returned.inj ((ends_reply_iff (by decide) hs₂).mp h₂)
  rw [hok] at hstatus
  exact absurd hstatus (by decide)

end FileServices
