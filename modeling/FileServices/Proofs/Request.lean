import FileServices.Request

/-!
# The request on the wire

Each `send` of the request loop starts again at the first byte of `req_header`.  The loop adds up
what the calls return, so it ends when they have taken as many bytes as the request has, and the
bytes after a short `send` are the first ones again.
-/

namespace FileServices

open CString

variable {path text : Bytes} {ks : ℕ → ℤ} {n : ℕ} {s : RequestState}

/-- A `send` that takes something puts the first bytes of the request on the wire. -/
theorem requestBody_more (htext : text ≠ []) {k : ℤ} (hk : 1 ≤ k) (s : RequestState) :
    ∃ j, 0 < j ∧ j = min k.toNat text.length
      ∧ requestBody text s k = .more ⟨s.total + j, s.wire ++ text.zipIdx.take j⟩ := by
  have hlen : 0 < text.length := List.length_pos_of_ne_nil htext
  have hj : (sendResult k text).toNat = min k.toNat text.length := by
    simp only [sendResult]
    omega
  refine ⟨_, by omega, hj, if_neg ?_⟩
  simp only [sendResult]
  omega

/-- The request loop where it stands, and the calls it has made. -/
structure Resent (text : Bytes) (ks : ℕ → ℤ) (n : ℕ) (s : RequestState) : Prop where
  total : s.total = s.wire.length
  starts : s.wire.countP (·.2 = 0) = n
  calls_le : n ≤ s.total
  first : n ≤ 1 → s.wire = text.zipIdx.take (n * (ks 0).toNat)
  short : 1 < n → ks 0 < text.length

theorem countP_take_zipIdx (htext : text ≠ []) {j : ℕ} (hj : 0 < j) :
    (text.zipIdx.take j).countP (·.2 = 0) = 1 := by
  obtain ⟨b, bs, rfl⟩ := List.exists_cons_of_ne_nil htext
  obtain ⟨j, rfl⟩ : ∃ i, j = i + 1 := ⟨j - 1, by omega⟩
  rw [List.zipIdx_cons, List.take_succ_cons, List.countP_cons_of_pos (by simp)]
  rw [List.countP_eq_zero.mpr fun x hx => ?_]
  have hle := List.le_snd_of_mem_zipIdx (List.mem_of_mem_take hx)
  simp only [decide_eq_true_eq]
  omega

theorem resent_after (htext : text ≠ []) (hks : ∀ i, 1 ≤ ks i) : ∀ {n : ℕ} {s : RequestState},
    Loop.after (fun s => if s.total < text.length then none else some (Requested.sent s))
      (requestBody text) ⟨0, []⟩ ks n = some s → Resent text ks n s
  | 0, s, h => by
    obtain rfl := Option.some.inj h
    exact ⟨rfl, rfl, le_rfl, fun _ => by simp, nofun⟩
  | n + 1, s, h => by
    obtain ⟨t, ht, hhead, hbody⟩ := Loop.after_succ.mp h
    have hi := resent_after htext hks ht
    have htotal := hi.total
    obtain ⟨j, hj, hmin, hmore⟩ := requestBody_more htext (hks n) t
    obtain rfl := Loop.Outcome.more.inj (hmore.symm.trans hbody)
    refine ⟨?_, ?_, ?_, fun hn => ?_, fun hn => ?_⟩
    · simp only [List.length_append, List.length_take, List.length_zipIdx]
      omega
    · rw [List.countP_append, hi.starts, countP_take_zipIdx htext hj]
    · have hle := hi.calls_le
      dsimp only
      omega
    · obtain rfl : n = 0 := by omega
      obtain rfl := Option.some.inj ht
      rw [List.nil_append, List.take_eq_take_iff, List.length_zipIdx]
      omega
    · rcases Nat.lt_or_ge 1 n with hlt | hge
      · exact hi.short hlt
      · obtain rfl : n = 1 := by omega
        split_ifs at hhead with hlt
        rw [hi.first le_rfl, List.length_take, List.length_zipIdx] at htotal
        omega

/-- The loop ends with a request that was sent, and the calls have taken enough bytes. -/
theorem sendLoop_stop (htext : text ≠ []) (hks : ∀ i, 1 ≤ ks i) {m : ℕ} {r : Requested}
    (h : sendLoop text ((List.range m).map ks) = .stop r) :
    ∃ n s, r = .sent s ∧ Resent text ks n s ∧ text.length ≤ s.total := by
  obtain ⟨n, t, ht, hleaves⟩ := Loop.stops_iff.mp ⟨m, h⟩
  rcases hleaves with hhead | ⟨-, hbody⟩
  · beta_reduce at hhead
    split_ifs at hhead with hlt
    exact ⟨n, t, (Option.some.inj hhead).symm, resent_after htext hks ht, not_lt.mp hlt⟩
  · obtain ⟨j, -, -, hmore⟩ := requestBody_more htext (hks n) t
    cases hmore.symm.trans hbody

theorem sendLoop_stops (htext : text ≠ []) (hks : ∀ i, 1 ≤ ks i) :
    ∃ m r, sendLoop text ((List.range m).map ks) = .stop r := by
  rcases Loop.after_or_leaves
    (fun s => if s.total < text.length then none else some (Requested.sent s))
    (requestBody text) ⟨0, []⟩ ks text.length with ⟨t, ht⟩ | ⟨-, -, r, -, -, hrun⟩
  · have hle := (resent_after htext hks ht).calls_le
    obtain ⟨m, hm⟩ := Loop.stops_iff.mpr ⟨_, t, ht, .inl (if_neg (not_lt.mpr hle))⟩
    exact ⟨m, .sent t, hm⟩
  · exact ⟨_, r, hrun⟩

/-- The loop puts each byte on the wire once just when the first `send` takes them all. -/
theorem Resent.wire_iff (h : Resent text ks n s) (htext : text ≠ []) (hks : 1 ≤ ks 0)
    (hlen : text.length ≤ s.total) : s.wire = text.zipIdx ↔ text.length ≤ ks 0 := by
  have hpos : 0 < text.length := List.length_pos_of_ne_nil htext
  have htotal := h.total
  constructor
  · intro hwire
    have hone := h.starts
    rw [hwire, ← List.take_length (l := text.zipIdx),
      countP_take_zipIdx htext (by rwa [List.length_zipIdx])] at hone
    subst hone
    rw [hwire, List.length_zipIdx] at htotal
    have hfirst := congrArg List.length (h.first le_rfl)
    rw [hwire, List.length_take, List.length_zipIdx] at hfirst
    omega
  · intro hall
    have hn : n ≤ 1 := by
      by_contra hn
      have := h.short (not_le.mp hn)
      omega
    have hfirst := h.first hn
    rcases n with _ | n
    · rw [hfirst] at htotal
      simp at htotal
      omega
    · obtain rfl : n = 0 := by omega
      rw [hfirst, List.take_of_length_le]
      rw [List.length_zipIdx]
      omega

theorem length_requestHeader (path : Bytes) : (requestHeader path).length = path.length + 16 := by
  simp only [requestHeader, List.length_append, show (ascii "GETFILE GET ").length = 12 by decide,
    show crlf2.length = 4 by decide]
  omega

theorem formatRequest_eq (hpath : path.length ≤ 239) :
    formatRequest path = some (requestHeader path ++ [0]) := by
  refine if_pos ?_
  simp only [List.length_append, length_requestHeader, List.length_singleton, reqHeaderSize]
  omega

theorem formatRequest_none (hpath : 239 < path.length) : formatRequest path = none := by
  refine if_neg ?_
  simp only [List.length_append, length_requestHeader, List.length_singleton, reqHeaderSize]
  omega

/-- `strlen(req_header)` counts the request. -/
theorem cstr_request (hpath : ∀ b ∈ path, b ≠ 0) :
    cstr (requestHeader path ++ [0]) = requestHeader path := by
  have hne : ∀ b ∈ requestHeader path, b ≠ 0 := by
    intro b hb
    simp only [requestHeader, List.mem_append] at hb
    rcases hb with (hb | hb) | hb
    · exact (by decide : ∀ b ∈ ascii "GETFILE GET ", b ≠ 0) b hb
    · exact hpath b hb
    · exact (by decide : ∀ b ∈ crlf2, b ≠ 0) b hb
  rw [cstr_append_of_ne hne]
  simp [cstr]

/-- The request fits `req_header` and goes out whole, each byte once and in order, just when the
path has at most 239 bytes and the first `send` takes all of the request. -/
theorem request_sent_iff (hpath : ∀ b ∈ path, b ≠ 0) (hks : ∀ i, 1 ≤ ks i) :
    (∃ m s, sendRequest path ((List.range m).map ks) = .stop (.sent s)
        ∧ s.wire = (requestHeader path).zipIdx)
      ↔ path.length ≤ 239 ∧ (requestHeader path).length ≤ ks 0 := by
  have htext : requestHeader path ≠ [] := fun h => by
    have := length_requestHeader path
    rw [h] at this
    simp at this
  rcases Nat.lt_or_ge 239 path.length with hlong | hshort
  · refine iff_of_false ?_ (by omega)
    rintro ⟨m, s, hs, -⟩
    simp [sendRequest, formatRequest_none hlong] at hs
  simp only [sendRequest, formatRequest_eq hshort, cstr_request hpath, hshort, true_and]
  constructor
  · rintro ⟨m, s, hs, hwire⟩
    obtain ⟨n, s', hss', hi, hlen⟩ := sendLoop_stop htext hks hs
    obtain rfl := Requested.sent.inj hss'
    exact (hi.wire_iff htext (hks 0) hlen).mp hwire
  · intro hall
    obtain ⟨m, r, hrun⟩ := sendLoop_stops htext hks
    obtain ⟨n, s, rfl, hi, hlen⟩ := sendLoop_stop htext hks hrun
    exact ⟨m, s, hrun, (hi.wire_iff htext (hks 0) hlen).mpr hall⟩

theorem request_sent_iff_foo :
    (∃ m s, sendRequest (ascii "/foo") ((List.range m).map fun _ => 20) = .stop (.sent s)
        ∧ s.wire = (requestHeader (ascii "/foo")).zipIdx)
      ↔ (ascii "/foo").length ≤ 239 ∧ (requestHeader (ascii "/foo")).length ≤ (20 : ℤ) :=
  request_sent_iff (by decide) fun _ => by decide

/-- A `send` that takes half of the request: the wire has that half twice.  And a path that the
workload client lets pass, whose request is written past the end of `req_header`. -/
theorem request_goes_wrong :
    (∃ s, sendRequest (ascii "/foo") [10, 10] = .stop (.sent s)
      ∧ s.wire.map Prod.fst = ascii "GETFILE GEGETFILE GE"
      ∧ s.wire.map Prod.fst ≠ requestHeader (ascii "/foo"))
    ∧ sendRequest (List.replicate 256 97) [272] = .stop .undefined := by
  refine ⟨⟨⟨20, _⟩, rfl, by decide, by decide⟩, ?_⟩
  have hnone : formatRequest (List.replicate 256 97) = none :=
    formatRequest_none (by rw [List.length_replicate]; decide)
  rw [sendRequest, hnone]

end FileServices
