import FileServices.Worker
import FileServices.Dispatch
import FileServices.Proofs.Handlers

/-!
# What a worker sends, and when it stops

While every call moves something the next read starts where the client has got to, so that the
file goes out once and in order (`copyLoop_sends`).  The results of the calls go into unsigned
variables without a test: a client that is gone holds the worker for ever, and a failed call
counts as nearly `2 ^ 64` bytes (`copyLoop_ends_iff`).
-/

namespace FileServices.Worker

open CString
open Cache (size)
open Handlers (sum sum_zero sum_succ)

variable {fileLen n : ℕ} {content data : Bytes} {s t : Copying} {turn : Turn} {turns : ℕ → Turn}

theorem size_of_nonneg {z : ℤ} (h0 : 0 ≤ z) (hlt : z < 2 ^ 64) : size z = z.toNat := by
  rw [size, Int.emod_eq_of_lt h0 hlt]

/-! ### An iteration -/

def Copying.sent (s : Copying) (data : Bytes) (ret : ℤ) : Copying where
  totalBtsSent := (s.totalBtsSent + size ret) % 2 ^ 64
  wire := s.wire ++ (data ++ List.replicate (bufsize - data.length) 0).take ret.toNat
  calls := s.calls ++ [⟨data.length, s.totalBtsSent, (s.totalBtsSent + size ret) % 2 ^ 64⟩]

theorem copyBody_end (h : turn.pread s.totalBtsSent = some []) :
    copyBody fileLen s turn = .stop s := by
  simp [copyBody, h, size]

/-- What was read goes to `gfs_send`, and the loop is left when all is sent. -/
theorem copyBody_read (h : turn.pread s.totalBtsSent = some data) (hne : data ≠ [])
    (hcap : data.length ≤ bufsize) : copyBody fileLen s turn =
      if fileLen > (s.sent data (turn.gfsSend data.length)).totalBtsSent
        then .more (s.sent data (turn.gfsSend data.length))
        else .stop (s.sent data (turn.gfsSend data.length)) := by
  have hpos : 0 < data.length := List.length_pos_of_ne_nil hne
  have hsize : size data.length = data.length := by
    rw [size_of_nonneg (Int.natCast_nonneg _) (by simp only [bufsize] at hcap; omega),
      Int.toNat_natCast]
  simp only [copyBody, h, Option.getD_some, Option.elim_some, hsize, if_pos hpos]
  rfl

/-! ### The body of a file -/

def Turn.Reads (turn : Turn) (content : Bytes) : Prop :=
  ∀ off, ∃ data, turn.pread off = some data ∧ data <+: content.drop off
    ∧ data.length ≤ bufsize ∧ (off < content.length → data ≠ [])

def Turn.Sends (turn : Turn) : Prop :=
  ∀ len, 0 < len → 1 ≤ turn.gfsSend len ∧ turn.gfsSend len ≤ len

/-- The client has got the file up to the offset of the next read. -/
structure Copied (content : Bytes) (s : Copying) : Prop where
  total_le : s.totalBtsSent ≤ content.length
  wire : s.wire = content.take s.totalBtsSent

theorem Copied.body (h : Copied content s) (hlt : content.length < 2 ^ 63)
    (hreads : turn.Reads content) (hsends : turn.Sends) (hleft : s.totalBtsSent < content.length) :
    ∃ s', Copied content s' ∧ s.totalBtsSent < s'.totalBtsSent
      ∧ copyBody content.length s turn
        = if content.length > s'.totalBtsSent then .more s' else .stop s' := by
  obtain ⟨data, hdata, ⟨rest, hrest⟩, hcap, hne⟩ := hreads s.totalBtsSent
  have hpos := List.length_pos_of_ne_nil (hne hleft)
  obtain ⟨hone, hle⟩ := hsends data.length hpos
  have hdrop : data.length ≤ content.length - s.totalBtsSent := by
    rw [← List.length_drop, ← hrest, List.length_append]
    exact Nat.le_add_right _ _
  obtain ⟨k, hk⟩ := Int.eq_ofNat_of_zero_le (show 0 ≤ turn.gfsSend data.length by omega)
  have htotal : (s.sent data (turn.gfsSend data.length)).totalBtsSent = s.totalBtsSent + k := by
    change (s.totalBtsSent + size (turn.gfsSend data.length)) % 2 ^ 64 = _
    rw [hk, size_of_nonneg (by omega) (by omega), Int.toNat_natCast]
    exact Nat.mod_eq_of_lt (by omega)
  refine ⟨_, ⟨?_, ?_⟩, ?_, copyBody_read hdata (hne hleft) hcap⟩
  · omega
  · rw [htotal, List.take_add, ← h.wire, ← hrest, List.take_append_of_le_length (by omega)]
    simp only [Copying.sent, hk, Int.toNat_natCast]
    rw [List.take_append_of_le_length (by omega)]
  · omega

theorem copied_after (hlt : content.length < 2 ^ 63) (hreads : ∀ i, (turns i).Reads content)
    (hsends : ∀ i, (turns i).Sends) : ∀ {n : ℕ} {s : Copying},
      Loop.after (fun _ => none) (copyBody content.length) ⟨0, [], []⟩ turns n = some s →
        Copied content s ∧ n ≤ s.totalBtsSent ∧ (content ≠ [] → s.totalBtsSent < content.length)
  | 0, s, h => by
    obtain rfl := Option.some.inj h
    exact ⟨⟨Nat.zero_le _, rfl⟩, le_rfl, fun hne => List.length_pos_of_ne_nil hne⟩
  | n + 1, s, h => by
    obtain ⟨t, ht, -, hbody⟩ := Loop.after_succ.mp h
    obtain ⟨hi, hn, hleft⟩ := copied_after hlt hreads hsends ht
    rcases eq_or_ne content [] with rfl | hne
    · obtain ⟨data, hdata, hpre, -, -⟩ := hreads n t.totalBtsSent
      rw [List.drop_nil] at hpre
      rw [copyBody_end (hdata.trans (congrArg some (List.prefix_nil.mp hpre)))] at hbody
      cases hbody
    · obtain ⟨s', hs', hmore, heq⟩ := hi.body hlt (hreads n) (hsends n) (hleft hne)
      rw [heq] at hbody
      split_ifs at hbody with hgt
      obtain rfl := Loop.Outcome.more.inj hbody
      exact ⟨hs', by omega, fun _ => hgt⟩

/-- The loop ends, and what the client gets after the header is the file. -/
theorem copyLoop_sends (hlt : content.length < 2 ^ 63) (hreads : ∀ i, (turns i).Reads content)
    (hsends : ∀ i, (turns i).Sends) :
    ∃ n s, copyLoop content.length ((List.range n).map turns) = .stop s ∧ s.wire = content := by
  rcases Loop.after_or_leaves (fun _ => none) (copyBody content.length) ⟨0, [], []⟩ turns
    (content.length + 1) with ⟨t, ht⟩ | ⟨n, t, s, ht, hleaves, hrun⟩
  · obtain ⟨hi, hn, -⟩ := copied_after hlt hreads hsends ht
    have := hi.total_le
    omega
  obtain ⟨hi, -, hleft⟩ := copied_after hlt hreads hsends ht
  refine ⟨_, s, hrun, ?_⟩
  obtain ⟨-, hbody⟩ := hleaves.resolve_left nofun
  rcases eq_or_ne content [] with rfl | hne
  · obtain ⟨data, hdata, hpre, -, -⟩ := hreads n t.totalBtsSent
    rw [List.drop_nil] at hpre
    rw [copyBody_end (hdata.trans (congrArg some (List.prefix_nil.mp hpre)))] at hbody
    obtain rfl := Loop.Outcome.stop.inj hbody
    rw [hi.wire, List.take_nil]
  · obtain ⟨s', hs', -, heq⟩ := hi.body hlt (hreads n) (hsends n) (hleft hne)
    rw [heq] at hbody
    split_ifs at hbody with hgt
    obtain rfl := Loop.Outcome.stop.inj hbody
    rw [hs'.wire, List.take_of_length_le (by omega)]

theorem copyLoop_sends_hi :
    ∃ n s, copyLoop (ascii "hi").length ((List.range n).map fun _ =>
        ⟨fun off => some ((ascii "hi").drop off), fun _ => 1⟩) = .stop s
      ∧ s.wire = ascii "hi" :=
  copyLoop_sends (by decide)
    (fun _ off => ⟨_, rfl, List.prefix_rfl, (List.drop_sublist _ _).length_le.trans (by decide),
      fun hlt => List.ne_nil_of_length_pos (by rw [List.length_drop]; omega)⟩)
    fun _ len hlen => ⟨le_rfl, Int.ofNat_le.mpr hlen⟩

/-! ### Any results -/

/-- No call is given more than the buffer holds, and none takes the count down. -/
def Steady (calls : List SendCall) : Prop := ∀ c ∈ calls, c.btsRead ≤ bufsize ∧ c.before ≤ c.after

def results (reads : ℕ → Option Bytes) (sends : ℕ → ℤ) (i : ℕ) : Turn :=
  ⟨fun _ => reads i, fun _ => sends i⟩

/-- Before result `n` every read gives something and no `gfs_send` fails.  Then the file ends, or
the calls of `gfs_send` add up to its length; a failed one ends the loop as well as long as
nothing has been sent. -/
structure Comes (fileLen : ℕ) (reads : ℕ → Option Bytes) (sends : ℕ → ℤ) (n : ℕ) : Prop where
  goes : ∀ i < n, (∃ data, reads i = some data ∧ data ≠ []) ∧ 0 ≤ sends i
  last : reads n = some [] ∨ (∃ data, reads n = some data ∧ data ≠ [])
    ∧ (0 ≤ sends n ∧ fileLen ≤ sum sends (n + 1) ∨ sends n = -1 ∧ sum sends n = 0)

section Results

variable {reads : ℕ → Option Bytes} {sends : ℕ → ℤ}

theorem sent_nonneg {ret : ℤ} (h0 : 0 ≤ ret) (hret : ret < 2 ^ 63) (hs : s.totalBtsSent < 2 ^ 63)
    (data : Bytes) : ((s.sent data ret).totalBtsSent : ℤ) = s.totalBtsSent + ret := by
  simp only [Copying.sent]
  rw [size_of_nonneg h0 (by omega), Nat.mod_eq_of_lt (by omega)]
  omega

/-- A failed call takes one off the count. -/
theorem sent_failed (hs : s.totalBtsSent < 2 ^ 63) (data : Bytes) :
    (s.sent data (-1)).totalBtsSent
      = if s.totalBtsSent = 0 then 2 ^ 64 - 1 else s.totalBtsSent - 1 := by
  have hsize : size (-1) = 2 ^ 64 - 1 := by decide
  simp only [Copying.sent, hsize]
  split_ifs <;> omega

theorem steady_sent_iff {ret : ℤ} : Steady (s.sent data ret).calls ↔
    Steady s.calls ∧ data.length ≤ bufsize ∧ s.totalBtsSent ≤ (s.sent data ret).totalBtsSent := by
  simp only [Steady, Copying.sent, List.forall_mem_append, List.forall_mem_singleton]

theorem not_steady_of_failed (h : turn.pread s.totalBtsSent = none)
    (hbody : copyBody fileLen s turn = .more t ∨ copyBody fileLen s turn = .stop t) :
    ¬ Steady t.calls := by
  have hsize : size (-1) = 2 ^ 64 - 1 := by decide
  intro hsteady
  simp only [copyBody, h, Option.elim_none, hsize] at hbody
  rw [if_pos (by decide)] at hbody
  have hmem : ∀ {c : SendCall}, c.btsRead = 2 ^ 64 - 1 → c ∉ t.calls := fun hc hmem => by
    have := (hsteady _ hmem).1
    simp only [bufsize] at this
    omega
  split_ifs at hbody <;> rcases hbody with hbody | hbody <;> cases hbody <;>
    exact hmem rfl (List.mem_append_right _ (List.mem_singleton_self _))

variable (hlen : fileLen < 2 ^ 63) (hcap : ∀ i data, reads i = some data → data.length ≤ bufsize)
  (hret : ∀ i, -1 ≤ sends i ∧ sends i < 2 ^ 63)

/-- Where a steady loop stands after `n` iterations. -/
structure Going (fileLen : ℕ) (reads : ℕ → Option Bytes) (sends : ℕ → ℤ) (n : ℕ) (s : Copying) :
    Prop where
  goes : ∀ i < n, (∃ data, reads i = some data ∧ data ≠ []) ∧ 0 ≤ sends i
  total : (s.totalBtsSent : ℤ) = sum sends n
  total_lt : s.totalBtsSent < 2 ^ 63
  steady : Steady s.calls

include hret in
theorem Going.read (hi : Going fileLen reads sends n s) (hdata : reads n = some data)
    (hne : data ≠ []) (hcap : data.length ≤ bufsize) :
    copyBody fileLen s (results reads sends n)
        = (if fileLen > (s.sent data (sends n)).totalBtsSent then .more (s.sent data (sends n))
          else .stop (s.sent data (sends n)))
      ∧ (0 ≤ sends n → Steady (s.sent data (sends n)).calls
        ∧ ((s.sent data (sends n)).totalBtsSent : ℤ) = sum sends (n + 1))
      ∧ (sends n = -1 → (Steady (s.sent data (sends n)).calls ↔ sum sends n = 0)
        ∧ (sum sends n = 0 → (s.sent data (sends n)).totalBtsSent = 2 ^ 64 - 1)) := by
  have htotal := hi.total
  refine ⟨copyBody_read hdata hne hcap, fun h0 => ?_, fun hfail => ?_⟩
  · have hsent := sent_nonneg h0 (hret n).2 hi.total_lt data
    exact ⟨steady_sent_iff.mpr ⟨hi.steady, hcap, by omega⟩, by rw [sum_succ, hsent, htotal]⟩
  · rw [hfail, steady_sent_iff, sent_failed hi.total_lt data]
    refine ⟨⟨fun ⟨_, _, hle⟩ => ?_, fun h0 => ⟨hi.steady, hcap, ?_⟩⟩, fun h0 => if_pos (by omega)⟩
    · split_ifs at hle with hz <;> omega
    · rw [if_pos (by omega)]
      omega

include hlen hcap hret

theorem going_after : ∀ {n : ℕ} {s : Copying},
    Loop.after (fun _ => none) (copyBody fileLen) ⟨0, [], []⟩ (results reads sends) n = some s →
      Steady s.calls → Going fileLen reads sends n s
  | 0, s, h, hsteady => by
    obtain rfl := Option.some.inj h
    exact ⟨nofun, rfl, by norm_num, hsteady⟩
  | n + 1, s, h, hsteady => by
    obtain ⟨t, ht, -, hbody⟩ := Loop.after_succ.mp h
    rcases hr : reads n with _ | data
    · exact absurd hsteady (not_steady_of_failed hr (.inl hbody))
    rcases eq_or_ne data [] with rfl | hne
    · rw [copyBody_end hr] at hbody
      cases hbody
    have hread : copyBody fileLen t (results reads sends n) = _ :=
      copyBody_read hr hne (hcap n data hr)
    rw [hread] at hbody
    split_ifs at hbody with hgt
    obtain rfl := Loop.Outcome.more.inj hbody
    have hi := going_after ht (steady_sent_iff.mp hsteady).1
    obtain ⟨-, hgoes, hfails⟩ := hi.read hret hr hne (hcap n data hr)
    have h0 : 0 ≤ sends n := by
      by_contra hneg
      have hfail : sends n = -1 := by
        have := (hret n).1
        omega
      obtain ⟨hiff, htotal⟩ := hfails hfail
      have := htotal (hiff.mp hsteady)
      change fileLen > (t.sent data (sends n)).totalBtsSent at hgt
      omega
    refine ⟨fun i hi' => ?_, (hgoes h0).2, lt_trans hgt hlen, hsteady⟩
    rcases Nat.lt_succ_iff_lt_or_eq.mp hi' with hlt | rfl
    · exact hi.goes i hlt
    · exact ⟨⟨data, hr, hne⟩, h0⟩

/-- The loop is where the results say, or it has been left before. -/
theorem going_of_goes : ∀ {n : ℕ},
    (∀ i < n, (∃ data, reads i = some data ∧ data ≠ []) ∧ 0 ≤ sends i) →
      (∃ s, Loop.after (fun _ => none) (copyBody fileLen) ⟨0, [], []⟩ (results reads sends) n
          = some s ∧ Going fileLen reads sends n s)
      ∨ ∃ s, Loop.Stops (fun _ => none) (copyBody fileLen) ⟨0, [], []⟩ (results reads sends) s
        ∧ Steady s.calls
  | 0, _ => .inl ⟨_, rfl, nofun, rfl, by norm_num, List.forall_mem_nil _⟩
  | n + 1, h => by
    rcases going_of_goes fun i hi => h i (Nat.lt_succ_of_lt hi) with ⟨t, ht, hi⟩ | hstops
    · obtain ⟨⟨data, hdata, hne⟩, h0⟩ := h n n.lt_succ_self
      obtain ⟨hbody, hgoes, -⟩ := hi.read hret hdata hne (hcap n data hdata)
      obtain ⟨hsteady, htotal⟩ := hgoes h0
      by_cases hgt : fileLen > (t.sent data (sends n)).totalBtsSent
      · rw [if_pos hgt] at hbody
        exact .inl ⟨_, Loop.after_succ.mpr ⟨t, ht, rfl, hbody⟩, h, htotal, lt_trans hgt hlen,
          hsteady⟩
      · rw [if_neg hgt] at hbody
        exact .inr ⟨_, Loop.stops_iff.mpr ⟨n, t, ht, .inr ⟨rfl, hbody⟩⟩, hsteady⟩
    · exact .inr hstops

/-- The worker leaves the loop, never gives `gfs_send` more than its buffer and never counts down,
just when the results come to an end before one of them is a failure. -/
theorem copyLoop_ends_iff :
    (∃ n s, copyLoop fileLen ((List.range n).map (results reads sends)) = .stop s
        ∧ Steady s.calls) ↔ ∃ n, Comes fileLen reads sends n := by
  constructor
  · rintro ⟨m, s, hs, hsteady⟩
    obtain ⟨n, t, ht, hleaves⟩ := Loop.stops_iff.mp ⟨m, hs⟩
    obtain ⟨-, hbody⟩ := hleaves.resolve_left nofun
    rcases hr : reads n with _ | data
    · exact absurd hsteady (not_steady_of_failed hr (.inr hbody))
    rcases eq_or_ne data [] with rfl | hne
    · rw [copyBody_end hr] at hbody
      obtain rfl := Loop.Outcome.stop.inj hbody
      exact ⟨n, (going_after hlen hcap hret ht hsteady).goes, .inl hr⟩
    have hread : copyBody fileLen t (results reads sends n) = _ :=
      copyBody_read hr hne (hcap n data hr)
    rw [hread] at hbody
    split_ifs at hbody with hgt
    obtain rfl := Loop.Outcome.stop.inj hbody
    have hi := going_after hlen hcap hret ht (steady_sent_iff.mp hsteady).1
    obtain ⟨-, hgoes, hfails⟩ := hi.read hret hr hne (hcap n data hr)
    change ¬ fileLen > (t.sent data (sends n)).totalBtsSent at hgt
    refine ⟨n, hi.goes, .inr ⟨⟨data, hr, hne⟩, ?_⟩⟩
    by_cases h0 : 0 ≤ sends n
    · have htotal := (hgoes h0).2
      exact .inl ⟨h0, by omega⟩
    · have hfail : sends n = -1 := by
        have := (hret n).1
        omega
      exact .inr ⟨hfail, (hfails hfail).1.mp hsteady⟩
  · rintro ⟨n, hgoes, hlast⟩
    rcases going_of_goes hlen hcap hret hgoes with ⟨t, ht, hi⟩ | ⟨s, ⟨m, hm⟩, hsteady⟩
    · have hstop : ∀ {s}, copyBody fileLen t (results reads sends n) = .stop s → Steady s.calls →
          ∃ n s, copyLoop fileLen ((List.range n).map (results reads sends)) = .stop s
            ∧ Steady s.calls := fun {s} hbody hsteady => by
        obtain ⟨m, hm⟩ := Loop.stops_iff.mpr ⟨n, t, ht, .inr ⟨rfl, hbody⟩⟩
        exact ⟨m, s, hm, hsteady⟩
      rcases hlast with hend | ⟨⟨data, hdata, hne⟩, hlast⟩
      · exact hstop (copyBody_end hend) hi.steady
      obtain ⟨hbody, hnonneg, hfails⟩ := hi.read hret hdata hne (hcap n data hdata)
      rcases hlast with ⟨h0, hall⟩ | ⟨hfail, hzero⟩
      · obtain ⟨hsteady, htotal⟩ := hnonneg h0
        rw [if_neg (by omega)] at hbody
        exact hstop hbody hsteady
      · obtain ⟨hiff, htotal⟩ := hfails hfail
        rw [if_neg (by rw [htotal hzero]; omega)] at hbody
        exact hstop hbody (hiff.mpr hzero)
    · exact ⟨m, s, hm, hsteady⟩

end Results

theorem copyLoop_ends_iff_hi :
    (∃ n s, copyLoop 2 ((List.range n).map
          (results (fun i => if i = 0 then some (ascii "hi") else some []) fun _ => 2)) = .stop s
        ∧ Steady s.calls)
      ↔ ∃ n, Comes 2 (fun i => if i = 0 then some (ascii "hi") else some []) (fun _ => 2) n :=
  copyLoop_ends_iff (by norm_num)
    (fun i data h => by
      split_ifs at h <;> obtain rfl := Option.some.inj h <;> decide)
    fun _ => by norm_num

/-- A client that has gone holds the worker for ever.  A failed `gfs_send` takes the count down,
and a failed `pread` has `gfs_send` read past the buffer. -/
theorem worker_held :
    (¬ ∃ n s, copyLoop 2 ((List.range n).map
        (results (fun _ => some (ascii "hi")) fun _ => 0)) = .stop s)
      ∧ copyLoop 2
          [⟨fun _ => some (ascii "hi"), fun _ => 1⟩, ⟨fun _ => some (ascii "i"), fun _ => -1⟩]
        = .more ⟨0, ascii "h", [⟨2, 0, 1⟩, ⟨1, 1, 0⟩]⟩
      ∧ copyLoop 2 [⟨fun _ => none, fun _ => 0⟩] = .more ⟨0, [], [⟨2 ^ 64 - 1, 0, 0⟩]⟩ := by
  refine ⟨?_, by decide, by decide⟩
  let gone : Turn := ⟨fun _ => some (ascii "hi"), fun _ => 0⟩
  have hbody : ∀ s : Copying, s.totalBtsSent = 0 →
      copyBody 2 s gone = .more (s.sent (ascii "hi") 0)
        ∧ (s.sent (ascii "hi") 0).totalBtsSent = 0 := by
    intro s hs
    have hzero : (s.sent (ascii "hi") 0).totalBtsSent = 0 := by simp [Copying.sent, hs, size]
    refine ⟨(copyBody_read rfl (by decide) (by decide)).trans (if_pos ?_), hzero⟩
    change 2 > (s.sent (ascii "hi") 0).totalBtsSent
    omega
  rintro ⟨m, s, hs⟩
  have hrun := @Loop.run_induction Copying Turn Copying (fun _ => none) (copyBody 2)
    (fun s => s.totalBtsSent = 0) (fun turn => turn = gone) (fun _ => False)
    (fun s _ t h0 hturn _ hmore => by
      obtain ⟨hgoes, hzero⟩ := hbody s h0
      rw [hturn, hgoes] at hmore
      exact Loop.Outcome.more.inj hmore ▸ hzero)
    (by simp)
    (fun s _ r h0 hturn _ hstop => by
      rw [hturn, (hbody s h0).1] at hstop
      cases hstop)
    ((List.range m).map fun _ => gone) ⟨0, [], []⟩ rfl (by simp)
  have hstop : Loop.run (fun _ => none) (copyBody 2) ⟨0, [], []⟩
      ((List.range m).map fun _ => gone) = .stop s := hs
  rwa [hstop] at hrun

/-! ### The thread -/

section Thread

variable {c : Dispatch.Config} {k : Fin c.nthreads} {w w' : Option (Downloader.Thread c.nthreads)}
  {server server₁ server₂ : Dispatch.Server c} {req : ℕ}

/-- A worker of the server takes an iteration of the loop with its two calls. -/
theorem threadHandleReq_turn (hpc : server.worker k = .pread req fileLen s.totalBtsSent)
    (hread : Dispatch.threadHandleReq k w
      ((turn.pread s.totalBtsSent).elim (-1) fun data => data.length) server = some server₁) :
    (server₁.worker k = .free req ∧ copyBody fileLen s turn = .stop s)
      ∨ ∃ btsRead, server₁.worker k = .send req fileLen s.totalBtsSent btsRead
        ∧ (Dispatch.threadHandleReq k w' (turn.gfsSend btsRead) server₁ = some server₂ →
          server₂.worker k = match copyBody fileLen s turn with
            | .more t => .pread req fileLen t.totalBtsSent
            | .stop _ => .free req) := by
  simp only [Dispatch.threadHandleReq, hpc, Option.some.injEq] at hread
  subst hread
  simp only [Dispatch.Server.goto, Function.update_self, copyBody]
  split_ifs with hpos hgt
  · refine .inr ⟨_, rfl, fun hsend => ?_⟩
    simp only [Dispatch.threadHandleReq, Function.update_self, Option.some.injEq] at hsend
    subst hsend
    simp only [Dispatch.Server.goto, Function.update_self, if_pos hgt]
  · refine .inr ⟨_, rfl, fun hsend => ?_⟩
    simp only [Dispatch.threadHandleReq, Function.update_self, Option.some.injEq] at hsend
    subst hsend
    simp only [Dispatch.Server.goto, Function.update_self, if_neg hgt]
  · exact .inl ⟨rfl, rfl⟩

end Thread

end FileServices.Worker
