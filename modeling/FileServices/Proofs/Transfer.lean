import FileServices.Transfer
import FileServices.Lib.Cut
import FileServices.Proofs.DfsTransfer

/-!
# The file transfer, end to end

`send_file` puts the file on the socket whole, whatever its calls move at a time, and
`transferclient` writes the pieces it receives one behind the other.  It does not truncate its
output file, so what an earlier file had past the end of the new one stays.
-/

namespace FileServices.Transfer

open CString Cut
open Dfs (writeAt)

variable {content old wire : Bytes} {s s' : SendFile} {result : ℤ}

/-! ### `send_file` -/

theorem moved_le (result : ℤ) (available : ℕ) : moved result available ≤ available :=
  min_le_right _ _

theorem moved_pos {available : ℕ} (h : 0 < available) (result : ℤ) : 0 < moved result available :=
  lt_min (lt_max_of_lt_left Nat.one_pos) h

/-- What is on the socket and what is left of the buffer are the file up to the offset. -/
structure SendFile.Ok (content : Bytes) (s : SendFile) : Prop where
  offset_le : s.offset ≤ content.length
  read : s.pc = .read → s.wire = content.take s.offset
  send : ∀ buf bytesLeft bytesSent, s.pc = .send buf bytesLeft bytesSent →
    s.wire ++ buf.drop bytesSent = content.take s.offset
      ∧ bytesLeft = buf.length - bytesSent ∧ bytesSent < buf.length

theorem SendFile.Ok.start (content : Bytes) : SendFile.Ok content .start :=
  ⟨Nat.zero_le _, fun _ => rfl, nofun⟩

/-- What `read` puts into the buffer. -/
def readBuf (content : Bytes) (s : SendFile) (result : ℤ) : Bytes :=
  ((content.drop s.offset).take bufsize).take
    (moved result ((content.drop s.offset).take bufsize).length)

theorem length_readBuf : (readBuf content s result).length
    = moved result (min bufsize (content.length - s.offset)) := by
  simp only [readBuf, List.length_take, List.length_drop]
  exact min_eq_left (moved_le _ _)

theorem readBuf_eq (content : Bytes) (s : SendFile) (result : ℤ) : readBuf content s result
    = (content.drop s.offset).take (readBuf content s result).length :=
  List.prefix_iff_eq_take.mp ((List.take_prefix _ _).trans (List.take_prefix _ _))

/-- `read` gives nothing at the end of the file only. -/
theorem readBuf_pos (h : s.offset < content.length) : 0 < (readBuf content s result).length := by
  rw [length_readBuf]
  exact moved_pos (lt_min (by decide) (by omega)) result

/-- The calls that `send_file` can still make, at most. -/
def SendFile.rank (content : Bytes) (s : SendFile) : ℕ :=
  2 * (content.length - s.offset) + match s.pc with
    | .read => 1
    | .send _ bytesLeft _ => 1 + bytesLeft

theorem sendFileBody_read {offset : ℕ} (h : 0 ≤ result) :
    sendFileBody content ⟨offset, wire, .read⟩ result
      = let buf := readBuf content ⟨offset, wire, .read⟩ result
        if buf.length = 0 then .stop (.returned wire)
        else .more ⟨offset + buf.length, wire, .send buf buf.length 0⟩ := by
  rw [sendFileBody, if_neg (not_lt.mpr h)]
  rfl

theorem SendFile.Ok.read_body {offset : ℕ} (h : SendFile.Ok content ⟨offset, wire, .read⟩)
    (hresult : 0 ≤ result) :
    (∃ s', sendFileBody content ⟨offset, wire, .read⟩ result = .more s' ∧ s'.Ok content
      ∧ s'.rank content < SendFile.rank content ⟨offset, wire, .read⟩)
    ∨ sendFileBody content ⟨offset, wire, .read⟩ result = .stop (.returned content) := by
  have hwire : wire = content.take offset := h.read rfl
  have hle : offset ≤ content.length := h.offset_le
  have heq := readBuf_eq content ⟨offset, wire, .read⟩ result
  rw [sendFileBody_read hresult]
  generalize hbuf : readBuf content ⟨offset, wire, .read⟩ result = buf at heq ⊢
  have hlen : buf.length ≤ content.length - offset := by
    rw [heq, List.length_take, List.length_drop]
    exact min_le_right _ _
  rcases hle.lt_or_eq with hlt | hend
  · have hpos : 0 < buf.length := hbuf ▸ readBuf_pos hlt
    refine .inl ⟨_, if_neg hpos.ne', ⟨?_, nofun, ?_⟩, ?_⟩
    · change offset + buf.length ≤ content.length
      omega
    · rintro _ _ _ ⟨⟩
      refine ⟨?_, rfl, hpos⟩
      rw [List.drop_zero, List.take_add, hwire, ← heq]
    · simp only [rank]
      omega
  · refine .inr ((if_pos (by omega)).trans ?_)
    rw [hwire, hend, List.take_length]

theorem SendFile.Ok.send_body {offset bytesLeft bytesSent : ℕ} {buf : Bytes}
    (h : SendFile.Ok content ⟨offset, wire, .send buf bytesLeft bytesSent⟩)
    (hresult : result ≠ -1) :
    ∃ s', sendFileBody content ⟨offset, wire, .send buf bytesLeft bytesSent⟩ result = .more s'
      ∧ s'.Ok content
      ∧ s'.rank content < SendFile.rank content ⟨offset, wire, .send buf bytesLeft bytesSent⟩ := by
  obtain ⟨hwire, rfl, hlt⟩ := h.send _ _ _ rfl
  have hpacket : (buf.drop bytesSent).take (buf.length - bytesSent) = buf.drop bytesSent :=
    List.take_of_length_le (by rw [List.length_drop])
  have hle := moved_le result (buf.length - bytesSent)
  have hpos := moved_pos (Nat.sub_pos_of_lt hlt) result
  simp only [sendFileBody, hresult, if_false, hpacket, List.length_drop]
  generalize moved result (buf.length - bytesSent) = k at hle hpos ⊢
  by_cases hdone : bytesSent + k = buf.length
  · refine ⟨_, if_neg (not_not.mpr hdone), ⟨h.offset_le, fun _ => ?_, nofun⟩, ?_⟩
    · change wire ++ (buf.drop bytesSent).take k = _
      rw [List.take_of_length_le (by rw [List.length_drop]; omega), hwire]
    · simp only [rank]
      omega
  · refine ⟨_, if_pos hdone, ⟨h.offset_le, nofun, ?_⟩, ?_⟩
    · rintro _ _ _ ⟨⟩
      refine ⟨?_, by omega, by omega⟩
      rw [List.append_assoc, ← List.drop_drop, List.take_append_drop, hwire]
    · simp only [rank]
      omega

/-- `send_file` goes on, returns with the file sent, or ends the process. -/
theorem SendFile.Ok.body (h : s.Ok content) (result : ℤ) :
    (∃ s', sendFileBody content s result = .more s' ∧ s'.Ok content)
      ∨ sendFileBody content s result = .stop (.returned content)
      ∨ ∃ code, sendFileBody content s result = .stop (.exit code) := by
  obtain ⟨offset, wire, pc⟩ := s
  cases pc with
  | read =>
    by_cases hresult : result < 0
    · exact .inr (.inr ⟨6, if_pos hresult⟩)
    · rcases h.read_body (not_lt.mp hresult) with ⟨s', hmore, hok, -⟩ | hstop
      · exact .inl ⟨s', hmore, hok⟩
      · exact .inr (.inl hstop)
  | send buf bytesLeft bytesSent =>
    by_cases hresult : result = -1
    · exact .inr (.inr ⟨8, if_pos hresult⟩)
    · obtain ⟨s', hmore, hok, -⟩ := h.send_body hresult
      exact .inl ⟨s', hmore, hok⟩

/-- Where `send_file` returns, it has sent the file. -/
theorem sendFile_returned {results : List ℤ}
    (h : sendFile content results = .stop (.returned wire)) : wire = content := by
  have hloop := @Loop.run_induction _ _ _ (fun _ => none) (sendFileBody content)
    (SendFile.Ok content) (fun _ => True) (fun r => ∀ wire, r = .returned wire → wire = content)
    ?_ nofun ?_ results .start (.start content) fun _ _ => trivial
  · rw [← sendFile, h] at hloop
    exact hloop wire rfl
  · intro s result s' hs _ _ hbody
    rcases hs.body result with ⟨t, hmore, hok⟩ | hstop | ⟨code, hstop⟩
    · rw [hmore] at hbody
      exact Loop.Outcome.more.inj hbody ▸ hok
    · simp [hstop] at hbody
    · simp [hstop] at hbody
  · rintro s result r hs - - hbody wire rfl
    rcases hs.body result with ⟨t, hmore, -⟩ | hstop | ⟨code, hstop⟩
    · simp [hmore] at hbody
    · simpa [hstop] using hbody.symm
    · simp [hstop] at hbody

/-- The pointer and the length that `send` is given stay inside what was read, and what was read
inside the buffer. -/
def SendFile.Inside (s : SendFile) : Prop :=
  ∀ buf bytesLeft bytesSent, s.pc = .send buf bytesLeft bytesSent →
    0 < bytesLeft ∧ bytesSent + bytesLeft ≤ buf.length ∧ buf.length ≤ bufsize

theorem SendFile.Inside.body (h : s.Inside) (hok : s'.Ok content)
    (hbody : sendFileBody content s result = .more s') : s'.Inside := by
  intro buf bytesLeft bytesSent hpc
  obtain ⟨-, rfl, hlt⟩ := hok.send _ _ _ hpc
  refine ⟨by omega, by omega, ?_⟩
  obtain ⟨offset, wire, pc⟩ := s
  cases pc with
  | read =>
    simp only [sendFileBody] at hbody
    split_ifs at hbody with hneg hzero
    obtain rfl := Loop.Outcome.more.inj hbody
    obtain ⟨rfl, -, -⟩ := SendFilePc.send.inj hpc
    rw [List.length_take]
    exact (min_le_right _ _).trans (List.length_take_le _ _)
  | send buf' bytesLeft' bytesSent' =>
    simp only [sendFileBody] at hbody
    split_ifs at hbody with hneg hsame
    · obtain rfl := Loop.Outcome.more.inj hbody
      obtain ⟨rfl, -, -⟩ := SendFilePc.send.inj hpc
      exact (h _ _ _ rfl).2.2
    · obtain rfl := Loop.Outcome.more.inj hbody
      cases hpc

/-- While no call fails, `send_file` comes nearer to its end with each. -/
theorem SendFile.Ok.progress (h : s.Ok content) (hresult : 0 ≤ result) :
    (∃ s', sendFileBody content s result = .more s' ∧ s'.Ok content
      ∧ s'.rank content < s.rank content)
    ∨ sendFileBody content s result = .stop (.returned content) := by
  obtain ⟨offset, wire, pc⟩ := s
  cases pc with
  | read => exact h.read_body hresult
  | send buf bytesLeft bytesSent => exact .inl (h.send_body (by omega))

/-- Whatever its calls move at a time, `send_file` ends with the file on the socket, and each
`send` is of bytes of the current read. -/
theorem sendFile_sends (content : Bytes) {results : ℕ → ℤ} (hresults : ∀ n, 0 ≤ results n) :
    (∃ n, Loop.StopsAfter (fun _ => none) (sendFileBody content) .start results n
        (.returned content))
      ∧ ∀ n s, sendFile content ((List.range n).map results) = .more s → s.Inside := by
  constructor
  · have hloop := @Loop.stopsAfter_of_rank _ _ _ (fun _ => none) (sendFileBody content) .start
      results (SendFile.Ok content) (fun r => r = .returned content) (SendFile.rank content)
      ?_ nofun ?_ (.start content)
    · obtain ⟨n, r, hstops, rfl⟩ := hloop
      exact ⟨n, hstops⟩
    · intro s n s' hs _ hbody
      rcases hs.progress (hresults n) with ⟨t, hmore, hok, hlt⟩ | hstop
      · obtain rfl := Loop.Outcome.more.inj (hmore.symm.trans hbody)
        exact ⟨hok, hlt⟩
      · simp [hstop] at hbody
    · intro s n r hs _ hbody
      rcases hs.progress (hresults n) with ⟨t, hmore, -⟩ | hstop
      · simp [hmore] at hbody
      · exact Loop.Outcome.stop.inj (hbody.symm.trans hstop)
  · intro n s hs
    have hloop := @Loop.run_induction _ _ _ (fun _ => none) (sendFileBody content)
      (fun s => s.Ok content ∧ s.Inside) (fun result => 0 ≤ result) (fun _ => True) ?_ nofun
      (fun _ _ _ _ _ _ _ => trivial) ((List.range n).map results) .start
      ⟨.start content, nofun⟩ ?_
    · rw [← sendFile, hs] at hloop
      exact hloop.2
    · intro s result s' hs hresult _ hbody
      rcases hs.1.progress hresult with ⟨t, hmore, hok, -⟩ | hstop
      · obtain rfl := Loop.Outcome.more.inj (hmore.symm.trans hbody)
        exact ⟨hok, hs.2.body hok hmore⟩
      · simp [hstop] at hbody
    · intro result hresult
      obtain ⟨m, -, rfl⟩ := List.mem_map.mp hresult
      exact hresults m

theorem sendFile_sends_hi :
    (∃ n, Loop.StopsAfter (fun _ => none) (sendFileBody (ascii "hi")) .start (fun _ => 1) n
        (.returned (ascii "hi")))
      ∧ ∀ n s, sendFile (ascii "hi") ((List.range n).map fun _ => 1) = .more s → s.Inside :=
  sendFile_sends (ascii "hi") fun _ => by decide

/-! ### `transferclient` -/

/-- A write over what there is, from the end of `done` on. -/
theorem writeAt_over (done data : Bytes) :
    writeAt (done ++ old.drop done.length) done.length data
      = done ++ data ++ old.drop (done ++ data).length := by
  by_cases hdata : data = []
  · simp [writeAt, hdata]
  · have hhole : done.length - (done ++ old.drop done.length).length = 0 := by
      rw [List.length_append]
      omega
    have hrest : (done ++ old.drop done.length).drop (done.length + data.length)
        = old.drop (done ++ data).length := by
      rw [List.drop_append, List.drop_eq_nil_of_le (by omega), List.nil_append, List.drop_drop,
        List.length_append]
      congr 1
      omega
    rw [writeAt, if_neg hdata, hhole, hrest, List.take_left', List.replicate_zero, List.append_nil]
    rfl

/-- The pieces are written one behind the other over what was in the file. -/
theorem transferclient_run (old : Bytes) : ∀ (pieces : List Bytes) (done : Bytes),
    (∀ p ∈ pieces, p ≠ []) → Loop.run (fun _ => none) receiveBody
      ⟨done ++ old.drop done.length, done.length⟩ (pieces.map some ++ [some []])
      = .stop (done ++ pieces.flatten ++ old.drop (done ++ pieces.flatten).length)
  | [], done, _ => by simp [Loop.run, receiveBody]
  | p :: pieces, done, hne => by
    obtain ⟨b, p, rfl⟩ := List.exists_cons_of_ne_nil (hne p List.mem_cons_self)
    have hbody : receiveBody ⟨done ++ old.drop done.length, done.length⟩ (some (b :: p))
        = .more ⟨done ++ b :: p ++ old.drop (done ++ b :: p).length, (done ++ b :: p).length⟩ := by
      rw [receiveBody, writeAt_over, List.length_append]
      exact List.cons_ne_nil _ _
    have ih := transferclient_run old pieces (done ++ b :: p)
      fun q hq => hne q (List.mem_cons_of_mem _ hq)
    rw [List.map_cons, List.cons_append, Loop.run_cons_more rfl hbody, ih, List.flatten_cons,
      List.append_assoc done]

/-- The client's output file, when the server has closed the connection, is the served file just
where an earlier file was not longer. -/
theorem transferred_iff {results : List ℤ} {old : Option Bytes} {pieces : List Bytes}
    (hsend : sendFile content results = .stop (.returned wire)) (hcut : IsCut bufsize wire pieces) :
    transferclient old (pieces.map some ++ [some []]) = .stop content
      ↔ (old.getD []).length ≤ content.length := by
  obtain rfl := sendFile_returned hsend
  have hrun := transferclient_run (old.getD []) pieces [] hcut.ne_nil
  rw [hcut.flatten] at hrun
  rw [transferclient, show (⟨old.getD [], 0⟩ : Transferclient)
    = ⟨[] ++ (old.getD []).drop ([] : Bytes).length, ([] : Bytes).length⟩ from rfl, hrun]
  simp

theorem transferred_iff_hi :
    transferclient (some (ascii "x")) ([ascii "h", ascii "i!"].map some ++ [some []])
      = .stop (ascii "hi!") ↔ (ascii "x").length ≤ (ascii "hi!").length :=
  have hsend : sendFile (ascii "hi!") [2, 1, 1, 5, 1, 1] = .stop (.returned (ascii "hi!")) := by
    decide
  transferred_iff hsend (by decide)

/-- A longer output file keeps its end. -/
theorem transfer_keeps_end :
    sendFile (ascii "hi") [2, 2, 1] = .stop (.returned (ascii "hi"))
      ∧ IsCut bufsize (ascii "hi") [ascii "hi"]
      ∧ transferclient (some (ascii "hello")) ([ascii "hi"].map some ++ [some []])
        = .stop (ascii "hillo")
      ∧ ascii "hillo" ≠ ascii "hi" := by
  decide

end FileServices.Transfer
