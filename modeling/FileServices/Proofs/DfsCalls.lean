import FileServices.DfsCalls
import FileServices.Proofs.Buffered

/-!
# Where the bytes of a file come from

Calls that overlap mix what they store, and a store that another one has cut leaves a hole.  But
each stream writes and reads a byte at the position that it has, so no byte is ever found at
another position, or in another file, than a store has put it.
-/

namespace FileServices.Calls

open CString
open Dfs (StatusCode Sender Turn writeAt)
open Buffered (File)

variable {N : Type*} {c : Config N} {s s' : State c} {k : Fin c.ncalls} {file : N} {turn : Turn}

/-! ### Bytes by their positions -/

/-- Each byte of the content is one that may be at its position. -/
def Each (P : ℕ → UInt8 → Prop) (content : Bytes) : Prop :=
  ∀ p b, content[p]? = some b → P p b

variable {P Q : ℕ → UInt8 → Prop} {content data : Bytes} {pos : ℕ}

theorem each_nil : Each P [] := fun p b h => by simp at h

theorem Each.mono (h : Each P content) (hle : ∀ p b, P p b → Q p b) : Each Q content :=
  fun p b hp => hle p b (h p b hp)

theorem Each.append (h : Each P content)
    (hdata : ∀ i b, data[i]? = some b → P (content.length + i) b) : Each P (content ++ data) := by
  intro p b hp
  by_cases hlt : p < content.length
  · exact h p b (by rwa [List.getElem?_append_left hlt] at hp)
  · rw [List.getElem?_append_right (not_lt.mp hlt)] at hp
    have := hdata _ _ hp
    rwa [Nat.add_sub_cancel' (not_lt.mp hlt)] at this

/-- A write puts its data at its position, and zeros in a hole before it. -/
theorem Each.writeAt (h : Each P content) (hdata : ∀ i b, data[i]? = some b → P (pos + i) b)
    (hhole : ∀ p, content.length ≤ p → p < pos → P p 0) : Each P (writeAt content pos data) := by
  unfold Dfs.writeAt
  split_ifs with hnil
  · exact h
  · have hfront : Each P (content.take pos ++ List.replicate (pos - content.length) 0) := by
      refine Each.append (fun p b hp => h p b ?_) fun i b hi => ?_
      · rw [List.getElem?_take] at hp
        split_ifs at hp
        exact hp
      · rw [List.getElem?_replicate] at hi
        split_ifs at hi with hlt
        obtain rfl := Option.some.inj hi
        rw [List.length_take]
        exact hhole _ (by omega) (by omega)
    have hlen : (content.take pos ++ List.replicate (pos - content.length) 0).length = pos := by
      rw [List.length_append, List.length_take, List.length_replicate]
      omega
    refine (hfront.append fun i b hi => hlen.symm ▸ hdata i b hi).append fun i b hi => ?_
    rw [List.getElem?_drop] at hi
    rw [List.length_append, hlen]
    exact h _ b hi

/-- What a sending loop has read keeps its positions. -/
theorem Each.chunk {t : Sender} (h : Each P t.sent.flatten) (hcontent : Each P content)
    (hpos : t.stream.pos = t.sent.flatten.length) :
    Each P (t.chunk content).sent.flatten
      ∧ (t.chunk content).stream.pos = (t.chunk content).sent.flatten.length := by
  unfold Sender.chunk Dfs.Ifstream.read
  by_cases hgood : t.stream.good = true
  · simp only [hgood, if_true, List.flatten_append, List.flatten_singleton, List.length_append]
    refine ⟨h.append fun i b hi => ?_, by rw [hpos]⟩
    rw [List.getElem?_take] at hi
    split_ifs at hi
    rw [List.getElem?_drop, hpos] at hi
    exact hcontent _ b hi
  · simp only [hgood, Bool.false_eq_true, if_false, List.flatten_append, List.flatten_singleton,
      List.append_nil]
    exact ⟨h, hpos⟩

/-! ### What a call has open -/

def Pc.ino : Pc → Option ℕ
  | .reading stream _ => stream.map File.ino
  | .sending ino _ => ino
  | _ => none

/-- The number is that of the file, or of one that a call on the file has open. -/
def State.Leads (s : State c) (ino : ℕ) (file : N) : Prop :=
  s.disk.dir file = some ino ∨ ∃ k, (s.pc k).ino = some ino ∧ c.file k = file

/-- The call stores the content in the file. -/
def Config.Stores (c : Config N) (k : Fin c.ncalls) (file : N) (content : Bytes) : Prop :=
  c.file k = file ∧ ∃ filename messages, c.task k = .store filename messages
    ∧ messages.flatten = content

def Config.Deletes (c : Config N) (k : Fin c.ncalls) (file : N) : Prop :=
  c.file k = file ∧ ∃ filepath, c.task k = .delete filepath

/-- Where a byte of a file comes from: it was there before, a store that has begun has it at its
position, or it is a zero below the end of such a store, and another one has begun. -/
def State.Origin (s : State c) (file : N) (p : ℕ) (b : UInt8) : Prop :=
  (∃ content, c.disk.read file = some content ∧ content[p]? = some b)
    ∨ ∃ k content, c.Stores k file content ∧ s.pc k ≠ .start ∧ (content[p]? = some b
      ∨ b = 0 ∧ p < content.length
        ∧ ∃ j ≠ k, (∃ content', c.Stores j file content') ∧ s.pc j ≠ .start)

theorem State.Origin.mono (hstart : ∀ j, s.pc j ≠ .start → s'.pc j ≠ .start) {p : ℕ} {b : UInt8}
    (h : s.Origin file p b) : s'.Origin file p b := by
  rcases h with h | ⟨k, content, hk, hbegun, h | ⟨hb, hp, j, hj, hstores, hbegun'⟩⟩
  · exact .inl h
  · exact .inr ⟨k, content, hk, hstart k hbegun, .inl h⟩
  · exact .inr ⟨k, content, hk, hstart k hbegun, .inr ⟨hb, hp, j, hj, hstores, hstart j hbegun'⟩⟩

/-- A stream that writes has handed on what comes before its position, and writes below the end
of the file where it is the only store. -/
structure State.Writes (s : State c) (k : Fin c.ncalls) (stream : File) (rest : List Bytes) :
    Prop where
  split : ∃ written content, c.Stores k (c.file k) content
    ∧ written ++ stream.pending ++ rest.flatten = content ∧ stream.pos = written.length
  below : (∀ j ≠ k, (∃ content, c.Stores j (c.file k) content) → s.pc j = .start) →
    stream.pos ≤ (s.disk.data stream.ino).length

structure Traced (s : State c) : Prop where
  data : ∀ ino file, s.Leads ino file →
    ino < s.disk.fresh ∧ Each (s.Origin file) (s.disk.data ino)
  leads : ∀ ino file file', s.Leads ino file → s.Leads ino file' → file = file'
  writing : ∀ k stream rest, s.pc k = .reading (some stream) rest → s.Writes k stream rest
  sending : ∀ k ino t, s.pc k = .sending ino t →
    t.stream.pos = t.sent.flatten.length ∧ Each (s.Origin (c.file k)) t.sent.flatten
  sent : ∀ k status sent, s.pc k = .returned status sent →
    Each (s.Origin (c.file k)) sent.flatten
  kept : ∀ file, (∀ k content, c.Stores k file content → s.pc k = .start) →
    s.disk.read file = c.disk.read file
      ∨ s.disk.read file = none ∧ ∃ k, c.Deletes k file ∧ s.pc k = .returned .ok []

theorem traced_init (c : Config N) : Traced (State.init c) where
  data := fun ino file h => by
    obtain h | ⟨k, h, -⟩ := h
    · exact ⟨c.disk.dir_lt h, fun p b hp => .inl ⟨_, Disk.read_of_dir h, hp⟩⟩
    · cases h
  leads := fun ino file file' h h' => by
    obtain h | ⟨k, h, -⟩ := h
    · obtain h' | ⟨k, h', -⟩ := h'
      · exact c.disk.dir_injective h h'
      · cases h'
    · cases h
  writing := fun k stream rest h => by cases h
  sending := fun k ino t h => by cases h
  sent := fun k status sent h => by cases h
  kept := fun file _ => .inl rfl

/-- A call that a step takes on has begun, and no other one goes back to its start. -/
theorem start_of_update {pc : Pc} (hstart : pc ≠ .start)
    (hpc : s'.pc = Function.update s.pc k pc) (j : Fin c.ncalls) (hj : s'.pc j = .start) :
    s.pc j = .start := by
  rw [hpc, Function.update_apply] at hj
  split_ifs at hj
  · exact absurd hj hstart
  · exact hj

/-- A step of one call, which may put an empty file under a number that was free, and may change
the file that it stores. -/
theorem Traced.move (hi : Traced s) (pc : Pc)
    (hrun : ∀ status sent, s.pc k ≠ .returned status sent)
    (hstart : pc ≠ .start) (hpc : s'.pc = Function.update s.pc k pc)
    (hfresh : s.disk.fresh ≤ s'.disk.fresh)
    (hleads : ∀ ino file, s'.Leads ino file → s.Leads ino file ∨ s.disk.fresh ≤ ino
      ∧ ino < s'.disk.fresh ∧ file = c.file k ∧ s'.disk.data ino = [])
    (hdata : ∀ ino file, s.Leads ino file → s'.disk.data ino = s.disk.data ino
      ∨ (∃ content, c.Stores k file content) ∧ Each (s'.Origin file) (s'.disk.data ino))
    (hwriting : ∀ stream rest, pc = .reading (some stream) rest → s'.Writes k stream rest)
    (hsending : ∀ ino t, pc = .sending ino t →
      t.stream.pos = t.sent.flatten.length ∧ Each (s'.Origin (c.file k)) t.sent.flatten)
    (hsent : ∀ status sent, pc = .returned status sent →
      Each (s'.Origin (c.file k)) sent.flatten)
    (hkept : ∀ file, (∀ j content, c.Stores j file content → s'.pc j = .start) →
      s'.disk.read file = s.disk.read file
        ∨ s'.disk.read file = none ∧ c.Deletes k file ∧ pc = .returned .ok []) : Traced s' := by
  have hself : s'.pc k = pc := by rw [hpc, Function.update_self]
  have hother : ∀ j, j ≠ k → s'.pc j = s.pc j := fun j hj => by
    rw [hpc, Function.update_of_ne hj]
  have hback := start_of_update hstart hpc
  have hmono : ∀ file p b, s.Origin file p b → s'.Origin file p b := fun file p b h =>
    h.mono fun j hj hj' => hj (hback j hj')
  refine ⟨fun ino file h => ?_, fun ino file file' h h' => ?_, fun j stream rest hj => ?_,
    fun j ino t hj => ?_, fun j status sent hj => ?_, fun file hnone => ?_⟩
  · obtain h | ⟨-, hlt, -, hnil⟩ := hleads ino file h
    · obtain ⟨hlt, heach⟩ := hi.data ino file h
      refine ⟨hlt.trans_le hfresh, ?_⟩
      obtain hsame | ⟨-, heach'⟩ := hdata ino file h
      · rw [hsame]
        exact heach.mono fun p b => hmono file p b
      · exact heach'
    · exact ⟨hlt, hnil ▸ each_nil⟩
  · obtain h | ⟨hle, -, hfile, -⟩ := hleads ino file h
    · obtain h' | ⟨hle, -, -, -⟩ := hleads ino file' h'
      · exact hi.leads ino file file' h h'
      · exact absurd (hi.data ino file h).1 (not_lt.mpr hle)
    · obtain h' | ⟨-, -, hfile', -⟩ := hleads ino file' h'
      · exact absurd (hi.data ino file' h').1 (not_lt.mpr hle)
      · exact hfile.trans hfile'.symm
  · by_cases hjk : j = k
    · subst hjk
      exact hwriting stream rest (hself.symm.trans hj)
    · have hat := (hother j hjk).symm.trans hj
      obtain ⟨hsplit, hbelow⟩ := hi.writing j stream rest hat
      refine ⟨hsplit, fun halone => ?_⟩
      obtain hsame | ⟨hstores, -⟩ :=
        hdata stream.ino (c.file j) (.inr ⟨j, by rw [hat]; rfl, rfl⟩)
      · rw [hsame]
        exact hbelow fun i hij hi' => hback i (halone i hij hi')
      · exact absurd (hself.symm.trans (halone k (Ne.symm hjk) hstores)) hstart
  · by_cases hjk : j = k
    · subst hjk
      exact hsending ino t (hself.symm.trans hj)
    · obtain ⟨hpos, heach⟩ := hi.sending j ino t ((hother j hjk).symm.trans hj)
      exact ⟨hpos, heach.mono fun p b => hmono _ p b⟩
  · by_cases hjk : j = k
    · subst hjk
      exact hsent status sent (hself.symm.trans hj)
    · exact (hi.sent j status sent ((hother j hjk).symm.trans hj)).mono fun p b => hmono _ p b
  · obtain hread | ⟨hread, hdel, hret⟩ := hkept file hnone
    · rw [hread]
      obtain h | ⟨h, j, hdel, hret⟩ :=
        hi.kept file fun j content hj => hback j (hnone j content hj)
      · exact .inl h
      · refine .inr ⟨h, j, hdel, (hother j ?_).trans hret⟩
        rintro rfl
        exact hrun _ _ hret
    · exact .inr ⟨hread, k, hdel, hself.trans hret⟩

/-- A step of one call that leaves the files as they are. -/
theorem Traced.pass (hi : Traced s) (pc : Pc)
    (hrun : ∀ status sent, s.pc k ≠ .returned status sent)
    (hstart : pc ≠ .start) (hdisk : s'.disk = s.disk) (hpc : s'.pc = Function.update s.pc k pc)
    (hino : ∀ ino, pc.ino = some ino → s.Leads ino (c.file k))
    (hwriting : ∀ stream rest, pc = .reading (some stream) rest → s.Writes k stream rest)
    (hsending : ∀ ino t, pc = .sending ino t →
      t.stream.pos = t.sent.flatten.length ∧ Each (s.Origin (c.file k)) t.sent.flatten)
    (hsent : ∀ status sent, pc = .returned status sent →
      Each (s.Origin (c.file k)) sent.flatten) : Traced s' := by
  have hback := start_of_update hstart hpc
  have hmono : ∀ p b, s.Origin (c.file k) p b → s'.Origin (c.file k) p b := fun p b h =>
    h.mono fun j hj hj' => hj (hback j hj')
  refine hi.move pc hrun hstart hpc (by rw [hdisk]) (fun ino file h => .inl ?_)
    (fun ino file _ => .inl (by rw [hdisk])) (fun stream rest hat => ?_) (fun ino t hat => ?_)
    (fun status sent hat => (hsent status sent hat).mono hmono)
    fun file _ => .inl (by rw [hdisk])
  · obtain h | ⟨j, h, rfl⟩ := h
    · exact .inl (by rwa [hdisk] at h)
    · rw [hpc, Function.update_apply] at h
      split_ifs at h with hj
      · exact hj ▸ hino ino h
      · exact .inr ⟨j, h, rfl⟩
  · obtain ⟨hsplit, hbelow⟩ := hwriting stream rest hat
    refine ⟨hsplit, fun halone => ?_⟩
    rw [hdisk]
    exact hbelow fun j hj hstores => hback j (halone j hj hstores)
  · obtain ⟨hpos, heach⟩ := hsending ino t hat
    exact ⟨hpos, heach.mono hmono⟩

/-- A call returns and has sent nothing. -/
theorem Traced.done (hi : Traced s) (hrun : ∀ status sent, s.pc k ≠ .returned status sent)
    (status : StatusCode) : Traced (s.done k status []) := by
  refine hi.pass (.returned status []) hrun (by simp) rfl rfl (by simp [Pc.ino]) (by simp)
    (by simp) fun status sent hret => ?_
  obtain ⟨-, rfl⟩ := Pc.returned.inj hret
  exact each_nil

/-! ### The steps of a fetch -/

theorem Traced.fetchFile (hi : Traced s) (h : fetchFile k turn s = some s') : Traced s' := by
  unfold Calls.fetchFile at h
  cases hat : s.pc k with
  | start =>
    have hrun : ∀ status sent, s.pc k ≠ .returned status sent := by simp [hat]
    simp only [hat] at h
    split at h
    · exact Option.some.inj h ▸ hi.done hrun _
    · obtain rfl := Option.some.inj h
      exact hi.pass _ hrun (by simp) rfl rfl (by simp [Pc.ino]) (by simp) (by simp) (by simp)
  | stated stSize =>
    have hrun : ∀ status sent, s.pc k ≠ .returned status sent := by simp [hat]
    simp only [hat] at h
    obtain rfl := Option.some.inj h
    refine hi.pass _ hrun (by simp) rfl rfl (fun ino hino => ?_) (by simp) (fun ino t hs => ?_)
      (by simp)
    · simp only [Pc.ino] at hino
      split_ifs at hino
      exact .inl hino
    · obtain ⟨-, rfl⟩ := Pc.sending.inj hs
      exact ⟨rfl, each_nil⟩
  | sending ino t =>
    have hrun : ∀ status sent, s.pc k ≠ .returned status sent := by simp [hat]
    obtain ⟨hpos, heach⟩ := hi.sending k ino t hat
    have hreturn : ∀ status, Traced (s.done k status t.sent) := fun status => by
      refine hi.pass _ hrun (by simp) rfl rfl (by simp [Pc.ino]) (by simp) (by simp)
        fun status sent hret => ?_
      obtain ⟨-, rfl⟩ := Pc.returned.inj hret
      exact heach
    simp only [hat] at h
    cases hhead : t.head with
    | some r =>
      obtain ⟨status, sent⟩ := r
      simp only [hhead, Option.some.injEq] at h
      unfold Sender.head at hhead
      split_ifs at hhead
      obtain ⟨rfl, rfl⟩ := Prod.mk.inj (Option.some.inj hhead)
      exact h ▸ hreturn _
    | none =>
      simp only [hhead] at h
      cases turn with
      | goes =>
        obtain rfl := Option.some.inj h
        have hcontent : Each (s.Origin (c.file k)) ((ino.map s.disk.data).getD []) := by
          cases ino with
          | none => exact each_nil
          | some i => exact (hi.data i (c.file k) (.inr ⟨k, by rw [hat]; rfl, rfl⟩)).2
        obtain ⟨heach', hpos'⟩ := heach.chunk hcontent hpos
        refine hi.pass _ hrun (by simp) rfl rfl (fun i hino => .inr ⟨k, ?_, rfl⟩) (by simp)
          (fun i t' hs => ?_) (by simp)
        · rw [hat]
          exact hino
        · obtain ⟨-, rfl⟩ := Pc.sending.inj hs
          exact ⟨hpos', heach'⟩
      | isCancelled => exact Option.some.inj h ▸ hreturn _
      | throws => exact Option.some.inj h ▸ hreturn _
  | reading stream rest => simp [hat] at h
  | removing => simp [hat] at h
  | returned status sent => simp [hat] at h

/-! ### The steps of a store -/

/-- The system takes `n` bytes of the stream, and the call goes on with the stream or returns. -/
theorem Traced.write (hi : Traced s) {stream : File} {rest : List Bytes}
    (hat : s.pc k = .reading (some stream) rest) (n : ℕ) {pc : Pc}
    (hgoes : pc = .reading (some (stream.flush n s.disk).1) rest
      ∨ ∃ status, pc = .returned status [])
    (hdisk : s'.disk = (stream.flush n s.disk).2) (hpc : s'.pc = Function.update s.pc k pc) :
    Traced s' := by
  obtain ⟨⟨written, content, hstores, hsplit, hpos⟩, hbelow⟩ := hi.writing k stream rest hat
  have hstart : pc ≠ .start := by
    obtain rfl | ⟨status, rfl⟩ := hgoes <;> simp
  have hself : s'.pc k ≠ .start := by rwa [hpc, Function.update_self]
  have hback := start_of_update hstart hpc
  have hopen : s.Leads stream.ino (c.file k) := .inr ⟨k, by rw [hat]; rfl, rfl⟩
  have hnew : s'.disk.data stream.ino
      = writeAt (s.disk.data stream.ino) stream.pos (stream.pending.take n) := by
    rw [hdisk]
    exact Function.update_self ..
  have hold : ∀ ino, ino ≠ stream.ino → s'.disk.data ino = s.disk.data ino := fun ino hne => by
    rw [hdisk]
    exact Function.update_of_ne hne ..
  have hdir : s'.disk.dir = s.disk.dir := by rw [hdisk]; rfl
  refine hi.move _ (by simp [hat]) hstart hpc (by rw [hdisk]; rfl) (fun ino file h => .inl ?_)
    (fun ino file h => ?_) (fun stream' rest' hat' => ?_) (fun ino t hs => ?_)
    (fun status sent hret => ?_) fun file hnone => ?_
  · obtain h | ⟨j, h, rfl⟩ := h
    · exact .inl (by rwa [hdir] at h)
    · rw [hpc, Function.update_apply] at h
      split_ifs at h with hj
      · obtain rfl | ⟨status, rfl⟩ := hgoes
        · obtain rfl := Option.some.inj h
          exact hj ▸ hopen
        · cases h
      · exact .inr ⟨j, h, rfl⟩
  · by_cases hino : ino = stream.ino
    · obtain rfl := hi.leads ino file (c.file k) h (hino ▸ hopen)
      refine .inr ⟨⟨content, hstores⟩, ?_⟩
      rw [hino, hnew]
      -- A hole is there only if another store has cut the file.
      refine Each.writeAt ((hi.data _ _ hopen).2.mono fun p b h => h.mono fun j hj hj' =>
        hj (hback j hj')) (fun i b hi' => ?_) fun p hle hlt => ?_
      · rw [List.getElem?_take] at hi'
        split_ifs at hi'
        refine .inr ⟨k, content, hstores, hself, .inl ?_⟩
        have hlt : i < stream.pending.length := (List.getElem?_eq_some_iff.mp hi').1
        rw [← hsplit, hpos, List.append_assoc, List.getElem?_append_right (Nat.le_add_right _ _),
          Nat.add_sub_cancel_left, List.getElem?_append_left hlt]
        exact hi'
      · refine .inr ⟨k, content, hstores, hself, .inr ⟨rfl, ?_, ?_⟩⟩
        · rw [← hsplit, List.append_assoc, List.length_append]
          omega
        · by_contra hnone
          push Not at hnone
          have := hbelow fun j hj hj' => hback j (hnone j hj hj')
          omega
    · exact .inl (hold ino hino)
  · obtain rfl | ⟨status, rfl⟩ := hgoes
    · obtain ⟨hs, rfl⟩ := Pc.reading.inj hat'
      obtain rfl := Option.some.inj hs
      refine ⟨⟨written ++ stream.pending.take n, content, hstores, ?_, ?_⟩, fun halone => ?_⟩
      · rw [← hsplit]
        simp [File.flush]
      · simp [File.flush, hpos]
      · change stream.pos + (stream.pending.take n).length ≤ (s'.disk.data stream.ino).length
        rw [hnew]
        exact Buffered.length_writeAt (hbelow fun j hj hj' => hback j (halone j hj hj'))
    · cases hat'
  · obtain rfl | ⟨status, rfl⟩ := hgoes <;> cases hs
  · obtain rfl | ⟨status, rfl⟩ := hgoes
    · cases hret
    · obtain ⟨-, rfl⟩ := Pc.returned.inj hret
      exact each_nil
  · have hne : s.disk.dir file ≠ some stream.ino := fun hdir => by
      obtain rfl := hi.leads _ _ _ (.inl hdir) hopen
      exact hself (hnone k content hstores)
    exact .inl (by rw [hdisk]; exact Disk.read_modify_other hne _)

theorem Traced.close (hi : Traced s) {stream : Option File} {rest : List Bytes}
    (hat : s.pc k = .reading stream rest) (status : StatusCode) :
    Traced ((s.close stream).done k status []) := by
  cases stream with
  | none => exact hi.done (by simp [hat]) status
  | some stream => exact hi.write hat _ (.inr ⟨status, rfl⟩) rfl rfl

variable [DecidableEq N] {messages : List Bytes} {filename : Option Bytes} {filepath : Bytes}

/-- The file is cut to nothing or made, and the call has it open. -/
theorem Traced.openWrite (hi : Traced s) (hat : s.pc k = .start)
    (htask : c.task k = .store filename messages)
    (hdisk : s'.disk = (s.disk.openWrite (c.file k)).2)
    (hpc : s'.pc = Function.update s.pc k
      (.reading (some ⟨(s.disk.openWrite (c.file k)).1, 0, []⟩) messages)) : Traced s' := by
  have hstores : c.Stores k (c.file k) messages.flatten := ⟨rfl, filename, messages, htask, rfl⟩
  have hself : s'.pc k ≠ .start := by simp [hpc]
  have hnew : ∀ ino, (s.disk.openWrite (c.file k)).1 = ino → s.Leads ino (c.file k)
      ∨ s.disk.fresh ≤ ino ∧ ino < s'.disk.fresh ∧ c.file k = c.file k
        ∧ s'.disk.data ino = [] := fun ino heq => by
    rw [hdisk]
    unfold Disk.openWrite at heq ⊢
    cases hdir : s.disk.dir (c.file k) with
    | some i =>
      simp only [hdir] at heq
      exact .inl (.inl (heq ▸ hdir))
    | none =>
      simp only [hdir] at heq
      subst heq
      exact .inr ⟨le_rfl, Nat.lt_succ_self _, rfl, Function.update_self ..⟩
  refine hi.move _ (by simp [hat]) (by simp) hpc (hdisk ▸ Disk.onlyAt_openWrite.fresh)
    (fun ino file h => ?_) (fun ino file h => ?_) (fun stream rest hs => ?_) (by simp) (by simp)
    fun file hnone => .inl ?_
  · obtain h | ⟨j, h, rfl⟩ := h
    · rw [hdisk] at h
      by_cases hfile : file = c.file k
      · subst hfile
        exact hnew ino (Option.some.inj (Disk.dir_openWrite.symm.trans h))
      · exact .inl (.inl (by rwa [Disk.dir_openWrite_other hfile] at h))
    · rw [hpc, Function.update_apply] at h
      split_ifs at h with hj
      · subst hj
        exact hnew ino (Option.some.inj h)
      · exact .inl (.inr ⟨j, h, rfl⟩)
  · have hlt := (hi.data ino file h).1
    rw [hdisk]
    unfold Disk.openWrite
    cases hdir : s.disk.dir (c.file k) with
    | none => exact .inl (Function.update_of_ne hlt.ne ..)
    | some i =>
      by_cases hino : ino = i
      · subst hino
        obtain rfl := hi.leads ino file (c.file k) h (.inl hdir)
        refine .inr ⟨⟨_, hstores⟩, ?_⟩
        change Each _ (Function.update s.disk.data ino [] ino)
        rw [Function.update_self]
        exact each_nil
      · exact .inl (Function.update_of_ne hino ..)
  · obtain ⟨hs', rfl⟩ := Pc.reading.inj hs
    obtain rfl := Option.some.inj hs'
    exact ⟨⟨[], _, hstores, by simp, rfl⟩, fun _ => Nat.zero_le _⟩
  · rw [hdisk]
    refine Disk.read_openWrite_other fun hfile => ?_
    subst hfile
    exact hself (hnone k _ hstores)

theorem Traced.storeFile (hi : Traced s) (htask : c.task k = .store filename messages)
    (h : storeFile messages k turn s = some s') : Traced s' := by
  unfold Calls.storeFile at h
  cases hat : s.pc k with
  | start =>
    simp only [hat] at h
    split_ifs at h
    · obtain rfl := Option.some.inj h
      exact hi.pass _ (by simp [hat]) (by simp) rfl rfl (by simp [Pc.ino]) (by simp) (by simp)
        (by simp)
    · obtain rfl := Option.some.inj h
      exact hi.openWrite hat htask rfl rfl
  | reading stream rest =>
    simp only [hat] at h
    cases rest with
    | nil => exact Option.some.inj h ▸ hi.close hat _
    | cons m ms =>
      cases turn with
      | goes =>
        obtain rfl := Option.some.inj h
        refine hi.pass _ (by simp [hat]) (by simp) rfl rfl (fun ino hino => .inr ⟨k, ?_, rfl⟩)
          (fun stream' rest' hs => ?_) (by simp) (by simp)
        · rw [hat]
          cases stream with
          | none => cases hino
          | some file => exact hino
        · cases stream with
          | none => cases (Pc.reading.inj hs).1
          | some file =>
            obtain ⟨hs', rfl⟩ := Pc.reading.inj hs
            obtain rfl := Option.some.inj hs'
            obtain ⟨⟨written, content, hstores, hsplit, hpos⟩, hbelow⟩ := hi.writing k _ _ hat
            exact ⟨⟨written, content, hstores, by simpa using hsplit, hpos⟩, hbelow⟩
      | isCancelled => exact Option.some.inj h ▸ hi.close hat _
      | throws => exact Option.some.inj h ▸ hi.close hat _
  | stated stSize => simp [hat] at h
  | sending ino t => simp [hat] at h
  | removing => simp [hat] at h
  | returned status sent => simp [hat] at h

/-! ### The steps of a removal -/

theorem Traced.deleteFile (hi : Traced s) (htask : c.task k = .delete filepath)
    (h : deleteFile k turn s = some s') : Traced s' := by
  unfold Calls.deleteFile at h
  cases hat : s.pc k with
  | start =>
    have hrun : ∀ status sent, s.pc k ≠ .returned status sent := by simp [hat]
    simp only [hat] at h
    split at h
    · exact Option.some.inj h ▸ hi.done hrun _
    · split at h
      · exact Option.some.inj h ▸ hi.done hrun _
      · obtain rfl := Option.some.inj h
        exact hi.pass _ hrun (by simp) rfl rfl (by simp [Pc.ino]) (by simp) (by simp) (by simp)
  | removing =>
    have hrun : ∀ status sent, s.pc k ≠ .returned status sent := by simp [hat]
    simp only [hat] at h
    split_ifs at h
    · obtain rfl := Option.some.inj h
      refine hi.move (.returned .ok []) hrun (by simp) rfl le_rfl
        (fun ino file h => .inl ?_) (fun ino file _ => .inl rfl) (by simp) (by simp)
        (fun status sent hret => ?_) fun file _ => ?_
      · obtain h | ⟨j, h, rfl⟩ := h
        · exact .inl (Disk.dir_of_unlink h)
        · simp only [State.done, State.goto, Function.update_apply] at h
          split_ifs at h
          · cases h
          · exact .inr ⟨j, h, rfl⟩
      · obtain ⟨-, rfl⟩ := Pc.returned.inj hret
        exact each_nil
      · by_cases hfile : file = c.file k
        · subst hfile
          exact .inr ⟨Disk.read_unlink, ⟨rfl, filepath, htask⟩, rfl⟩
        · exact .inl (Disk.read_unlink_other hfile)
    · exact Option.some.inj h ▸ hi.done hrun _
  | reading stream rest => simp [hat] at h
  | stated stSize => simp [hat] at h
  | sending ino t => simp [hat] at h
  | returned status sent => simp [hat] at h

/-! ### Whole runs -/

theorem Traced.next (hi : Traced s) {e : Event c} (h : step c e s = some s') : Traced s' := by
  unfold step at h
  cases e with
  | run k turn =>
    simp only at h
    cases htask : c.task k with
    | store filename messages => exact hi.storeFile htask (by simpa [htask] using h)
    | fetch filepath => exact hi.fetchFile (by simpa [htask] using h)
    | delete filepath => exact hi.deleteFile htask (by simpa [htask] using h)
  | flush k n =>
    simp only at h
    split at h
    · rename_i stream rest hat
      obtain rfl := Option.some.inj h
      exact hi.write hat n (.inl rfl) rfl rfl
    · cases h
  | lose k =>
    simp only at h
    split at h
    · rename_i stream rest hat
      obtain rfl := Option.some.inj h
      exact hi.pass _ (by simp [hat]) (by simp) rfl rfl (by simp [Pc.ino]) (by simp) (by simp)
        (by simp)
    · cases h

/-- Two stores, a fetch and a removal of one file, which is not there before. -/
def fourCalls : Config Bytes where
  mountPath := ascii "m/"
  entry := id
  ncalls := 4
  task := [.store (some (ascii "f")) [ascii "a", ascii "b"], .store (some (ascii "f")) [ascii "c"],
    .fetch (ascii "f"), .delete (ascii "f")].get
  disk := Disk.empty

def fourCalls.call (k : ℕ) : Fin fourCalls.ncalls := Fin.ofNat 4 k

def fourCalls.goes (k : ℕ) : Event fourCalls := .run (call k) .goes

end FileServices.Calls
