import FileServices.Download
import FileServices.Proofs.OpenFile
import FileServices.Proofs.Receiver
import FileServices.Proofs.Workload

/-!
# What the client of `gflib` leaves on the disk

After a request the file under its local name is there just when the answer was complete
(`request_ok`), so that after the loop the last request for a name decides (`saved_apply`).
-/

namespace FileServices.Download

open CString

variable {room : ℕ} {w : Workload.Paths} {e : Exchange} {es : List Exchange} {r : Report}
  {rs : List Report} {s s' : Client} {reqPath : Bytes}

/-! ### A request -/

/-- The loop over the directories goes on where a directory is made, or is there. -/
theorem openBody_more {o o' : OpenFile.Opening} {mkdir : Option ℕ}
    (h : OpenFile.openBody o mkdir = .more o') : mkdir = none ∨ mkdir = some OpenFile.eexist := by
  unfold OpenFile.openBody at h
  split at h
  · simp only [] at h
    split_ifs at h with hbad
    rcases mkdir with _ | n
    · exact .inl rfl
    · simpa using hbad
  · cases h

theorem openBody_stop {o : OpenFile.Opening} {mkdir : Option ℕ} {ending : OpenFile.Ending}
    (h : OpenFile.openBody o mkdir = .stop ending) : ending = .exit ∨ ending = .outside := by
  unfold OpenFile.openBody at h
  split at h
  · simp only [] at h
    split_ifs at h
    cases h
    exact .inl rfl
  · cases h
    exact .inr rfl

/-- The file is opened under the name that `openFile` is given. -/
theorem openFile_name {path name : Bytes} (hne : path ≠ []) (h0 : 0 ∉ path)
    {mkdirs : List (Option ℕ)} {o : OpenFile.Opening}
    (h : OpenFile.openFile (path ++ [0]) mkdirs = .stop (.fopen name o)) : name = path := by
  have hrun := @Loop.run_induction _ _ _ OpenFile.openHead OpenFile.openBody
    (OpenFile.Opening.Ok path []) (fun _ => True)
    (fun ending => ∀ name o, ending = .fopen name o → name = path)
    ?_ ?_ ?_ mkdirs (.start (path ++ [0])) (.start hne []) fun _ _ => trivial
  · rw [← OpenFile.openFile, h] at hrun
    exact hrun name o rfl
  · intro o mkdir o' ho _ hhead hbody
    obtain ⟨cur, js, hsep⟩ := ho.exists_separator h0 hhead
    obtain ⟨o'', ho'', hok, -⟩ := ho.body h0 hsep (openBody_more hbody)
    exact Loop.Outcome.more.inj (ho''.symm.trans hbody) ▸ hok
  · rintro o _ ho hhead name o' rfl
    cases hsep : OpenFile.separators path (o.prev + 1) with
    | nil =>
      obtain ⟨o'', ho'', -⟩ := ho.head h0 hsep
      rw [hhead] at ho''
      cases ho''
      rfl
    | cons cur js =>
      have hfound := ho.search h0
      rw [hsep] at hfound
      simp [OpenFile.openHead, hfound] at hhead
  · rintro o mkdir _ - - - hbody name o' rfl
    rcases openBody_stop hbody with h | h <;> cases h

/-! ### What `gfc_perform` returns -/

/-- The return value is the one of `get_return_code`, an answer that is not OK has no content, and
that of one that is OK has been counted. -/
structure Report.Sound (r : Report) : Prop where
  returncode : r.returncode = getReturnCode r.gfr.status r.gfr.bytesReceived r.gfr.fileLength
  refused : r.gfr.status ≠ .ok → r.gfr.written = []
  counted : r.gfr.status = .ok → r.gfr.bytesReceived = r.gfr.written.flatten.length % 2 ^ 64

/-- What the receive loop has of a request after its header. -/
structure Counts (t : RecvState) : Prop where
  headerRcvd : t.headerRcvd = true
  status : t.gfr.status = .ok
  writeFunc : t.gfr.writeFunc = true
  count : t.gfr.bytesReceived = t.gfr.written.flatten.length % 2 ^ 64

/-- Nothing has come, or a header has, or the loop has been left. -/
def Sound : Loop.Outcome RecvState Result → Prop
  | .more t => t = ⟨freshRequest, false, 0⟩ ∨ Counts t
  | .stop .undefined => True
  | .stop (.returned gfr code) => Report.Sound ⟨gfr, code⟩

theorem Counts.test {t : RecvState} (ht : Counts t) : Sound (gfcTest t) := by
  unfold gfcTest
  split_ifs
  · exact ⟨rfl, fun hne => absurd ht.status hne, fun _ => ht.count⟩
  · exact .inr ht

theorem sound_first {p : Bytes} (hle : p.length ≤ bufsize) : Sound (gfcFirst freshRequest p) := by
  have hlt : p.length < 2 ^ 64 := hle.trans_lt (by decide)
  unfold gfcFirst
  split_ifs with hp
  · exact ⟨rfl, fun _ => rfl, fun h => by cases h⟩
  rcases decodeHeader p with _ | status | len
  · trivial
  · refine ⟨rfl, fun _ => rfl, fun _ => rfl⟩
  · simp only [freshRequest, gfcSetWritefunc, Bool.true_eq_false, ↓reduceIte]
    split_ifs with hshort
    · trivial
    · refine Counts.test ⟨rfl, rfl, rfl, ?_⟩
      have hsub := sizeSub_of_le (not_lt.mp hshort) hlt
      simp [GfcRequest.write, gfcCreate, sizeAdd, hsub]

theorem Counts.content {t : RecvState} (ht : Counts t) (p : Bytes) : Sound (gfcContent t p) := by
  unfold gfcContent
  split_ifs with hp hw
  · exact ⟨rfl, fun hne => absurd rfl hne, fun _ => ht.count⟩
  · trivial
  · refine Counts.test ⟨ht.headerRcvd, ht.status, ht.writeFunc, ?_⟩
    simp [GfcRequest.write, sizeAdd, ht.count]

theorem sound_perform {recvs : List (Option Bytes)}
    (hle : ∀ p, some p ∈ recvs → p.length ≤ bufsize) : Sound (gfcPerform freshRequest recvs) := by
  have hbody : ∀ t (packet : Option Bytes), Sound (.more t) →
      (∀ p, packet = some p → p.length ≤ bufsize) → Sound (gfcBody t packet) := by
    intro t packet ht hpacket
    rcases packet with _ | p
    · trivial
    rcases ht with rfl | ht
    · exact sound_first (hpacket p rfl)
    · simp only [gfcBody, ht.headerRcvd, ↓reduceIte]
      exact ht.content p
  have hrun := @Loop.run_induction _ _ _ (fun _ => none) gfcBody (fun t => Sound (.more t))
    (fun packet => ∀ p, packet = some p → p.length ≤ bufsize) (fun r => Sound (.stop r))
    (fun t packet t' ht hpacket _ hmore => hmore ▸ hbody t packet ht hpacket)
    (fun t r _ hhead => by cases hhead)
    (fun t packet r ht hpacket _ hstop => hstop ▸ hbody t packet ht hpacket)
    recvs ⟨freshRequest, false, 0⟩ (.inl rfl) (fun packet hmem p hp => hle p (hp ▸ hmem))
  unfold gfcPerform
  cases hrecv : Loop.run (fun _ => none) gfcBody ⟨freshRequest, false, 0⟩ recvs with
  | more t => rwa [hrecv] at hrun
  | stop r => rwa [hrecv] at hrun

/-! ### A request -/

/-- `gfc_perform` comes to `r` in the exchange. -/
def Answers (e : Exchange) (r : Report) : Prop :=
  e.getaddrinfo ≠ 0 ∧ r = ⟨freshRequest, 2⟩
    ∨ e.getaddrinfo = 0 ∧ gfcPerform freshRequest e.recvs = .stop (.returned r.gfr r.returncode)

/-- The answer was OK, and has as many bytes as its header announced. -/
def Report.Complete (r : Report) : Prop :=
  r.gfr.status = .ok ∧ r.gfr.bytesReceived = r.gfr.fileLength

instance (r : Report) : Decidable r.Complete := by
  unfold Report.Complete
  infer_instance

/-- What is left of the file of a request: it stays where the answer is complete, and where it
cannot be removed. -/
def Report.kept (r : Report) (e : Exchange) : Option Bytes :=
  if ¬ r.Complete ∧ (r.returncode < 0 ∧ e.unlinks.1 ∨ r.gfr.status ≠ .ok ∧ e.unlinks.2) then none
  else some (e.stored r.gfr.written.flatten)

theorem Answers.unresolved_or_sound (h : Answers e r) : r = ⟨freshRequest, 2⟩ ∨ r.Sound := by
  rcases h with ⟨-, rfl⟩ | ⟨-, hperform⟩
  · exact .inl rfl
  · have hsound := sound_perform fun p hp => e.recvs_le p (List.reduceOption_mem_iff.mpr hp)
    rw [hperform] at hsound
    exact .inr hsound

/-- The return value is 0 where the answer is complete. -/
theorem Answers.complete (h : Answers e r) (hcomplete : r.Complete) :
    r.Sound ∧ r.returncode = 0 := by
  rcases h.unresolved_or_sound with rfl | hsound
  · cases hcomplete.1
  · exact ⟨hsound, hsound.returncode.trans (if_pos (.inr (.inr hcomplete)))⟩

/-- Where the answer is not complete the client removes the file. -/
theorem Answers.incomplete (h : Answers e r) (hcomplete : ¬ r.Complete) :
    r.returncode < 0 ∨ r.gfr.status ≠ .ok := by
  rcases h.unresolved_or_sound with rfl | hsound
  · exact .inr (by decide)
  · rw [or_iff_not_imp_right, not_not]
    intro hstatus
    have hcount : r.gfr.bytesReceived ≠ r.gfr.fileLength := fun hcount =>
      hcomplete ⟨hstatus, hcount⟩
    rw [hsound.returncode]
    simp [getReturnCode, hstatus, hcount]

theorem settle_eq (h : Answers e r) (s : Client) (name : Bytes) :
    s.settle name e r = { s.put name (r.kept e) with
      fds := s.fds - 1
      reports := s.reports ++ [r] } := by
  unfold Client.settle Report.kept
  by_cases hcomplete : r.Complete
  · have hcode := (h.complete hcomplete).2
    simp [Client.put, hcomplete, hcomplete.1, hcode]
  · by_cases hfirst : r.returncode < 0 ∧ e.unlinks.1 = true
    · by_cases hsecond : r.gfr.status ≠ .ok ∧ e.unlinks.2 = true
      · simp [Client.put, hcomplete, hfirst, hsecond]
      · simp [Client.put, hcomplete, hfirst, hsecond]
    · by_cases hsecond : r.gfr.status ≠ .ok ∧ e.unlinks.2 = true
      · simp [Client.put, hcomplete, hfirst, hsecond]
      · simp [Client.put, hcomplete, hfirst, hsecond]

theorem perform_ok (h : perform room reqPath e s = .ok (r, s')) :
    Answers e r ∧ s.fds < room ∧ s' = { s with fds := s.fds + 1 } := by
  unfold perform at h
  split_ifs at h with hroom hresolved
  · cases h
    exact ⟨.inl ⟨hresolved, rfl⟩, not_le.mp hroom, rfl⟩
  · simp only [] at h
    split at h
    · cases h
    · cases h
    · cases h
    · split at h
      · cases h
      · cases h
      · rename_i gfr code hperform
        cases h
        exact ⟨.inr ⟨not_not.mp hresolved, hperform⟩, not_le.mp hroom, rfl⟩

theorem openLocal_ok {localPath : Bytes} (hne : localPath ≠ []) (h0 : 0 ∉ localPath)
    (h : openLocal room localPath e s = .ok s') :
    s.fds < room ∧ s' = { s.put localPath (some []) with fds := s.fds + 1 } := by
  unfold openLocal at h
  split at h
  · cases h
  · cases h
  · cases h
  · rename_i name o hopen
    split_ifs at h with hfopen
    cases h
    rw [openFile_name hne h0 hopen]
    exact ⟨hfopen.2, rfl⟩

/-- A request that is gone through leaves its file if the answer was complete, and a socket. -/
theorem request_ok (h0 : 0 ∉ reqPath) (h : request room reqPath e s = .ok s') : ∃ r, Answers e r
    ∧ reqPath.length ≤ 256 ∧ s.fds + 2 ≤ room
    ∧ s' = { s.put (LocalPath.localPath reqPath s.reports.length) (r.kept e) with
      fds := s.fds + 1
      reports := s.reports ++ [r] } := by
  unfold request at h
  split_ifs at h with hlong
  obtain ⟨hne, hterm⟩ := OpenFile.localPath_string h0 s.reports.length
  cases hopen : openLocal room (LocalPath.localPath reqPath s.reports.length) e s with
  | error ending => simp [hopen, Except.bind] at h
  | ok opened =>
    obtain ⟨hroom, rfl⟩ := openLocal_ok hne hterm hopen
    simp only [hopen, Except.bind] at h
    cases hperform : perform room reqPath e
        { s.put (LocalPath.localPath reqPath s.reports.length) (some []) with
          fds := s.fds + 1 } with
    | error ending => simp [hperform, Except.map] at h
    | ok result =>
      obtain ⟨r, performed⟩ := result
      obtain ⟨hanswers, hroom', rfl⟩ := perform_ok hperform
      simp only [hperform, Except.map, Except.ok.injEq] at h
      subst h
      refine ⟨r, hanswers, not_lt.mp hlong, hroom', ?_⟩
      rw [settle_eq hanswers]
      simp [Client.put]

/-! ### The loop -/

/-- The path of request `i`. -/
def requestPath (w : Workload.Paths) (i : ℕ) : Bytes :=
  match Workload.lookup w i with
  | .ok (_, some path) => path
  | _ => []

/-- The name under which request `i` is saved. -/
def localName (w : Workload.Paths) (i : ℕ) : Bytes := LocalPath.localPath (requestPath w i) i

/-- The file to which request `i` is saved. -/
def localFile (w : Workload.Paths) (i : ℕ) : Path.Place Bytes := Path.resolve (localName w i)

/-- The disk after the requests from `i` on, which leave `kept` of their files. -/
def saved (w : Workload.Paths) :
    ℕ → List (Option Bytes) → (Path.Place Bytes → Option Bytes) → Path.Place Bytes → Option Bytes
  | _, [], disk => disk
  | i, kept :: rest, disk => saved w (i + 1) rest (Function.update disk (localFile w i) kept)

theorem saved_of_ne : ∀ {kepts : List (Option Bytes)} {i : ℕ}
    {disk : Path.Place Bytes → Option Bytes} {file : Path.Place Bytes},
    (∀ j < kepts.length, localFile w (i + j) ≠ file) → saved w i kepts disk file = disk file
  | [], _, _, _, _ => rfl
  | kept :: kepts, i, disk, file, hne => by
    have hrest : ∀ j < kepts.length, localFile w (i + 1 + j) ≠ file := fun j hj => by
      have := hne (j + 1) (by simpa using hj)
      rwa [← Nat.add_assoc, Nat.add_right_comm] at this
    rw [saved, saved_of_ne hrest, Function.update_of_ne]
    exact (hne 0 (by simp)).symm

/-- The last request for a file decides. -/
theorem saved_apply : ∀ {kepts : List (Option Bytes)} {i j : ℕ}
    {disk : Path.Place Bytes → Option Bytes} (hj : j < kepts.length),
    (∀ k < kepts.length, j < k → localFile w (i + k) ≠ localFile w (i + j)) →
      saved w i kepts disk (localFile w (i + j)) = kepts[j]
  | kept :: kepts, i, 0, disk, _, hlast => by
    have hrest : ∀ k < kepts.length, localFile w (i + 1 + k) ≠ localFile w i := fun k hk => by
      have := hlast (k + 1) (by simpa using hk) (by omega)
      rwa [← Nat.add_assoc, Nat.add_right_comm] at this
    change saved w (i + 1) kepts (Function.update disk (localFile w i) kept) (localFile w i) = kept
    rw [saved_of_ne hrest, Function.update_self]
  | kept :: kepts, i, j + 1, disk, hj, hlast => by
    have hrest : ∀ k < kepts.length, j < k →
        localFile w (i + 1 + k) ≠ localFile w (i + 1 + j) := fun k hk hjk => by
      have := hlast (k + 1) (by simpa using hk) (by omega)
      rwa [← Nat.add_assoc, ← Nat.add_assoc, Nat.add_right_comm, Nat.add_right_comm i j] at this
    rw [saved, ← Nat.add_assoc, Nat.add_right_comm, saved_apply (by simpa using hj) hrest]
    rfl

theorem requestPath_eq {i : ℕ} {index : ℤ} {path : Bytes}
    (h : Workload.lookup w i = .ok (index, some path)) : requestPath w i = path := by
  rw [requestPath, h]

/-- The loop by its requests. -/
theorem requestLoop_ok (h0 : ∀ i, 0 ∉ requestPath w i) : ∀ {es : List Exchange} {s s' : Client},
    requestLoop room w es s = .ok s' → ∃ rs, List.Forall₂ Answers es rs
      ∧ s'.reports = s.reports ++ rs ∧ s'.fds = s.fds + es.length
      ∧ (es ≠ [] → s.fds + es.length < room)
      ∧ s'.disk = saved w s.reports.length (List.zipWith Report.kept rs es) s.disk
  | [], s, s', h => by
    cases h
    exact ⟨[], .nil, by simp, rfl, by simp, rfl⟩
  | e :: es, s, s', h => by
    rw [requestLoop] at h
    split at h
    · cases h
    · cases h
    · rename_i index path hlookup
      have hpath := requestPath_eq hlookup
      cases hrequest : request room path e s with
      | error ending =>
        rw [hrequest] at h
        cases h
      | ok t =>
        rw [hrequest] at h
        obtain ⟨r, hanswers, -, hroom, rfl⟩ := request_ok (hpath ▸ h0 _) hrequest
        obtain ⟨rs, hall, hreports, hfds, hleft, hdisk⟩ := requestLoop_ok h0 h
        refine ⟨r :: rs, .cons hanswers hall, ?_, ?_, fun _ => ?_, ?_⟩
        · simp [hreports]
        · rw [hfds, List.length_cons]
          simp only []
          omega
        · rw [List.length_cons]
          by_cases hes : es = []
          · simp only [hes, List.length_nil]
            omega
          · have := hleft hes
            simp only [] at this
            omega
        · rw [hdisk, List.zipWith_cons_cons, saved, localFile, localName, hpath]
          simp [Client.put]

/-- The paths that `workload_init` leaves are strings. -/
theorem requestPath_string {file : Bytes} (hw : Workload.workloadInit file = .ok w) (i : ℕ) :
    0 ∉ requestPath w i := by
  obtain ⟨hload, -⟩ := Workload.workloadInit_ok hw
  unfold requestPath
  split
  · rename_i index path hlookup
    unfold Workload.lookup at hlookup
    split_ifs at hlookup with hzero
    simp only [] at hlookup
    split_ifs at hlookup with hinside
    have hget := (Prod.mk.inj (Except.ok.inj hlookup)).2
    rw [List.getD_eq_getElem?_getD, hload.array] at hget
    rcases hat : (List.map (fun t => some (cstr t)) (Workload.words file)
        ++ List.replicate (100 - (Workload.words file).length) none)[
          (Int.tmod i w.gUniqueWorkloadPaths).toNat]? with _ | entry
    · simp [hat] at hget
    · obtain rfl : entry = some path := by simpa [hat] using hget
      rcases List.mem_append.mp (List.mem_of_getElem? hat) with hmem | hmem
      · obtain ⟨t, -, ht⟩ := List.mem_map.mp hmem
        cases ht
        exact notMem_cstr t
      · cases List.eq_of_mem_replicate hmem
  · simp

/-- The loop from the start: what its requests leave, where the last one for a file decides. -/
theorem requestLoop_settles {file : Bytes} (hw : Workload.workloadInit file = .ok w)
    {disk : Path.Place Bytes → Option Bytes} {fds : ℕ}
    (h : requestLoop room w es ⟨disk, fds, []⟩ = .ok s) :
    List.Forall₂ Answers es s.reports ∧ s.fds = fds + es.length
      ∧ (∀ place, (∀ i < es.length, localFile w i ≠ place) → s.disk place = disk place)
      ∧ ∀ i (hi : i < es.length) (hi' : i < s.reports.length),
        (∀ j < es.length, i < j → localFile w j ≠ localFile w i) →
          s.disk (localFile w i) = s.reports[i].kept es[i] := by
  obtain ⟨rs, hall, hreports, hfds, -, hdisk⟩ := requestLoop_ok (requestPath_string hw) h
  simp only [List.nil_append, List.length_nil] at hreports hdisk
  subst hreports
  have hlen : (List.zipWith Report.kept s.reports es).length = es.length := by
    rw [List.length_zipWith, ← hall.length_eq, Nat.min_self]
  refine ⟨hall, hfds, fun place hne => ?_, fun i hi hi' hlast => ?_⟩
  · rw [hdisk]
    exact saved_of_ne fun j hj => by
      rw [Nat.zero_add]
      exact hne j (hlen ▸ hj)
  · have happly := @saved_apply w (List.zipWith Report.kept s.reports es) 0 i disk
      (hlen.symm ▸ hi) fun k hk hik => by
        rw [Nat.zero_add, Nat.zero_add]
        exact hlast k (hlen ▸ hk) hik
    rwa [Nat.zero_add, ← hdisk, List.getElem_zipWith] at happly

/-- What `workload_init` leaves for the file `/a`. -/
def onePath : Workload.Paths where
  gWorkloadPathArray := some (ascii "/a") :: List.replicate 99 none
  gUniqueWorkloadPaths := 1

theorem workloadInit_onePath : Workload.workloadInit (ascii "/a") = .ok onePath := by
  have hwords : Workload.words (ascii "/a") = [ascii "/a"] := by
    rw [Workload.words]
    split
    · rename_i h
      exact absurd h (by decide)
    · rename_i word rest h
      obtain ⟨rfl, rfl⟩ : ascii "/a" = word ∧ [] = rest := by
        simpa [show Workload.fscanf (ascii "/a") = some (ascii "/a", []) by decide] using h
      rw [Workload.words]
      rfl
  have hshort : ∀ t ∈ Workload.words (ascii "/a"), t.length ≤ 255 := by
    simp only [hwords]
    decide
  obtain ⟨w, hw⟩ := Workload.workloadInit_isOk (by simp [hwords]) hshort
  obtain ⟨⟨harray, hcount, -⟩, -⟩ := Workload.workloadInit_ok hw
  rw [hwords] at harray hcount
  rw [hw]
  obtain ⟨array, count⟩ := w
  obtain rfl : array = onePath.gWorkloadPathArray := harray
  obtain rfl : count = 1 := hcount
  rfl

/-- A request of `onePath` that is answered with `recvs`. -/
def answered (recvs : List (Option Bytes))
    (hle : ∀ packet ∈ recvs.reduceOption, packet.length ≤ bufsize) : Exchange where
  mkdirs := []
  fopen := true
  short := none
  unlinks := (true, true)
  getaddrinfo := 0
  sends := [18]
  recvs := recvs
  recvs_le := hle

/-- An answer of two bytes, in two packets. -/
def inTwo : Exchange :=
  answered [some (ascii "GETFILE OK 2\r\n\r\nh"), some (ascii "i")] (by decide)

/-- A complete answer, and one that is cut off. -/
def wholeAndCut : List Exchange :=
  [inTwo, answered [some (ascii "GETFILE OK 2\r\n\r\nh"), some []] (by decide)]

/-- Where the first two requests of `onePath` are saved. -/
theorem localFile_onePath : localFile onePath 0 = Path.resolve (ascii "a_000000")
    ∧ localFile onePath 1 = Path.resolve (ascii "a_000001") := by
  decide +kernel

end FileServices.Download
