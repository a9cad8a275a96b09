import FileServices.Proofs.Download
import FileServices.Proofs.Gfclient
import FileServices.Proofs.Gfserver
import FileServices.Proofs.LocalPath
import FileServices.Proofs.Request
import FileServices.ServeLoop

/-!
# What the client of `gflib` gets from a server

Where the calls of each request work the client goes through its requests until it has no
descriptor left for a socket (`downloads_limited`).  What it then has is settled by the answers:
from a server that serves files it has them (`downloads_served`), and from the server of `gflib`
it has nothing (`downloads_refused`).
-/

namespace FileServices.Download

open CString Cut

variable {file : Bytes} {room fds : ℕ} {w : Workload.Paths} {e : Exchange} {es : List Exchange}
  {s : Client} {path : Bytes} {disk : Path.Place Bytes → Option Bytes}

/-! ### Requests that work -/

/-- The file of request `i` for `path` can be opened. -/
structure Opens (path : Bytes) (i : ℕ) (e : Exchange) : Prop where
  dirs : ∃ name o, OpenFile.openFile (LocalPath.localPath path i ++ [0]) e.mkdirs
    = .stop (.fopen name o)
  fopen : e.fopen = true

/-- Request `i` for `path` is sent, and the receive loop ends. -/
structure Works (path : Bytes) (i : ℕ) (e : Exchange) : Prop extends Opens path i e where
  sent : ∃ st, sendRequest path e.sends = .stop (.sent st)
  returns : ∃ gfr code, gfcPerform freshRequest e.recvs = .stop (.returned gfr code)

theorem Opens.openLocal (h : Opens path s.reports.length e) (h0 : 0 ∉ path)
    (hroom : s.fds < room) : openLocal room (LocalPath.localPath path s.reports.length) e s
      = .ok { s.put (LocalPath.localPath path s.reports.length) (some []) with
        fds := s.fds + 1 } := by
  obtain ⟨hne, hterm⟩ := OpenFile.localPath_string h0 s.reports.length
  obtain ⟨name, o, hopen⟩ := h.dirs
  obtain rfl := openFile_name hne hterm hopen
  unfold Download.openLocal
  simp [hopen, h.fopen, hroom]

theorem Works.request (h : Works path s.reports.length e) (h0 : 0 ∉ path)
    (hlen : path.length ≤ 256) (hroom : s.fds + 2 ≤ room) :
    ∃ s', request room path e s = .ok s' := by
  obtain ⟨st, hsent⟩ := h.sent
  obtain ⟨gfr, code, hreturns⟩ := h.returns
  unfold Download.request
  rw [if_neg (not_lt.mpr hlen)]
  simp only [h.toOpens.openLocal h0 (by omega : s.fds < room), Except.bind]
  unfold perform
  rw [if_neg (by simp only []; omega)]
  by_cases hresolved : e.getaddrinfo = 0
  · simp only [hresolved, ne_eq, not_true_eq_false, ↓reduceIte, hsent, hreturns, Except.map]
    exact ⟨_, rfl⟩
  · simp only [ne_eq, hresolved, not_false_eq_true, ↓reduceIte, Except.map]
    exact ⟨_, rfl⟩

/-- With room for one more descriptor the file is opened, and there is none for the socket. -/
theorem Opens.request_full (h : Opens path s.reports.length e) (h0 : 0 ∉ path)
    (hlen : path.length ≤ 256) (hroom : room = s.fds + 1) :
    request room path e s = .error (.exit 14) := by
  unfold Download.request
  rw [if_neg (not_lt.mpr hlen)]
  simp only [h.openLocal h0 (by omega : s.fds < room), Except.bind]
  unfold perform
  rw [if_pos (by simp only []; omega)]
  rfl

/-- The paths that a workload with words has for the first `2 ^ 31` requests. -/
theorem lookup_ok (hw : Workload.workloadInit file = .ok w)
    (hwords : 0 < (Workload.words file).length) {i : ℕ} (hi : i < 2 ^ 31) :
    ∃ index, Workload.lookup w i = .ok (index, some (requestPath w i))
      ∧ (requestPath w i).length ≤ 255 := by
  obtain ⟨hload, hlen⟩ := Workload.workloadInit_ok hw
  have hturn : Workload.Turn file w i := (Workload.turn_iff hload i).mpr
    ⟨hwords, by rw [Workload.entryOf_lt hi, Int.ofNat_tmod]⟩
  obtain ⟨tok, htok, hlookup⟩ := hturn
  rw [Workload.entryOf_lt hi] at hlookup
  have hpath := requestPath_eq hlookup
  refine ⟨_, hpath.symm ▸ hlookup, ?_⟩
  rw [hpath]
  have hcstr : (cstr tok).length ≤ tok.length := (List.takeWhile_sublist _).length_le
  exact hcstr.trans (hlen tok (List.mem_of_getElem? htok))

/-- A request of the loop, with its path. -/
theorem requestLoop_cons (hw : Workload.workloadInit file = .ok w)
    (hwords : 0 < (Workload.words file).length) (hcount : s.reports.length < 2 ^ 31) :
    requestLoop room w (e :: es) s
      = (request room (requestPath w s.reports.length) e s).bind (requestLoop room w es) := by
  obtain ⟨index, hlookup, -⟩ := lookup_ok hw hwords hcount
  rw [requestLoop, hlookup]

/-- The loop goes through its requests as long as there is a descriptor for a socket. -/
theorem requestLoop_works (hw : Workload.workloadInit file = .ok w)
    (hwords : 0 < (Workload.words file).length) : ∀ {es : List Exchange} {s : Client},
    s.reports.length + es.length ≤ 2 ^ 31 →
    (∀ i (hi : i < es.length), Works (requestPath w (s.reports.length + i)) (s.reports.length + i)
      es[i]) → s.fds + es.length < room → ∃ s', requestLoop room w es s = .ok s'
  | [], s, _, _, _ => ⟨s, rfl⟩
  | e :: es, s, hcount, hworks, hroom => by
    rw [List.length_cons] at hcount hroom
    have hstring := requestPath_string hw s.reports.length
    obtain ⟨-, -, hlen⟩ := lookup_ok hw hwords (by omega : s.reports.length < 2 ^ 31)
    have hfirst : Works (requestPath w s.reports.length) s.reports.length e :=
      hworks 0 (by simp)
    obtain ⟨s', hs'⟩ := hfirst.request hstring (by omega) (by omega : s.fds + 2 ≤ room)
    obtain ⟨r, -, -, -, heq⟩ := request_ok hstring hs'
    have hfds : s'.fds = s.fds + 1 := by rw [heq]
    have hreports : s'.reports.length = s.reports.length + 1 := by
      rw [heq, List.length_append, List.length_singleton]
    rw [requestLoop_cons hw hwords (by omega), hs']
    exact requestLoop_works hw hwords (by omega) (fun i hi => by
      rw [show s'.reports.length + i = s.reports.length + (i + 1) by omega]
      exact hworks (i + 1) (by simpa using hi)) (by omega)

theorem requestLoop_runs (hw : Workload.workloadInit file = .ok w)
    (hwords : 0 < (Workload.words file).length) (hcount : es.length ≤ 2 ^ 31)
    (hroom : fds + es.length < room)
    (hworks : ∀ i (hi : i < es.length), Works (requestPath w i) i es[i]) :
    ∃ s, requestLoop room w es ⟨disk, fds, []⟩ = .ok s :=
  requestLoop_works hw hwords (by simpa using hcount) (by simpa using hworks) hroom

theorem requestLoop_append : ∀ (es es' : List Exchange) (s : Client),
    requestLoop room w (es ++ es') s = (requestLoop room w es s).bind (requestLoop room w es')
  | [], _, _ => rfl
  | e :: es, es', s => by
    rw [List.cons_append, requestLoop, requestLoop]
    split
    · rfl
    · rfl
    · rename_i index path hlookup
      cases hrequest : request room path e s with
      | error ending => rfl
      | ok t => exact requestLoop_append es es' t

theorem requestPath_onePath (i : ℕ) : requestPath onePath i = ascii "/a" := by
  simp [requestPath, Workload.lookup, onePath]

theorem words_onePath : 0 < (Workload.words (ascii "/a")).length := by
  rw [Workload.words]
  split
  · rename_i h
    exact absurd h (by decide)
  · exact Nat.succ_pos _

/-- The calls that write the file, close it and remove it work. -/
structure Stores (e : Exchange) : Prop where
  whole : e.short = none
  unlinks : e.unlinks = (true, true)

theorem Stores.kept (h : Stores e) (hanswers : Answers e r) :
    r.kept e = if r.Complete then some r.gfr.written.flatten else none := by
  unfold Report.kept Exchange.stored
  rw [h.whole, h.unlinks]
  split_ifs with hgone hcomplete hcomplete
  · exact absurd hcomplete hgone.1
  · rfl
  · rfl
  · simp [hcomplete, hanswers.incomplete hcomplete] at hgone

/-- Request `i` for `path` is answered from `content`: with the whole file, in pieces of which the
first one has the header, or with the word that there is none. -/
structure Served (content : Bytes → Option Bytes) (path : Bytes) (i : ℕ) (e : Exchange) : Prop
    extends Opens path i e, Stores e where
  resolved : e.getaddrinfo = 0
  sent : ∃ st, sendRequest path e.sends = .stop (.sent st)
  found : ∀ c, content path = some c → c.length < 2 ^ 64 ∧ ∃ f ps,
    IsCut bufsize (okHeader c.length ++ c) (f :: ps) ∧ okHeader c.length <+: f
      ∧ e.recvs = (f :: ps).map some
  missing : content path = none → ∃ rest,
    e.recvs = some (ascii "GETFILE FILE_NOT_FOUND\r\n\r\n") :: rest

theorem Served.perform {content : Bytes → Option Bytes} {i : ℕ} (h : Served content path i e) :
    ∃ r : Report, gfcPerform freshRequest e.recvs = .stop (.returned r.gfr r.returncode)
      ∧ r.kept e = content path := by
  cases hcontent : content path with
  | none =>
    obtain ⟨rest, hrecvs⟩ := h.missing hcontent
    have hdecode : decodeHeader (ascii "GETFILE FILE_NOT_FOUND\r\n\r\n")
        = .reply .fileNotFound := by
      decide +kernel
    have hperform := gfcPerform_reply (by decide) hdecode rest
    rw [← hrecvs] at hperform
    have hanswers : Answers e ⟨{ freshRequest with status := .fileNotFound }, 0⟩ :=
      .inr ⟨h.resolved, hperform⟩
    refine ⟨⟨_, 0⟩, hperform, ?_⟩
    rw [h.toStores.kept hanswers, if_neg fun hcomplete => by cases hcomplete.1]
  | some c =>
    obtain ⟨hlt, f, ps, hcut, hhead, hrecvs⟩ := h.found c hcontent
    obtain ⟨gfr, hperform, hwritten, hcount, hlength, hstatus⟩ :=
      gfcPerform_reassembles hlt rfl (List.prefix_refl (okHeader c.length ++ c)) hcut hhead
    rw [if_pos rfl, List.append_nil, if_pos rfl, ← hrecvs] at hperform
    have hflat : gfr.written.flatten = c := List.append_cancel_left hwritten
    have hanswers : Answers e ⟨gfr, 0⟩ := .inr ⟨h.resolved, hperform⟩
    refine ⟨⟨gfr, 0⟩, hperform, ?_⟩
    rw [h.toStores.kept hanswers, if_pos ⟨hstatus, by rw [hcount, hflat, hlength]⟩, hflat]

theorem Served.works {content : Bytes → Option Bytes} {i : ℕ} (h : Served content path i e) :
    Works path i e where
  toOpens := h.toOpens
  sent := h.sent
  returns := by
    obtain ⟨r, hperform, -⟩ := h.perform
    exact ⟨_, _, hperform⟩

theorem length_of_sent {ks : List ℤ} {st : RequestState}
    (h : sendRequest path ks = .stop (.sent st)) : path.length ≤ 239 := by
  by_contra hlong
  rw [sendRequest, formatRequest_none (not_le.mp hlong)] at h
  cases h

theorem length_decimal_le {i : ℕ} (hi : i < 2 ^ 31) : (decimal i).length ≤ 10 := by
  unfold decimal
  split_ifs with h0
  · simp
  · rw [List.length_map, List.length_reverse, Nat.digits_length_le_iff (by decide)]
    omega

/-- The number is there in the names of paths that can be sent. -/
theorem localName_eq {i : ℕ} (hi : i < 2 ^ 31) (hlen : (requestPath w i).length ≤ 239) :
    localName w i = (requestPath w i).tail
      ++ 95 :: (List.replicate (6 - (decimal i).length) 48 ++ decimal i) := by
  have hdigits := length_decimal_le hi
  refine List.take_of_length_le ?_
  simp only [LocalPath.suffix, LocalPath.pathBufferSize, List.length_append, List.length_tail,
    List.length_replicate, show (ascii "_").length = 1 by decide]
  omega

theorem localFile_inj {i j : ℕ} (hi : i < 2 ^ 31) (hj : j < 2 ^ 31)
    (hleni : (requestPath w i).length ≤ 239) (hlenj : (requestPath w j).length ≤ 239)
    (h : localFile w i = localFile w j) : i = j := by
  rw [localFile, localFile, localName_eq hi hleni, localName_eq hj hlenj] at h
  exact LocalPath.number_of_resolve (by decide) (by decide) h

/-- Two requests for a file of two bytes. -/
def bothWhole : List Exchange :=
  [inTwo, answered [some (ascii "GETFILE OK 2\r\n\r\nhi")] (by decide)]

/-- Request `i` for `path` goes out, and what comes back is the answer to one that the server does
not take, in any pieces. -/
structure Refused (path : Bytes) (i : ℕ) (e : Exchange) : Prop
    extends Opens path i e, Stores e where
  resolved : e.getaddrinfo = 0
  sent : ∃ st, sendRequest path e.sends = .stop (.sent st)
  answer : ∃ f ps rest, IsCut bufsize invalidAnswer (f :: ps) ∧ e.recvs = some f :: rest

/-- The server's `recv` gives the first 14 bytes of the request for `path`, which are the first two
of the path and what stands before it, and more of what the client has sent or not. -/
def Heard (path : Bytes) (c : ServeLoop.Connection) : Prop :=
  ∃ packet, c.recv = some packet ∧ (requestHeader path).take 14 <+: packet
    ∧ packet.length < bufsize

theorem fscanf_spaceless {word rest : Bytes} (h : Workload.fscanf file = some (word, rest)) :
    ∀ b ∈ word, isSpace b = false := by
  unfold Workload.fscanf at h
  split at h
  · cases h
  · cases h
    intro b hb
    simpa using List.mem_takeWhile_imp hb

theorem words_spaceless (file : Bytes) : ∀ tok ∈ Workload.words file, ∀ b ∈ tok,
    isSpace b = false := by
  induction file using Workload.words.induct with
  | case1 file h =>
    rw [Workload.words]
    split
    · simp
    · rename_i word rest h'
      rw [h] at h'
      cases h'
  | case2 file word rest h ih =>
    rw [Workload.words]
    split
    · simp
    · rename_i word' rest' h'
      rw [h] at h'
      cases h'
      exact List.forall_mem_cons.mpr ⟨fscanf_spaceless h, ih⟩

/-- What a path of the workload has no bytes of. -/
theorem requestPath_clean (hw : Workload.workloadInit file = .ok w)
    (hwords : 0 < (Workload.words file).length) {i : ℕ} (hi : i < 2 ^ 31) :
    ∀ b ∈ requestPath w i, b ≠ 32 ∧ b ≠ 13 ∧ b ≠ 10 ∧ b ≠ 0 := by
  obtain ⟨hload, -⟩ := Workload.workloadInit_ok hw
  have hturn : Workload.Turn file w i := (Workload.turn_iff hload i).mpr
    ⟨hwords, by rw [Workload.entryOf_lt hi, Int.ofNat_tmod]⟩
  obtain ⟨tok, htok, hlookup⟩ := hturn
  rw [Workload.entryOf_lt hi] at hlookup
  rw [requestPath_eq hlookup]
  intro b hb
  have hspace := words_spaceless file tok (List.mem_of_getElem? htok) b
    ((List.takeWhile_sublist _).subset hb)
  have hzero : b ≠ 0 := fun h => notMem_cstr tok (h ▸ hb)
  refine ⟨?_, ?_, ?_, hzero⟩
  all_goals
    rintro rfl
    exact absurd hspace (by decide)

/-- A token goes from a byte that is no delimiter to the next one that is. -/
theorem strtok_cons {delims t : Bytes} {b : UInt8} (hb : b ∉ delims) (hb0 : b ≠ 0) (h0 : 0 ∈ t) :
    ∃ after, strtok (b :: t) delims
      = .token (b :: t.takeWhile fun c => c ∉ delims ∧ c ≠ 0) after := by
  have hrest : (b :: t).dropWhile (fun c => c ∉ delims ∧ c ≠ 0) ≠ [] := fun hnil => by
    have hall := List.dropWhile_eq_nil_iff.mp hnil 0 (List.mem_cons_of_mem b h0)
    simp at hall
  obtain ⟨c, cs, hcs⟩ := List.exists_cons_of_ne_nil hrest
  have hskip : (b :: t).dropWhile (· ∈ delims) = b :: t :=
    List.dropWhile_cons_of_neg (by simpa using hb)
  refine ⟨if c = 0 then c :: cs else cs, ?_⟩
  unfold strtok
  rw [hskip]
  simp only [hb0, ↓reduceIte, hcs, Token.token.injEq, and_true]
  exact List.takeWhile_cons_of_pos (by simp [hb, hb0])

theorem parseRequest_other {b : UInt8} {t : Bytes} (hb : b ∉ crlf2 ∧ b ≠ 0) (h0 : 0 ∈ t)
    (hother : b ≠ 47 ∨ ∃ d ds, t = d :: ds ∧ d ∉ crlf2 ∧ d ≠ 0) :
    parseRequest (ascii "GETFILE GET " ++ b :: t) = .invalid := by
  have hscheme : strtok (ascii "GETFILE GET " ++ b :: t) (ascii " ")
      = .token (ascii "GETFILE") (ascii "GET " ++ b :: t) :=
    @strtok_word (ascii "GETFILE") (ascii " ") (ascii "GET " ++ b :: t) 32 (by decide)
      (by decide) (.inl (by decide))
  have hmethod : Token.next (.token (ascii "GETFILE") (ascii "GET " ++ b :: t)) (ascii " ")
      = .token (ascii "GET") (b :: t) :=
    @strtok_word (ascii "GET") (ascii " ") (b :: t) 32 (by decide) (by decide) (.inl (by decide))
  obtain ⟨after, hpath⟩ := strtok_cons hb.1 hb.2 h0
  have hne : b :: t.takeWhile (fun c => c ∉ crlf2 ∧ c ≠ 0) ≠ ascii "/" := fun heq => by
    obtain ⟨h47, hnil⟩ := List.cons.inj (heq.trans (show ascii "/" = [47] by decide))
    rcases hother with hb47 | ⟨d, ds, rfl, hd, hd0⟩
    · exact hb47 h47
    · simp [hd, hd0] at hnil
  rw [parseRequest, hscheme, hmethod, Token.next, hpath]
  simp only [checkTokens, hne, ne_eq, not_true_eq_false, not_false_eq_true, ↓reduceIte]

/-- From the first two bytes of a path the server has that it is not `/`. -/
theorem serveConnection_heard (hne : path ≠ [])
    (hclean : ∀ b ∈ path, b ≠ 32 ∧ b ≠ 13 ∧ b ≠ 10 ∧ b ≠ 0) (hslash : path ≠ ascii "/")
    {c : ServeLoop.Connection} (h : Heard path c) : serveConnection c.recv = .invalid := by
  obtain ⟨packet, hrecv, ⟨t, rfl⟩, hlen⟩ := h
  obtain ⟨b, bs, rfl⟩ := List.exists_cons_of_ne_nil hne
  have hdelim : ∀ d ∈ b :: bs, d ∉ crlf2 ∧ d ≠ 0 := fun d hd => by
    obtain ⟨-, h13, h10, h0⟩ := hclean d hd
    exact ⟨fun hmem => (mem_crlf2.mp hmem).elim h13 h10, h0⟩
  have htake : (requestHeader (b :: bs)).take 14
      = ascii "GETFILE GET " ++ b :: (bs ++ crlf2).take 1 := by
    simp [requestHeader, List.take_append, show (ascii "GETFILE GET ").length = 12 by decide]
  rw [htake, List.append_assoc, List.cons_append] at hrecv hlen
  rw [hrecv]
  simp only [serveConnection, List.append_eq_nil_iff, reduceCtorEq, and_false, ↓reduceIte,
    fillBuffer, List.append_assoc, List.cons_append]
  refine parseRequest_other (hdelim b List.mem_cons_self) ?_ ?_
  · refine List.mem_append_right _ (List.mem_append_right _ (List.mem_replicate.mpr ⟨?_, rfl⟩))
    simp only [List.length_append, List.length_cons] at hlen ⊢
    omega
  · rcases bs with _ | ⟨d, ds⟩
    · exact .inl fun h47 => hslash (h47 ▸ (by decide : [(47 : UInt8)] = ascii "/"))
    · exact .inr ⟨d, _, rfl, hdelim d (by simp)⟩

/-- A connection that is answered INVALID leaves a context and a socket that nothing refers to. -/
theorem gfserverServe_invalid : ∀ {cs : List ServeLoop.Connection} {server : ServeLoop.Server},
    (∀ c ∈ cs, serveConnection c.recv = .invalid) →
      cs.foldlM ServeLoop.serveOne server
        = some { server with accepted := server.accepted + cs.length }
  | [], server, _ => rfl
  | c :: cs, server, h => by
    have hone : ServeLoop.serveOne server c
        = some { server with accepted := server.accepted + 1 } := by
      simp only [ServeLoop.serveOne, h c List.mem_cons_self]
    rw [List.foldlM_cons, hone]
    simp only [Option.bind_eq_bind, Option.bind_some]
    rw [gfserverServe_invalid fun d hd => h d (List.mem_cons_of_mem _ hd), List.length_cons,
      Nat.add_assoc, Nat.add_comm 1]

/-- Whatever part of the answer comes first, the client takes it for INVALID. -/
theorem decodeHeader_invalidAnswer : ∀ k < 20, 0 < k →
    decodeHeader (invalidAnswer.take k) = .reply .invalid := by
  decide +kernel

theorem Refused.perform {i : ℕ} (h : Refused path i e) : gfcPerform freshRequest e.recvs
    = .stop (gfcReturn { freshRequest with status := .invalid }) := by
  obtain ⟨f, ps, rest, hcut, hrecvs⟩ := h.answer
  obtain ⟨hflat, hne, -, -⟩ := hcut.cons
  have htake : invalidAnswer.take f.length = f := by rw [hflat, List.take_left' rfl]
  have hlen : f.length ≤ 19 := by
    have := congrArg List.length hflat
    rw [show invalidAnswer.length = 19 by decide, List.length_append] at this
    omega
  have hdecode := decodeHeader_invalidAnswer f.length (by omega) (List.length_pos_of_ne_nil hne)
  rw [htake] at hdecode
  rw [hrecvs, gfcPerform_reply hne hdecode]

theorem Refused.works {i : ℕ} (h : Refused path i e) : Works path i e where
  toOpens := h.toOpens
  sent := h.sent
  returns := ⟨_, _, h.perform⟩

/-- A request for `/a`, of which the answer comes in two pieces. -/
def oneRefused : List Exchange :=
  [answered [some (ascii "GETFILE INV"), some (ascii "ALID\r\n\r\n")] (by decide)]

end FileServices.Download
