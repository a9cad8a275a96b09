import FileServices.Lib.Trans
import FileServices.Proofs.DfsTransfer

/-!
# The file service as a pair of maps

When the calls run one at a time and no call of the system fails, the two machines are two maps
from names to contents, and each call does to them what its name says.
-/

namespace FileServices.Dfs

open CString

variable {content data : Bytes} {now : ℤ} {t : Sender}

/-! ### The sending loop -/

theorem int_eq {z : ℤ} (hle : -2 ^ 31 ≤ z) (hlt : z < 2 ^ 31) : int z = z := by
  unfold int
  exact Int.bmod_eq_of_le (by omega) (by omega)

theorem int_natCast {n : ℕ} (hlt : n < 2 ^ 31) : int n = n := int_eq (by omega) (by omega)

/-- The messages sent are the file up to the position of the stream. -/
structure Sending (content : Bytes) (t : Sender) : Prop where
  filesize : t.filesize = int content.length
  bytesRead : t.bytesRead = int t.stream.pos
  pos_le : t.stream.pos ≤ content.length
  good : t.stream.pos < content.length → t.stream.good = true
  sent : t.sent.flatten = content.take t.stream.pos
  nonempty : ∀ m ∈ t.sent, m ≠ []

theorem sending_start (content : Bytes) : Sending content (.start content.length true) where
  filesize := by simp only [Sender.start]
  bytesRead := by simp [Sender.start, int]
  pos_le := by simp [Sender.start]
  good := by simp [Sender.start]
  sent := by simp [Sender.start]
  nonempty := by simp [Sender.start]

/-- At the end of the file the counters are equal, even where they have wrapped around. -/
theorem Sending.pos_lt (hs : Sending content t) (hhead : t.head = none) :
    t.stream.pos < content.length := by
  refine lt_of_le_of_ne hs.pos_le fun hend => ?_
  unfold Sender.head at hhead
  rw [hs.filesize, hs.bytesRead, hend, if_neg (lt_irrefl _)] at hhead
  cases hhead

theorem Sending.chunk (hs : Sending content t) (hhead : t.head = none) :
    Sending content (t.chunk content) ∧ t.stream.pos < (t.chunk content).stream.pos := by
  have hlt := hs.pos_lt hhead
  have hlen : ((content.drop t.stream.pos).take chunkSize).length
      = min chunkSize (content.length - t.stream.pos) := by
    rw [List.length_take, List.length_drop]
  have hsize : chunkSize = 1024 := rfl
  simp only [Sender.chunk, Ifstream.read, hs.good hlt, if_true]
  refine ⟨⟨hs.filesize, ?_, ?_, fun h => decide_eq_true ?_, ?_, fun m hm => ?_⟩, ?_⟩
  · rw [hs.bytesRead]
    unfold int
    rw [Int.bmod_add_bmod, Nat.cast_add]
  · change t.stream.pos + _ ≤ _
    omega
  · change t.stream.pos + _ < _ at h
    omega
  · rw [List.flatten_append, hs.sent, List.flatten_singleton, List.take_add,
      ← List.prefix_iff_eq_take.mp (List.take_prefix chunkSize _)]
  · rcases List.mem_append.mp hm with hm | hm
    · exact hs.nonempty m hm
    · obtain rfl := List.mem_singleton.mp hm
      exact List.ne_nil_of_length_pos (by omega)
  · omega

/-- The loop leaves within as many iterations as there are bytes left. -/
theorem Sending.run {ι : Type*} (hs : Sending content t)
    (body : Sender → ι → Loop.Outcome Sender (StatusCode × List Bytes)) (goes : ι)
    (hbody : ∀ t, body t goes = .more (t.chunk content)) :
    ∃ t', Sending content t' ∧ t'.filesize ≤ t'.bytesRead
      ∧ ∀ k, content.length - t.stream.pos ≤ k →
        Loop.run Sender.head body t (List.replicate k goes) = .stop (.ok, t'.sent) := by
  induction hn : content.length - t.stream.pos using Nat.strong_induction_on generalizing t with
  | _ n ih =>
    cases hhead : t.head with
    | some r =>
      have hle : ¬ t.bytesRead < t.filesize := fun hlt => by simp [Sender.head, hlt] at hhead
      have hr : r = (.ok, t.sent) := by
        unfold Sender.head at hhead
        rw [if_neg hle] at hhead
        exact (Option.some.inj hhead).symm
      exact ⟨t, hs, not_lt.mp hle, fun k _ => hr ▸ Loop.run_of_head hhead _⟩
    | none =>
      obtain ⟨hs', hlt⟩ := hs.chunk hhead
      have hpos := hs.pos_lt hhead
      obtain ⟨t', ht', hend, hrun⟩ := ih _ (by omega) hs' rfl
      refine ⟨t', ht', hend, fun k hk => ?_⟩
      obtain ⟨k, rfl⟩ : ∃ j, k = j + 1 := ⟨k - 1, by omega⟩
      rw [List.replicate_succ, Loop.run_cons_more hhead (hbody t)]
      exact hrun k (by omega)

theorem Sending.whole (hs : Sending content t) (hend : t.filesize ≤ t.bytesRead)
    (hlt : content.length < 2 ^ 31) : t.sent.flatten = content := by
  have hle := hs.pos_le
  rw [hs.filesize, hs.bytesRead, int_natCast hlt, int_natCast (by omega)] at hend
  rw [hs.sent, List.take_of_length_le (by omega)]

/-! ### The maps -/

/-- What the two machines hold, by name. -/
@[ext] structure Maps where
  client : Name → Option Bytes
  server : Name → Option Bytes

instance : DecidableEq Name := fun a b =>
  decidable_of_iff (a.bytes = b.bytes) ⟨fun h => by cases a; cases b; congr, congrArg _⟩

/-- What each call is to do. -/
def Maps.Meets (m : Maps) (reply : Reply) (m' : Maps) : Call → Prop
  | .store name =>
    match m.client name with
    | none => reply = .code .notFound ∧ m' = m
    | some content =>
      reply = .code .ok ∧ m' = { m with server := Function.update m.server name (some content) }
  | .fetch name =>
    match m.server name with
    | none => reply = .code .notFound ∧ m' = m
    | some content =>
      reply = .code .ok ∧ m'.server = m.server ∧ (∀ n ≠ name, m'.client n = m.client n)
        ∧ (content.length < 2 ^ 31 →
          m'.client name = if content = [] then m.client name else some content)
  | .delete name =>
    match m.server name with
    | none => reply = .code .notFound ∧ m' = m
    | some _ =>
      reply = .code .ok ∧ m' = { m with server := Function.update m.server name none }
  | .list _ fileMap => m' = m ∧ ∃ listed, reply = .listing .ok listed
    ∧ ∀ name : Name, (listed name.bytes).isSome ↔
      (fileMap name.bytes).isSome ∨ (m.server name).isSome

def Host.map (h : Host) (name : Name) : Option Bytes :=
  (h.file (h.wrapPath name.bytes)).map File.content

def World.maps (w : World) : Maps := ⟨w.client.map, w.server.map⟩

/-- The names are free of directories. -/
def Host.Regular (h : Host) : Prop := ∀ name : Name, h.dir (h.wrapPath name.bytes) = none

/-- `readdir` gives the names that are there, and the two every directory has. -/
def World.Admissible (w : World) : Call → Prop
  | .store name => ∀ content, w.client.map name = some content → content.length < 2 ^ 31
  | .list entries _ => ∀ e, e ∈ entries ↔ e = ascii "." ∨ e = ascii ".."
    ∨ e ≠ [] ∧ 0x2f ∉ e ∧ (w.server.file (w.server.wrapPath e)).isSome
  | _ => True

/-! ### The hosts as maps -/

section Host

variable {h : Host} {name n : Name}

theorem Name.ext {a b : Name} (h : a.bytes = b.bytes) : a = b := by
  cases a
  cases b
  congr

theorem Host.wrapPath_injective (h : Host) {a b : Name}
    (hab : h.wrapPath a.bytes = h.wrapPath b.bytes) : a = b :=
  Name.ext (List.append_cancel_left hab)

theorem Host.stat_none (hreg : h.Regular) (hmap : h.map name = none) :
    h.stat (h.wrapPath name.bytes) = none := by
  unfold Host.map at hmap
  unfold Host.stat
  rw [Option.map_eq_none_iff.mp hmap]
  exact hreg name

theorem Host.stat_file {path : Bytes} {file : File} (hfile : h.file path = some file) :
    h.stat path = some ⟨file.content.length, file.mtime⟩ ∧ h.content path = file.content := by
  unfold Host.stat Host.content
  rw [hfile]
  exact ⟨rfl, rfl⟩

theorem Host.stat_some (hmap : h.map name = some content) :
    (∃ mtime, h.stat (h.wrapPath name.bytes) = some ⟨content.length, mtime⟩)
      ∧ h.content (h.wrapPath name.bytes) = content := by
  obtain ⟨file, hfile, rfl⟩ := Option.map_eq_some_iff.mp hmap
  exact ⟨⟨file.mtime, (Host.stat_file hfile).1⟩, (Host.stat_file hfile).2⟩

theorem Host.map_eq_of_frame {h' : Host} (hmount : h'.mountPath = h.mountPath)
    (hframe : ∀ p ≠ h.wrapPath name.bytes, h'.file p = h.file p) (hn : n ≠ name) :
    h'.map n = h.map n := by
  have hne : h.wrapPath n.bytes ≠ h.wrapPath name.bytes := fun he => hn (h.wrapPath_injective he)
  have hpath : h'.wrapPath n.bytes = h.wrapPath n.bytes := by
    unfold Host.wrapPath
    rw [hmount]
  unfold Host.map
  rw [hpath, hframe _ hne]

end Host

/-! ### The messages of a call arrive -/

theorem taken_whole {stops : Recv → Bool} (hgoes : ∀ m, stops (.whole m) = false)
    (ms : List Bytes) : taken stops (ms.map fun m => some (.whole m)) = ms.map .whole := by
  induction ms with
  | nil => rfl
  | cons m ms ih => simp [taken, hgoes, ih]

theorem flatten_whole (ms : List Bytes) :
    ((ms.map Recv.whole).map Recv.data).flatten = ms.flatten := by
  simp [Function.comp_def, Recv.whole]

theorem flatten_eq_nil_iff {ms : List Bytes} (hne : ∀ m ∈ ms, m ≠ []) :
    ms.flatten = [] ↔ ms = [] := by
  refine ⟨fun he => ?_, fun h => by rw [h]; rfl⟩
  by_contra hms
  obtain ⟨m, hm⟩ := List.exists_mem_of_ne_nil ms hms
  exact hne m hm (List.flatten_eq_nil_iff.mp he m hm)

theorem receive_final {final : StatusCode}
    {read : Host → Ofstream → Option Recv → Host × Loop.Outcome Ofstream StatusCode}
    (hread : ∀ h f m, ∃ h' f', read h f (some (.whole m)) = (h', .more f')) (ms : List Bytes) :
    ∀ {h : Host} {f : Ofstream},
      (receive read final h f (ms.map fun m => some (.whole m))).2 = final := by
  induction ms with
  | nil => exact rfl
  | cons m ms ih =>
    intro h f
    obtain ⟨h', f', hmore⟩ := hread h f m
    simp only [List.map_cons, receive, hmore]
    exact ih

theorem Holds.whole {h : Host} {path : Bytes} {ms : List Bytes}
    (hh : Holds h path (ms.map .whole)) : (h.file path).map File.content = some ms.flatten := by
  obtain ⟨file, hfile, -, hall⟩ := hh
  rw [hfile, Option.map_some, hall, flatten_whole]
  intro r hr
  obtain ⟨m, -, rfl⟩ := List.mem_map.mp hr
  exact le_rfl

variable {h : Host} {name : Name}

/-- A host where the file of one name has been written. -/
theorem Host.map_update {h' : Host} {file : Option Bytes} (hmount : h'.mountPath = h.mountPath)
    (hfile : (h'.file (h.wrapPath name.bytes)).map File.content = file)
    (hframe : ∀ p ≠ h.wrapPath name.bytes, h'.file p = h.file p) :
    h'.map = Function.update h.map name file := by
  funext n
  by_cases hn : n = name
  · subst hn
    rw [Function.update_self, ← hfile]
    unfold Host.map Host.wrapPath
    rw [hmount]
  · rw [Function.update_of_ne hn]
    exact h.map_eq_of_frame hmount hframe hn

/-- `storeFile` of messages that arrive. -/
theorem storeFile_whole (now : ℤ) (h : Host) (name : Name) (ms : List Bytes) :
    let r := storeFile now h (some name.bytes) true (ms.map fun m => some (.whole m))
    r.2 = .ok ∧ r.1.map = Function.update h.map name (some ms.flatten)
      ∧ r.1.mountPath = h.mountPath ∧ r.1.dir = h.dir
      ∧ ∀ p ≠ h.wrapPath name.bytes, r.1.file p = h.file p := by
  intro r
  obtain ⟨⟨f', hf'⟩, hframe⟩ := receive_storeRead now .ok
    (ms.map fun m => some (.whole m)) (Saved.open now (h.wrapPath name.bytes) h)
  rw [taken_whole (fun _ => rfl), List.nil_append] at hf'
  obtain ⟨hmount, hdir⟩ := receive_mount .ok (storeRead_mount now)
    (ms.map fun m => some (.whole m)) (h := (Ofstream.open now true (h.wrapPath name.bytes) h).1)
    (f := (Ofstream.open now true (h.wrapPath name.bytes) h).2)
  have hother : ∀ p ≠ h.wrapPath name.bytes, r.1.file p = h.file p :=
    fun p hp => (hframe p hp).trans (h.put_file_of_ne _ hp)
  refine ⟨receive_final (fun h f m => ⟨_, _, rfl⟩) ms, ?_, hmount, hdir, hother⟩
  exact Host.map_update hmount hf'.holds.whole hother

/-- `Fetch` of messages that arrive. -/
theorem fetch_whole (now : ℤ) (h : Host) (filename : Bytes) (ms : List Bytes)
    (status : StatusCode) :
    let r := fetch now h filename (ms.map fun m => some (.whole m)) status
    r.2 = fetchCode status ∧ (ms = [] → r.1 = h)
      ∧ (ms ≠ [] → (r.1.file (h.wrapPath filename)).map File.content = some ms.flatten)
      ∧ r.1.mountPath = h.mountPath ∧ r.1.dir = h.dir
      ∧ ∀ p ≠ h.wrapPath filename, r.1.file p = h.file p := by
  intro r
  have hgot : ms.map Recv.whole
      = (taken (fun _ => false) (ms.map fun m => some (.whole m))).dropWhile fun r => !r.opens := by
    rw [taken_whole fun _ => rfl]
    cases ms <;> rfl
  obtain ⟨hnone, hsome, hframe⟩ := receive_fetchRead now h (h.wrapPath filename)
    (fetchCode status) (ms.map fun m => some (.whole m))
    (f := .closed) rfl _ hgot
  obtain ⟨hmount, hdir⟩ := receive_mount (fetchCode status)
    (fetchRead_mount now (h.wrapPath filename))
    (ms.map fun m => some (.whole m)) (h := h) (f := .closed)
  refine ⟨receive_final (fun h f m => ⟨_, _, rfl⟩) ms, fun hms => hnone (by rw [hms]; rfl),
    fun hms => ?_, hmount, hdir, hframe⟩
  obtain ⟨f', hf'⟩ := hsome fun he => hms (List.map_eq_nil_iff.mp he)
  exact hf'.holds.whole

/-! ### The calls -/

theorem storeSend_some (hmap : h.map name = some content) (hlt : content.length < 2 ^ 31) :
    ∃ sent, sent.flatten = content ∧ ∀ k, content.length ≤ k →
      storeSend h name.bytes true (List.replicate k .goes) = .stop (.ok, sent) := by
  obtain ⟨⟨mtime, hstat⟩, hcontent⟩ := Host.stat_some hmap
  obtain ⟨t, ht, hend, hrun⟩ := (sending_start content).run (storeBody content) .goes fun _ => rfl
  refine ⟨t.sent, ht.whole hend hlt, fun k hk => ?_⟩
  unfold storeSend
  rw [hstat, hcontent]
  exact hrun k hk

/-- `fetchFile` of a file that is there. -/
theorem fetchFile_file {filename : Bytes} {file : File}
    (hfile : h.file (h.wrapPath filename) = some file) :
    ∃ sent, (file.content.length < 2 ^ 31 → sent.flatten = file.content) ∧ (∀ m ∈ sent, m ≠ [])
      ∧ ∀ k, file.content.length ≤ k →
        fetchFile h filename true (List.replicate k .goes) = .stop (.ok, sent) := by
  obtain ⟨hstat, hcontent⟩ := Host.stat_file hfile
  obtain ⟨t, ht, hend, hrun⟩ :=
    (sending_start file.content).run (fetchBody file.content) .goes fun _ => rfl
  refine ⟨t.sent, ht.whole hend, ht.nonempty, fun k hk => ?_⟩
  unfold fetchFile
  rw [hstat, hcontent]
  exact hrun k hk

/-- `listFiles` goes through the entries and leaves out what it cannot `stat`. -/
theorem listItems_eq (h : Host) (entries : List Bytes) : ∀ items : List Item,
    listItems h (entries.map fun e => (e, false)) items = (.ok, items ++ entries.filterMap fun e =>
      (h.stat (h.wrapPath e)).map fun st => ⟨e, (st.stMtime % 2 ^ 64).toNat⟩) := by
  induction entries with
  | nil => simp [listItems]
  | cons e entries ih =>
    intro items
    simp only [List.map_cons, listItems, Bool.false_eq_true, if_false]
    cases hstat : h.stat (h.wrapPath e) with
    | none => simp [ih, hstat]
    | some st => simp [ih, hstat]

theorem insertItems_isSome (items : List Item) : ∀ (fileMap : Bytes → Option ℤ) (e : Bytes),
    (items.foldl insertItem fileMap e).isSome ↔
      (fileMap e).isSome ∨ ∃ item ∈ items, item.filename = e := by
  induction items with
  | nil => simp
  | cons item items ih =>
    intro fileMap e
    rw [List.foldl_cons, ih, List.exists_mem_cons_iff, ← or_assoc]
    refine or_congr_left ?_
    unfold insertItem
    split_ifs with hin
    · exact ⟨.inl, fun h => h.elim id fun he => he ▸ hin⟩
    · by_cases he : e = item.filename
      · simp [he]
      · simp [Function.update_of_ne he, Ne.symm he]

theorem World.Admissible.listed {w : World} {entries : List Bytes} {fileMap : Bytes → Option ℤ}
    (hok : w.Admissible (.list entries fileMap)) (name : Name) :
    (name.bytes ∈ entries ∧ (w.server.stat (w.server.wrapPath name.bytes)).isSome)
      ↔ (w.server.map name).isSome := by
  have hentry := hok name.bytes
  unfold Host.map Host.stat
  constructor
  · rintro ⟨hmem, -⟩
    rcases hentry.mp hmem with h | h | ⟨-, -, h⟩
    · exact absurd h name.ne_dot
    · exact absurd h name.ne_dotDot
    · simpa using h
  · intro hmap
    obtain ⟨file, hfile⟩ := Option.isSome_iff_exists.mp (by simpa using hmap)
    refine ⟨hentry.mpr (.inr (.inr ⟨name.ne_nil, name.no_slash, by simp [hfile]⟩)), ?_⟩
    rw [hfile]
    rfl

/-- The file of the server that a call may change. -/
def Call.target : Call → Option Name
  | .store name | .delete name => some name
  | _ => none

/-- A call has done to the maps what it is to do, and nothing else to the machines. -/
structure Performed (w : World) (call : Call) (reply : Reply) (w' : World) : Prop where
  meets : w.maps.Meets reply w'.maps call
  unchanged : reply = .code .notFound → w' = w
  frame : ∀ p, (∀ name, call.target = some name → p ≠ w.server.wrapPath name.bytes) →
    w'.server.file p = w.server.file p
  client : w'.client.mountPath = w.client.mountPath ∧ w'.client.dir = w.client.dir
  server : w'.server.mountPath = w.server.mountPath ∧ w'.server.dir = w.server.dir

variable {w : World} {call : Call}

/-- A call that changes nothing. -/
theorem Performed.same {reply : Reply} (hmeets : w.maps.Meets reply w.maps call) :
    Performed w call reply w :=
  ⟨hmeets, fun _ => rfl, fun _ _ => rfl, ⟨rfl, rfl⟩, ⟨rfl, rfl⟩⟩

theorem perform_store (hreg : w.client.Regular) (hok : w.Admissible (.store name)) :
    ∃ w' reply, Performed w (.store name) reply w'
      ∧ ∃ K, ∀ k ≥ K, w.perform k now (.store name) = some (w', reply) := by
  cases hmap : w.client.map name with
  | none =>
    refine ⟨w, .code .notFound, .same ?_, 0, fun k _ => ?_⟩
    · simp [Maps.Meets, World.maps, hmap]
    · simp [World.perform, storeSend, Host.stat_none hreg hmap]
  | some content =>
    obtain ⟨sent, hsent, hrun⟩ := storeSend_some hmap (hok content hmap)
    obtain ⟨hstatus, hserver, hmount, hdir, hframe⟩ := storeFile_whole now w.server name sent
    refine ⟨{ w with server := (storeFile now w.server (some name.bytes) true
        (sent.map fun m => some (.whole m))).1 }, .code .ok,
      ⟨?_, by simp, fun p hp => hframe p (hp name rfl), ⟨rfl, rfl⟩, hmount, hdir⟩,
      content.length, fun k hk => ?_⟩
    · simp only [Maps.Meets, World.maps, hmap, hserver, hsent, and_self]
    · simp only [World.perform, hrun k hk, hstatus]

theorem perform_fetch (hreg : w.server.Regular) :
    ∃ w' reply, Performed w (.fetch name) reply w'
      ∧ ∃ K, ∀ k ≥ K, w.perform k now (.fetch name) = some (w', reply) := by
  cases hmap : w.server.map name with
  | none =>
    refine ⟨w, .code .notFound, .same ?_, 0, fun k _ => ?_⟩
    · simp [Maps.Meets, World.maps, hmap]
    · simp [World.perform, fetchFile, Host.stat_none hreg hmap, fetch, receive, fetchCode]
  | some content =>
    obtain ⟨file, hfile, rfl⟩ := Option.map_eq_some_iff.mp hmap
    obtain ⟨sent, hsent, hne, hrun⟩ := fetchFile_file hfile
    obtain ⟨hcode, hnil, hcons, hmount, hdir, hframe⟩ :=
      fetch_whole now w.client name.bytes sent .ok
    refine ⟨{ w with client := (fetch now w.client name.bytes
        (sent.map fun m => some (.whole m)) .ok).1 }, .code .ok,
      ⟨?_, by simp, fun p _ => rfl, ⟨hmount, hdir⟩, rfl, rfl⟩, file.content.length, fun k hk => ?_⟩
    · simp only [Maps.Meets, World.maps, hmap, true_and]
      refine ⟨fun n hn => w.client.map_eq_of_frame hmount hframe hn, fun hlt => ?_⟩
      by_cases hms : sent = []
      · rw [hnil hms, if_pos (by rw [← hsent hlt, hms]; rfl)]
      · have hpos : file.content ≠ [] := by
          rw [← hsent hlt]
          exact fun he => hms ((flatten_eq_nil_iff hne).mp he)
        rw [Host.map_update hmount (hcons hms) hframe, Function.update_self, if_neg hpos, hsent hlt]
    · simp only [World.perform, hrun k hk, hcode, fetchCode]

theorem perform_delete (hreg : w.server.Regular) :
    ∃ w' reply, Performed w (.delete name) reply w'
      ∧ ∃ K, ∀ k ≥ K, w.perform k now (.delete name) = some (w', reply) := by
  cases hmap : w.server.map name with
  | none =>
    refine ⟨w, .code .notFound, .same ?_, 0, fun k _ => ?_⟩
    · simp [Maps.Meets, World.maps, hmap]
    · simp [World.perform, deleteFile, Host.stat_none hreg hmap]
  | some content =>
    obtain ⟨⟨mtime, hstat⟩, -⟩ := Host.stat_some hmap
    have hframe : ∀ p ≠ w.server.wrapPath name.bytes,
        (w.server.put (w.server.wrapPath name.bytes) none).file p = w.server.file p :=
      fun p hp => w.server.put_file_of_ne _ hp
    have hserver : (w.server.put (w.server.wrapPath name.bytes) none).map
        = Function.update w.server.map name none :=
      Host.map_update rfl (by rw [Host.put_file]; rfl) hframe
    refine ⟨{ w with server := w.server.put (w.server.wrapPath name.bytes) none }, .code .ok,
      ⟨?_, by simp, fun p hp => hframe p (hp name rfl), ⟨rfl, rfl⟩, rfl, rfl⟩, 0, fun k _ => ?_⟩
    · simp only [Maps.Meets, World.maps, hmap, hserver, and_self]
    · simp [World.perform, deleteFile, hstat]

theorem perform_list {entries : List Bytes} {fileMap : Bytes → Option ℤ}
    (hok : w.Admissible (.list entries fileMap)) :
    ∃ w' reply, Performed w (.list entries fileMap) reply w'
      ∧ ∃ K, ∀ k ≥ K, w.perform k now (.list entries fileMap) = some (w', reply) := by
  have hlist : ∀ k, ∃ listed,
      w.perform k now (.list entries fileMap) = some (w, .listing .ok listed)
      ∧ listed = (entries.filterMap fun e => (w.server.stat (w.server.wrapPath e)).map fun st =>
        (⟨e, (st.stMtime % 2 ^ 64).toNat⟩ : Item)).foldl insertItem fileMap := fun k =>
    ⟨_, by simp only [World.perform, listFiles, listItems_eq, list, if_true, List.nil_append], rfl⟩
  obtain ⟨listed, -, hlisted⟩ := hlist 0
  refine ⟨w, .listing .ok listed, .same ⟨rfl, listed, rfl, fun name => ?_⟩, 0, fun k _ => ?_⟩
  · have hitem := hok.listed name
    rw [hlisted, insertItems_isSome]
    refine or_congr_right (Iff.trans ?_ hitem)
    simp only [List.mem_filterMap, Option.map_eq_some_iff, Option.isSome_iff_exists]
    constructor
    · rintro ⟨item, ⟨e, he, st, hst, rfl⟩, rfl⟩
      exact ⟨he, st, hst⟩
    · rintro ⟨he, st, hst⟩
      exact ⟨_, ⟨name.bytes, he, st, hst, rfl⟩, rfl⟩
  · obtain ⟨listed', hperform, rfl⟩ := hlist k
    rw [hperform, hlisted]

/-- A sender that has returned returns the same when it is given more iterations. -/
theorem storeSend_append {h : Host} {filename : Bytes} {opens : Bool} {turns : List Turn}
    {r : StatusCode × List Bytes} (hr : storeSend h filename opens turns = .stop r)
    (more : List Turn) : storeSend h filename opens (turns ++ more) = .stop r := by
  unfold storeSend at hr ⊢
  cases hstat : h.stat (h.wrapPath filename) with
  | none => rwa [hstat] at hr
  | some st =>
    rw [hstat] at hr
    exact Loop.run_stop_append hr more

theorem fetchFile_append {h : Host} {filepath : Bytes} {opens : Bool} {turns : List Turn}
    {r : StatusCode × List Bytes} (hr : fetchFile h filepath opens turns = .stop r)
    (more : List Turn) : fetchFile h filepath opens (turns ++ more) = .stop r := by
  unfold fetchFile at hr ⊢
  cases hstat : h.stat (h.wrapPath filepath) with
  | none => rwa [hstat] at hr
  | some st =>
    rw [hstat] at hr
    exact Loop.run_stop_append hr more

/-- A call that has returned returns the same when it is given more iterations. -/
theorem perform_mono {k k' : ℕ} (hk : k ≤ k') {x : World × Reply}
    (h : w.perform k now call = some x) : w.perform k' now call = some x := by
  obtain ⟨d, rfl⟩ := Nat.exists_eq_add_of_le hk
  cases call with
  | store name =>
    cases hr : storeSend w.client name.bytes true (List.replicate k .goes) with
    | more t => simp [World.perform, hr] at h
    | stop r =>
      simp only [World.perform, List.replicate_add, storeSend_append hr]
      simpa only [World.perform, hr] using h
  | fetch name =>
    cases hr : fetchFile w.server name.bytes true (List.replicate k .goes) with
    | more t => simp [World.perform, hr] at h
    | stop r =>
      simp only [World.perform, List.replicate_add, fetchFile_append hr]
      simpa only [World.perform, hr] using h
  | delete name | list entries fileMap => exact h

/-! ### Runs of calls -/

def World.Regular (w : World) : Prop := w.client.Regular ∧ w.server.Regular

theorem perform_spec (now : ℤ) (hreg : w.Regular) (hok : w.Admissible call) :
    ∃ w' reply, Performed w call reply w' ∧ (∃ K, ∀ k ≥ K, w.perform k now call = some (w', reply))
      ∧ ∀ k x, w.perform k now call = some x → x = (w', reply) := by
  have hspec : ∃ w' reply, Performed w call reply w'
      ∧ ∃ K, ∀ k ≥ K, w.perform k now call = some (w', reply) := by
    cases call with
    | store name => exact perform_store hreg.1 hok
    | fetch name => exact perform_fetch hreg.2
    | delete name => exact perform_delete hreg.2
    | list entries fileMap => exact perform_list hok
  obtain ⟨w', reply, hperf, K, hK⟩ := hspec
  refine ⟨w', reply, hperf, ⟨K, hK⟩, fun k x hx => ?_⟩
  have hmax := perform_mono (le_max_left k K) hx
  rw [hK _ (le_max_right k K)] at hmax
  exact (Option.some.inj hmax).symm

theorem Performed.regular {reply : Reply} {w' : World} (h : Performed w call reply w')
    (hreg : w.Regular) : w'.Regular := by
  unfold World.Regular Host.Regular Host.wrapPath at hreg ⊢
  rwa [h.client.1, h.client.2, h.server.1, h.server.2]

/-- A call, the iterations it is given and its time. -/
structure Request where
  call : Call
  iterations : ℕ
  now : ℤ

def World.step (r : Request) (w : World) : Option World :=
  (w.perform r.iterations r.now r.call).map Prod.fst

/-- The worlds that admissible calls lead to. -/
def Serves (w₀ : World) : World → Prop :=
  Trans.Reach World.step (fun w r => w.Admissible r.call) w₀

theorem Serves.regular {w₀ : World} (h : Serves w₀ w) (h₀ : w₀.Regular) : w.Regular :=
  h.invariant h₀ fun w r w' hreg hok hstep => by
    obtain ⟨x, hx, rfl⟩ := Option.map_eq_some_iff.mp hstep
    obtain ⟨w', reply, hperf, -, hall⟩ := perform_spec r.now hreg hok
    rw [hall _ _ hx]
    exact hperf.regular hreg

/-- After any sequence of calls, the next one returns, and has done to the maps what it is to
do. -/
theorem service_refines {w₀ : World} (h₀ : w₀.Regular) (h : Serves w₀ w)
    (hok : w.Admissible call) (now : ℤ) :
    ∃ w' reply, (∃ K, ∀ k ≥ K, w.perform k now call = some (w', reply))
      ∧ (∀ k x, w.perform k now call = some x → x = (w', reply))
      ∧ Performed w call reply w' := by
  obtain ⟨w', reply, hperf, hreturns, hall⟩ := perform_spec now (h.regular h₀) hok
  exact ⟨w', reply, hreturns, hall, hperf⟩

/-- A file of two chunks is stored over nothing. -/
theorem service_refines_store : ∃ (w w' : World) (name : Name) (reply : Reply),
    w.client.map name = some (List.replicate 1025 0x61) ∧ w.server.map name = none
      ∧ (∃ K, ∀ k ≥ K, w.perform k 0 (.store name) = some (w', reply))
      ∧ reply = .code .ok ∧ w'.server.map name = some (List.replicate 1025 0x61) := by
  let name : Name :=
    ⟨ascii "a", by decide, by decide, by decide, by decide, by decide⟩
  let w : World :=
    ⟨⟨ascii "c/", fun p => if p = ascii "c/a" then some ⟨List.replicate 1025 0x61, 0⟩ else none,
      fun _ => none⟩, ⟨ascii "s/", fun _ => none, fun _ => none⟩⟩
  have hclient : w.client.map name = some (List.replicate 1025 0x61) := rfl
  have hok : w.Admissible (.store name) := fun content hcontent => by
    obtain rfl := Option.some.inj (hclient.symm.trans hcontent)
    rw [List.length_replicate]
    norm_num
  obtain ⟨w', reply, hreturns, -, hperf⟩ := service_refines ⟨fun _ => rfl, fun _ => rfl⟩ .refl hok 0
  have hmeets := hperf.meets
  simp only [Maps.Meets, World.maps, hclient] at hmeets
  refine ⟨w, w', name, reply, hclient, rfl, hreturns, hmeets.1, ?_⟩
  have hserver : w'.server.map
      = Function.update w.server.map name (some (List.replicate 1025 0x61)) :=
    congrArg Maps.server hmeets.2
  rw [hserver, Function.update_self]

end FileServices.Dfs
