import FileServices.Inotify
import FileServices.Proofs.DfsService

/-!
# From events to calls

A buffer of events is read event by event, and what the node is told is what its events say
(`inotifyWatcher_iff`).
-/

namespace FileServices.Inotify

open CString RegularExpression Regex
open Dfs (int)

variable {s mountPath name w a z buffer : Bytes} {mask v : UInt32} {offset : ℕ}

/-! ### The file names -/

/-- There is no line terminator. -/
def OneLine (s : Bytes) : Prop := 10 ∉ s ∧ 13 ∉ s

instance (s : Bytes) : Decidable (OneLine s) := inferInstanceAs (Decidable (_ ∧ _))

theorem mem_dot {b : UInt8} : b ∈ dot ↔ b ≠ 10 ∧ b ≠ 13 := by
  have hall : b ∈ (List.range 256).map UInt8.ofNat :=
    List.mem_map.mpr ⟨b.toNat, List.mem_range.mpr b.toNat_lt, UInt8.ofNat_toNat⟩
  rw [dot, List.mem_filter, and_iff_right hall, decide_eq_true_iff]

theorem oneLine_iff : OneLine s ↔ ∀ b ∈ s, b ∈ dot := by
  simp only [mem_dot]
  exact ⟨fun h b hb => ⟨fun hn => h.1 (hn ▸ hb), fun hr => h.2 (hr ▸ hb)⟩,
    fun h => ⟨fun hn => (h 10 hn).1 rfl, fun hr => (h 13 hr).2 rfl⟩⟩

theorem extensionRegex_rmatch_iff : extensionRegex.rmatch s ↔
    ∃ p, OneLine p ∧ ∃ e ∈ extensions, s = p ++ (ascii "." ++ e) := by
  simp only [extensionRegex, mul_rmatch_iff, star_letter_rmatch_iff, lit_rmatch_iff,
    anyOf_rmatch_iff, one_rmatch_iff, oneLine_iff, List.mem_map, exists_exists_and_eq_and]
  constructor
  · rintro ⟨p, t, rfl, hp, d, u, rfl, rfl, e, l, rfl, ⟨x, hx, rfl⟩, rfl⟩
    exact ⟨p, hp, e, hx, by rw [List.append_nil]⟩
  · rintro ⟨p, hp, e, he, rfl⟩
    exact ⟨p, _, rfl, hp, _, _, rfl, rfl, e, [], (List.append_nil e).symm, ⟨e, he, rfl⟩, rfl⟩

theorem extension_noSlash : ∀ e ∈ extensions, 47 ∉ ascii "." ++ e := by decide

/-- Behind a slash, an ending without one is an ending of the name. -/
theorem suffix_append_iff (hmount : ascii "/" <:+ mountPath) (hw : 47 ∉ w) :
    w <:+ mountPath ++ name ↔ w <:+ name := by
  refine ⟨fun h => ?_, fun h => h.trans (List.suffix_append mountPath name)⟩
  obtain ⟨dir, rfl⟩ := hmount
  have hslash : 47 :: name <:+ dir ++ ascii "/" ++ name := by
    rw [List.append_assoc]
    exact List.suffix_append dir (47 :: name)
  rcases List.suffix_or_suffix_of_suffix h hslash with h | h
  · rcases List.suffix_cons_iff.mp h with rfl | h
    · exact absurd List.mem_cons_self hw
    · exact h
  · exact absurd (h.subset List.mem_cons_self) hw

theorem rmatch_path_iff (hmount : ascii "/" <:+ mountPath) (hline : OneLine mountPath)
    (hname : OneLine name) : extensionRegex.rmatch (mountPath ++ name) ↔
      ∃ e ∈ extensions, ascii "." ++ e <:+ name := by
  rw [extensionRegex_rmatch_iff]
  constructor
  · rintro ⟨p, -, e, he, hp⟩
    exact ⟨e, he, (suffix_append_iff hmount (extension_noSlash e he)).mp ⟨p, hp.symm⟩⟩
  · rintro ⟨e, he, p, rfl⟩
    refine ⟨mountPath ++ p, ?_, e, he, (List.append_assoc _ _ _).symm⟩
    rw [oneLine_iff] at *
    intro b hb
    rcases List.mem_append.mp hb with hb | hb
    · exact hline b hb
    · exact hname b (List.mem_append_left _ hb)

theorem basename_append (hmount : ascii "/" <:+ mountPath) (hname : 47 ∉ name) :
    basename (mountPath ++ name) = name := by
  obtain ⟨dir, rfl⟩ := hmount
  have hrev : (dir ++ ascii "/" ++ name).reverse = name.reverse ++ 47 :: dir.reverse := by
    simp [ascii]
  have hkeep : ∀ b ∈ name.reverse, decide (b ≠ 47) = true := fun b hb =>
    decide_eq_true fun h => hname (h ▸ List.mem_reverse.mp hb)
  rw [basename, List.rtakeWhile, hrev, List.takeWhile_append_of_pos hkeep,
    List.takeWhile_cons_of_neg (by decide), List.append_nil, List.reverse_reverse]

/-! ### The events -/

/-- An `inotify_event` with its name and the NULs behind that. -/
structure Record where
  wd : UInt32
  mask : UInt32
  cookie : UInt32
  name : Bytes
  nuls : ℕ
  noNul : 0 ∉ name
  terminated : name ≠ [] → 0 < nuls
  fits : name.length + nuls < 2 ^ 32

def Record.len (r : Record) : UInt32 := UInt32.ofNat (r.name.length + r.nuls)

def Record.bytes (r : Record) : Bytes :=
  uint32Bytes r.wd ++ uint32Bytes r.mask ++ uint32Bytes r.cookie ++ uint32Bytes r.len
    ++ (r.name ++ List.replicate r.nuls 0)

/-- What a `read` of events leaves at the front of the buffer. -/
def encode (records : List Record) : Bytes := records.flatMap Record.bytes

/-- A file of the mounted directory that the events are to be reported for. -/
def Record.Seen (r : Record) : Prop :=
  eventFlags &&& r.mask ≠ 0 ∧ r.name.head? ≠ some 46 ∧ ∃ e ∈ extensions, ascii "." ++ e <:+ r.name

instance (r : Record) : Decidable r.Seen := inferInstanceAs (Decidable (_ ∧ _ ∧ _))

/-- The calls for an event. -/
def Record.calls (r : Record) : List Call :=
  if r.Seen then
    (if r.mask &&& inCreate ≠ 0 then [.store r.name] else [])
      ++ (if r.mask &&& inModify ≠ 0 then [.store r.name] else [])
      ++ if r.mask &&& inDelete ≠ 0 then [.delete r.name] else []
  else []

/-- A name in a directory; an event of the kinds asked for has one. -/
structure Record.Named (r : Record) : Prop where
  noSlash : 47 ∉ r.name
  oneLine : OneLine r.name
  named : eventFlags &&& r.mask ≠ 0 → r.name ≠ []

/-- `sizeof(inotify_event)`. -/
def eventSizeof : ℕ := 16

variable {r : Record} {records : List Record}

theorem Record.len_toNat (r : Record) : r.len.toNat = r.name.length + r.nuls := by
  rw [Record.len, UInt32.toNat_ofNat']
  exact Nat.mod_eq_of_lt r.fits

theorem Record.length_bytes (r : Record) : r.bytes.length = eventSizeof + r.len.toNat := by
  rw [r.len_toNat]
  simp only [Record.bytes, List.length_append, length_uint32Bytes, List.length_replicate,
    eventSizeof]

theorem uint32At_field (a front z : Bytes) (v : UInt32) (h : front.length = offset) :
    uint32At (a ++ (front ++ (uint32Bytes v ++ z))) (a.length + offset) = some v := by
  rw [← List.append_assoc, ← h, ← List.length_append]
  exact uint32At_length (a ++ front) z v

theorem uint32At_mask (a z : Bytes) (r : Record) :
    uint32At (a ++ (r.bytes ++ z)) (a.length + maskOffset) = some r.mask := by
  simp only [Record.bytes, List.append_assoc]
  exact uint32At_field a (uint32Bytes r.wd) _ r.mask (length_uint32Bytes r.wd)

theorem uint32At_len (a z : Bytes) (r : Record) :
    uint32At (a ++ (r.bytes ++ z)) (a.length + lenOffset) = some r.len := by
  have hfront : (uint32Bytes r.wd ++ uint32Bytes r.mask ++ uint32Bytes r.cookie).length
      = lenOffset := by
    simp [lenOffset]
  have h := uint32At_field a _ (r.name ++ List.replicate r.nuls 0 ++ z) r.len hfront
  simpa only [Record.bytes, List.append_assoc] using h

/-- What starts at the name. -/
theorem drop_name (a z : Bytes) (r : Record) : (a ++ (r.bytes ++ z)).drop (a.length + nameOffset)
    = r.name ++ (List.replicate r.nuls 0 ++ z) := by
  have hfront : (uint32Bytes r.wd ++ uint32Bytes r.mask ++ uint32Bytes r.cookie
      ++ uint32Bytes r.len).length = nameOffset := by
    simp [nameOffset]
  rw [← List.drop_drop, List.drop_left, Record.bytes, List.append_assoc, ← hfront, List.drop_left,
    List.append_assoc]

theorem stringAt_name (a z : Bytes) (hname : r.name ≠ []) :
    stringAt (a ++ (r.bytes ++ z)) (a.length + nameOffset) = some r.name := by
  obtain ⟨k, hk⟩ := Nat.exists_eq_succ_of_ne_zero (r.terminated hname).ne'
  rw [stringAt, drop_name, hk, List.replicate_succ, List.cons_append, if_pos (by simp),
    cstr_string r.noNul]

theorem first_name (a z : Bytes) {first : UInt8} (hname : r.name.head? = some first) :
    (a ++ (r.bytes ++ z))[a.length + nameOffset]? = some first := by
  rw [← List.head?_drop, drop_name, List.head?_append, hname]
  rfl

/-! ### One event -/

theorem notify_record (hmount : ascii "/" <:+ mountPath) (hline : OneLine mountPath)
    (hr : r.Named) (a z : Bytes) :
    notify eventFlags mountPath (a ++ (r.bytes ++ z)) a.length r.mask = some r.calls := by
  unfold notify
  by_cases hmask : eventFlags &&& r.mask ≠ 0
  · obtain ⟨first, rest, hname⟩ := List.exists_cons_of_ne_nil (hr.named hmask)
    have hhead : r.name.head? = some first := by rw [hname]; rfl
    rw [if_pos hmask, first_name a z hhead]
    by_cases hdot : first = 46
    · have hseen : ¬ r.Seen := fun h => h.2.1 (hdot ▸ hhead)
      simp only [hdot, ne_eq, not_true_eq_false, if_false, Record.calls, if_neg hseen]
    · have hseen : r.Seen ↔ extensionRegex.rmatch (mountPath ++ r.name) := by
        rw [rmatch_path_iff hmount hline hr.oneLine, Record.Seen, hhead, and_iff_right hmask,
          and_iff_right (by simpa using hdot)]
      rw [stringAt_name a z (hr.named hmask)]
      simp only [ne_eq, hdot, not_false_eq_true, if_true, Option.map_some, inotifyEventCallback,
        basename_append hmount hr.noSlash, ← hseen, Record.calls]
  · have hseen : ¬ r.Seen := fun h => hmask h.1
    rw [if_neg hmask, Record.calls, if_neg hseen]

theorem handle_record (hmount : ascii "/" <:+ mountPath) (hline : OneLine mountPath)
    (hr : r.Named) (a z : Bytes) :
    handle eventSizeof eventFlags mountPath (a ++ (r.bytes ++ z)) a.length
      = some (r.calls, r.bytes.length) := by
  rw [handle, uint32At_mask, Option.bind_some, notify_record hmount hline hr, Option.bind_some,
    uint32At_len, Option.map_some, r.length_bytes]

/-! ### The loop -/

/-- The start of each event. -/
def starts (records : List Record) : List ℤ :=
  (List.range records.length).map fun k => ((encode (records.take k)).length : ℤ)

/-- The variables when the events `done` are done. -/
def Watch.behind (done : List Record) : Watch :=
  ⟨(encode done).length, starts done, done.flatMap Record.calls⟩

theorem encode_concat (done : List Record) (r : Record) : encode (done ++ [r])
    = encode done ++ r.bytes := by
  simp [encode]

theorem starts_concat (done : List Record) (r : Record) :
    starts (done ++ [r]) = starts done ++ [((encode done).length : ℤ)] := by
  rw [starts, List.length_append, List.length_singleton, List.range_succ, List.map_append,
    List.map_singleton, List.take_left]
  congr 1
  refine List.map_congr_left fun k hk => ?_
  rw [List.take_append_of_le_length (List.mem_range.mp hk).le]

/-- An iteration takes the event at `index` and goes on behind it. -/
theorem watchBody_record (hmount : ascii "/" <:+ mountPath) (hline : OneLine mountPath)
    (hr : r.Named) (done : List Record) (z : Bytes)
    (hfits : (encode (done ++ [r])).length < 2 ^ 31) :
    watchBody eventSizeof eventFlags mountPath (encode done ++ (r.bytes ++ z)) (.behind done) ()
      = .more (.behind (done ++ [r])) := by
  have hindex : int ((encode done).length + r.bytes.length) = (encode (done ++ [r])).length := by
    rw [← Nat.cast_add, ← List.length_append, ← encode_concat]
    exact Dfs.int_natCast hfits
  simp only [watchBody, Watch.behind, Int.toNat_natCast, handle_record hmount hline hr, hindex,
    starts_concat, List.flatMap_append, List.flatMap_singleton]
  exact if_neg (Int.natCast_nonneg _).not_gt

section Turn

variable (stale : Bytes)

theorem encode_split {k : ℕ} (hk : k < records.length) :
    encode records ++ stale = encode (records.take k)
      ++ (records[k].bytes ++ (encode (records.drop (k + 1)) ++ stale)) := by
  have hrecords : records = records.take k ++ records[k] :: records.drop (k + 1) := by
    rw [← List.drop_eq_getElem_cons hk, List.take_append_drop]
  conv_lhs => rw [hrecords, encode, List.flatMap_append, List.flatMap_cons]
  rw [List.append_assoc, List.append_assoc]
  rfl

theorem length_encode_lt {k : ℕ} (hk : k < records.length) :
    (encode (records.take k)).length < (encode records).length := by
  have h := congrArg List.length (encode_split [] hk)
  have hr := records[k].length_bytes
  simp only [List.length_append, List.length_nil, eventSizeof] at h hr
  omega

/-- After `k` iterations the loop is behind the first `k` events. -/
theorem after_take (hmount : ascii "/" <:+ mountPath) (hline : OneLine mountPath)
    (hnames : ∀ r ∈ records, r.Named) (hfits : (encode records).length < 2 ^ 31) :
    ∀ k ≤ records.length, Loop.after (watchHead (encode records).length)
      (watchBody eventSizeof eventFlags mountPath (encode records ++ stale)) (.behind [])
      (fun _ => ()) k = some (.behind (records.take k))
  | 0, _ => rfl
  | k + 1, hk => by
    have hlt := length_encode_lt hk
    refine Loop.after_succ.mpr ⟨_, after_take hmount hline hnames hfits k (Nat.le_of_succ_le hk),
      ?_, ?_⟩
    · exact if_pos (Int.ofNat_lt.mpr hlt)
    · rw [encode_split stale hk, List.take_succ_eq_append_getElem hk]
      refine watchBody_record hmount hline (hnames _ (List.getElem_mem hk)) _ _ ?_
      have hle := congrArg List.length (encode_split [] hk)
      rw [encode_concat]
      simp only [List.length_append, List.length_nil] at hle ⊢
      omega

theorem handles_of_le {eventSize : ℕ} {eventType : UInt32} {len : ℤ} {t t' : Watch}
    (h : len ≤ t.index) : Handles eventSize eventType mountPath buffer len t t' ↔ t' = t := by
  have hhead : watchHead len t = some (some t) := if_neg h.not_gt
  have hstops : Handles eventSize eventType mountPath buffer len t t :=
    Loop.stops_iff.mpr ⟨0, t, rfl, .inl hhead⟩
  exact ⟨fun h' => Option.some.inj (h'.unique hstops), fun h' => h' ▸ hstops⟩

theorem handles_records (hmount : ascii "/" <:+ mountPath) (hline : OneLine mountPath)
    (hnames : ∀ r ∈ records, r.Named) (hfits : (encode records).length < 2 ^ 31) {t : Watch} :
    Handles eventSizeof eventFlags mountPath (encode records ++ stale) (encode records).length
      (.behind []) t ↔ t = .behind records := by
  have hafter := after_take stale hmount hline hnames hfits records.length le_rfl
  rw [List.take_length] at hafter
  have hhead : watchHead (encode records).length (.behind records)
      = some (some (.behind records)) := if_neg (lt_irrefl _)
  have hstops : Handles eventSizeof eventFlags mountPath (encode records ++ stale)
      (encode records).length (.behind []) (.behind records) :=
    Loop.stops_iff.mpr ⟨records.length, _, hafter, .inl hhead⟩
  exact ⟨fun h => Option.some.inj (h.unique hstops), fun h => h ▸ hstops⟩

/-- A callback that has come to where it does nothing more may be run again. -/
theorem runs_of_done {callback : Watch → Watch → Prop} {t : Watch}
    (hdone : ∀ t', callback t t' ↔ t' = t) : ∀ {runs : ℕ} {t' : Watch},
      Runs callback runs t t' ↔ t' = t
  | 0, _ => Iff.rfl
  | runs + 1, t' => by
    simp only [Runs, hdone, exists_eq_left, runs_of_done hdone]

theorem runs_iff {callback : Watch → Watch → Prop} {u t : Watch} {runs : ℕ} (hruns : 0 < runs)
    (hfirst : ∀ t', callback u t' ↔ t' = t) (hdone : ∀ t', callback t t' ↔ t' = t) {t' : Watch} :
    Runs callback runs u t' ↔ t' = t := by
  obtain ⟨k, rfl⟩ := Nat.exists_eq_succ_of_ne_zero hruns.ne'
  simp only [Runs, hfirst, exists_eq_left, runs_of_done hdone]

end Turn

/-! ### A read -/

/-- What `read` transfers at most. -/
def readMax : ℕ := 0x7ffff000

/-- A turn of the watcher, on a read of events or on a failed one: the node is told what the events
say, and the loop has been at the start of each of them. -/
theorem inotifyWatcher_iff (records : List Record) (stale mountPath : Bytes) (eventSize runs : ℕ)
    (hsize : eventSize = eventSizeof) (hruns : 0 < runs) (hmount : ascii "/" <:+ mountPath)
    (hline : OneLine mountPath) (hnames : ∀ r ∈ records, r.Named)
    (hread : (encode records).length ≤ readMax) :
    (∀ s, InotifyWatcher eventSize eventFlags mountPath (encode records).length
        (encode records ++ stale) runs s
      ↔ s = ⟨(encode records).length, starts records, records.flatMap Record.calls⟩)
    ∧ ∀ buffer s, InotifyWatcher eventSize eventFlags mountPath (-1) buffer runs s
      ↔ s = ⟨0, [], []⟩ := by
  subst hsize
  have hfits : (encode records).length < 2 ^ 31 := lt_of_le_of_lt hread (by decide)
  refine ⟨fun s => ?_, fun buffer s => ?_⟩
  · rw [InotifyWatcher, Dfs.int_natCast hfits]
    exact runs_iff hruns (fun _ => handles_records stale hmount hline hnames hfits)
      fun _ => handles_of_le le_rfl
  · exact runs_of_done fun _ => handles_of_le (by decide)

/-- A file that is created and written to, and a hidden one that is deleted. -/
def twoRecords : List Record :=
  [⟨1, inCreate ||| inModify, 0, ascii "a.txt", 11, by decide, by decide, by decide⟩,
    ⟨1, inDelete, 0, ascii ".b.md", 11, by decide, by decide, by decide⟩]

theorem inotifyWatcher_iff_two : InotifyWatcher 16 eventFlags (ascii "mnt/")
    (encode twoRecords).length (encode twoRecords) 1
      ⟨64, [0, 32], [.store (ascii "a.txt"), .store (ascii "a.txt")]⟩ := by
  have hnames : ∀ r ∈ twoRecords, r.Named := by
    rintro r (_ | ⟨_, _ | ⟨_, ⟨⟩⟩⟩)
    · exact ⟨by decide, by decide, by decide⟩
    · exact ⟨by decide, by decide, by decide⟩
  have h := (inotifyWatcher_iff twoRecords [] (ascii "mnt/") 16 1 rfl (by decide) (by decide)
    (by decide) hnames (by decide)).1
  rw [List.append_nil] at h
  exact (h _).mpr (by decide)

end FileServices.Inotify
