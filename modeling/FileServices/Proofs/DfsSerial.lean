import FileServices.Proofs.DfsCalls
import FileServices.Proofs.DfsService

/-!
# When the service is one that serves one call at a time

A call that fetches may overlap others that do, and calls on different files may overlap as they
like.  As long as one that stores or deletes has its file to itself, each call has the answer that
it has where the calls are served one after the other, as they return.
-/

namespace FileServices.Calls

open CString
open Dfs (StatusCode Sender Turn Sending)
open Buffered (File)

variable {N : Type*} [DecidableEq N] {c : Config N} {s s' : State c} {k : Fin c.ncalls} {file : N}

/-! ### The service one call at a time -/

/-- What a call makes of the files when it is served at once. -/
def Config.serve (c : Config N) (files : N → Option Bytes) (k : Fin c.ncalls) : N → Option Bytes :=
  match c.task k with
  | .store _ messages => Function.update files (c.file k) (some messages.flatten)
  | .fetch _ => files
  | .delete _ => Function.update files (c.file k) none

/-- The answer to a call that is served at once. -/
def Config.answer (c : Config N) (files : N → Option Bytes) (k : Fin c.ncalls) :
    StatusCode × Bytes :=
  match c.task k, files (c.file k) with
  | .store _ _, _ => (.ok, [])
  | .fetch _, some content => (.ok, content)
  | .delete _, some _ => (.ok, [])
  | _, none => (.notFound, [])

/-- The files after calls that are served one at a time. -/
def Config.after (c : Config N) (ks : List (Fin c.ncalls)) : N → Option Bytes :=
  ks.foldl c.serve c.disk.read

theorem after_snoc (c : Config N) (ks : List (Fin c.ncalls)) (k : Fin c.ncalls) :
    c.after (ks ++ [k]) = c.serve (c.after ks) k := by
  rw [Config.after, List.foldl_append]
  rfl

theorem serve_other (files : N → Option Bytes) (h : file ≠ c.file k) :
    c.serve files k file = files file := by
  unfold Config.serve
  cases c.task k with
  | store filename messages => exact Function.update_of_ne h ..
  | fetch filepath => rfl
  | delete filepath => exact Function.update_of_ne h ..

/-- An `int` holds the size of each file and of each content that is stored. -/
structure Config.Small (c : Config N) : Prop where
  disk : ∀ file content, c.disk.read file = some content → content.length < 2 ^ 31
  messages : ∀ k filename messages, c.task k = .store filename messages →
    messages.flatten.length < 2 ^ 31

theorem Config.Small.after (hsmall : c.Small) (ks : List (Fin c.ncalls)) {content : Bytes}
    (h : c.after ks file = some content) : content.length < 2 ^ 31 := by
  induction ks using List.reverseRecOn generalizing content with
  | nil => exact hsmall.disk file content h
  | append_singleton ks k ih =>
    rw [after_snoc] at h
    by_cases hfile : file = c.file k
    · unfold Config.serve at h
      cases htask : c.task k with
      | store filename messages =>
        simp only [htask, hfile, Function.update_self, Option.some.injEq] at h
        exact h ▸ hsmall.messages k filename messages htask
      | fetch filepath => exact ih (by simpa only [htask] using h)
      | delete filepath => simp [htask, hfile] at h
    · rw [serve_other _ hfile] at h
      exact ih h

/-- An `int` holds the size of what a call fetches. -/
def Config.Fits (c : Config N) (files : N → Option Bytes) (k : Fin c.ncalls) : Prop :=
  ∀ filepath content, c.task k = .fetch filepath → files (c.file k) = some content →
    content.length < 2 ^ 31

theorem Config.Small.fits (hsmall : c.Small) (ks : List (Fin c.ncalls)) (k : Fin c.ncalls) :
    c.Fits (c.after ks) k := fun _ _ _ h => hsmall.after ks h

/-! ### Which calls overlap -/

def Task.fetches : Task → Bool
  | .fetch _ => true
  | _ => false

/-- The call has begun and has not returned. -/
def Pc.active : Pc → Bool
  | .start | .returned _ _ => false
  | _ => true

def Pc.reads : Pc → Bool
  | .reading _ _ => true
  | _ => false

/-- Beside a call there is none on its file that stores or deletes, and none at all where it
stores or deletes itself. -/
def State.Beside (s : State c) (k : Fin c.ncalls) : Prop :=
  ∀ j ≠ k, (s.pc j).active = true → c.file j = c.file k →
    (c.task j).fetches = true ∧ (c.task k).fetches = true

instance (s : State c) (k : Fin c.ncalls) : Decidable (s.Beside k) :=
  inferInstanceAs (Decidable (∀ j ≠ k, (s.pc j).active = true → c.file j = c.file k →
    (c.task j).fetches = true ∧ (c.task k).fetches = true))

/-- No call of the system fails, none is cancelled, and one that stores or deletes has its file to
itself. -/
def Alone (s : State c) : Event c → Prop
  | .run k turn => turn = .goes ∧ s.Beside k
  | .flush _ _ => True
  | .lose _ => False

instance (s : State c) : ∀ e, Decidable (Alone s e)
  | .run k turn => inferInstanceAs (Decidable (turn = .goes ∧ s.Beside k))
  | .flush _ _ => inferInstanceAs (Decidable True)
  | .lose _ => inferInstanceAs (Decidable False)

/-- What an active call has done so far. -/
def State.Stands (s : State c) (k : Fin c.ncalls) : Pc → Prop
  | .reading stream rest => ∃ file filename messages, stream = some file
    ∧ c.task k = .store filename messages ∧ s.disk.dir (c.file k) = some file.ino
    ∧ s.disk.data file.ino ++ file.pending ++ rest.flatten = messages.flatten
    ∧ file.pos = (s.disk.data file.ino).length
  | .stated stSize => (c.task k).fetches = true
    ∧ ∃ content, s.disk.read (c.file k) = some content ∧ stSize = content.length
  | .sending ino t => (c.task k).fetches = true ∧ ∃ i, ino = some i
    ∧ s.disk.dir (c.file k) = some i ∧ Sending (s.disk.data i) t
  | .removing => (∃ filepath, c.task k = .delete filepath) ∧ (s.disk.read (c.file k)).isSome
  | .start | .returned _ _ => True

/-- The calls that have returned have been served one at a time, in the order in which they
returned. -/
structure Serial (s : State c) : Prop where
  answered : ∀ ks k ks', s.returned = ks ++ k :: ks' → ∃ sent,
    s.pc k = .returned (c.answer (c.after ks) k).1 sent
      ∧ (c.Fits (c.after ks) k → sent.flatten = (c.answer (c.after ks) k).2)
  nodup : s.returned.Nodup
  returned : ∀ k status sent, s.pc k = .returned status sent → k ∈ s.returned
  alone : ∀ j k, j ≠ k → (s.pc j).active = true → (s.pc k).active = true → c.file j = c.file k →
    (c.task j).fetches = true
  stands : ∀ k, s.Stands k (s.pc k)
  settled : ∀ file, (∀ k, c.file k = file → (s.pc k).reads = false) →
    s.disk.read file = c.after s.returned file

theorem serial_init (c : Config N) : Serial (State.init c) where
  answered := fun ks k ks' h => by simp [State.init] at h
  nodup := List.nodup_nil
  returned := fun k status sent h => by cases h
  alone := fun j k _ h => by cases h
  stands := fun k => trivial
  settled := fun file _ => rfl

omit [DecidableEq N] in
/-- A call stands as it does as long as its file is what it is. -/
theorem State.Stands.frame {pc : Pc} (h : s.Stands k pc)
    (hdir : s'.disk.dir (c.file k) = s.disk.dir (c.file k))
    (hread : s'.disk.read (c.file k) = s.disk.read (c.file k)) : s'.Stands k pc := by
  have hdata : ∀ ino, s.disk.dir (c.file k) = some ino → s'.disk.data ino = s.disk.data ino :=
    fun ino hino => by
      rw [Disk.read_of_dir hino, Disk.read_of_dir (hdir.trans hino)] at hread
      exact Option.some.inj hread
  cases pc with
  | reading stream rest =>
    obtain ⟨file, filename, messages, hstream, htask, hino, hall, hpos⟩ := h
    exact ⟨file, filename, messages, hstream, htask, hdir.trans hino,
      by rw [hdata _ hino]; exact hall, by rw [hdata _ hino]; exact hpos⟩
  | stated stSize =>
    obtain ⟨hfetch, content, hcontent, hsize⟩ := h
    exact ⟨hfetch, content, hread.trans hcontent, hsize⟩
  | sending ino t =>
    obtain ⟨hfetch, i, hi, hino, hs⟩ := h
    exact ⟨hfetch, i, hi, hdir.trans hino, by rw [hdata _ hino]; exact hs⟩
  | removing => exact ⟨h.1, hread ▸ h.2⟩
  | start => trivial
  | returned status sent => trivial

theorem Serial.beside (hi : Serial s) (hk : (s.pc k).active = true) : s.Beside k :=
  fun j hj hactive hfile => ⟨hi.alone j k hj hactive hk hfile,
    hi.alone k j hj.symm hk hactive hfile.symm⟩

theorem Serial.notMem (hi : Serial s) (hrun : ∀ status sent, s.pc k ≠ .returned status sent) :
    k ∉ s.returned := fun hmem => by
  obtain ⟨ks, ks', hsplit⟩ := List.append_of_mem hmem
  obtain ⟨sent, hat, -⟩ := hi.answered ks k ks' hsplit
  exact hrun _ _ hat

/-- The file of a call that does not store is as the calls that have returned leave it. -/
theorem Serial.settled_at (hi : Serial s) (hbeside : s.Beside k) (hk : (s.pc k).reads = false) :
    s.disk.read (c.file k) = c.after s.returned (c.file k) := by
  refine hi.settled _ fun j hj => ?_
  by_cases hjk : j = k
  · rw [hjk, hk]
  · cases hat : s.pc j with
    | reading stream rest =>
      have hstands := hi.stands j
      rw [hat] at hstands
      obtain ⟨-, filename, messages, -, htask, -⟩ := hstands
      have := (hbeside j hjk (by rw [hat]; rfl) hj).1
      simp [htask, Task.fetches] at this
    | _ => rfl

section Move

variable (hi : Serial s) (hbeside : s.Beside k) {pc : Pc}
  (hpc : s'.pc = Function.update s.pc k pc)
  (hdisk : s'.disk = s.disk
    ∨ (c.task k).fetches = false ∧ s.disk.OnlyAt (c.file k) s'.disk)

include hi hbeside hpc hdisk

theorem Serial.alone_move (i j : Fin c.ncalls) (hij : i ≠ j) (hiactive : (s'.pc i).active = true)
    (hjactive : (s'.pc j).active = true) (hfile : c.file i = c.file j) :
    (c.task i).fetches = true := by
  have hother : ∀ l, l ≠ k → s'.pc l = s.pc l := fun l hl => by
    rw [hpc, Function.update_of_ne hl]
  by_cases hik : i = k
  · subst hik
    rw [hother j hij.symm] at hjactive
    exact (hbeside j hij.symm hjactive hfile.symm).2
  · rw [hother i hik] at hiactive
    by_cases hjk : j = k
    · subst hjk
      exact (hbeside i hik hiactive hfile).1
    · rw [hother j hjk] at hjactive
      exact hi.alone i j hij hiactive hjactive hfile

theorem Serial.stands_move (hstands : s'.Stands k pc) (j : Fin c.ncalls) :
    s'.Stands j (s'.pc j) := by
  by_cases hjk : j = k
  · subst hjk
    rwa [hpc, Function.update_self]
  · rw [hpc, Function.update_of_ne hjk]
    have hold := hi.stands j
    by_cases hactive : (s.pc j).active = true
    · obtain hsame | ⟨hfetch, honly⟩ := hdisk
      · exact hold.frame (by rw [hsame]) (by rw [hsame])
      · have hfile : c.file j ≠ c.file k := fun hfile => by
          have := (hbeside j hjk hactive hfile).2
          simp [hfetch] at this
        exact hold.frame (honly.dir _ hfile) (honly.read _ hfile)
    · cases hat : s.pc j with
      | start => trivial
      | returned status sent => trivial
      | _ => simp [hat, Pc.active] at hactive

omit [DecidableEq N] hi hbeside hpc in
theorem Serial.read_other (hfile : file ≠ c.file k) : s'.disk.read file = s.disk.read file := by
  obtain hsame | ⟨-, honly⟩ := hdisk
  · rw [hsame]
  · exact honly.read file hfile

/-- A step of a call that goes on. -/
theorem Serial.keep (hrun : ∀ status sent, s.pc k ≠ .returned status sent)
    (hgoes : ∀ status sent, pc ≠ .returned status sent) (hreturned : s'.returned = s.returned)
    (hstands : s'.Stands k pc)
    (hread : pc.reads = true ∨ s'.disk = s.disk ∧ (s.pc k).reads = false) : Serial s' where
  answered := fun ks j ks' hsplit => by
    rw [hreturned] at hsplit
    obtain ⟨sent, hat, hsent⟩ := hi.answered ks j ks' hsplit
    refine ⟨sent, ?_, hsent⟩
    rw [hpc, Function.update_of_ne, hat]
    rintro rfl
    exact hrun _ _ hat
  nodup := hreturned ▸ hi.nodup
  returned := fun j status sent hat => by
    rw [hpc, Function.update_apply] at hat
    split_ifs at hat
    · exact absurd hat (hgoes _ _)
    · exact hreturned ▸ hi.returned j status sent hat
  alone := hi.alone_move hbeside hpc hdisk
  stands := hi.stands_move hbeside hpc hdisk hstands
  settled := fun file hnone => by
    rw [hreturned]
    have hk := fun hfile => hnone k hfile
    rw [hpc, Function.update_self] at hk
    have hothers : ∀ j, j ≠ k → c.file j = file → (s.pc j).reads = false := fun j hj hfile => by
      have := hnone j hfile
      rwa [hpc, Function.update_of_ne hj] at this
    by_cases hfile : file = c.file k
    · obtain hreads | ⟨hsame, hreads⟩ := hread
      · simp [hk hfile.symm] at hreads
      · rw [hsame]
        refine hi.settled file fun j hj => ?_
        by_cases hjk : j = k
        · rw [hjk, hreads]
        · exact hothers j hjk hj
    · rw [Serial.read_other hdisk hfile]
      refine hi.settled file fun j hj => hothers j ?_ hj
      rintro rfl
      exact hfile hj.symm

/-- A step with which a call returns. -/
theorem Serial.done (hrun : ∀ status sent, s.pc k ≠ .returned status sent) {sent : List Bytes}
    (hgoes : pc = .returned (c.answer (c.after s.returned) k).1 sent)
    (hsent : c.Fits (c.after s.returned) k → sent.flatten = (c.answer (c.after s.returned) k).2)
    (hreturned : s'.returned = s.returned ++ [k])
    (hread : s'.disk.read (c.file k) = c.serve (c.after s.returned) k (c.file k)) :
    Serial s' where
  answered := fun ks j ks' hsplit => by
    rw [hreturned] at hsplit
    obtain ⟨rest, rfl, hrest⟩ | ⟨rest, hks, hrest⟩ := List.append_eq_append_iff.mp hsplit
    · cases rest with
      | nil =>
        obtain ⟨rfl, -⟩ := List.cons.inj hrest
        rw [List.append_nil, hpc, Function.update_self]
        exact ⟨sent, hgoes, hsent⟩
      | cons i rest => simp at hrest
    · cases rest with
      | nil =>
        obtain ⟨rfl, -⟩ := List.cons.inj hrest
        rw [List.append_nil] at hks
        subst hks
        rw [hpc, Function.update_self]
        exact ⟨sent, hgoes, hsent⟩
      | cons i rest =>
        obtain ⟨rfl, -⟩ := List.cons.inj hrest
        obtain ⟨sent, hat, hsent⟩ := hi.answered ks j rest hks
        refine ⟨sent, ?_, hsent⟩
        rw [hpc, Function.update_of_ne, hat]
        rintro rfl
        exact hrun _ _ hat
  nodup := by
    rw [hreturned]
    exact hi.nodup.append (List.nodup_singleton k) (by simpa using hi.notMem hrun)
  returned := fun j status sent hat => by
    rw [hreturned]
    rw [hpc, Function.update_apply] at hat
    split_ifs at hat with hj
    · exact List.mem_append_right _ (by simp [hj])
    · exact List.mem_append_left _ (hi.returned j status sent hat)
  alone := hi.alone_move hbeside hpc hdisk
  stands := hi.stands_move hbeside hpc hdisk (hgoes ▸ trivial)
  settled := fun file hnone => by
    rw [hreturned, after_snoc]
    by_cases hfile : file = c.file k
    · rw [hfile, hread]
    · rw [Serial.read_other hdisk hfile, serve_other _ hfile]
      refine hi.settled file fun j hj => ?_
      have := hnone j hj
      rwa [hpc, Function.update_of_ne] at this
      rintro rfl
      exact hfile hj.symm

end Move

/-! ### The steps -/

variable {turn : Turn} {messages : List Bytes} {filename : Option Bytes} {filepath : Bytes}

/-- A call that does not store finds no file. -/
theorem Serial.notFound (hi : Serial s) (hbeside : s.Beside k) (hat : s.pc k = .start)
    (hstores : ∀ filename messages, c.task k ≠ .store filename messages)
    (hnone : s.disk.read (c.file k) = none) : Serial (s.done k .notFound []) := by
  have hafter : c.after s.returned (c.file k) = none :=
    (hi.settled_at hbeside (by rw [hat]; rfl)).symm.trans hnone
  have hanswer : c.answer (c.after s.returned) k = (.notFound, []) := by
    unfold Config.answer
    cases htask : c.task k with
    | store filename messages => exact absurd htask (hstores filename messages)
    | fetch filepath => simp [hafter]
    | delete filepath => simp [hafter]
  have hserve : c.serve (c.after s.returned) k (c.file k) = none := by
    unfold Config.serve
    cases htask : c.task k with
    | store filename messages => exact absurd htask (hstores filename messages)
    | fetch filepath => exact hafter
    | delete filepath => exact Function.update_self ..
  exact hi.done hbeside rfl (.inl rfl) (by simp [hat]) (by rw [hanswer])
    (fun _ => by rw [hanswer]; rfl) rfl (hnone.trans hserve.symm)

theorem Serial.fetchFile (hi : Serial s) (hbeside : s.Beside k)
    (htask : c.task k = .fetch filepath) (h : fetchFile k .goes s = some s') : Serial s' := by
  have hfetches : (c.task k).fetches = true := by rw [htask]; rfl
  have hserve : c.serve (c.after s.returned) k = c.after s.returned := by simp [Config.serve, htask]
  have hstands := hi.stands k
  unfold Calls.fetchFile at h
  cases hat : s.pc k with
  | start =>
    have hrun : ∀ status sent, s.pc k ≠ .returned status sent := by simp [hat]
    have hreads : (s.pc k).reads = false := by rw [hat]; rfl
    simp only [hat, reduceCtorEq, if_false] at h
    cases hcontent : s.disk.read (c.file k) with
    | none =>
      simp only [hcontent, Option.some.injEq] at h
      exact h ▸ hi.notFound hbeside hat (by simp [htask]) hcontent
    | some content =>
      simp only [hcontent, Option.some.injEq] at h
      subst h
      exact hi.keep hbeside rfl (.inl rfl) hrun (by simp) rfl ⟨hfetches, content, hcontent, rfl⟩
        (.inr ⟨rfl, hreads⟩)
  | stated stSize =>
    have hrun : ∀ status sent, s.pc k ≠ .returned status sent := by simp [hat]
    rw [hat] at hstands
    obtain ⟨-, content, hcontent, rfl⟩ := hstands
    obtain ⟨i, hdir, rfl⟩ := Option.map_eq_some_iff.mp hcontent
    simp only [hat, reduceCtorEq, if_false, hdir, Option.isSome_some, Option.some.injEq] at h
    subst h
    exact hi.keep hbeside rfl (.inl rfl) hrun (by simp) rfl
      ⟨hfetches, i, rfl, hdir, Dfs.sending_start _⟩ (.inr ⟨rfl, by rw [hat]; rfl⟩)
  | sending ino t =>
    have hrun : ∀ status sent, s.pc k ≠ .returned status sent := by simp [hat]
    have hreads : (s.pc k).reads = false := by rw [hat]; rfl
    rw [hat] at hstands
    obtain ⟨-, i, rfl, hdir, hs⟩ := hstands
    simp only [hat] at h
    cases hhead : t.head with
    | some r =>
      obtain ⟨status, sent⟩ := r
      simp only [hhead, Option.some.injEq] at h
      subst h
      unfold Sender.head at hhead
      split_ifs at hhead with hlt
      obtain ⟨rfl, rfl⟩ := Prod.mk.inj (Option.some.inj hhead)
      have hread := hi.settled_at hbeside hreads
      have hafter := hread.symm.trans (Disk.read_of_dir hdir)
      have hanswer : c.answer (c.after s.returned) k = (.ok, s.disk.data i) := by
        simp [Config.answer, htask, hafter]
      exact hi.done hbeside rfl (.inl rfl) hrun (by rw [hanswer])
        (fun hfits => by
          rw [hanswer]
          exact hs.whole (not_lt.mp hlt) (hfits filepath _ htask hafter)) rfl
        (hread.trans (congrFun hserve _).symm)
    | none =>
      simp only [hhead, Dfs.fetchBody, Option.map_some, Option.getD_some, Option.some.injEq] at h
      subst h
      exact hi.keep hbeside rfl (.inl rfl) hrun (by simp) rfl
        ⟨hfetches, i, rfl, hdir, (hs.chunk hhead).1⟩ (.inr ⟨rfl, hreads⟩)
  | reading stream rest => simp [hat] at h
  | removing => simp [hat] at h
  | returned status sent => simp [hat] at h

/-- A store under way has handed on the front of what it stores. -/
theorem Serial.flushed (hi : Serial s) {stream : File} {rest : List Bytes}
    (hat : s.pc k = .reading (some stream) rest) (n : ℕ) : ∃ filename messages,
      c.task k = .store filename messages
        ∧ s.disk.OnlyAt (c.file k) (stream.flush n s.disk).2
        ∧ (stream.flush n s.disk).2.dir (c.file k) = some stream.ino
        ∧ ∃ content, (stream.flush n s.disk).2.read (c.file k) = some content
          ∧ content ++ stream.pending.drop n ++ rest.flatten = messages.flatten
          ∧ (stream.flush n s.disk).1.pos = content.length := by
  have hstands := hi.stands k
  rw [hat] at hstands
  obtain ⟨_, filename, messages, hs, htask, hdir, hall, hpos⟩ := hstands
  obtain rfl := Option.some.inj hs
  refine ⟨filename, messages, htask, Buffered.onlyAt_flush
    (fun other hother => s.disk.dir_injective hother hdir) n, hdir, _,
    Buffered.read_flush n hdir (Disk.read_of_dir hdir) hpos.symm, ?_, ?_⟩
  · rw [← hall]
    simp
  · rw [List.length_append, ← hpos]
    rfl

theorem Serial.storeFile (hi : Serial s) (hbeside : s.Beside k)
    (htask : c.task k = .store filename messages) (h : storeFile messages k .goes s = some s') :
    Serial s' := by
  have hfetches : (c.task k).fetches = false := by rw [htask]; rfl
  unfold Calls.storeFile at h
  cases hat : s.pc k with
  | start =>
    have hrun : ∀ status sent, s.pc k ≠ .returned status sent := by simp [hat]
    simp only [hat, reduceCtorEq, if_false, Option.some.injEq] at h
    subst h
    have hdir : (s.disk.openWrite (c.file k)).2.dir (c.file k)
        = some (s.disk.openWrite (c.file k)).1 := Disk.dir_openWrite
    have hnil : (s.disk.openWrite (c.file k)).2.data (s.disk.openWrite (c.file k)).1 = [] :=
      Option.some.inj ((Disk.read_of_dir hdir).symm.trans Disk.read_openWrite)
    refine hi.keep hbeside rfl (.inr ⟨hfetches, Disk.onlyAt_openWrite⟩) hrun (by simp) rfl
      ⟨_, filename, messages, rfl, htask, hdir, ?_, ?_⟩ (.inl rfl)
    · change (s.disk.openWrite (c.file k)).2.data (s.disk.openWrite (c.file k)).1 ++ []
        ++ messages.flatten = messages.flatten
      rw [hnil, List.nil_append, List.nil_append]
    · change 0 = ((s.disk.openWrite (c.file k)).2.data (s.disk.openWrite (c.file k)).1).length
      rw [hnil, List.length_nil]
  | reading stream rest =>
    have hrun : ∀ status sent, s.pc k ≠ .returned status sent := by simp [hat]
    have hstands := hi.stands k
    rw [hat] at hstands
    obtain ⟨file, filename', messages', rfl, htask', hdir, hall, hpos⟩ := hstands
    simp only [hat] at h
    cases rest with
    | nil =>
      obtain rfl := Option.some.inj h
      obtain ⟨_, _, htask'', honly, -, content, hread, hcontent, -⟩ :=
        hi.flushed hat file.pending.length
      obtain ⟨-, rfl⟩ := Task.store.inj (htask.symm.trans htask'')
      have hanswer : c.answer (c.after s.returned) k = (.ok, []) := by
        simp [Config.answer, htask]
      refine hi.done hbeside rfl (.inr ⟨hfetches, honly⟩) hrun (by rw [hanswer])
        (fun _ => by rw [hanswer]; rfl) rfl (hread.trans ?_)
      obtain rfl : content = messages.flatten := by simpa using hcontent
      simp [Config.serve, htask]
    | cons m ms =>
      obtain rfl := Option.some.inj h
      exact hi.keep hbeside rfl (.inl rfl) hrun (by simp) rfl
        ⟨_, filename', messages', rfl, htask', hdir, show s.disk.data file.ino
          ++ (file.pending ++ m) ++ ms.flatten = _ by simpa using hall, hpos⟩ (.inl rfl)
  | stated stSize => simp [hat] at h
  | sending ino t => simp [hat] at h
  | removing => simp [hat] at h
  | returned status sent => simp [hat] at h

theorem Serial.deleteFile (hi : Serial s) (hbeside : s.Beside k)
    (htask : c.task k = .delete filepath) (h : deleteFile k .goes s = some s') : Serial s' := by
  have hfetches : (c.task k).fetches = false := by rw [htask]; rfl
  have hserve : c.serve (c.after s.returned) k (c.file k) = none := by
    simp [Config.serve, htask]
  unfold Calls.deleteFile at h
  cases hat : s.pc k with
  | start =>
    have hrun : ∀ status sent, s.pc k ≠ .returned status sent := by simp [hat]
    have hreads : (s.pc k).reads = false := by rw [hat]; rfl
    simp only [hat, reduceCtorEq, if_false] at h
    cases hcontent : s.disk.read (c.file k) with
    | none =>
      simp only [hcontent, Option.some.injEq] at h
      exact h ▸ hi.notFound hbeside hat (by simp [htask]) hcontent
    | some content =>
      simp only [hcontent, Option.some.injEq] at h
      subst h
      exact hi.keep hbeside rfl (.inl rfl) hrun (by simp) rfl
        ⟨⟨filepath, htask⟩, show (s.disk.read (c.file k)).isSome = true by rw [hcontent]; rfl⟩
        (.inr ⟨rfl, hreads⟩)
  | removing =>
    have hrun : ∀ status sent, s.pc k ≠ .returned status sent := by simp [hat]
    have hread := hi.settled_at hbeside (by rw [hat]; rfl)
    have hstands := hi.stands k
    rw [hat] at hstands
    obtain ⟨content, hcontent⟩ := Option.isSome_iff_exists.mp hstands.2
    obtain ⟨i, hdir, -⟩ := Option.map_eq_some_iff.mp hcontent
    simp only [hat, hdir, Option.isSome_some, and_self, if_true, Option.some.injEq] at h
    subst h
    have hanswer : c.answer (c.after s.returned) k = (.ok, []) := by
      simp [Config.answer, htask, ← hread, hcontent]
    exact hi.done hbeside rfl (.inr ⟨hfetches, Disk.onlyAt_unlink⟩) hrun (by rw [hanswer])
      (fun _ => by rw [hanswer]; rfl) rfl (Disk.read_unlink.trans hserve.symm)
  | reading stream rest => simp [hat] at h
  | stated stSize => simp [hat] at h
  | sending ino t => simp [hat] at h
  | returned status sent => simp [hat] at h

theorem Serial.next (hi : Serial s) {e : Event c} (halone : Alone s e)
    (h : step c e s = some s') : Serial s' := by
  unfold step at h
  cases e with
  | run k turn =>
    obtain ⟨rfl, hbeside⟩ := halone
    simp only at h
    cases htask : c.task k with
    | store filename messages => exact hi.storeFile hbeside htask (by simpa [htask] using h)
    | fetch filepath => exact hi.fetchFile hbeside htask (by simpa [htask] using h)
    | delete filepath => exact hi.deleteFile hbeside htask (by simpa [htask] using h)
  | flush k n =>
    simp only at h
    split at h
    · rename_i stream rest hat
      obtain rfl := Option.some.inj h
      obtain ⟨filename, messages, htask, honly, hdir, content, hread, hcontent, hpos⟩ :=
        hi.flushed hat n
      obtain rfl : (stream.flush n s.disk).2.data stream.ino = content :=
        Option.some.inj ((Disk.read_of_dir hdir).symm.trans hread)
      exact hi.keep (hi.beside (by rw [hat]; rfl)) rfl (.inr ⟨by rw [htask]; rfl, honly⟩)
        (by simp [hat]) (by simp) rfl
        ⟨_, filename, messages, rfl, htask, hdir, hcontent, hpos⟩ (.inl rfl)
    · cases h
  | lose k => cases halone

theorem Serial.reach (h : Trans.Reach (step c) Alone (State.init c) s) : Serial s :=
  h.invariant (serial_init c) fun _ _ _ hi halone hstep => hi.next halone hstep

/-- Over every interleaving in which a call that stores or deletes has its file to itself and no
call of the system fails, the service is one that serves its calls one at a time, in the order in
which they return: each call has the answer that it has then, and each file that is not being
stored holds what it holds then. -/
theorem calls_serial (hsmall : c.Small) (h : Trans.Reach (step c) Alone (State.init c) s) :
    (∀ ks k ks', s.returned = ks ++ k :: ks' → ∃ sent,
        s.pc k = .returned (c.answer (c.after ks) k).1 sent
          ∧ sent.flatten = (c.answer (c.after ks) k).2)
      ∧ s.returned.Nodup ∧ (∀ k, k ∈ s.returned ↔ ∃ status sent, s.pc k = .returned status sent)
      ∧ ∀ file, (∀ k, c.file k = file → (s.pc k).reads = false) →
        s.disk.read file = c.after s.returned file := by
  have hi := Serial.reach h
  refine ⟨fun ks k ks' hsplit => ?_, hi.nodup, fun k => ⟨fun hmem => ?_,
    fun ⟨status, sent, hat⟩ => hi.returned k status sent hat⟩, hi.settled⟩
  · obtain ⟨sent, hat, hsent⟩ := hi.answered ks k ks' hsplit
    exact ⟨sent, hat, hsent (hsmall.fits ks k)⟩
  · obtain ⟨ks, ks', hsplit⟩ := List.append_of_mem hmem
    obtain ⟨sent, hat, -⟩ := hi.answered ks k ks' hsplit
    exact ⟨_, sent, hat⟩

/-- The answers are those of the calls one after the other, with the fetch last. -/
theorem calls_serial_fetched : ∃ s : State fourCalls,
    s.returned = [0, 3, 1, 2].map fourCalls.call
      ∧ (∃ sent, s.pc (fourCalls.call 2) = .returned .ok sent ∧ sent.flatten = ascii "c")
      ∧ s.disk.read (ascii "m/f") = some (ascii "c") := by
  have hrun : ((Trans.exec (step fourCalls) (fun s e => decide (Alone s e))
      ([0, 0].map fourCalls.goes ++ [.flush (fourCalls.call 0) 1]
        ++ [0, 0, 3, 3, 1, 1, 1, 2, 2, 2, 2].map fourCalls.goes) (State.init fourCalls)).any
      fun s => decide (s.returned = [0, 3, 1, 2].map fourCalls.call
        ∧ ∀ k, (s.pc k).reads = false)) = true := by
    decide +kernel
  obtain ⟨s, hs, hat⟩ := (Option.any_eq_true _ _).mp hrun
  obtain ⟨hreturned, hreads⟩ := of_decide_eq_true hat
  have hsmall : fourCalls.Small := by
    refine ⟨(fun file content h => by cases h), fun k filename messages h => ?_⟩
    obtain ⟨k, hk⟩ := k
    change k < 4 at hk
    interval_cases k
    · obtain ⟨-, rfl⟩ := Task.store.inj h
      decide
    · obtain ⟨-, rfl⟩ := Task.store.inj h
      decide
    · cases h
    · cases h
  obtain ⟨hanswered, -, -, hsettled⟩ := calls_serial hsmall
    (.exec (fun _ _ he => of_decide_eq_true he) _ .refl hs)
  have hanswer : fourCalls.answer (fourCalls.after ([0, 3, 1].map fourCalls.call))
      (fourCalls.call 2) = (.ok, ascii "c") := by
    decide +kernel
  have hfetched := hanswered ([0, 3, 1].map fourCalls.call) (fourCalls.call 2) [] hreturned
  rw [hanswer] at hfetched
  refine ⟨s, hreturned, hfetched, ?_⟩
  rw [hsettled _ fun k _ => hreads k, hreturned]
  decide +kernel

end FileServices.Calls
