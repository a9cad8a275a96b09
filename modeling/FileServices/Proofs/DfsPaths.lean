import FileServices.DfsPaths
import FileServices.Proofs.DfsTransfer

/-!
# Which names stay inside the mount directory

The server puts the mount path before a name and checks nothing, so whether a request stays inside
the mount directory is up to the name.
-/

namespace FileServices.Dfs

open CString Path

variable {h : Host} {filename mountPath path : Bytes} {req : FileRequest} {call : SystemCall}
  {now : ℤ}

theorem IsMount.cstr_append (hm : IsMount mountPath) (filename : Bytes) :
    cstr (mountPath ++ filename) = mountPath ++ cstr filename :=
  List.takeWhile_append_of_pos (by simpa using hm.no_null)

theorem path_of_mem_calls (hcall : call ∈ req.calls h) :
    call.path = cstr (h.wrapPath req.filename) := by
  cases req with
  | fetchFile filepath =>
    simp only [FileRequest.calls] at hcall
    split_ifs at hcall
    · obtain rfl := List.mem_singleton.mp hcall
      rfl
    · rcases List.mem_pair.mp hcall with rfl | rfl <;> rfl
  | storeFile filename opens recvs =>
    obtain rfl := List.mem_singleton.mp hcall
    rfl
  | getFileAttrs filename isCancelled =>
    simp only [FileRequest.calls] at hcall
    split_ifs at hcall
    · simp at hcall
    · obtain rfl := List.mem_singleton.mp hcall
      rfl
  | deleteFile filepath isCancelled removes =>
    simp only [FileRequest.calls] at hcall
    split_ifs at hcall
    · simp at hcall
    · obtain rfl := List.mem_singleton.mp hcall
      rfl
    · rcases List.mem_pair.mp hcall with rfl | rfl <;> rfl

theorem deleteFile_frame (h : Host) (filepath : Bytes) (isCancelled removes : Bool)
    (hp : path ≠ h.wrapPath filepath) :
    (deleteFile h filepath isCancelled removes).1.file path = h.file path := by
  unfold deleteFile
  split_ifs
  · rfl
  · split
    · rfl
    · exact h.put_file_of_ne _ hp
  · split <;> rfl

/-- A request changes at most the file at the path of its calls. -/
theorem serve_frame (hm : IsMount h.mountPath) (hp : path ≠ cstr (h.wrapPath req.filename)) :
    (req.serve now h).file path = h.file path := by
  rw [Host.wrapPath, hm.cstr_append] at hp
  cases req with
  | fetchFile filepath => rfl
  | storeFile filename opens recvs =>
    refine storeFile_frame now h (filename.map cstr) opens recvs ?_
    rcases filename with _ | filename
    · exact hp
    · exact hp
  | getFileAttrs filename isCancelled => rfl
  | deleteFile filepath isCancelled removes =>
    exact deleteFile_frame h (cstr filepath) isCancelled removes hp

/-- The name is walked from the mount directory. -/
theorem inMount_iff (hm : IsMount mountPath) : InMount mountPath (cstr (mountPath ++ filename)) ↔
    ((resolve mountPath).walk (components (cstr filename))).StrictlyBelow (resolve mountPath) := by
  obtain ⟨dir, rfl⟩ := hm.slash
  rw [hm.cstr_append, InMount, List.append_assoc, List.singleton_append, resolve_append]

/-- Requests with a name stay inside every mount directory just where no `..` of the name climbs
above its start and it names something there. -/
theorem stays_inside_iff (filename : Bytes) : StaysBelow filename ↔
    ∀ (now : ℤ) (h : Host) (req : FileRequest), IsMount h.mountPath → req.filename = filename →
      (∀ call ∈ req.calls h, InMount h.mountPath call.path)
      ∧ ∀ path, ¬ InMount h.mountPath path → (req.serve now h).file path = h.file path := by
  constructor
  · rintro hs now h req hm rfl
    have hin := (inMount_iff hm).mpr (Place.strictlyBelow_walk hs _)
    refine ⟨fun call hcall => path_of_mem_calls hcall ▸ hin, fun path hpath => ?_⟩
    refine serve_frame hm ?_
    rintro rfl
    exact hpath hin
  · intro hall
    have hm : IsMount (ascii "./") := ⟨⟨ascii ".", by decide⟩, by decide⟩
    have hin := (hall 0 ⟨ascii "./", fun _ => none, fun _ => none⟩ (.getFileAttrs filename false) hm
      rfl).1 _ List.mem_cons_self
    have hstart : resolve (ascii "./") = Place.start := by decide
    have hwalk := (inMount_iff hm).mp hin
    rwa [hstart] at hwalk

/-- A client stores over a file outside the mount directory, and deletes it. -/
theorem mount_escaped :
    let h : Host := ⟨ascii "/mnt/", fun path =>
      if path = ascii "/mnt/../x" then some ⟨ascii "old", 0⟩ else none, fun _ => none⟩
    IsMount h.mountPath ∧ ¬ InMount h.mountPath (ascii "/mnt/../x")
      ∧ (FileRequest.storeFile (some (ascii "../x")) true []).calls h
        = [.openOut (ascii "/mnt/../x")]
      ∧ ((FileRequest.storeFile (some (ascii "../x")) true []).serve 1 h).file (ascii "/mnt/../x")
        = some ⟨[], 1⟩
      ∧ (FileRequest.deleteFile (ascii "../x") false true).calls h
        = [.stat (ascii "/mnt/../x"), .remove (ascii "/mnt/../x")]
      ∧ ((FileRequest.deleteFile (ascii "../x") false true).serve 1 h).file (ascii "/mnt/../x")
        = none := by
  refine ⟨⟨⟨ascii "/mnt", by decide⟩, by decide⟩, ?_, by decide, by decide, by decide, by decide⟩
  rintro ⟨-, -, n, ns, hnames⟩
  have hpath : (resolve (ascii "/mnt/../x")).names.length = 1 := by decide
  have hmount : (resolve (ascii "/mnt/")).names.length = 1 := by decide
  rw [hnames, List.length_append, hmount, List.length_cons] at hpath
  omega

end FileServices.Dfs
