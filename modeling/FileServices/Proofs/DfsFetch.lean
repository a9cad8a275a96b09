import FileServices.Proofs.DfsService

/-!
# The file a fetch leaves

`Fetch` opens its file when the first message comes in, and `fetchFile` sends none for an empty
file.  What the client had under the name then stays.
-/

namespace FileServices.Dfs

open CString

variable {server client : Host} {filename : Bytes} {file : File}

/-- `fetchFile` ends, `Fetch` returns OK, and the client's file has the server's content just when
that content is not empty or the client's file was empty already. -/
theorem fetch_reproduces_iff (hfile : server.file (server.wrapPath filename) = some file)
    (hlt : file.content.length < 2 ^ 31) (now : ℤ) :
    ∃ sent, (∀ k ≥ file.content.length,
        fetchFile server filename true (List.replicate k .goes) = .stop (.ok, sent))
      ∧ let r := fetch now client filename (sent.map fun m => some (.whole m)) .ok
        r.2 = .ok ∧ ((r.1.file (client.wrapPath filename)).map File.content = some file.content
          ↔ file.content ≠ []
            ∨ (client.file (client.wrapPath filename)).map File.content = some []) := by
  obtain ⟨sent, hsent, hne, hrun⟩ := fetchFile_file hfile
  obtain ⟨hcode, hnil, hcons, -⟩ := fetch_whole now client filename sent .ok
  refine ⟨sent, hrun, hcode, ?_⟩
  have hempty := flatten_eq_nil_iff hne
  rw [hsent hlt] at hempty
  by_cases hms : sent = []
  · simp [hnil hms, hempty.mpr hms]
  · rw [hcons hms, hsent hlt]
    exact iff_of_true rfl (.inl fun he => hms (hempty.mp he))

theorem fetch_reproduces_iff_hi :
    let server : Host := ⟨ascii "s/", fun _ => some ⟨ascii "hi", 0⟩, fun _ => none⟩
    let client : Host := ⟨ascii "c/", fun _ => none, fun _ => none⟩
    ∃ sent, (∀ k ≥ (ascii "hi").length,
        fetchFile server (ascii "f") true (List.replicate k .goes) = .stop (.ok, sent))
      ∧ let r := fetch 1 client (ascii "f") (sent.map fun m => some (.whole m)) .ok
        r.2 = .ok ∧ ((r.1.file (client.wrapPath (ascii "f"))).map File.content = some (ascii "hi")
          ↔ ascii "hi" ≠ []
            ∨ (client.file (client.wrapPath (ascii "f"))).map File.content = some []) :=
  @fetch_reproduces_iff _ _ _ ⟨ascii "hi", 0⟩ rfl (by decide) 1

/-- An empty file of the server, fetched over an older file and over none. -/
theorem fetch_keeps_stale :
    let server : Host := ⟨ascii "s/", fun _ => some ⟨[], 0⟩, fun _ => none⟩
    let stale : Host := ⟨ascii "c/", fun _ => some ⟨ascii "old", 0⟩, fun _ => none⟩
    let absent : Host := ⟨ascii "c/", fun _ => none, fun _ => none⟩
    fetchFile server (ascii "f") true [] = .stop (.ok, [])
      ∧ (fetch 1 stale (ascii "f") [] .ok).2 = .ok
      ∧ ((fetch 1 stale (ascii "f") [] .ok).1.file (ascii "c/f")).map File.content
        = some (ascii "old")
      ∧ (fetch 1 absent (ascii "f") [] .ok).2 = .ok
      ∧ ((fetch 1 absent (ascii "f") [] .ok).1.file (ascii "c/f")).map File.content = none := by
  decide

end FileServices.Dfs
