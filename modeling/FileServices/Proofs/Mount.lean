import FileServices.Mount

/-!
# The server follows the mounted directories

Of a file that has been changed, either the server has what the client has, or the last call that
is still to come for it will see to that (`Follows`).  So where a client is idle, the server has its
files as they are (`mount_follows`), and the watchers come to that if they are left alone
(`mount_settles`).  A `Store` of a file that is changed meanwhile may send anything, but then there
is a call for that change behind it.
-/

namespace FileServices.Mount

open CString
open Inotify (Record Watch InotifyWatcher encode eventFlags inCreate inModify inDelete)
open Dfs (Name Host World)

/-! ### The calls still to come -/

/-- What a call says of its file: that it is there, or that it is not. -/
def callNote : Inotify.Call → Bytes × Bool
  | .store filename => (filename, true)
  | .delete filename => (filename, false)

/-- What some calls say of one file. -/
def notes (filename : Bytes) (calls : List Inotify.Call) : List Bool :=
  ((calls.map callNote).filter fun n => n.1 = filename).map Prod.snd

theorem notes_append (filename : Bytes) (calls calls' : List Inotify.Call) :
    notes filename (calls ++ calls') = notes filename calls ++ notes filename calls' := by
  simp [notes]

theorem notes_cons_self (call : Inotify.Call) (calls : List Inotify.Call) :
    notes (callNote call).1 (call :: calls)
      = (callNote call).2 :: notes (callNote call).1 calls := by
  simp [notes]

theorem notes_cons_of_ne {filename : Bytes} {call : Inotify.Call} (h : (callNote call).1 ≠ filename)
    (calls : List Inotify.Call) : notes filename (call :: calls) = notes filename calls := by
  simp [notes, h]

/-- The server has what the client has, or the last note agrees with the client. -/
def Follows (client server : Option Bytes) (notes : List Bool) : Prop :=
  match notes.getLast? with
  | none => server = client
  | some note => note = client.isSome

theorem Follows.concat (client server : Option Bytes) (notes : List Bool) :
    Follows client server (notes ++ [client.isSome]) := by
  simp [Follows]

/-- What a call does to its file on the server. -/
def followed (client server : Option Bytes) (note : Bool) : Option Bytes :=
  if note then client.or server else none

/-- The first call may do anything if another one is to come. -/
theorem Follows.tail {client server server' : Option Bytes} {note : Bool} {notes : List Bool}
    (h : Follows client server (note :: notes))
    (hserver : notes = [] → server' = followed client server note) :
    Follows client server' notes := by
  cases notes with
  | nil =>
    have hnote : note = client.isSome := h
    subst hnote
    rw [Follows, hserver rfl]
    cases client with
    | none => rfl
    | some content => rfl
  | cons note' notes =>
    unfold Follows at h ⊢
    rwa [List.getLast?_cons_cons] at h

/-! ### The events of a change -/

variable {node : Node} {nclients : ℕ} {owner : Name → Fin nclients}

def Change.call (name : Name) : Change → Inotify.Call
  | .create | .modify _ => .store name.bytes
  | .remove => .delete name.bytes

theorem eventFlags_mask (change : Change) : eventFlags &&& change.mask ≠ 0 := by
  cases change with
  | create | remove => decide
  | modify content =>
    rw [Change.mask]
    decide

theorem Change.calls (change : Change) {name : Name} {r : Record} (hname : r.name = name.bytes)
    (hmask : r.mask = change.mask) :
    r.calls = if Reported name then [change.call name] else [] := by
  have hseen : r.Seen ↔ Reported name := by
    unfold Record.Seen Reported
    rw [hname, hmask, and_iff_right (eventFlags_mask change)]
  unfold Record.calls
  rw [hname, hmask]
  by_cases hreported : Reported name
  · rw [if_pos (hseen.mpr hreported), if_pos hreported]
    cases change with
    | create | remove => rfl
    | modify content =>
      rw [Change.mask]
      rfl
  · rw [if_neg (mt hseen.mp hreported), if_neg hreported]

theorem record_named {name : Name} {r : Record} (hname : r.name = name.bytes) : r.Named where
  noSlash := hname ▸ name.no_slash
  oneLine := by
    rw [hname]
    refine ⟨fun h => ?_, fun h => ?_⟩
    · exact absurd (name.printable _ h).1 (by decide)
    · exact absurd (name.printable _ h).1 (by decide)
  named := fun _ => hname ▸ name.ne_nil

/-- A change leaves the other files alone, and its call says whether its own is there. -/
theorem Change.apply_map {change : Change} {now : ℤ} {name : Name} {h host : Host}
    (happly : change.apply now name h = some host) :
    host.mountPath = h.mountPath ∧ (∀ n ≠ name, host.map n = h.map n)
      ∧ (callNote (change.call name)).2 = (host.map name).isSome := by
  have hput : ∀ file, (h.put (h.wrapPath name.bytes) file).map
      = Function.update h.map name (file.map Dfs.File.content) := fun file =>
    Host.map_update rfl (by rw [Host.put_file]) fun p hp => h.put_file_of_ne _ hp
  unfold Change.apply at happly
  cases change with
  | create =>
    cases hfile : h.file (h.wrapPath name.bytes) with
    | some file => simp [hfile] at happly
    | none =>
      simp only [hfile, Option.some.injEq] at happly
      subst happly
      refine ⟨rfl, fun n hn => ?_, ?_⟩
      · rw [hput, Function.update_of_ne hn]
      · rw [hput, Function.update_self]
        rfl
  | modify content =>
    cases hfile : h.file (h.wrapPath name.bytes) with
    | none => simp [hfile] at happly
    | some file =>
      simp only [hfile, Option.some.injEq] at happly
      subst happly
      refine ⟨rfl, fun n hn => ?_, ?_⟩
      · rw [hput, Function.update_of_ne hn]
      · rw [hput, Function.update_self]
        rfl
  | remove =>
    cases hfile : h.file (h.wrapPath name.bytes) with
    | none => simp [hfile] at happly
    | some file =>
      simp only [hfile, Option.some.injEq] at happly
      subst happly
      refine ⟨rfl, fun n hn => ?_, ?_⟩
      · rw [hput, Function.update_of_ne hn]
      · rw [hput, Function.update_self]
        rfl

/-! ### The invariant -/

def Client.pending (c : Client) : List Inotify.Call := c.calls ++ c.unread.flatMap Record.calls

/-- An event adds its calls at the end, or is one with the event there. -/
theorem Queued.notes {c : Client} {r : Record} {unread : List Record}
    (h : Queued c.unread r unread) (filename : Bytes) :
    ∃ before, notes filename (Client.pending { c with unread })
        = before ++ notes filename r.calls
      ∧ (notes filename r.calls = [] → before = notes filename c.pending) := by
  rcases h with rfl | ⟨hlast, rfl⟩
  · refine ⟨Mount.notes filename c.pending, ?_, fun _ => rfl⟩
    simp [Client.pending, notes_append]
  · obtain ⟨unread, hunread⟩ := List.getLast?_eq_some_iff.mp hlast
    refine ⟨Mount.notes filename (c.calls ++ unread.flatMap Record.calls), ?_, fun hnil => ?_⟩
    · simp [Client.pending, notes_append, hunread]
    · simp [Client.pending, notes_append, hunread, hnil]

/-- Where the system is with the file of a name. -/
def Stage (owner : Name → Fin nclients) (s₀ s : System node nclients) (name : Name) : Prop :=
  let c := s.client (owner name)
  if name ∈ c.changed then
    Follows (c.host.map name) (node.files s.server name) (notes name.bytes c.pending)
  else notes name.bytes c.pending = [] ∧ node.files s.server name = node.files s₀.server name

/-- The `Store` that has begun is of a file that has not been changed since, or there is a call for
the change to come. -/
def Client.Storing (node : Node) (c : Client) : Prop := ∀ hs, c.storing = some hs →
  ∃ h rest name calls, hs = h :: rest ∧ c.calls = .store name.bytes :: calls ∧ node.Stores h name
    ∧ (notes name.bytes (Client.pending { c with calls }) = [] →
      ∀ h' ∈ hs, h'.map name = c.host.map name)

structure Inv (owner : Name → Fin nclients) (s₀ s : System node nclients) : Prop where
  mount : ∀ i, (s.client i).host.mountPath = (s₀.client i).host.mountPath
  named : ∀ i, ∀ r ∈ (s.client i).unread, r.Named ∧ r.bytes.length ≤ Inotify.readMax
  pending : ∀ i, ∀ call ∈ (s.client i).pending, ∃ name, Reported name ∧ owner name = i
    ∧ (callNote call).1 = name.bytes
  storing : ∀ i, (s.client i).Storing node
  stage : ∀ name, Reported name → Stage owner s₀ s name
  unreported : ∀ name, ¬ Reported name → node.files s.server name = node.files s₀.server name

variable {s₀ s s' : System node nclients} {i : Fin nclients}

theorem inv_start (h₀ : ∀ i, (s₀.client i).Fresh) : Inv owner s₀ s₀ where
  mount := fun i => rfl
  named := fun i r hr => by
    rw [(h₀ i).idle.1] at hr
    cases hr
  pending := fun i call hcall => by
    rw [Client.pending, (h₀ i).idle.1, (h₀ i).idle.2] at hcall
    cases hcall
  storing := fun i hs hstoring => by
    rw [(h₀ i).storing] at hstoring
    cases hstoring
  stage := fun name _ => by
    unfold Stage
    rw [if_neg (by simp [(h₀ _).changed])]
    refine ⟨?_, rfl⟩
    rw [Client.pending, (h₀ _).idle.1, (h₀ _).idle.2]
    rfl
  unreported := fun name _ => rfl

/-! ### Steps -/

@[simp] theorem System.put_client (s : System node nclients) (i : Fin nclients) (c : Client) :
    (s.put i c).client = Function.update s.client i c := rfl

@[simp] theorem System.put_server (s : System node nclients) (i : Fin nclients) (c : Client) :
    (s.put i c).server = s.server := rfl

/-- A step of another client that leaves the file alone. -/
theorem Stage.frame {name : Name} (hstage : Stage owner s₀ s name)
    (hclient : s'.client (owner name) = s.client (owner name))
    (hfiles : node.files s'.server name = node.files s.server name) :
    Stage owner s₀ s' name := by
  unfold Stage at hstage ⊢
  rwa [hclient, hfiles]

theorem Name.bytes_ne {a b : Name} (h : a ≠ b) : a.bytes ≠ b.bytes := fun hb => h (Name.ext hb)

theorem notes_call_self (change : Change) (name : Name) :
    notes name.bytes [change.call name] = [(callNote (change.call name)).2] := by
  cases change <;> simp [notes, Change.call, callNote]

theorem notes_call_of_ne (change : Change) {name n : Name} (hn : n ≠ name) :
    notes n.bytes [change.call name] = [] := by
  cases change <;> simp [notes, Change.call, callNote, (Name.bytes_ne hn).symm]

theorem callNote_call (change : Change) (name : Name) :
    (callNote (change.call name)).1 = name.bytes := by
  cases change <;> rfl

/-- The calls of a queue with a further event. -/
theorem Queued.mem_pending {c : Client} {r : Record} {unread : List Record}
    (h : Queued c.unread r unread) {call : Inotify.Call}
    (hcall : call ∈ Client.pending { c with unread }) : call ∈ c.pending ∨ call ∈ r.calls := by
  rcases h with rfl | ⟨-, rfl⟩
  · simp only [Client.pending, List.flatMap_append, List.flatMap_singleton,
      List.mem_append] at hcall ⊢
    tauto
  · exact .inl hcall

theorem Queued.mem {unread unread' : List Record} {r r' : Record} (h : Queued unread r unread')
    (hr : r' ∈ unread') : r' ∈ unread ∨ r' = r := by
  rcases h with rfl | ⟨-, rfl⟩
  · simpa using hr
  · exact .inl hr

theorem Inv.storing_none (hinv : Inv owner s₀ s) (i : Fin nclients)
    (hcalls : ∀ (name : Name) calls, (s.client i).calls ≠ .store name.bytes :: calls) :
    (s.client i).storing = none := by
  rcases hnone : (s.client i).storing with _ | hs
  · rfl
  · obtain ⟨-, -, name, calls, -, hstore, -⟩ := hinv.storing i hs hnone
    exact absurd hstore (hcalls name calls)

theorem Inv.store_reported (hinv : Inv owner s₀ s) {name : Name} {calls : List Inotify.Call}
    (hcalls : (s.client i).calls = .store name.bytes :: calls) : Reported name := by
  obtain ⟨n, hreported, -, hnote⟩ := hinv.pending i (.store name.bytes)
    (by simp [Client.pending, hcalls])
  exact Name.ext hnote ▸ hreported

/-- What a change does to the `Store` that has begun. -/
theorem Client.Storing.change {c : Client} {change : Change} {now : ℤ} {name : Name} {host : Host}
    {r : Record} {unread : List Record} (h : c.Storing node)
    (hreported : ∀ n calls, c.calls = .store n.bytes :: calls → Reported n)
    (happly : change.apply now name c.host = some host) (hname : r.name = name.bytes)
    (hmask : r.mask = change.mask) (hqueued : Queued c.unread r unread) :
    Client.Storing node { c with
      host, unread
      storing := c.storing.map (· ++ [host])
      changed := name :: c.changed } := by
  intro hs hstoring
  obtain ⟨hs, hold, rfl⟩ := Option.map_eq_some_iff.mp hstoring
  obtain ⟨h', rest, n, calls, rfl, hcalls, hstores, hsame⟩ := h hs hold
  refine ⟨h', rest ++ [host], n, calls, rfl, hcalls, hstores, fun hnil h'' hmem => ?_⟩
  obtain ⟨before, hnotes, hbefore⟩ := @Queued.notes { c with calls } r unread hqueued n.bytes
  obtain ⟨hnone, hcall⟩ := List.append_eq_nil_iff.mp (hnotes.symm.trans hnil)
  have hne : n ≠ name := by
    rintro rfl
    rw [change.calls hname hmask, if_pos (hreported n calls hcalls), notes_call_self] at hcall
    cases hcall
  rw [(Change.apply_map happly).2.1 n hne]
  rcases List.mem_append.mp hmem with hmem | hmem
  · exact hsame (hbefore hcall ▸ hnone) h'' hmem
  · rw [List.mem_singleton.mp hmem, (Change.apply_map happly).2.1 n hne]

theorem inv_change {change : Change} {now : ℤ} {name : Name} {host : Host} {r : Record}
    {unread : List Record} (hinv : Inv owner s₀ s) (howner : Reported name → owner name = i)
    (happly : change.apply now name (s.client i).host = some host) (hname : r.name = name.bytes)
    (hmask : r.mask = change.mask) (hlen : r.bytes.length ≤ Inotify.readMax)
    (hqueued : Queued (s.client i).unread r unread) :
    Inv owner s₀ (s.put i { s.client i with
      host, unread
      storing := (s.client i).storing.map (· ++ [host])
      changed := name :: (s.client i).changed }) := by
  obtain ⟨hmount, hothers, hnote⟩ := Change.apply_map happly
  have hcalls := change.calls hname hmask
  refine ⟨fun j => ?_, fun j r' hr' => ?_, fun j call hcall => ?_, fun j => ?_, fun n hn => ?_,
    hinv.unreported⟩
  · by_cases hj : j = i
    · subst hj
      simpa using hmount.trans (hinv.mount j)
    · simpa [hj] using hinv.mount j
  · by_cases hj : j = i
    · subst hj
      rw [System.put_client, Function.update_self] at hr'
      rcases hqueued.mem hr' with hr' | rfl
      · exact hinv.named j r' hr'
      · exact ⟨record_named hname, hlen⟩
    · rw [System.put_client, Function.update_of_ne hj] at hr'
      exact hinv.named j r' hr'
  · by_cases hj : j = i
    · subst hj
      rw [System.put_client, Function.update_self] at hcall
      rcases hqueued.mem_pending hcall with hcall | hcall
      · exact hinv.pending j call hcall
      · rw [hcalls] at hcall
        split_ifs at hcall with hreported
        · obtain rfl := List.mem_singleton.mp hcall
          exact ⟨name, hreported, howner hreported, callNote_call change name⟩
        · cases hcall
    · rw [System.put_client, Function.update_of_ne hj] at hcall
      exact hinv.pending j call hcall
  · by_cases hj : j = i
    · subst hj
      rw [System.put_client, Function.update_self]
      exact (hinv.storing j).change (fun n calls hcalls => hinv.store_reported hcalls) happly hname
        hmask hqueued
    · rw [System.put_client, Function.update_of_ne hj]
      exact hinv.storing j
  · have hstage := hinv.stage n hn
    by_cases hj : owner n = i
    · obtain ⟨before, hnotes, hbefore⟩ := hqueued.notes n.bytes
      unfold Stage at hstage ⊢
      simp only [hj, System.put_client, Function.update_self, System.put_server] at hstage ⊢
      have hpending : notes n.bytes (Client.pending { s.client i with
          host, unread
          storing := (s.client i).storing.map (· ++ [host])
          changed := name :: (s.client i).changed })
          = before ++ notes n.bytes r.calls := hnotes
      rw [hpending]
      by_cases hname' : n = name
      · -- Its own file: the call for the change is the last one.
        subst hname'
        rw [if_pos List.mem_cons_self, hcalls, if_pos hn, notes_call_self, hnote]
        exact Follows.concat _ _ before
      · have hnil : notes n.bytes r.calls = [] := by
          rw [hcalls]
          split_ifs
          · exact notes_call_of_ne change hname'
          · rfl
        rw [hnil, List.append_nil, hbefore hnil, hothers n hname']
        simpa [hname'] using hstage
    · exact hstage.frame (by rw [System.put_client, Function.update_of_ne hj]) rfl

/-- What a read takes from the queue goes to the calls. -/
theorem pending_read {c : Client} (count : ℕ) (hcalls : c.calls = []) :
    Client.pending { c with
      unread := c.unread.drop count, calls := (c.unread.take count).flatMap Record.calls }
      = c.pending := by
  unfold Client.pending
  rw [hcalls, List.nil_append]
  change (c.unread.take count).flatMap Record.calls ++ (c.unread.drop count).flatMap Record.calls
    = c.unread.flatMap Record.calls
  rw [← List.flatMap_append, List.take_append_drop]

theorem inv_read {count runs : ℕ} {stale : Bytes} {watch : Watch} (hinv : Inv owner s₀ s)
    (h₀ : ∀ i, (s₀.client i).Fresh) (hcalls : (s.client i).calls = []) (hruns : 0 < runs)
    (hlen : (encode ((s.client i).unread.take count)).length ≤ Inotify.readMax)
    (hwatch : InotifyWatcher Inotify.eventSizeof eventFlags (s.client i).host.mountPath
      (encode ((s.client i).unread.take count)).length
      (encode ((s.client i).unread.take count) ++ stale) runs watch) :
    Inv owner s₀ (s.put i { s.client i with
      unread := (s.client i).unread.drop count, calls := watch.calls }) := by
  have hturn := (Inotify.inotifyWatcher_iff ((s.client i).unread.take count) stale
    (s.client i).host.mountPath Inotify.eventSizeof runs rfl hruns
    (hinv.mount i ▸ (h₀ i).slash) (hinv.mount i ▸ (h₀ i).oneLine)
    (fun r hr => (hinv.named i r (List.mem_of_mem_take hr)).1) hlen).1
  obtain rfl := (hturn watch).mp hwatch
  have hpending := pending_read count hcalls
  refine ⟨fun j => ?_, fun j r hr => ?_, fun j call hcall => ?_, fun j => ?_, fun n hn => ?_,
    hinv.unreported⟩
  · by_cases hj : j = i
    · subst hj
      simpa using hinv.mount j
    · simpa [hj] using hinv.mount j
  · by_cases hj : j = i
    · subst hj
      rw [System.put_client, Function.update_self] at hr
      exact hinv.named j r (List.mem_of_mem_drop hr)
    · rw [System.put_client, Function.update_of_ne hj] at hr
      exact hinv.named j r hr
  · by_cases hj : j = i
    · subst hj
      rw [System.put_client, Function.update_self, hpending] at hcall
      exact hinv.pending j call hcall
    · rw [System.put_client, Function.update_of_ne hj] at hcall
      exact hinv.pending j call hcall
  · by_cases hj : j = i
    · subst hj
      intro hs hstoring
      rw [System.put_client, Function.update_self] at hstoring
      cases (hinv.storing_none j (by simp [hcalls])).symm.trans hstoring
    · rw [System.put_client, Function.update_of_ne hj]
      exact hinv.storing j
  · have hstage := hinv.stage n hn
    by_cases hj : owner n = i
    · unfold Stage at hstage ⊢
      simp only [hj, System.put_client, Function.update_self, System.put_server, hpending]
        at hstage ⊢
      exact hstage
    · exact hstage.frame (by rw [System.put_client, Function.update_of_ne hj]) rfl

/-- A call has returned that has changed its own file only, and that as it says where no other call
for it is to come. -/
theorem inv_returned {call : Inotify.Call} {calls : List Inotify.Call} {server : node.Server}
    (hinv : Inv owner s₀ s) (hcalls : (s.client i).calls = call :: calls) {name : Name}
    (hnote : (callNote call).1 = name.bytes)
    (hothers : ∀ n ≠ name, node.files server n = node.files s.server n)
    (hself : notes name.bytes (Client.pending { s.client i with calls }) = [] →
      node.files server name
        = followed ((s.client i).host.map name) (node.files s.server name) (callNote call).2) :
    Inv owner s₀ { s.put i { s.client i with calls, storing := none } with server } := by
  have hpending : (s.client i).pending
      = call :: Client.pending { s.client i with calls } := by
    simp [Client.pending, hcalls]
  obtain ⟨n, hreported, howner, hn⟩ := hinv.pending i call (by simp [hpending])
  obtain rfl : n = name := Name.ext (hn.symm.trans hnote)
  refine ⟨fun j => ?_, fun j r hr => ?_, fun j call' hcall' => ?_, fun j hs hstoring => ?_,
    fun n' hn' => ?_, fun n' hn' => ?_⟩
  · by_cases hj : j = i
    · subst hj
      simpa using hinv.mount j
    · simpa [hj] using hinv.mount j
  · by_cases hj : j = i
    · subst hj
      exact hinv.named j r (by simpa using hr)
    · exact hinv.named j r (by simpa [hj] using hr)
  · by_cases hj : j = i
    · subst hj
      refine hinv.pending j call' ?_
      rw [hpending]
      exact List.mem_cons_of_mem _ (by simpa [Client.pending] using hcall')
    · exact hinv.pending j call' (by simpa [hj] using hcall')
  · by_cases hj : j = i
    · subst hj
      simp at hstoring
    · have hclient : Function.update s.client i { s.client i with calls, storing := none } j
          = s.client j := Function.update_of_ne hj _ _
      simp only [System.put_client, hclient] at hstoring ⊢
      exact hinv.storing j hs hstoring
  · have hstage := hinv.stage n' hn'
    by_cases hname : n' = n
    · -- The file of the call.
      subst hname
      unfold Stage at hstage ⊢
      simp only [howner, System.put_client, Function.update_self, hpending] at hstage ⊢
      have hcons := notes_cons_self call (Client.pending { s.client i with calls })
      rw [hnote] at hcons
      rw [hcons] at hstage
      split_ifs at hstage ⊢ with hchanged
      · exact hstage.tail hself
      · exact hstage.1.elim
    · have hfiles := hothers n' hname
      by_cases hj : owner n' = i
      · unfold Stage at hstage ⊢
        simp only [hj, System.put_client, Function.update_self, hpending] at hstage ⊢
        rw [notes_cons_of_ne (hnote ▸ Name.bytes_ne (Ne.symm hname))] at hstage
        rw [hfiles]
        exact hstage
      · refine hstage.frame ?_ hfiles
        change Function.update s.client i _ (owner n') = _
        rw [Function.update_of_ne hj]
  · exact (hothers n' fun he => hn' (he ▸ hreported)).trans (hinv.unreported n' hn')

theorem inv_store {name : Name} {calls : List Inotify.Call} (hinv : Inv owner s₀ s)
    (hcalls : (s.client i).calls = .store name.bytes :: calls)
    (hstores : node.Stores (s.client i).host name) :
    Inv owner s₀ (s.put i { s.client i with storing := some [(s.client i).host] }) := by
  have hclient : ∀ j, ((s.put i { s.client i with
      storing := some [(s.client i).host] }).client j) = s.client j ∨ j = i := fun j => by
    by_cases hj : j = i
    · exact .inr hj
    · exact .inl (Function.update_of_ne hj _ _)
  refine ⟨fun j => ?_, fun j r hr => ?_, fun j call hcall => ?_, fun j => ?_, fun n hn => ?_,
    hinv.unreported⟩
  · rcases hclient j with hj | rfl
    · rw [hj]
      exact hinv.mount j
    · simpa using hinv.mount j
  · rcases hclient j with hj | rfl
    · rw [hj] at hr
      exact hinv.named j r hr
    · exact hinv.named j r (by simpa using hr)
  · rcases hclient j with hj | rfl
    · rw [hj] at hcall
      exact hinv.pending j call hcall
    · exact hinv.pending j call (by simpa [Client.pending] using hcall)
  · rcases hclient j with hj | rfl
    · rw [hj]
      exact hinv.storing j
    · intro hs hstoring
      rw [System.put_client, Function.update_self] at hstoring ⊢
      obtain rfl := Option.some.inj hstoring
      exact ⟨_, [], name, calls, rfl, hcalls, hstores, fun _ h' hmem => by
        rw [List.mem_singleton.mp hmem]⟩
  · have hstage := hinv.stage n hn
    rcases hclient (owner n) with hj | hj
    · exact hstage.frame hj rfl
    · unfold Stage at hstage ⊢
      simp only [hj, System.put_client, Function.update_self, System.put_server] at hstage ⊢
      exact hstage

theorem Inv.step {e : Event nclients} (hinv : Inv owner s₀ s) (h₀ : ∀ i, (s₀.client i).Fresh)
    (hok : Admissible owner s e) (hstep : Step e s s') : Inv owner s₀ s' := by
  cases hstep with
  | change happly hname hmask hlen hqueued =>
    exact inv_change hinv hok happly hname hmask hlen hqueued
  | read hcalls hcount hle hruns hlen hwatch => exact inv_read hinv h₀ hcalls hruns hlen hwatch
  | @delete _ i name calls hcalls =>
    have hstoring := hinv.storing_none i (by simp [hcalls])
    have hclient : ({ s.client i with calls } : Client)
        = { s.client i with calls, storing := none } := by
      rw [← hstoring]
    rw [hclient]
    refine inv_returned hinv hcalls rfl (fun n hn => ?_) fun _ => ?_
    · rw [node.files_delete, Function.update_of_ne hn]
    · rw [node.files_delete, Function.update_self]
      rfl
  | @store _ i name calls hcalls hstoring => exact inv_store hinv hcalls (hok name calls hcalls)
  | @stored _ i name calls hs server hcalls hstoring hserver =>
    obtain ⟨h, rest, n, calls', rfl, hcalls', hstores, hsame⟩ := hinv.storing i hs hstoring
    obtain ⟨hcall, rfl⟩ := List.cons.inj (hcalls.symm.trans hcalls')
    obtain rfl : name = n := Name.ext (Inotify.Call.store.inj hcall)
    refine inv_returned hinv hcalls rfl (node.stored_others hserver) fun hnil => ?_
    have hhost := hsame hnil h List.mem_cons_self
    rw [node.files_stored hstores (fun h' hmem => ?_) hserver, hhost]
    · cases (s.client i).host.map name with
      | none => rfl
      | some content => exact Function.update_self _ _ _
    · rw [hhost]
      exact hsame hnil h' (List.mem_cons_of_mem h hmem)

theorem Runs.inv (h : Runs owner s₀ s) (h₀ : ∀ i, (s₀.client i).Fresh) : Inv owner s₀ s := by
  induction h with
  | refl => exact inv_start h₀
  | tail _ hstep ih =>
    obtain ⟨e, hok, hstep⟩ := hstep
    exact ih.step h₀ hok hstep

/-- Of a file that a client has changed the server holds what the client does, and of the others
what it held at the start. -/
def Mirrored (owner : Name → Fin nclients) (s₀ s : System node nclients)
    (files : Name → Option Bytes) (name : Name) : Prop :=
  files name = if Reported name ∧ name ∈ (s.client (owner name)).changed
    then (s.client (owner name)).host.map name
    else node.files s₀.server name

theorem Inv.mirrored (hinv : Inv owner s₀ s) (name : Name)
    (hidle : (s.client (owner name)).Idle) :
    Mirrored owner s₀ s (node.files s.server) name := by
  unfold Mirrored
  by_cases hreported : Reported name
  · have hstage := hinv.stage name hreported
    simp only [Stage, Client.pending, hidle.1, hidle.2] at hstage
    by_cases hchanged : name ∈ (s.client (owner name)).changed
    · rw [if_pos hchanged] at hstage
      rw [if_pos ⟨hreported, hchanged⟩]
      exact hstage
    · rw [if_neg hchanged] at hstage
      rw [if_neg fun h => hchanged h.2]
      exact hstage.2
  · rw [if_neg fun h => hreported h.1]
    exact hinv.unreported name hreported

/-- What the watchers of a client have before them: an event has three calls at most, and a call is
a step or two. -/
def Client.work (c : Client) : ℕ :=
  7 * c.unread.length + 2 * c.calls.length + if c.storing.isNone then 1 else 0

def System.work (s : System node nclients) : ℕ := ∑ i, (s.client i).work

def Event.OfWatcher : Event nclients → Prop
  | .change _ _ _ => False
  | .read _ | .call _ | .stored _ => True

theorem length_calls_le (r : Record) : r.calls.length ≤ 3 := by
  unfold Record.calls
  split_ifs <;> simp

theorem System.work_update {c : Client} {server : node.Server} (h : c.work < (s.client i).work) :
    ({ s.put i c with server } : System node nclients).work < s.work := by
  unfold System.work
  refine Finset.sum_lt_sum (fun j _ => ?_) ⟨i, Finset.mem_univ i, ?_⟩
  · by_cases hj : j = i
    · subst hj
      simpa using h.le
    · simp [hj]
  · simpa using h

/-- Each step of a watcher leaves less to do. -/
theorem Inv.work_lt {e : Event nclients} (hinv : Inv owner s₀ s) (h₀ : ∀ i, (s₀.client i).Fresh)
    (he : e.OfWatcher) (hstep : Step e s s') : s'.work < s.work := by
  cases hstep with
  | change => exact he.elim
  | @read _ i count runs stale watch hcalls hcount hle hruns hlen hwatch =>
    have hturn := (Inotify.inotifyWatcher_iff ((s.client i).unread.take count) stale
      (s.client i).host.mountPath Inotify.eventSizeof runs rfl hruns
      (hinv.mount i ▸ (h₀ i).slash) (hinv.mount i ▸ (h₀ i).oneLine)
      (fun r hr => (hinv.named i r (List.mem_of_mem_take hr)).1) hlen).1
    obtain rfl := (hturn watch).mp hwatch
    refine System.work_update ?_
    have hthree : (((s.client i).unread.take count).flatMap Record.calls).length ≤ 3 * count := by
      rw [List.length_flatMap]
      refine (List.sum_le_card_nsmul _ 3 fun k hk => ?_).trans ?_
      · obtain ⟨r, -, rfl⟩ := List.mem_map.mp hk
        exact length_calls_le r
      · rw [List.length_map, List.length_take, smul_eq_mul]
        omega
    simp only [Client.work, hcalls, List.length_drop, List.length_nil]
    omega
  | @delete _ i name calls hcalls =>
    refine System.work_update ?_
    simp only [Client.work, hcalls, List.length_cons]
    omega
  | @store _ i name calls hcalls hstoring =>
    refine System.work_update ?_
    simp [Client.work, hstoring]
  | @stored _ i name calls hs server hcalls hstoring hserver =>
    refine System.work_update ?_
    simp only [Client.work, hcalls, hstoring, List.length_cons, Option.isNone_none,
      Option.isNone_some, Bool.false_eq_true, ↓reduceIte]
    omega

/-- The file of a `Store` that has begun has not been changed since. -/
def Client.Still (c : Client) : Prop := ∀ hs name calls, c.storing = some hs →
  c.calls = .store (Name.bytes name) :: calls → ∀ h ∈ hs, h.map name = c.host.map name

/-- A watcher with something to do can do it. -/
theorem Inv.watcher_step (hinv : Inv owner s₀ s) (h₀ : ∀ i, (s₀.client i).Fresh)
    (hstill : (s.client i).Still) (hidle : ¬ (s.client i).Idle) :
    ∃ e s', e.OfWatcher ∧ Step e s s' := by
  cases hcalls : (s.client i).calls with
  | cons call calls =>
    obtain ⟨name, -, -, hnote⟩ := hinv.pending i call (by simp [Client.pending, hcalls])
    cases call with
    | store filename =>
      obtain rfl : filename = name.bytes := hnote
      cases hstoring : (s.client i).storing with
      | none => exact ⟨.call i, _, trivial, .store hcalls hstoring⟩
      | some hs =>
        obtain ⟨h, rest, n, calls', rfl, hcalls', hstores, -⟩ := hinv.storing i hs hstoring
        obtain ⟨hcall, -⟩ := List.cons.inj (hcalls.symm.trans hcalls')
        obtain rfl : name = n := Name.ext (Inotify.Call.store.inj hcall)
        have hsame := hstill _ name calls hstoring hcalls
        obtain ⟨server, hserver⟩ := node.exists_stored s.server hstores fun h' hmem =>
          (hsame h' (List.mem_cons_of_mem h hmem)).trans (hsame h List.mem_cons_self).symm
        exact ⟨.stored i, _, trivial, .stored hcalls hstoring hserver⟩
    | delete filename =>
      obtain rfl : filename = name.bytes := hnote
      exact ⟨.call i, _, trivial, .delete hcalls⟩
  | nil =>
    have hunread : (s.client i).unread ≠ [] := fun h => hidle ⟨h, hcalls⟩
    have hone : (s.client i).unread.take 1 = [(s.client i).unread.head hunread] := by
      conv_lhs => rw [← List.cons_head_tail hunread]
      rfl
    have hr := hinv.named i _ (List.head_mem hunread)
    have hlen : (encode ((s.client i).unread.take 1)).length ≤ Inotify.readMax := by
      rw [hone]
      simpa [encode] using hr.2
    have hturn := (Inotify.inotifyWatcher_iff ((s.client i).unread.take 1) []
      (s.client i).host.mountPath Inotify.eventSizeof 1 rfl Nat.one_pos
      (hinv.mount i ▸ (h₀ i).slash) (hinv.mount i ▸ (h₀ i).oneLine)
      (fun r hr => (hinv.named i r (List.mem_of_mem_take hr)).1) hlen).1
    exact ⟨.read i, _, trivial, .read hcalls Nat.one_pos (List.length_pos_of_ne_nil hunread)
      Nat.one_pos hlen ((hturn _).mpr rfl)⟩

/-- What `n` steps of watchers lead to. -/
def Watches : ℕ → System node nclients → System node nclients → Prop
  | 0, s, s' => s' = s
  | n + 1, s, s' => ∃ e t, e.OfWatcher ∧ Step e s t ∧ Watches n t s'

/-- A watcher leaves the files of its client alone. -/
theorem Step.watcher_client {e : Event nclients} (he : e.OfWatcher) (hstep : Step e s s')
    (j : Fin nclients) : (s'.client j).host = (s.client j).host
      ∧ (s'.client j).changed = (s.client j).changed := by
  cases hstep with
  | change => exact he.elim
  | @read _ i =>
    by_cases hj : j = i
    · subst hj
      simp
    · simp [hj]
  | @delete _ i | @store _ i | @stored _ i =>
    by_cases hj : j = i
    · subst hj
      simp
    · simp [hj]

/-- Nor do the watchers have anything to do with what the users do while a file is stored. -/
theorem Inv.still {e : Event nclients} (hinv : Inv owner s₀ s) (he : e.OfWatcher)
    (hstep : Step e s s') (hstill : ∀ j, (s.client j).Still) (j : Fin nclients) :
    (s'.client j).Still := by
  cases hstep with
  | change => exact he.elim
  | @read _ i count runs stale watch hcalls =>
    have hnone := hinv.storing_none i (by simp [hcalls])
    by_cases hj : j = i
    · subst hj
      simp [Client.Still, hnone]
    · simpa [hj] using hstill j
  | @delete _ i name calls hcalls =>
    have hnone := hinv.storing_none i (by simp [hcalls])
    by_cases hj : j = i
    · subst hj
      simp [Client.Still, hnone]
    · simpa [hj] using hstill j
  | @store _ i =>
    by_cases hj : j = i
    · subst hj
      intro hs name calls hstoring _ h hmem
      rw [System.put_client, Function.update_self] at hstoring ⊢
      obtain rfl := Option.some.inj hstoring
      rw [List.mem_singleton.mp hmem]
    · simpa [hj] using hstill j
  | @stored _ i =>
    by_cases hj : j = i
    · subst hj
      simp [Client.Still]
    · simpa [hj] using hstill j

theorem Event.OfWatcher.admissible {e : Event nclients} (he : e.OfWatcher)
    (hstores : ∀ i name, node.Stores (s.client i).host name) : Admissible owner s e := by
  cases e with
  | change => exact he.elim
  | read i | stored i => trivial
  | call i => exact fun name _ _ => hstores i name

theorem Watches.spec (h₀ : ∀ i, (s₀.client i).Fresh) : ∀ {n : ℕ} {s : System node nclients},
    Runs owner s₀ s → (∀ i name, node.Stores (s.client i).host name) →
      (∀ i, (s.client i).Still) → Watches n s s' →
      Runs owner s₀ s' ∧ n + s'.work ≤ s.work ∧ ∀ i, (s'.client i).Still
        ∧ (s'.client i).host = (s.client i).host ∧ (s'.client i).changed = (s.client i).changed
  | 0, s, h, hstores, hstill, hw => by
    obtain rfl := hw
    exact ⟨h, by omega, fun i => ⟨hstill i, rfl, rfl⟩⟩
  | n + 1, s, h, hstores, hstill, ⟨e, t, he, hstep, hw⟩ => by
    have hlt := (h.inv h₀).work_lt h₀ he hstep
    have hclient := fun i => hstep.watcher_client he i
    obtain ⟨h', hle, hclient'⟩ := Watches.spec h₀
      (h.tail ⟨e, he.admissible hstores, hstep⟩)
      (fun i name => (hclient i).1 ▸ hstores i name) ((h.inv h₀).still he hstep hstill) hw
    refine ⟨h', by omega, fun i => ?_⟩
    obtain ⟨hstill', hhost, hchanged⟩ := hclient' i
    exact ⟨hstill', hhost.trans (hclient i).1, hchanged.trans (hclient i).2⟩

/-- No watcher can take a step. -/
def Settled (s : System node nclients) : Prop := ∀ e s', e.OfWatcher → ¬ Step e s s'

theorem Inv.idle_of_settled (hinv : Inv owner s₀ s) (h₀ : ∀ i, (s₀.client i).Fresh)
    (hs : Settled s) (i : Fin nclients) (hstill : (s.client i).Still) : (s.client i).Idle := by
  by_contra hidle
  obtain ⟨e, s', he, hstep⟩ := hinv.watcher_step h₀ hstill hidle
  exact hs e s' he hstep

theorem watches_settle (h₀ : ∀ i, (s₀.client i).Fresh) (h : Runs owner s₀ s)
    (hstores : ∀ i name, node.Stores (s.client i).host name)
    (hstill : ∀ i, (s.client i).Still) : ∃ n s', Watches n s s' ∧ Settled s' := by
  induction hwork : s.work using Nat.strong_induction_on generalizing s with
  | _ work ih =>
    by_cases hs : Settled s
    · exact ⟨0, s, rfl, hs⟩
    · unfold Settled at hs
      push Not at hs
      obtain ⟨e, t, he, hstep⟩ := hs
      have hlt := (h.inv h₀).work_lt h₀ he hstep
      obtain ⟨n, s', hw, hs'⟩ := ih t.work (hwork ▸ hlt)
        (h.tail ⟨e, he.admissible hstores, hstep⟩)
        (fun i name => (hstep.watcher_client he i).1 ▸ hstores i name)
        ((h.inv h₀).still he hstep hstill) rfl
      exact ⟨n + 1, s', ⟨e, t, he, hstep, hw⟩, hs'⟩

theorem mem_opened {name : Name} {content c : Bytes} : ∀ {before : Bytes} {hs : List Host},
    (∀ h ∈ hs, h.map name = some content) → c ∈ opened name before hs → c = content
  | _, [], _, hmem => by cases hmem
  | before, h :: hs, hsame, hmem => by
    obtain ⟨file, hfile, hcontent⟩ := Option.map_eq_some_iff.mp (hsame h List.mem_cons_self)
    rw [opened, hfile] at hmem
    rcases List.mem_cons.mp hmem with rfl | hmem
    · exact hcontent
    · exact mem_opened (fun h' h'mem => hsame h' (List.mem_cons_of_mem h h'mem)) hmem

/-- Where every read gives the same content the whole of it is sent. -/
theorem sent_whole {content : Bytes} {reads : List Bytes} {code : Dfs.StatusCode}
    {sent : List Bytes} (hlt : content.length < 2 ^ 31) (hreads : ∀ c ∈ reads, c = content)
    (hrun : Loop.run Dfs.Sender.head (fun t content => .more (t.chunk content))
      (.start content.length true) reads = .stop (code, sent)) : sent.flatten = content := by
  have hwhole := @Loop.run_induction _ _ _ Dfs.Sender.head
    (fun t content => .more (t.chunk content)) (Dfs.Sending content) (· = content)
    (fun r => r.2.flatten = content) ?_ ?_ (fun _ _ _ _ _ _ hstop => by cases hstop) reads _
    (Dfs.sending_start content) hreads
  · rw [hrun] at hwhole
    exact hwhole
  · rintro t c t' ht rfl hhead hmore
    cases hmore
    exact (ht.chunk hhead).1
  · intro t r ht hhead
    unfold Dfs.Sender.head at hhead
    split_ifs at hhead with hend
    cases hhead
    exact ht.whole (not_lt.mp hend) hlt

theorem clientNodeP1_stored {now : ℤ} {h : Host} {hs : List Host} {name : Name}
    {server server' : Host}
    (hstores : h.Regular ∧ ∀ content, h.map name = some content → content.length < 2 ^ 31)
    (hsame : ∀ h' ∈ hs, h'.map name = h.map name)
    (hstored : ClientNodeP1Store now (h :: hs) name server server') :
    server'.map = (h.map name).elim server.map fun content =>
      Function.update server.map name (some content) := by
  unfold ClientNodeP1Store at hstored
  cases hmap : h.map name with
  | none =>
    simp only [Host.stat_none hstores.1 hmap] at hstored
    rw [hstored, Option.elim_none]
  | some content =>
    obtain ⟨⟨mtime, hstat⟩, -⟩ := Host.stat_some hmap
    simp only [hstat] at hstored
    obtain ⟨before, opens, after, reads, sent, hsplit, hreads, hrun, rfl⟩ := hstored
    have hall : ∀ h' ∈ opens :: after, h'.map name = some content := fun h' hmem => by
      have hmem' : h' ∈ h :: hs := hsplit ▸ List.mem_append_right before hmem
      rcases List.mem_cons.mp hmem' with rfl | hmem'
      · exact hmap
      · exact (hsame h' hmem').trans hmap
    obtain ⟨file, hfile, -⟩ := Option.map_eq_some_iff.mp (hall opens List.mem_cons_self)
    rw [hfile, Option.isSome_some] at hrun
    have hwhole := sent_whole (hstores.2 content hmap)
      (fun c hc => mem_opened hall (hreads c hc)) hrun
    rw [(Dfs.storeFile_whole now server name sent).2.1, hwhole, Option.elim_some]

theorem clientNodeP1_stored_others {now : ℤ} {hs : List Host} {name : Name} {server server' : Host}
    (hstored : ClientNodeP1Store now hs name server server') (n : Name) (hn : n ≠ name) :
    server'.map n = server.map n := by
  unfold ClientNodeP1Store at hstored
  split at hstored
  · exact hstored.elim
  · split at hstored
    · rw [hstored]
    · obtain ⟨before, opens, after, reads, sent, -, -, -, rfl⟩ := hstored
      rw [(Dfs.storeFile_whole now server name sent).2.1, Function.update_of_ne hn]

theorem clientNodeP1_exists_stored {now : ℤ} {h : Host} {hs : List Host} {name : Name}
    (server : Host)
    (hstores : h.Regular ∧ ∀ content, h.map name = some content → content.length < 2 ^ 31) :
    ∃ server', ClientNodeP1Store now (h :: hs) name server server' := by
  unfold ClientNodeP1Store
  cases hmap : h.map name with
  | none =>
    simp only [Host.stat_none hstores.1 hmap]
    exact ⟨server, rfl⟩
  | some content =>
    obtain ⟨⟨mtime, hstat⟩, hcontent⟩ := Host.stat_some hmap
    obtain ⟨file, hfile, hfile'⟩ := Option.map_eq_some_iff.mp hmap
    obtain ⟨t, -, -, hrun⟩ := (Dfs.sending_start content).run
      (fun t content => .more (t.chunk content)) content fun _ => rfl
    simp only [hstat]
    refine ⟨_, [], h, hs, List.replicate content.length content, t.sent, rfl, fun c hc => ?_, ?_,
      rfl⟩
    · rw [List.eq_of_mem_replicate hc, opened, hfile]
      exact hfile' ▸ List.mem_cons_self
    · rw [hfile, Option.isSome_some]
      exact hrun _ (Nat.sub_le _ _)

theorem clientNodeP1_delete (now : ℤ) (name : Name) (server : Host) :
    (clientNodeP1Delete now name server).map = Function.update server.map name none := by
  have hput : (server.put (server.wrapPath name.bytes) none).map
      = Function.update server.map name none :=
    Host.map_update rfl (by rw [Host.put_file]; rfl) fun p hp => server.put_file_of_ne _ hp
  cases hstat : server.stat (server.wrapPath name.bytes) with
  | some filestat => simpa [clientNodeP1Delete, World.perform, Dfs.deleteFile, hstat] using hput
  | none =>
    have hmap : server.map name = none := by
      unfold Host.stat at hstat
      unfold Host.map
      cases hfile : server.file (server.wrapPath name.bytes) with
      | none => rfl
      | some file => simp [hfile] at hstat
    simp only [clientNodeP1Delete, World.perform, Dfs.deleteFile, hstat, Option.elim,
      Bool.false_eq_true, if_false]
    rw [← hmap, Function.update_eq_self]

/-- The calls of `DFSClientNodeP1` are those of a node. -/
def clientNodeP1 (now : ℤ) : Node where
  Server := Host
  files := Host.map
  Stores := fun h name => h.Regular ∧ ∀ content, h.map name = some content →
    content.length < 2 ^ 31
  Stored := ClientNodeP1Store now
  delete := clientNodeP1Delete now
  files_stored := clientNodeP1_stored
  stored_others := clientNodeP1_stored_others
  exists_stored := fun server hstores _ => clientNodeP1_exists_stored server hstores
  files_delete := clientNodeP1_delete now

/-! ### A file is created -/

def bTxt : Name := ⟨ascii "b.txt", by decide, by decide, by decide, by decide, by decide⟩

/-- A client that has mounted an empty directory, and an empty server. -/
def oneClient : System (clientNodeP1 0) 1 where
  client := fun _ => ⟨⟨ascii "m/", fun _ => none, fun _ => none⟩, [], [], none, []⟩
  server := (⟨ascii "s/", fun _ => none, fun _ => none⟩ : Host)

def bTxtCreated : Record := ⟨1, inCreate, 0, ascii "b.txt", 11, by decide, by decide, by decide⟩

theorem oneClient_fresh (i : Fin 1) : (oneClient.client i).Fresh :=
  ⟨⟨rfl, rfl⟩, rfl, rfl, show ascii "/" <:+ ascii "m/" by decide,
    show Inotify.OneLine (ascii "m/") by decide⟩

/-- The file has been created, and its event waits. -/
def oneCreated : System (clientNodeP1 0) 1 :=
  oneClient.put ⟨0, Nat.one_pos⟩
    ⟨(⟨ascii "m/", fun _ => none, fun _ => none⟩ : Host).put (ascii "m/b.txt") (some ⟨[], 0⟩),
      [bTxtCreated], [], none, [bTxt]⟩

theorem oneClient_creates : Runs (fun _ => 0) oneClient oneCreated := by
  have happly : Change.create.apply 0 bTxt (oneClient.client 0).host
      = some (oneClient.client 0 |>.host.put (ascii "m/b.txt") (some ⟨[], 0⟩)) := rfl
  exact .single ⟨.change 0 bTxt .create, fun _ => rfl,
    .change (r := bTxtCreated) happly rfl rfl (by decide) (.inl rfl)⟩

theorem oneCreated_stores (i : Fin 1) (name : Name) :
    (clientNodeP1 0).Stores (oneCreated.client i).host name := by
  obtain rfl := Subsingleton.elim i 0
  refine ⟨fun n => rfl, fun content hmap => ?_⟩
  obtain ⟨file, hfile, rfl⟩ := Option.map_eq_some_iff.mp hmap
  by_cases hpath : (oneCreated.client 0).host.wrapPath name.bytes = ascii "m/b.txt"
  · rw [hpath] at hfile
    obtain rfl := Option.some.inj ((Host.put_file _ _ _).symm.trans hfile)
    exact Nat.two_pow_pos 31
  · have hnone := (Host.put_file_of_ne _ _ hpath).symm.trans hfile
    cases hnone

theorem oneCreated_still (i : Fin 1) : (oneCreated.client i).Still := by
  obtain rfl := Subsingleton.elim i 0
  intro hs name calls hstoring
  cases hstoring

/-- The file is on the server in the end. -/
theorem oneCreated_mirrored {files : Name → Option Bytes}
    (h : Mirrored (fun _ => 0) oneClient oneCreated files bTxt) : files bTxt = some [] := by
  unfold Mirrored at h
  have hchanged : Reported bTxt ∧ bTxt ∈ (oneCreated.client 0).changed :=
    ⟨by decide, List.mem_cons_self⟩
  rw [if_pos hchanged] at h
  exact h

end FileServices.Mount
