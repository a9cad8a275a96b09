import FileServices.ServeLoop

/-!
# Contexts and sockets that nobody releases

A connection leaves its context and its socket behind unless its request is valid and the handler
keeps the context, or closes the socket itself.
-/

namespace FileServices.ServeLoop

open CString

variable {s s' : Server} {c : Connection} {cs : List Connection} {ctx fd n : ℕ}

/-! ### The books -/

/-- What has become of a context and its socket: how often the one has been freed and the other
closed, and whether the handler has them. -/
structure Entry where
  freed : ℕ
  closed : ℕ
  kept : Bool
  deriving DecidableEq

def Server.entry (s : Server) (n : ℕ) : Entry := ⟨s.freed n, s.closed n, s.kept n⟩

/-- What a connection comes to, by itself. -/
def Connection.entry (c : Connection) : Entry :=
  match serveConnection c.recv with
  | .handled _ => ⟨if c.keeps then 0 else 1, c.aborts, c.keeps⟩
  | _ => ⟨0, 0, false⟩

theorem gfsAbort_iterate (hfd : s.clientSocketFd ctx = some fd) : ∀ k : ℕ, (gfsAbort ctx)^[k] s
    = { s with closed := Function.update s.closed fd (s.closed fd + k) }
  | 0 => by simp
  | k + 1 => by
    rw [Function.iterate_succ_apply', gfsAbort_iterate hfd k, gfsAbort, hfd]
    simp [Server.close, Nat.add_assoc]

/-- A call of the handler on a new context, with the `free` behind it. -/
theorem handlerfunc_entry (hfd : s.clientSocketFd ctx = some ctx)
    (hnew : s.entry ctx = ⟨0, 0, false⟩) :
    ((handlerfunc c ctx s).2.free (handlerfunc c ctx s).1).accepted = s.accepted
      ∧ ((handlerfunc c ctx s).2.free (handlerfunc c ctx s).1).entry
        = Function.update s.entry ctx ⟨if c.keeps then 0 else 1, c.aborts, c.keeps⟩ := by
  obtain ⟨hfreed, hclosed, hkept⟩ := Entry.mk.inj hnew
  have hcall : handlerfunc c ctx s = if c.keeps
      then (none, { s with
        closed := Function.update s.closed ctx (s.closed ctx + c.aborts)
        kept := Function.update s.kept ctx true })
      else (some ctx, { s with
        closed := Function.update s.closed ctx (s.closed ctx + c.aborts) }) := by
    rw [handlerfunc, gfsAbort_iterate hfd]
  rw [hcall]
  split_ifs with hkeeps
  all_goals
    refine ⟨rfl, funext fun n => ?_⟩
    by_cases hn : n = ctx
    · subst hn
      simp [Server.entry, Server.free, hfreed, hclosed, hkept, hkeeps]
    · simp [Server.entry, Server.free, hn]

/-- An iteration makes the entry of its connection, and leaves the others alone. -/
theorem serveOne_entry (hnew : s.entry s.accepted = ⟨0, 0, false⟩) (h : serveOne s c = some s') :
    s'.accepted = s.accepted + 1
      ∧ s'.entry = Function.update s.entry s.accepted c.entry := by
  unfold serveOne at h
  rw [Connection.entry]
  cases hserved : serveConnection c.recv with
  | undefined => simp [hserved] at h
  | closed | invalid =>
    simp only [hserved, Option.some.injEq] at h
    subst h
    refine ⟨rfl, ?_⟩
    rw [← hnew, Function.update_eq_self]
    rfl
  | handled path =>
    simp only [hserved, Option.some.injEq] at h
    subst h
    exact handlerfunc_entry (Function.update_self ..) hnew

theorem serve_entries (hnew : ∀ n, s.accepted ≤ n → s.entry n = ⟨0, 0, false⟩)
    (h : cs.foldlM serveOne s = some s') : s'.accepted = s.accepted + cs.length
      ∧ ∀ n, s'.entry n = if n < s.accepted then s.entry n
        else (cs[n - s.accepted]?).elim ⟨0, 0, false⟩ Connection.entry := by
  induction cs generalizing s with
  | nil =>
    obtain rfl := Option.some.inj h
    refine ⟨rfl, fun n => ?_⟩
    split_ifs with hn
    · rfl
    · exact hnew n (Nat.not_lt.mp hn)
  | cons c cs ih =>
    obtain ⟨t, ht, hrest⟩ := Option.bind_eq_some_iff.mp h
    obtain ⟨haccepted, hentry⟩ := serveOne_entry (hnew _ le_rfl) ht
    have hnew' : ∀ n, t.accepted ≤ n → t.entry n = ⟨0, 0, false⟩ := fun n hn => by
      rw [haccepted] at hn
      rw [hentry, Function.update_of_ne (by omega)]
      exact hnew n (by omega)
    obtain ⟨hlen, hall⟩ := ih hnew' hrest
    refine ⟨by rw [hlen, haccepted, List.length_cons]; omega, fun n => ?_⟩
    rw [hall, haccepted]
    rcases lt_trichotomy n s.accepted with hlt | rfl | hlt
    · rw [if_pos (by omega), if_pos hlt, hentry, Function.update_of_ne hlt.ne]
    · rw [if_pos (by omega), if_neg (lt_irrefl _), hentry, Function.update_self, Nat.sub_self]
      rfl
    · obtain ⟨k, rfl⟩ := Nat.exists_eq_add_of_lt hlt
      rw [if_neg (by omega), if_neg (by omega),
        show s.accepted + k + 1 - (s.accepted + 1) = k by omega,
        show s.accepted + k + 1 - s.accepted = k + 1 by omega, List.getElem?_cons_succ]

/-- The loop comes back to `accept` unless a request is too short for the parser. -/
theorem serve_isSome_iff :
    (gfserverServe cs).isSome ↔ ∀ c ∈ cs, serveConnection c.recv ≠ .undefined := by
  suffices h : ∀ s, (cs.foldlM serveOne s).isSome
      ↔ ∀ c ∈ cs, serveConnection c.recv ≠ .undefined from h _
  induction cs with
  | nil => exact fun s => by simp
  | cons c cs ih =>
    intro s
    rw [List.foldlM_cons, List.forall_mem_cons, serveOne]
    cases serveConnection c.recv with
    | undefined => simp
    | closed | invalid | handled path => simpa using ih _

/-! ### What is left behind -/

/-- The context has been freed exactly once or is with the handler, and so for the socket. -/
def Entry.Owned (e : Entry) : Prop :=
  (e.freed = 1 ∨ e.kept = true) ∧ (e.closed = 1 ∨ e.kept = true)

/-- The contexts of connections that are through which are still the server's. -/
def Server.contexts (s : Server) : Finset ℕ :=
  {n ∈ Finset.range s.accepted | s.freed n = 0 ∧ s.kept n = false}

def Server.sockets (s : Server) : Finset ℕ :=
  {n ∈ Finset.range s.accepted | s.closed n = 0 ∧ s.kept n = false}

structure Server.Owned (s : Server) : Prop where
  owned : ∀ n < s.accepted, (s.entry n).Owned
  contexts : s.contexts = ∅
  sockets : s.sockets = ∅

/-- The request is valid, and the handler keeps its context or closes the socket just once. -/
def Connection.Releases (c : Connection) : Prop :=
  (∃ path, serveConnection c.recv = .handled path) ∧ (c.keeps = true ∨ c.aborts = 1)

theorem entry_owned_iff : c.entry.Owned ↔ c.Releases := by
  rw [Connection.entry, Connection.Releases]
  cases hserved : serveConnection c.recv with
  | undefined | closed | invalid => simp [Entry.Owned]
  | handled path => cases hkeeps : c.keeps <;> simp [Entry.Owned]

theorem held_eq_empty {k : ℕ} {count : ℕ → ℕ} {kept : ℕ → Bool}
    (h : ∀ n < k, count n = 1 ∨ kept n = true) :
    {n ∈ Finset.range k | count n = 0 ∧ kept n = false} = (∅ : Finset ℕ) := by
  refine Finset.filter_eq_empty_iff.mpr fun n hn ⟨hnone, hkept⟩ => ?_
  rcases h n (Finset.mem_range.mp hn) with hone | hkeeps
  · exact absurd (hnone.symm.trans hone) Nat.zero_ne_one
  · exact Bool.false_ne_true (hkept.symm.trans hkeeps)

/-- Where every entry is owned the server holds nothing. -/
theorem Server.owned_iff : s.Owned ↔ ∀ n < s.accepted, (s.entry n).Owned :=
  ⟨fun h => h.owned, fun h => ⟨h, held_eq_empty fun n hn => (h n hn).1,
    held_eq_empty fun n hn => (h n hn).2⟩⟩

/-- When every context and every socket has been released, back at `accept`. -/
theorem serve_releases (h : gfserverServe cs = some s) : s.Owned ↔ ∀ c ∈ cs, c.Releases := by
  obtain ⟨hlen, hentry⟩ := serve_entries (fun _ _ => rfl) h
  have haccepted : s.accepted = cs.length := hlen.trans (Nat.zero_add _)
  have hat : ∀ n (hn : n < cs.length), s.entry n = cs[n].entry := fun n hn => by
    have hstarted : ¬n < Server.init.accepted := Nat.not_lt_zero n
    rw [hentry, if_neg hstarted, show n - Server.init.accepted = n from rfl,
      List.getElem?_eq_getElem hn, Option.elim_some]
  rw [Server.owned_iff, haccepted]
  constructor
  · intro howned c hc
    obtain ⟨n, hn, rfl⟩ := List.getElem_of_mem hc
    exact entry_owned_iff.mp (hat n hn ▸ howned n hn)
  · intro hreleases n hn
    rw [hat n hn]
    exact entry_owned_iff.mpr (hreleases _ (List.getElem_mem hn))

def request : Bytes := ascii "GETFILE GET /\r\n\r\n"

theorem request_handled : serveConnection (some request) = .handled (some (ascii "/")) := by
  decide +kernel

/-- A handler that calls `gfs_abort`, and one that keeps its context. -/
theorem serve_releases_valid :
    ∃ s, gfserverServe [⟨some request, 1, false⟩, ⟨some request, 0, true⟩] = some s ∧ s.Owned := by
  have hback : (gfserverServe [⟨some request, 1, false⟩, ⟨some request, 0, true⟩]).isSome := by
    refine serve_isSome_iff.mpr fun c hc => ?_
    rcases List.mem_pair.mp hc with rfl | rfl <;> simp [request_handled]
  obtain ⟨s, hs⟩ := Option.isSome_iff_exists.mp hback
  refine ⟨s, hs, (serve_releases hs).mpr fun c hc => ?_⟩
  rcases List.mem_pair.mp hc with rfl | rfl
  · exact ⟨⟨_, request_handled⟩, .inr rfl⟩
  · exact ⟨⟨_, request_handled⟩, .inl rfl⟩

theorem serve_closed_unreleased :
    ¬ ∀ (cs : List Connection) (s : Server), gfserverServe cs = some s → s.Owned := by
  intro hall
  have howned := hall [⟨some [], 0, false⟩] _ rfl
  have hempty := howned.contexts
  simp [Server.contexts, Server.init] at hempty

end FileServices.ServeLoop
