import FileServices.Proofs.DfsSerial

/-!
# When calls on one file are atomic

The program has no lock: a store truncates and writes the file other calls read and write.  As
long as no other call overlaps one that stores, the file holds what one of them stored, and what
is fetched is what the file held at the time.
-/

namespace FileServices.Calls

open CString
open Dfs (StatusCode)

variable {N : Type*} [DecidableEq N] {c : Config N} {s : State c} {name : N}

/-- One of the calls `ks` stores the content in the file. -/
def Config.Stored (c : Config N) (name : N) (ks : List (Fin c.ncalls)) (content : Bytes) : Prop :=
  ∃ k ∈ ks, ∃ filename messages, c.task k = .store filename messages ∧ c.file k = name
    ∧ content = messages.flatten

/-- None of the calls removes the file. -/
def Config.Keeps (c : Config N) (name : N) : Prop :=
  ∀ k filepath, c.task k = .delete filepath → c.file k ≠ name

/-- One after the other the calls leave the file as it was, where none of them stores it, and else
as one of them stores it. -/
theorem Config.Keeps.after (hkeeps : c.Keeps name) (ks : List (Fin c.ncalls)) :
    (∀ k ∈ ks, ∀ filename messages, c.task k = .store filename messages → c.file k ≠ name)
        ∧ c.after ks name = c.disk.read name
      ∨ ∃ content, c.Stored name ks content ∧ c.after ks name = some content := by
  induction ks using List.reverseRecOn with
  | nil => exact .inl ⟨(fun k hk => by cases hk), rfl⟩
  | append_singleton ks k ih =>
    rw [after_snoc]
    have hgoes : (∀ filename messages, c.task k = .store filename messages → c.file k ≠ name) →
        c.serve (c.after ks) k name = c.after ks name := fun hstores => by
      unfold Config.serve
      cases htask : c.task k with
      | store filename messages => exact Function.update_of_ne (hstores _ _ htask).symm ..
      | fetch filepath => rfl
      | delete filepath => exact Function.update_of_ne (hkeeps k _ htask).symm ..
    by_cases hstores : ∀ filename messages, c.task k = .store filename messages → c.file k ≠ name
    · rw [hgoes hstores]
      obtain ⟨hnone, hafter⟩ | ⟨content, ⟨j, hj, hstored⟩, hafter⟩ := ih
      · refine .inl ⟨fun j hj => ?_, hafter⟩
        obtain hj | hj := List.mem_append.mp hj
        · exact hnone j hj
        · rwa [List.mem_singleton.mp hj]
      · exact .inr ⟨content, ⟨j, List.mem_append_left _ hj, hstored⟩, hafter⟩
    · push Not at hstores
      obtain ⟨filename, messages, htask, rfl⟩ := hstores
      refine .inr ⟨messages.flatten, ⟨k, by simp, filename, messages, htask, rfl, rfl⟩, ?_⟩
      simp [Config.serve, htask]

/-- Where no other call overlaps one that stores, the file ends as one of the stores has it, and
each fetch delivers what the file held before or what one of the stores has.  It is the content
after the calls that have returned before the fetch, of which an `int` has to hold the size. -/
theorem calls_atomic (hkeeps : c.Keeps name)
    (h : Trans.Reach (step c) Alone (State.init c) s) :
    ((∃ k filename messages, c.task k = .store filename messages ∧ c.file k = name) →
        (∀ k filename messages, c.task k = .store filename messages → c.file k = name →
          s.pc k = .returned .ok []) →
        ∃ content, c.Stored name s.returned content ∧ s.disk.read name = some content)
      ∧ ∀ k filepath sent, c.task k = .fetch filepath → c.file k = name →
        s.pc k = .returned .ok sent → ∃ ks content, ks ++ [k] <+: s.returned
          ∧ (c.disk.read name = some content ∨ c.Stored name ks content)
          ∧ c.after ks name = some content
          ∧ (content.length < 2 ^ 31 → sent.flatten = content) := by
  have hi := Serial.reach h
  refine ⟨fun ⟨k, filename, messages, htask, hfile⟩ hall => ?_,
    fun k filepath sent htask hfile hat => ?_⟩
  · have hsettled : s.disk.read name = c.after s.returned name := by
      refine hi.settled name fun j hj => ?_
      cases hat : s.pc j with
      | reading stream rest =>
        have hstands := hi.stands j
        rw [hat] at hstands
        obtain ⟨-, filename, messages, -, htask, -⟩ := hstands
        have hreturned := hall j filename messages htask hj
        simp [hat] at hreturned
      | _ => rfl
    obtain ⟨hnone, -⟩ | ⟨content, hstored, hafter⟩ := hkeeps.after s.returned
    · have hmem := hi.returned k _ _ (hall k filename messages htask hfile)
      exact absurd hfile (hnone k hmem filename messages htask)
    · exact ⟨content, hstored, hsettled.trans hafter⟩
  · obtain ⟨ks, ks', hsplit⟩ := List.append_of_mem (hi.returned k _ _ hat)
    obtain ⟨sent', hat', hsent⟩ := hi.answered ks k ks' hsplit
    have hanswer : ∃ content, c.after ks name = some content
        ∧ c.answer (c.after ks) k = (.ok, content) := by
      have hstatus := hat.symm.trans hat'
      unfold Config.answer at hstatus ⊢
      rw [htask, hfile] at hstatus ⊢
      cases hafter : c.after ks name with
      | none => simp [hafter] at hstatus
      | some content => exact ⟨content, rfl, rfl⟩
    obtain ⟨content, hafter, hanswer⟩ := hanswer
    rw [hanswer] at hat' hsent
    obtain rfl := (Pc.returned.inj (hat.symm.trans hat')).2
    refine ⟨ks, content, ⟨ks', by simp [hsplit]⟩, ?_, hafter, fun hlt => hsent ?_⟩
    · obtain ⟨-, hsame⟩ | ⟨content', hstored, hafter'⟩ := hkeeps.after ks
      · exact .inl (hsame.symm.trans hafter)
      · exact .inr (Option.some.inj (hafter.symm.trans hafter') ▸ hstored)
    · intro _ content' _ hcontent
      rw [hfile, hafter] at hcontent
      exact Option.some.inj hcontent ▸ hlt

/-- A store and a fetch of a name that was free. -/
def storeThenFetch : Config Bytes where
  mountPath := ascii "m/"
  entry path := path
  ncalls := 2
  task k := if k.val = 0 then .store (some (ascii "f")) [ascii "hi"] else .fetch (ascii "f")
  disk := .empty

/-- One of two calls. -/
def ofTwo (k : ℕ) : Fin 2 := if k = 0 then ⟨0, Nat.two_pos⟩ else ⟨1, Nat.one_lt_two⟩

def storeThenFetch.goes (k : ℕ) : Event storeThenFetch := .run (ofTwo k) .goes

theorem calls_atomic_storeThenFetch : ∃ s : State storeThenFetch,
    s.disk.read (ascii "m/f") = some (ascii "hi")
      ∧ ∃ sent, s.pc ⟨1, Nat.one_lt_two⟩ = .returned .ok sent ∧ sent.flatten = ascii "hi" := by
  have hrun : ((Trans.exec (step storeThenFetch) (fun s e => decide (Alone s e))
      ([0, 0, 0, 1, 1, 1, 1].map storeThenFetch.goes) (State.init storeThenFetch)).any fun s =>
      decide (s.pc ⟨0, Nat.two_pos⟩ = .returned .ok []
        ∧ s.pc ⟨1, Nat.one_lt_two⟩ = .returned .ok [ascii "hi"])) = true := by
    decide +kernel
  obtain ⟨s, hs, hat⟩ := (Option.any_eq_true _ _).mp hrun
  obtain ⟨hstore, hfetch⟩ := of_decide_eq_true hat
  have hkeeps : storeThenFetch.Keeps (ascii "m/f") := fun k filepath htask => by
    unfold storeThenFetch at htask
    simp only at htask
    split_ifs at htask
  have hstored : ∀ {ks content}, storeThenFetch.Stored (ascii "m/f") ks content →
      content = ascii "hi" := by
    rintro ks content ⟨k, -, filename, messages, htask, -, rfl⟩
    unfold storeThenFetch at htask
    simp only at htask
    split_ifs at htask
    obtain ⟨-, rfl⟩ := Task.store.inj htask
    rfl
  obtain ⟨hstores, hfetches⟩ := calls_atomic hkeeps
    (.exec (fun _ _ he => of_decide_eq_true he) _ .refl hs)
  obtain ⟨content, hcontent, hread⟩ := hstores ⟨⟨0, Nat.two_pos⟩, _, _, rfl, rfl⟩
    fun k filename messages htask _ => by
      obtain ⟨k, hk⟩ := k
      obtain rfl | rfl : k = 0 ∨ k = 1 := by
        change k < 2 at hk
        omega
      · exact hstore
      · cases htask
  obtain ⟨ks, content', -, hsource, -, hsent⟩ := hfetches ⟨1, Nat.one_lt_two⟩ _ _ rfl rfl hfetch
  obtain hold | hnew := hsource
  · cases hold
  · rw [hstored hnew] at hsent
    exact ⟨s, hstored hcontent ▸ hread, _, hfetch, hsent (by decide)⟩

/-! ### Stores that overlap -/

/-- The buffer of a stream. -/
def bufsiz : ℕ := 8191

/-- The stream of a store has more to hand on than its buffer takes. -/
def State.outgrown (s : State c) (k : Fin c.ncalls) : Bool :=
  match s.pc k with
  | .reading (some file) _ => bufsiz < file.pending.length
  | _ => false

/-- No call of the system fails, none is cancelled, and what a stream hands on before its close is
more than its buffer takes. -/
def Goes (s : State c) : Event c → Prop
  | .run _ turn => turn = .goes
  | .flush k _ => s.outgrown k = true
  | .lose _ => False

instance (s : State c) : ∀ e, Decidable (Goes s e)
  | .run _ turn => inferInstanceAs (Decidable (turn = .goes))
  | .flush k _ => inferInstanceAs (Decidable (s.outgrown k = true))
  | .lose _ => inferInstanceAs (Decidable False)

/-- Two stores of one name, of which the first has more than a buffer takes. -/
def twoStores : Config Bytes where
  mountPath := ascii "m/"
  entry path := path
  ncalls := 2
  task k := .store (some (ascii "f"))
    (if k.val = 0 then [List.replicate 8192 97, ascii "b"] else [ascii "c"])
  disk := .empty

def twoStores.goes (k : ℕ) : Event twoStores := .run (ofTwo k) .goes

/-- The second store runs between the two messages of the first. -/
def mixing : List (Event twoStores) :=
  [0, 0].map twoStores.goes ++ [.flush (ofTwo 0) 8192]
    ++ [1, 1, 1, 0, 0].map twoStores.goes

/-- The file ends as neither of the stores has it. -/
theorem calls_mixed : ¬ ∀ (c : Config Bytes) (name : Bytes) (s : State c), c.Keeps name →
    (∀ k, c.file k = name) → Trans.Reach (step c) Goes (State.init c) s →
    (∀ k, ∃ sent, s.pc k = .returned .ok sent) →
    ((∃ k filename messages, c.task k = .store filename messages) →
        ∃ content, c.Stored name s.returned content ∧ s.disk.read name = some content)
      ∧ ∀ k filepath sent, c.task k = .fetch filepath → s.pc k = .returned .ok sent →
        ∃ content, (c.disk.read name = some content ∨ c.Stored name s.returned content)
          ∧ sent.flatten = content := by
  intro h
  have hrun : ((Trans.exec (step twoStores) (fun s e => decide (Goes s e)) mixing
      (State.init twoStores)).any fun s => decide ((∀ k, s.pc k = .returned .ok [])
        ∧ s.disk.read (ascii "m/f") ≠ some [List.replicate 8192 97, ascii "b"].flatten
        ∧ s.disk.read (ascii "m/f") ≠ some [ascii "c"].flatten)) = true := by
    decide +kernel
  obtain ⟨s, hs, hat⟩ := (Option.any_eq_true _ _).mp hrun
  obtain ⟨hreturned, hfirst, hsecond⟩ := of_decide_eq_true hat
  have hreach : Trans.Reach (step twoStores) Goes (State.init twoStores) s :=
    .exec (fun _ _ he => of_decide_eq_true he) _ .refl hs
  obtain ⟨hstores, -⟩ := h twoStores (ascii "m/f") s (fun k filepath htask => by cases htask)
    (fun k => rfl) hreach fun k => ⟨[], hreturned k⟩
  obtain ⟨content, ⟨k, -, filename, messages, htask, -, rfl⟩, hread⟩ :=
    hstores ⟨ofTwo 0, _, _, rfl⟩
  obtain ⟨-, rfl⟩ := Task.store.inj htask
  by_cases hk : k.val = 0
  · rw [if_pos hk] at hread
    exact hfirst hread
  · rw [if_neg hk] at hread
    exact hsecond hread

end FileServices.Calls
