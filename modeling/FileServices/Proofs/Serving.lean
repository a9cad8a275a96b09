import FileServices.Proofs.Transfer

/-!
# The warm-up servers keep serving

A server that never leaves its loop is at `accept` again after each connection, since a connection
takes finitely many calls.  What ends the process is a call that fails, and a client can make calls
fail.
-/

namespace FileServices.Transfer

open CString

variable {σ : Type*}

/-- The process never exits, and it comes back to `accept` again and again. -/
def KeepsServing (call : σ → Option Syscall) (states : ℕ → σ) : Prop :=
  (∀ n, call (states n) ≠ none) ∧ ∀ n, ∃ m, n ≤ m ∧ call (states m) = some .accept

/-! ### `transferserver` -/

section Transferserver

variable {content : Bytes} {results : ℕ → ℤ} {result : ℤ} {st : Transferserver}

/-- The file is being sent as it should. -/
def Transferserver.Ok (content : Bytes) : Transferserver → Prop
  | .sendFile s => s.Ok content
  | .exited _ => False
  | _ => True

/-- The calls that can still come before the next `accept`, at most. -/
def Transferserver.rank (content : Bytes) : Transferserver → ℕ
  | .open => 2 * content.length + 2
  | .sendFile s => s.rank content
  | _ => 0

theorem Transferserver.Ok.step (h : st.Ok content)
    (hlocal : ∀ c, st.call = some c → c ≠ .send → 0 ≤ result)
    (hsend : st.call = some .send → result ≠ -1) :
    (st.step content result).Ok content ∧ (st.call ≠ some .accept →
      (st.step content result).call = some .accept
        ∨ (st.step content result).rank content < st.rank content) := by
  cases st with
  | accept =>
    have hresult := hlocal .accept rfl (by decide)
    simp only [Transferserver.step, not_lt.mpr hresult, if_false]
    exact ⟨trivial, fun h => absurd rfl h⟩
  | «open» =>
    have hresult := hlocal .open rfl (by decide)
    simp only [Transferserver.step, not_lt.mpr hresult, if_false]
    refine ⟨.start content, fun _ => .inr ?_⟩
    simp [rank, SendFile.rank, SendFile.start]
  | sendFile s =>
    obtain ⟨offset, wire, pc⟩ := s
    cases pc with
    | read =>
      rcases SendFile.Ok.read_body h (hlocal .read rfl (by decide)) with
        ⟨s', hbody, hok, hlt⟩ | hbody
      · simp only [Transferserver.step, hbody]
        exact ⟨hok, fun _ => .inr hlt⟩
      · simp only [Transferserver.step, hbody]
        exact ⟨trivial, fun _ => .inl rfl⟩
    | send buf bytesLeft bytesSent =>
      obtain ⟨s', hbody, hok, hlt⟩ := SendFile.Ok.send_body h (hsend rfl)
      simp only [Transferserver.step, hbody]
      exact ⟨hok, fun _ => .inr hlt⟩
  | exited code => exact absurd h id

theorem Transferserver.Ok.call_ne_none (h : st.Ok content) : st.call ≠ none := by
  cases st with
  | accept => exact Option.some_ne_none _
  | «open» => exact Option.some_ne_none _
  | sendFile s =>
    obtain ⟨offset, wire, pc⟩ := s
    cases pc <;> exact Option.some_ne_none _
  | exited code => exact absurd h id

theorem Transferserver.step_send (hcall : st.call = some .send) :
    (st.step content (-1)).call = none := by
  cases st with
  | sendFile s =>
    obtain ⟨offset, wire, pc⟩ := s
    cases pc with
    | read => cases hcall
    | send buf bytesLeft bytesSent => rfl
  | _ => cases hcall

/-- As long as its other calls succeed, `transferserver` keeps serving just where no `send`
fails. -/
theorem transferserver_keepsServing_iff
    (hlocal : ∀ n c, (transferserver content results n).call = some c → c ≠ .send →
      0 ≤ results n) :
    KeepsServing Transferserver.call (transferserver content results)
      ↔ ∀ n, (transferserver content results n).call = some .send → results n ≠ -1 := by
  constructor
  · rintro ⟨hrun, -⟩ n hcall hfail
    refine hrun (n + 1) ?_
    rw [transferserver, Trans.states, hfail]
    exact Transferserver.step_send hcall
  · intro hsend
    have hok : ∀ n, (transferserver content results n).Ok content :=
      Trans.states_invariant trivial fun n hn =>
        (Transferserver.Ok.step hn (hlocal n) (hsend n)).1
    refine ⟨fun n => (hok n).call_ne_none, fun n => ?_⟩
    exact Trans.recurs (fun st => Transferserver.call st = some .accept)
      (Transferserver.rank content) (fun n hn => ((hok n).step (hlocal n) (hsend n)).2 hn) n

end Transferserver

/-! ### `echoserver` -/

section Echoserver

variable {answers : ℕ → Answer} {answer : Answer} {st : Echoserver}

def Echoserver.Served (st : Echoserver) (answer : Answer) : Prop :=
  (st.call = some .recv → 0 < answer.result)
    ∧ ∀ buffer recvMsgLen, st.pc = .send buffer recvMsgLen → answer.result = recvMsgLen

def Echoserver.rank (st : Echoserver) : ℕ :=
  match st.pc with
  | .recv => 2
  | .send _ _ => 1
  | _ => 0

theorem Echoserver.step_ok (hrun : st.call ≠ none)
    (haccept : st.call = some .accept → 0 ≤ answer.result) (hserved : st.Served answer) :
    (st.step answer).call ≠ none ∧ (st.call ≠ some .accept →
      (st.step answer).call = some .accept ∨ (st.step answer).rank < st.rank) := by
  obtain ⟨pc, sent⟩ := st
  cases pc with
  | accept =>
    simp only [step, not_lt.mpr (haccept rfl), if_false]
    exact ⟨Option.some_ne_none _, fun h => absurd rfl h⟩
  | recv =>
    simp only [step, not_le.mpr (hserved.1 rfl), if_false]
    exact ⟨Option.some_ne_none _, fun _ => .inr (Nat.lt_succ_self 1)⟩
  | send buffer recvMsgLen =>
    simp only [step, hserved.2 _ _ rfl, ne_eq, not_true_eq_false, if_false]
    exact ⟨Option.some_ne_none _, fun _ => .inl rfl⟩
  | exited code => exact absurd rfl hrun

theorem Echoserver.step_exits (hserved : ¬ st.Served answer) : (st.step answer).call = none := by
  obtain ⟨pc, sent⟩ := st
  cases pc with
  | accept => exact absurd ⟨nofun, nofun⟩ hserved
  | recv =>
    have hresult : answer.result ≤ 0 := by
      by_contra hpos
      exact hserved ⟨fun _ => not_le.mp hpos, nofun⟩
    simp only [step, hresult, if_true]
    rfl
  | send buffer recvMsgLen =>
    have hresult : answer.result ≠ recvMsgLen := by
      rintro rfl
      refine hserved ⟨nofun, ?_⟩
      rintro _ _ ⟨⟩
      rfl
    simp only [step, hresult, ne_eq, not_false_eq_true, if_true]
    rfl
  | exited code => rfl

/-- As long as `accept` succeeds, `echoserver` keeps serving just where each client sends something
and takes it back whole. -/
theorem echoserver_keepsServing_iff
    (haccept : ∀ n, (echoserver answers n).call = some .accept → 0 ≤ (answers n).result) :
    KeepsServing Echoserver.call (echoserver answers)
      ↔ ∀ n, (echoserver answers n).Served (answers n) := by
  constructor
  · rintro ⟨hrun, -⟩ n
    by_contra hserved
    exact hrun (n + 1) (Echoserver.step_exits hserved)
  · intro hserved
    have hrun : ∀ n, (echoserver answers n).call ≠ none :=
      Trans.states_invariant (I := fun st => Echoserver.call st ≠ none) (Option.some_ne_none _)
        fun n hn =>
        (Echoserver.step_ok hn (haccept n) (hserved n)).1
    refine ⟨hrun, fun n => ?_⟩
    exact Trans.recurs (fun st => Echoserver.call st = some .accept) Echoserver.rank
      (fun n hn => (Echoserver.step_ok (hrun n) (haccept n) (hserved n)).2 hn) n

end Echoserver

/-- The servers keep serving just where `transferserver`'s clients let no `send` fail, and those of
`echoserver` send something and take it back whole. -/
theorem servers_keep_serving_iff {content : Bytes} {results : ℕ → ℤ} {answers : ℕ → Answer}
    (hlocal : ∀ n c, (transferserver content results n).call = some c → c ≠ .send →
      0 ≤ results n)
    (haccept : ∀ n, (echoserver answers n).call = some .accept → 0 ≤ (answers n).result) :
    (KeepsServing Transferserver.call (transferserver content results)
      ↔ ∀ n, (transferserver content results n).call = some .send → results n ≠ -1)
    ∧ (KeepsServing Echoserver.call (echoserver answers)
      ↔ ∀ n, (echoserver answers n).Served (answers n)) :=
  ⟨transferserver_keepsServing_iff hlocal, echoserver_keepsServing_iff haccept⟩

/-- Clients that let every call move a byte. -/
theorem servers_keep_serving_iff_bytes :
    KeepsServing Transferserver.call (transferserver (ascii "hi") fun _ => 1) ∧
    (KeepsServing Echoserver.call (echoserver fun _ => ⟨1, ascii "x"⟩)
      ↔ ∀ n, (echoserver (fun _ => ⟨1, ascii "x"⟩) n).Served ⟨1, ascii "x"⟩) := by
  have hiff := @servers_keep_serving_iff (ascii "hi") (fun _ => 1) (fun _ => ⟨1, ascii "x"⟩)
    (fun _ _ _ _ => by decide) (fun _ _ => by decide)
  exact ⟨hiff.1.mpr fun _ _ => by decide, hiff.2⟩

/-- A client that resets the connection ends `transferserver`, and one that closes it without
having sent anything ends `echoserver`. -/
theorem server_ended :
    let results : ℕ → ℤ := fun n => if n = 3 then -1 else 1
    (∀ n c, (transferserver (ascii "hi") results n).call = some c → c ≠ .send → 0 ≤ results n)
      ∧ transferserver (ascii "hi") results 4 = .exited 8
      ∧ (echoserver (fun _ => ⟨0, []⟩) 2).pc = .exited 1 := by
  refine ⟨fun n c hcall hc => ?_, by decide, by decide⟩
  by_cases hn : n = 3
  · subst hn
    exact absurd (Option.some.inj (hcall.symm.trans (by decide))) hc
  · simp [hn]

end FileServices.Transfer
