import FileServices.Proofs.Curl
import FileServices.WriteCallback

/-!
# `write_callback` keeps what it has been given

The array is as long as what it holds and a terminator, and a call that gets no memory leaves it
alone.
-/

namespace FileServices.WriteCallback

open CString Cells

variable {mem mem' : Customdata} {call : Callback} {calls : List Callback} {content : Bytes}
  {ptr : Buffer} {granted : Bool} {n : ℕ}

/-- The data of calls, one behind the other. -/
def contents (calls : List Callback) : Bytes := (calls.map Callback.data).flatten

theorem contents_snoc (calls : List Callback) (call : Callback) :
    contents (calls ++ [call]) = contents calls ++ call.data := by
  simp [contents]

/-- The array holds the content, and there is room for a terminator. -/
structure Customdata.Holds (mem : Customdata) (content : Bytes) : Prop where
  filesize : mem.filesize = content.length
  filled : (mem.response.getD []).take mem.filesize = content.map some
  lt : content.length < 2 ^ 63

theorem length_realloc {old : Option Buffer} (h : realloc granted old n = some ptr) :
    ptr.length = n ∧ n < 2 ^ 63 := by
  unfold realloc at h
  split_ifs at h with hn
  obtain rfl := Option.some.inj h
  refine ⟨?_, hn.2⟩
  simp only [declared, List.length_append, List.length_take, List.length_replicate]
  omega

/-- A longer array starts with what was in the old one. -/
theorem take_realloc {old : Option Buffer} (h : realloc granted old n = some ptr)
    (hlen : content.length ≤ n) (hold : (old.getD []).take content.length = content.map some) :
    ptr.take content.length = content.map some := by
  unfold realloc at h
  split_ifs at h
  obtain rfl := Option.some.inj h
  have hle : content.length ≤ ((old.getD []).take n).length := by
    have := congrArg List.length hold
    rw [List.length_take, List.length_map] at this
    rw [List.length_take]
    omega
  rw [List.take_append_of_le_length hle, List.take_take, min_eq_left hlen, hold]

theorem holds_initialChunk (granted : Bool) : (initialChunk granted).Holds [] where
  filesize := rfl
  filled := rfl
  lt := by decide

theorem Callback.realsize (call : Callback) :
    call.size * call.nmemb % 2 ^ 64 = call.data.length := by
  have := call.data_lt
  rw [← call.data_length]
  exact Nat.mod_eq_of_lt (by omega)

/-- What the array is asked to be: the sum does not overflow. -/
theorem Customdata.Holds.grown (h : mem.Holds content) (call : Callback) : mem.grown call
    = realloc call.granted mem.response (content.length + call.data.length + 1) := by
  have := h.lt
  have := call.data_lt
  have hsum : (content.length + call.data.length + 1) % 2 ^ 64
      = content.length + call.data.length + 1 := Nat.mod_eq_of_lt (by omega)
  rw [Customdata.grown, call.realsize, h.filesize, hsum]

/-- A call that gets memory puts its data behind the content, and the terminator into the last
cell. -/
theorem Customdata.Holds.append (h : mem.Holds content) (hptr : mem.grown call = some ptr) :
    writeCallback mem call = .ok (call.data.length,
        ⟨some ((content ++ call.data ++ [0]).map some), (content ++ call.data).length⟩)
      ∧ (content ++ call.data).length < 2 ^ 63 := by
  have hgrown := hptr
  rw [h.grown] at hgrown
  obtain ⟨hlen, hlt⟩ := length_realloc hgrown
  have hcontent : ptr.take content.length = content.map some :=
    take_realloc hgrown (by omega) (h.filesize ▸ h.filled)
  have hsize : (content.length + call.data.length) % 2 ^ 64 = (content ++ call.data).length := by
    rw [List.length_append]
    exact Nat.mod_eq_of_lt (by omega)
  obtain ⟨z, rfl⟩ : ∃ z, ptr = content.map some ++ z :=
    ⟨ptr.drop content.length, by rw [← hcontent, List.take_append_drop]⟩
  rw [List.length_append, List.length_map] at hlen
  have hdata : store (content.map some ++ z) content.length call.data
      = .ok ((content ++ call.data).map some ++ z.drop call.data.length) :=
    store_append (by omega)
  have hend : store ((content ++ call.data).map some ++ z.drop call.data.length)
      (content ++ call.data).length [0] = .ok ((content ++ call.data ++ [0]).map some) := by
    rw [store_append, List.drop_drop, List.drop_eq_nil_of_le, List.append_nil]
    · rw [List.length_singleton]
      omega
    · rw [List.length_drop, List.length_singleton]
      omega
  refine ⟨?_, by rw [List.length_append]; omega⟩
  simp only [writeCallback, hptr, call.realsize, List.take_length, h.filesize, hdata, hsize,
    Except.bind]
  rw [hend]
  rfl

/-- A call that gets none changes nothing. -/
theorem writeCallback_failed (hptr : mem.grown call = none) :
    writeCallback mem call = .ok (0, mem) := by
  simp only [writeCallback, hptr]

theorem holds_of_response (hlt : content.length < 2 ^ 63) :
    Customdata.Holds ⟨some ((content ++ [0]).map some), content.length⟩ content where
  filesize := rfl
  filled := by
    change ((content ++ [0]).map some).take content.length = content.map some
    rw [List.map_append, List.take_left' (List.length_map _)]
  lt := hlt

/-- A transfer goes through all its calls, and what is in the array is what has been given to those
that got memory. -/
theorem Customdata.Holds.performed : ∀ {calls done : List Callback} {mem : Customdata},
    mem.Holds (contents done) → ∃ mem' done', performed mem done calls = .ok (mem', done')
      ∧ mem'.Holds (contents done')
  | [], done, mem, h => ⟨mem, done, rfl, h⟩
  | call :: calls, done, mem, h => by
    rw [WriteCallback.performed]
    cases hptr : mem.grown call with
    | none =>
      rw [writeCallback_failed hptr]
      exact h.performed
    | some ptr =>
      obtain ⟨hcall, hlt⟩ := h.append hptr
      rw [hcall]
      rw [← contents_snoc] at hlt ⊢
      exact (holds_of_response hlt).performed

/-- Whatever calls curl makes and wherever memory runs out, no call writes outside the array.  A
call that gets memory leaves in it the data of all calls that did, with a terminator, and a call
that gets none leaves the array and its length as they were. -/
theorem writeCallback_accumulates (granted : Bool) (calls : List Callback) :
    ∃ mem done, performed (initialChunk granted) [] calls = .ok (mem, done) ∧ ∀ call,
      (mem.grown call ≠ none → ∃ mem', writeCallback mem call
          = .ok (call.size * call.nmemb, mem')
        ∧ mem'.response = some ((contents (done ++ [call]) ++ [0]).map some)
        ∧ mem'.filesize = (contents (done ++ [call])).length)
      ∧ (mem.grown call = none → writeCallback mem call = .ok (0, mem)) := by
  have hstart : (initialChunk granted).Holds (contents []) := holds_initialChunk granted
  obtain ⟨mem, done, hrun, hmem⟩ := hstart.performed
  refine ⟨mem, done, hrun, fun call => ⟨fun hsome => ?_, writeCallback_failed⟩⟩
  obtain ⟨ptr, hptr⟩ := Option.ne_none_iff_exists'.mp hsome
  obtain ⟨hcall, -⟩ := hmem.append hptr
  rw [call.data_length, ← contents_snoc] at hcall
  exact ⟨_, hcall, rfl, rfl⟩

/-- The buffer from which the body is sent holds the chunks for which there was memory. -/
theorem performed_received (value : UInt8) {done : List Callback}
    (hrun : performed (initialChunk granted) [] calls = .ok (mem, done)) :
    (mem.response.getD []).take mem.filesize
      = (Handlers.received value (done.map Callback.data)).filled.map some := by
  have hstart : (initialChunk granted).Holds (contents []) := holds_initialChunk granted
  obtain ⟨mem', done', hrun', hmem⟩ := hstart.performed
  obtain ⟨rfl, rfl⟩ := Prod.mk.inj (Except.ok.inj (hrun.symm.trans hrun'))
  obtain ⟨hsize, b, hresponse⟩ := Handlers.received_eq value (done.map Callback.data)
  rw [hmem.filled, Handlers.Customdata.filled, hsize, hresponse, List.take_left' rfl]
  rfl

end FileServices.WriteCallback
