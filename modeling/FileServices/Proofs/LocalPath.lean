import FileServices.Lib.Path
import FileServices.LocalPath

/-!
# When a download takes the name of another

The number at the end of a name tells the names apart as long as it is there.  A name that does not
fit the buffer loses its end, and the number with it (`localPaths_distinct_iff`).
-/

namespace FileServices.LocalPath

open CString

variable {t u reqPath : Bytes} {i j counter : ℕ} {paths : List Bytes}

/-! ### The numbers -/

theorem isDigit_of_mem_suffix {b : UInt8}
    (h : b ∈ List.replicate (6 - (decimal counter).length) 48 ++ decimal counter) :
    isDigit b = true := by
  rcases List.mem_append.mp h with h | h
  · rw [List.eq_of_mem_replicate h]
    decide
  · exact isDigit_of_mem_decimal h

theorem underscore_notMem : (95 : UInt8) ∉ (suffix counter).tail := fun h =>
  absurd (isDigit_of_mem_suffix h) (by decide)

theorem decimalValue_zeros (k : ℕ) (ds : Bytes) :
    decimalValue (List.replicate k 48 ++ ds) = decimalValue ds := by
  induction k with
  | zero => rfl
  | succ k ih =>
    rw [← ih, List.replicate_succ, List.cons_append, decimalValue, List.reverse_cons,
      List.map_append, Nat.ofDigits_append]
    simp [decimalValue]

/-- A number that is printed whole is there to be read. -/
theorem suffix_injective : Function.Injective suffix := by
  intro i j h
  have hdigits := congrArg decimalValue (List.append_cancel_left h)
  rwa [decimalValue_zeros, decimalValue_zeros, decimalValue_decimal, decimalValue_decimal]
    at hdigits

theorem marked_append_inj {mark : UInt8} (hmark : isDigit mark = false) {x y ds ds' : Bytes}
    (hds : ∀ b ∈ ds, isDigit b = true) (hds' : ∀ b ∈ ds', isDigit b = true)
    (h : x ++ mark :: ds = y ++ mark :: ds') : x = y ∧ ds = ds' := by
  have hinside : ∀ {a es es' : Bytes}, (∀ b ∈ es, isDigit b = true) →
      mark :: es = a ++ mark :: es' → a = [] ∧ es = es' := by
    intro a es es' hes heq
    rcases a with _ | ⟨b, a⟩
    · exact ⟨rfl, (List.cons.inj heq).2⟩
    · have hmem : mark ∈ es := by
        rw [(List.cons.inj heq).2]
        exact List.mem_append_right a List.mem_cons_self
      rw [hes mark hmem] at hmark
      cases hmark
  rcases List.append_eq_append_iff.mp h with ⟨a, rfl, ht⟩ | ⟨a, rfl, ht⟩
  · obtain ⟨rfl, rfl⟩ := hinside hds ht
    exact ⟨(List.append_nil x).symm, rfl⟩
  · obtain ⟨rfl, rfl⟩ := hinside hds' ht
    exact ⟨List.append_nil y, rfl⟩

/-- Names with different numbers behind a mark lead to different files. -/
theorem number_of_resolve {mark : UInt8} (hmark : isDigit mark = false) (hslash : mark ≠ 47)
    (h : Path.resolve (t ++ mark :: (List.replicate (6 - (decimal i).length) 48 ++ decimal i))
      = Path.resolve (u ++ mark :: (List.replicate (6 - (decimal j).length) 48 ++ decimal j))) :
    i = j := by
  have hbase : ∀ k, (0x2f : UInt8) ∉ mark :: (List.replicate (6 - (decimal k).length) 48
      ++ decimal k) := fun k hmem => by
    rcases List.mem_cons.mp hmem with hmem | hmem
    · exact hslash hmem.symm
    · exact absurd (isDigit_of_mem_suffix hmem) (by decide)
  have hlen : ∀ k, 3 ≤ (mark :: (List.replicate (6 - (decimal k).length) 48
      ++ decimal k)).length := fun k => by
    simp only [List.length_cons, List.length_append, List.length_replicate]
    omega
  obtain ⟨before, hbefore⟩ := Path.exists_last t
  obtain ⟨before', hbefore'⟩ := Path.exists_last u
  have hlast := (hbefore _ (hbase i) (hlen i)).symm.trans
    ((congrArg (fun p => p.names.getLast?) h).trans (hbefore' _ (hbase j) (hlen j)))
  obtain ⟨-, hdigits⟩ := marked_append_inj hmark (fun b hb => isDigit_of_mem_suffix hb)
    (fun b hb => isDigit_of_mem_suffix hb) (Option.some.inj hlast)
  exact suffix_injective (congrArg (ascii "_" ++ ·) hdigits)

/-! ### The names of two requests -/

/-- What the request with the number `j` for `u` after the first byte does to that with the number
`i` for `t`: it has the same path and a number that is no different in what is left of the buffer,
or its path fills the buffer and is the other one's local name. -/
def Clash (t : Bytes) (i : ℕ) (u : Bytes) (j : ℕ) : Prop :=
  t = u ∧ (suffix i).take (255 - t.length) = (suffix j).take (255 - t.length)
    ∨ u.length = 255 ∧ u = t ++ (suffix i).take (255 - t.length)

theorem take_append_suffix (ht : t.length ≤ 255) (i : ℕ) :
    (t ++ suffix i).take 255 = t ++ (suffix i).take (255 - t.length) := by
  rw [List.take_append, List.take_of_length_le ht]

/-- The longer path goes on where the other one's number starts, which holds no underscore behind
its first byte. -/
theorem clash_of_take_eq (hu : u.length ≤ 255) {a : Bytes} (ha : u = t ++ a)
    (h : (suffix i).take (255 - t.length) = a ++ (suffix j).take (255 - u.length)) :
    Clash t i u j := by
  rcases a with _ | ⟨c, a⟩
  · rw [List.append_nil] at ha
    subst ha
    exact .inl ⟨rfl, h⟩
  · rcases Nat.lt_or_eq_of_le hu with hlt | hfull
    · exfalso
      obtain ⟨k, hk⟩ : ∃ k, 255 - u.length = k + 1 := ⟨255 - u.length - 1, by omega⟩
      have hmem : (95 : UInt8) ∈ ((suffix i).take (255 - t.length)).tail := by
        rw [h, hk, List.cons_append, List.tail_cons]
        exact List.mem_append_right a List.mem_cons_self
      rw [← List.drop_one, List.drop_take, List.drop_one] at hmem
      exact underscore_notMem (List.mem_of_mem_take hmem)
    · rw [hfull, Nat.sub_self, List.take_zero, List.append_nil] at h
      exact .inr ⟨hfull, by rw [h]; exact ha⟩

theorem take_eq_of_clash (h : Clash t i u j) (ht : t.length ≤ 255) :
    (t ++ suffix i).take 255 = (u ++ suffix j).take 255 := by
  rcases h with ⟨rfl, hsame⟩ | ⟨hfull, hname⟩
  · rw [take_append_suffix ht, take_append_suffix ht, hsame]
  · rw [take_append_suffix ht, ← hname, List.take_append_of_le_length hfull.ge,
      List.take_of_length_le hfull.le]

theorem localName_eq_iff (ht : t.length ≤ 255) (hu : u.length ≤ 255) :
    (t ++ suffix i).take 255 = (u ++ suffix j).take 255 ↔ Clash t i u j ∨ Clash u j t i := by
  constructor
  · intro h
    rw [take_append_suffix ht, take_append_suffix hu] at h
    rcases List.append_eq_append_iff.mp h with ⟨a, hu', hi⟩ | ⟨a, ht', hj⟩
    · exact .inl (clash_of_take_eq hu hu' hi)
    · exact .inr (clash_of_take_eq ht ht' hj)
  · rintro (h | h)
    · exact take_eq_of_clash h ht
    · exact (take_eq_of_clash h hu).symm

/-! ### The names of all requests -/

theorem requestLoop_eq : ∀ (paths : List Bytes) (counter : ℕ),
    (∀ reqPath ∈ paths, reqPath.length ≤ 256) →
      requestLoop counter paths = (paths.zipIdx counter).map fun p => localPath p.1 p.2
  | [], _, _ => rfl
  | reqPath :: paths, counter, hadmits => by
    rw [requestLoop, if_neg (not_lt.mpr (hadmits reqPath List.mem_cons_self)),
      requestLoop_eq paths (counter + 1) fun p hp => hadmits p (List.mem_cons_of_mem reqPath hp)]
    rfl

theorem nodup_requestLoop_iff (hadmits : ∀ reqPath ∈ paths, reqPath.length ≤ 256) :
    (requestLoop 0 paths).Nodup ↔ ∀ i j, ∀ hi : i < paths.length, ∀ hj : j < paths.length, i ≠ j →
      ¬ Clash (paths[i]).tail i (paths[j]).tail j := by
  have htail : ∀ {i : ℕ} (hi : i < paths.length), (paths[i]).tail.length ≤ 255 := by
    intro i hi
    have := hadmits paths[i] (List.getElem_mem hi)
    rw [List.length_tail]
    omega
  rw [requestLoop_eq paths 0 hadmits, List.nodup_iff_injective_getElem]
  constructor
  · intro hinj i j hi hj hne hclash
    refine hne (congrArg Fin.val (@hinj ⟨i, by simpa using hi⟩ ⟨j, by simpa using hj⟩ ?_))
    simpa [localPath, pathBufferSize] using take_eq_of_clash hclash (htail hi)
  · rintro hclash ⟨i, hi⟩ ⟨j, hj⟩ heq
    have hi' : i < paths.length := by simpa using hi
    have hj' : j < paths.length := by simpa using hj
    have hname : ((paths[i]).tail ++ suffix i).take 255
        = ((paths[j]).tail ++ suffix j).take 255 := by
      simpa [localPath, pathBufferSize] using heq
    by_contra hne
    have hij : i ≠ j := fun h => hne (Fin.ext h)
    rcases (localName_eq_iff (htail hi') (htail hj')).mp hname with h | h
    · exact hclash i j hi' hj' hij h
    · exact hclash j i hj' hi' hij.symm h

/-- Any sequence of paths that the workload client admits goes to different local files just when
no two of its requests clash. -/
theorem localPaths_distinct_iff (paths : List Bytes)
    (hadmits : ∀ reqPath ∈ paths, reqPath ≠ [] ∧ reqPath.length ≤ 256) :
    (requestLoop 0 paths).Nodup ↔ ∀ i j, ∀ hi : i < paths.length, ∀ hj : j < paths.length, i ≠ j →
      ¬ Clash (paths[i]).tail i (paths[j]).tail j :=
  nodup_requestLoop_iff fun reqPath h => (hadmits reqPath h).2

theorem localPaths_distinct_iff_two : (requestLoop 0 [ascii "/a", ascii "/a"]).Nodup ↔
    ∀ i j, ∀ hi : i < [ascii "/a", ascii "/a"].length, ∀ hj : j < [ascii "/a", ascii "/a"].length,
      i ≠ j → ¬ Clash ([ascii "/a", ascii "/a"][i]).tail i ([ascii "/a", ascii "/a"][j]).tail j :=
  localPaths_distinct_iff _ (by decide)

theorem nodup_twice (hlen : reqPath.length = 256) :
    ¬ (requestLoop 0 [reqPath, reqPath]).Nodup := by
  have htail : reqPath.tail.length = 255 := by
    rw [List.length_tail, hlen]
  rw [nodup_requestLoop_iff (by simp [hlen])]
  intro h
  refine h 0 1 (by simp) (by simp) (by simp) (.inl ⟨rfl, ?_⟩)
  simp [htail]

/-- A path of 256 bytes is asked for twice: both times the number is cut off whole. -/
theorem localPaths_same : ¬ (requestLoop 0
    [ascii "/" ++ List.replicate 255 97, ascii "/" ++ List.replicate 255 97]).Nodup :=
  nodup_twice (by rw [List.length_append, List.length_replicate]; rfl)

end FileServices.LocalPath
