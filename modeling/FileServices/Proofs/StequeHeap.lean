import FileServices.StequeHeap

/-!
# The steque refines the list of its items

The nodes from `front` on are a list on the heap (`Shape`).  `back` is its last node and `N` its
length, so the three tests for an empty steque agree.
-/

namespace FileServices.StequeHeap

open Linked (Seg seg_nil seg_cons seg_snoc)

variable {π α : Type} {this : State π α} {cells : List (π × α)}

structure Shape (this : State π α) (cells : List (π × α)) : Prop where
  nodes : Seg this.heap this.front cells none
  back : this.back = cells.getLast?.map Prod.fst
  size : this.N = cells.length

namespace Shape

theorem front_isNone (h : Shape this cells) : this.front = none ↔ cells = [] := by
  rcases cells with _ | ⟨⟨a, x⟩, cells⟩
  · simpa using h.nodes
  · simp [h.nodes.1]

theorem back_isNone (h : Shape this cells) : this.back = none ↔ cells = [] := by
  simp [h.back]

theorem N_eq_zero (h : Shape this cells) : this.N = 0 ↔ cells = [] := by
  simp [h.size]

/-- The node that `back` points to is the end of the list. -/
theorem next_back (h : Shape this cells) {b : π} (hb : this.back = some b) :
    ∃ item, this.heap b = some ⟨item, none⟩ := by
  rcases List.eq_nil_or_concat' cells with rfl | ⟨pre, ⟨c, x⟩, rfl⟩
  · simp [h.back] at hb
  · obtain rfl : c = b := by simpa [h.back] using hb
    exact ⟨x, (seg_snoc.mp h.nodes).2⟩

variable [DecidableEq π] {node : π} {item : α}

omit [DecidableEq π] in
/-- The count goes last in each operation; it is in range where the length is. -/
theorem setN (this' : State π α) (cells' : List (π × α)) {n : ℤ}
    (hnodes : Seg this'.heap this'.front cells' none)
    (hback : this'.back = cells'.getLast?.map Prod.fst) (hn : n = cells'.length)
    (hfew : cells'.length < 2 ^ 31) :
    this'.setN n = .ok { this' with N := n } ∧ Shape { this' with N := n } cells' := by
  refine ⟨State.setN_of_mem ?_, hnodes, hback, hn⟩
  simp only [intMin, intMax]
  omega

theorem enqueue (h : Shape this cells) (hfresh : this.heap node = none)
    (hfew : (cells ++ [(node, item)]).length < 2 ^ 31) : ∃ this',
      stequeEnqueue node item this = .ok this' ∧ Shape this' (cells ++ [(node, item)]) := by
  have hN : this.N + 1 = (cells ++ [(node, item)]).length := by simp [h.size]
  have hmem := h.nodes.notMem hfresh
  have hnodes := h.nodes.update_of_notMem hmem (some ⟨item, none⟩)
  rcases List.eq_nil_or_concat' cells with rfl | ⟨pre, ⟨b, x⟩, rfl⟩
  · rw [stequeEnqueue_of_empty (h.back_isNone.mpr rfl)]
    have hnew : Seg (this.store node ⟨item, none⟩).heap (some node) [(node, item)] none :=
      ⟨rfl, none, Function.update_self .., rfl⟩
    exact ⟨_, setN _ _ hnew rfl hN hfew⟩
  · have hb := (seg_snoc.mp hnodes).2
    rw [stequeEnqueue_of_back (by simp [h.back]) hb]
    have hbn : node ≠ b := by
      rintro rfl
      simp at hmem
    have hrelinked := hnodes.relink (r := some node) h.nodes.last_notMem
    refine ⟨_, setN _ _ (seg_snoc.mpr ⟨hrelinked, ?_⟩) (by simp) hN hfew⟩
    exact (Function.update_of_ne hbn _ _).trans (Function.update_self ..)

theorem push (h : Shape this cells) (hfresh : this.heap node = none)
    (hfew : ((node, item) :: cells).length < 2 ^ 31) : ∃ this',
      stequePush node item this = .ok this' ∧ Shape this' ((node, item) :: cells) := by
  have hnodes := h.nodes.update_of_notMem (h.nodes.notMem hfresh) (some ⟨item, this.front⟩)
  have hN : this.N + 1 = ((node, item) :: cells).length := by simp [h.size]
  rw [stequePush_eq]
  refine ⟨_, setN _ _ ⟨rfl, _, Function.update_self .., hnodes⟩ ?_ hN hfew⟩
  rcases List.eq_nil_or_concat' cells with rfl | ⟨pre, c, rfl⟩
  · simp [h.back]
  · simp [h.back, List.getLast?_cons]

theorem pop {c : π × α} (h : Shape this (c :: cells)) (hfew : (c :: cells).length < 2 ^ 31) :
    ∃ this', stequePop this = .ok (c.2, this') ∧ Shape this' cells
      ∧ this'.freed = this.freed ++ [c.1]
      ∧ this'.heap = Function.update this.heap c.1 none := by
  obtain ⟨a, x⟩ := c
  obtain ⟨hfront, next, hnext, hs⟩ := h.nodes
  have hnodup := h.nodes.nodup
  rw [List.map_cons, List.nodup_cons] at hnodup
  rw [stequePop_of_front hfront hnext]
  have hN : this.N - 1 = cells.length := by simp [h.size]
  have hback : (if next.isNone then none else this.back) = cells.getLast?.map Prod.fst := by
    rcases cells with _ | ⟨c, cells⟩
    · simp [seg_nil.mp hs]
    · simp [hs.1, h.back]
  have hset := setN { this with
      front := next
      back := if next.isNone then none else this.back
      heap := Function.update this.heap a none
      freed := this.freed ++ [a] } cells (hs.update_of_notMem hnodup.1 none) hback hN
    ((Nat.lt_succ_self _).trans hfew)
  exact ⟨_, by rw [hset.1]; rfl, hset.2, rfl, rfl⟩

omit [DecidableEq π] in
theorem front_nil (h : Shape this []) : stequeFront this = .error .exit := by
  rw [stequeFront, h.front_isNone.mpr rfl]

theorem pop_nil (h : Shape this []) : stequePop this = .error .exit := by
  rw [stequePop, h.front_isNone.mpr rfl]

theorem cycle_cons {c : π × α} (h : Shape this (c :: cells)) : ∃ this',
    stequeCycle this = .ok this' ∧ Shape this' (cells ++ [c]) := by
  obtain ⟨a, x⟩ := c
  obtain ⟨hfront, next, hnext, hs⟩ := h.nodes
  have hnodup := h.nodes.nodup
  rw [List.map_cons, List.nodup_cons] at hnodup
  have hsize : this.N = (cells ++ [(a, x)]).length := by simp [h.size]
  rcases List.eq_nil_or_concat' cells with rfl | ⟨mid, ⟨b, y⟩, rfl⟩
  · -- the one node is for a moment its own successor
    have hback : this.back = some a := by simp [h.back]
    exact ⟨_, stequeCycle_of_back hfront hback hnext (Function.update_self ..),
      ⟨rfl, none, Function.update_self .., rfl⟩, by simp, hsize⟩
  · have hback : this.back = some b := by
      rw [h.back, ← List.cons_append, List.getLast?_concat]
      rfl
    have hab : a ≠ b := by
      rintro rfl
      simp at hnodup
    refine ⟨_, stequeCycle_of_back hfront hback (seg_snoc.mp hs).2
      ((Function.update_of_ne hab _ _).trans hnext), seg_snoc.mpr ⟨?_, Function.update_self ..⟩,
      by simp, hsize⟩
    exact (hs.relink hs.last_notMem).update_of_notMem hnodup.1 _

theorem cycle (h : Shape this cells) : ∃ this',
    stequeCycle this = .ok this' ∧ Shape this' (cells.rotate 1) := by
  rcases cells with _ | ⟨c, cells⟩
  · exact ⟨this, by rw [stequeCycle, h.back_isNone.mpr rfl], h⟩
  · simpa using h.cycle_cons

omit [DecidableEq π] in
theorem front {c : π × α} (h : Shape this (c :: cells)) : stequeFront this = .ok c.2 := by
  obtain ⟨hfront, next, hnext, -⟩ := h.nodes
  simp only [stequeFront, hfront, State.load_of_heap hnext]
  rfl

/-- The loop of `steque_destroy` goes round once for each node, and frees it there. -/
theorem destroy : ∀ {cells : List (π × α)} {this : State π α}, Shape this cells →
    cells.length < 2 ^ 31 → ∃ this', stequeDestroy this = .ok this' ∧ Shape this' []
      ∧ this'.freed = this.freed ++ cells.map Prod.fst
      ∧ ∀ a, this'.heap a = if a ∈ cells.map Prod.fst then none else this.heap a
  | [], this, h, _ => ⟨this, stequeDestroy_of_isempty (h.N_eq_zero.mpr rfl), h, by simp, by simp⟩
  | c :: cells, this, h, hfew => by
    obtain ⟨this', hpop, hshape, hfreed, hheap⟩ := h.pop hfew
    obtain ⟨this'', hdestroy, hshape', hfreed', hheap'⟩ :=
      hshape.destroy ((Nat.lt_succ_self _).trans hfew)
    have hN : this.N ≠ 0 := fun hN => List.cons_ne_nil _ _ (h.N_eq_zero.mp hN)
    refine ⟨this'', (stequeDestroy_of_pop hN hpop).trans hdestroy, hshape', ?_, fun a => ?_⟩
    · simp [hfreed', hfreed]
    · rw [hheap', hheap, List.map_cons]
      by_cases ha : a = c.1
      · simp [ha]
      · simp only [Function.update_of_ne ha, List.mem_cons, ha, false_or]

/-- One call on the heap and the same call on the list. -/
theorem call (h : Shape this cells) (hlen : cells.length < 2 ^ 31) (c : Call π α)
    (hfresh : ∀ node, c.node = some node → this.heap node = none)
    (hfew : ∀ value items, listCall c (cells.map Prod.snd) = some (value, items) →
      items.length < 2 ^ 31) :
    (∃ value this' cells', StequeHeap.call this c = .ok (value, this')
      ∧ listCall c (cells.map Prod.snd) = some (value, cells'.map Prod.snd) ∧ Shape this' cells')
    ∨ StequeHeap.call this c = .error .exit ∧ listCall c (cells.map Prod.snd) = none := by
  cases c with
  | init => exact .inl ⟨_, _, [], rfl, rfl, rfl, rfl, rfl⟩
  | enqueue node item =>
    have hlist : listCall (.enqueue node item) (cells.map Prod.snd)
        = some (.void, (cells ++ [(node, item)]).map Prod.snd) := by
      simp [listCall, FileServices.stequeEnqueue]
    obtain ⟨this', hcall, hshape⟩ := h.enqueue (hfresh node rfl) (by simpa using hfew _ _ hlist)
    exact .inl ⟨_, this', _, by rw [StequeHeap.call, hcall]; rfl, hlist, hshape⟩
  | push node item =>
    have hlist : listCall (.push node item) (cells.map Prod.snd)
        = some (.void, ((node, item) :: cells).map Prod.snd) := rfl
    obtain ⟨this', hcall, hshape⟩ := h.push (hfresh node rfl) (by simpa using hfew _ _ hlist)
    exact .inl ⟨_, this', _, by rw [StequeHeap.call, hcall]; rfl, hlist, hshape⟩
  | pop =>
    rcases cells with _ | ⟨c, cells⟩
    · exact .inr ⟨by rw [StequeHeap.call, h.pop_nil]; rfl, rfl⟩
    · obtain ⟨this', hcall, hshape, -⟩ := h.pop hlen
      exact .inl ⟨_, this', cells, by rw [StequeHeap.call, hcall]; rfl, rfl, hshape⟩
  | cycle =>
    obtain ⟨this', hcall, hshape⟩ := h.cycle
    exact .inl ⟨_, this', _, by rw [StequeHeap.call, hcall]; rfl,
      by rw [listCall, List.map_rotate], hshape⟩
  | front =>
    rcases cells with _ | ⟨c, cells⟩
    · exact .inr ⟨by rw [StequeHeap.call, h.front_nil]; rfl, rfl⟩
    · exact .inl ⟨_, this, c :: cells, by rw [StequeHeap.call, h.front]; rfl, rfl, h⟩
  | isempty =>
    refine .inl ⟨_, this, cells, rfl, ?_, h⟩
    simp only [listCall, stequeIsempty, h.N_eq_zero, FileServices.stequeIsempty_iff,
      List.map_eq_nil_iff]
  | size => exact .inl ⟨_, this, cells, rfl, by simp [listCall, stequeSize, h.size], h⟩
  | destroy =>
    obtain ⟨this', hcall, hshape, -⟩ := h.destroy hlen
    exact .inl ⟨_, this', [], by rw [StequeHeap.call, hcall]; rfl, rfl, hshape⟩

theorem calls : ∀ (cs : List (Call π α)) {this : State π α} {cells : List (π × α)},
    Shape this cells → cells.length < 2 ^ 31 → Fresh cs this → Few cs (cells.map Prod.snd) →
    (∃ values this' cells', StequeHeap.calls cs this = .ok (values, this')
      ∧ listCalls cs (cells.map Prod.snd) = some (values, cells'.map Prod.snd)
      ∧ Shape this' cells' ∧ cells'.length < 2 ^ 31)
    ∨ StequeHeap.calls cs this = .error .exit ∧ listCalls cs (cells.map Prod.snd) = none
  | [], this, cells, h, hlen, _, _ => .inl ⟨[], this, cells, rfl, rfl, h, hlen⟩
  | c :: cs, this, cells, h, hlen, hfresh, hfew => by
    rcases h.call hlen c hfresh.1 fun value items hlist => (hfew value items hlist).1 with
      ⟨value, this', cells', hcall, hlist, hshape⟩ | ⟨hcall, hlist⟩
    · obtain ⟨hlen', hfew'⟩ := hfew _ _ hlist
      rw [List.length_map] at hlen'
      rcases calls cs hshape hlen' (hfresh.2 _ _ hcall) hfew' with
        ⟨values, this'', cells'', hcalls, hlists, hrest⟩ | ⟨hcalls, hlists⟩
      · refine .inl ⟨value :: values, this'', cells'', ?_, ?_, hrest⟩
        · simp [StequeHeap.calls, hcall, hcalls, bind, Except.bind]
        · simp [listCalls, hlist, hlists]
      · refine .inr ⟨?_, ?_⟩
        · simp [StequeHeap.calls, hcall, hcalls, bind, Except.bind]
        · simp [listCalls, hlist, hlists]
    · exact .inr ⟨by simp [StequeHeap.calls, hcall, bind, Except.bind], by simp [listCalls, hlist]⟩

theorem pop_eq_exit (h : Shape this cells) (hlen : cells.length < 2 ^ 31) :
    stequePop this = .error .exit ↔ cells = [] := by
  rcases cells with _ | ⟨c, cells⟩
  · simp [h.pop_nil]
  · obtain ⟨this', hpop, -⟩ := h.pop hlen
    simp [hpop]

omit [DecidableEq π] in
theorem front_eq_exit (h : Shape this cells) :
    stequeFront this = .error .exit ↔ cells = [] := by
  rcases cells with _ | ⟨c, cells⟩
  · simp [h.front_nil]
  · simp [h.front]

end Shape

variable [DecidableEq π]

/-- After any calls that `steque_init` comes before, the nodes from `front` on hold the items of
the list on which the same calls were made, and `steque_destroy` frees each of them once.  The
process has ended where a call asked the empty list for an item, and only there. -/
theorem steque_refines_list {cs : List (Call π α)} {this₀ : State π α}
    (hfresh : Fresh (.init :: cs) this₀) (hfew : Few cs []) :
    match listCalls cs [] with
    | none => calls (.init :: cs) this₀ = .error .exit
    | some (values, items) => ∃ this cells, calls (.init :: cs) this₀ = .ok (.void :: values, this)
      ∧ cells.map Prod.snd = items
      ∧ Seg this.heap this.front cells none
      ∧ (cells.map Prod.fst).Nodup ∧ this.N = cells.length
      ∧ this.back = (cells.map Prod.fst).getLast?
      ∧ (∀ b, this.back = some b → ∃ item, this.heap b = some ⟨item, none⟩)
      ∧ (this.front = none ↔ this.back = none) ∧ (this.back = none ↔ this.N = 0)
      ∧ (stequePop this = .error .exit ↔ items = [])
      ∧ (stequeFront this = .error .exit ↔ items = [])
      ∧ ∃ this', stequeDestroy this = .ok this' ∧ this'.freed = this.freed ++ cells.map Prod.fst
        ∧ ∀ a, this'.heap a = if a ∈ cells.map Prod.fst then none else this.heap a := by
  have hcons : calls (.init :: cs) this₀
      = (calls cs (stequeInit this₀)).map fun r => (.void :: r.1, r.2) := by
    rcases hrun : calls cs (stequeInit this₀) with fault | ⟨values, this⟩
    · simp [calls, call, hrun, bind, Except.bind, Except.map]
    · simp [calls, call, hrun, bind, Except.bind, Except.map]
  have hinit : Shape (stequeInit this₀) [] := ⟨rfl, rfl, rfl⟩
  rw [hcons]
  rcases hinit.calls cs (by simp) (hfresh.2 _ _ rfl) hfew with
    ⟨values, this, cells, hrun, hlist, h, hlen⟩ | ⟨hrun, hlist⟩
  · rw [List.map_nil] at hlist
    obtain ⟨this', hdestroy, -, hfreed, hheap⟩ := h.destroy hlen
    simp only [hlist, List.map_eq_nil_iff]
    refine ⟨this, cells, by rw [hrun]; rfl, rfl, h.nodes, h.nodes.nodup, h.size, ?_,
      fun b => h.next_back, h.front_isNone.trans h.back_isNone.symm,
      h.back_isNone.trans h.N_eq_zero.symm, h.pop_eq_exit hlen, h.front_eq_exit,
      this', hdestroy, hfreed, hheap⟩
    rw [h.back, List.getLast?_map]
  · rw [List.map_nil] at hlist
    simp only [hlist, hrun]
    rfl

/-- One item enqueued and one pushed, the steque turned round, and one popped. -/
theorem steque_refines_list_popped :
    ∃ this, ∃ cells : List (ℕ × ℕ),
      calls [.init, .enqueue 0 5, .push 1 7, .cycle, .pop] ⟨some 3, none, 9, fun _ => none, []⟩
        = .ok ([.void, .void, .void, .void, .item 5], this)
      ∧ cells.map Prod.snd = [7] ∧ this.N = cells.length := by
  have hfresh : Fresh [.init, .enqueue 0 5, .push 1 7, .cycle, .pop]
      (⟨some 3, none, 9, fun _ => none, []⟩ : State ℕ ℕ) := by
    refine .cons ?_ rfl (.cons ?_ rfl (.cons ?_ rfl (.cons ?_ rfl (.cons ?_ rfl trivial))))
    all_goals
      rintro _ ⟨⟩
    · rfl
    · rfl
  have hfew : Few ([.enqueue 0 5, .push 1 7, .cycle, .pop] : List (Call ℕ ℕ)) [] := by
    simp [Few, listCall, FileServices.stequeEnqueue]
  obtain ⟨this, cells, hcalls, hitems, -, -, hN, -⟩ := steque_refines_list hfresh hfew
  exact ⟨this, cells, hcalls, hitems, hN⟩

end FileServices.StequeHeap
