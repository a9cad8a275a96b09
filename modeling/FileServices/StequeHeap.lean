import FileServices.Lib.Linked
import FileServices.Steque

/-!
# The steque on the heap

The operations of `steque.c` on the pointers of a `steque_t` and the nodes they lead to.  The
two copies of the file differ only in the status that an underflow exits with.
-/

namespace FileServices.StequeHeap

open Linked (Heap Node)

variable {π α : Type} [DecidableEq π]

/-- What ends a call early: `exit` after the message about an underflow, or an access that C
leaves undefined (through a null pointer or one to no node, or an `int` out of its range). -/
inductive Fault
  | exit | undefined
  deriving DecidableEq

/-- The fields of a `steque_t`, the nodes in use, and the addresses that `free` was called with,
in order. -/
structure State (π α : Type) where
  front : Option π
  back : Option π
  N : ℤ
  heap : Heap π α
  freed : List π

def intMin : ℤ := -2 ^ 31
def intMax : ℤ := 2 ^ 31 - 1

namespace State

variable (this : State π α)

/-- Access to the node that `p` points to. -/
def load (p : Option π) : Except Fault (Node π α) :=
  match p.bind this.heap with
  | some node => .ok node
  | none => .error .undefined

def store (p : π) (node : Node π α) : State π α :=
  { this with heap := Function.update this.heap p (some node) }

/-- `p->next = next` -/
def setNext (p : Option π) (next : Option π) : Except Fault (State π α) :=
  match p, this.load p with
  | some p, .ok node => .ok (this.store p { node with next := next })
  | _, _ => .error .undefined

def free (p : π) : Except Fault (State π α) :=
  match this.heap p with
  | some _ => .ok { this with heap := Function.update this.heap p none, freed := this.freed ++ [p] }
  | none => .error .undefined

def setN (n : ℤ) : Except Fault (State π α) :=
  if intMin ≤ n ∧ n ≤ intMax then .ok { this with N := n } else .error .undefined

variable {this} {p : π} {node : Node π α} {n : ℤ}

omit [DecidableEq π] in
theorem load_of_heap (h : this.heap p = some node) : this.load (some p) = .ok node := by
  simp [load, h]

theorem setNext_of_heap (h : this.heap p = some node) (next : Option π) :
    this.setNext (some p) next = .ok (this.store p { node with next := next }) := by
  simp [setNext, load_of_heap h]

omit [DecidableEq π] in
theorem setN_of_mem (h : intMin ≤ n ∧ n ≤ intMax) : this.setN n = .ok { this with N := n } :=
  if_pos h

end State

def stequeInit (this : State π α) : State π α :=
  { this with front := none, back := none, N := 0 }

/-- `node` is the address that `malloc` returns. -/
def stequeEnqueue (node : π) (item : α) (this : State π α) : Except Fault (State π α) := do
  let this := this.store node ⟨item, none⟩
  let this ← match this.back with
    | none => .ok { this with front := some node }
    | some back => this.setNext (some back) (some node)
  let this := { this with back := some node }
  this.setN (this.N + 1)

theorem stequeEnqueue_of_empty {node : π} {item : α} {this : State π α}
    (hback : this.back = none) : stequeEnqueue node item this =
      State.setN { this.store node ⟨item, none⟩ with front := some node, back := some node }
        (this.N + 1) := by
  simp only [stequeEnqueue, State.store, hback]
  rfl

theorem stequeEnqueue_of_back {node b : π} {item : α} {cell : Node π α} {this : State π α}
    (hback : this.back = some b) (hb : (this.store node ⟨item, none⟩).heap b = some cell) :
    stequeEnqueue node item this = State.setN { (this.store node ⟨item, none⟩).store b
      { cell with next := some node } with back := some node } (this.N + 1) := by
  have hback' : (this.store node ⟨item, none⟩).back = some b := hback
  simp only [stequeEnqueue, hback', State.setNext_of_heap hb]
  rfl

def stequePush (node : π) (item : α) (this : State π α) : Except Fault (State π α) :=
  let this := this.store node ⟨item, this.front⟩
  let this := if this.back.isNone then { this with back := some node } else this
  let this := { this with front := some node }
  this.setN (this.N + 1)

theorem stequePush_eq {node : π} {item : α} {this : State π α} :
    stequePush node item this = State.setN { this.store node ⟨item, this.front⟩ with
      front := some node
      back := if this.back.isNone then some node else this.back } (this.N + 1) := by
  rcases hback : this.back with _ | b
  · simp [stequePush, State.store, hback]
  · simp [stequePush, State.store, hback]

def stequeSize (this : State π α) : ℤ := this.N

def stequeIsempty (this : State π α) : ℤ := if this.N = 0 then 1 else 0

def stequePop (this : State π α) : Except Fault (α × State π α) :=
  match this.front with
  | none => .error .exit
  | some node => do
    let ans := (← this.load (some node)).item
    let this := { this with front := (← this.load this.front).next }
    let this := if this.front.isNone then { this with back := none } else this
    let this ← this.free node
    let this ← this.setN (this.N - 1)
    .ok (ans, this)

def stequeCycle (this : State π α) : Except Fault (State π α) :=
  match this.back with
  | none => .ok this
  | some back => do
    let this ← this.setNext (some back) this.front
    let this := { this with back := this.front }
    let this := { this with front := (← this.load this.front).next }
    this.setNext this.back none

theorem stequeCycle_of_back {a b : π} {first last : Node π α} {this : State π α}
    (hfront : this.front = some a) (hback : this.back = some b) (hlast : this.heap b = some last)
    (hfirst : (this.store b { last with next := some a }).heap a = some first) :
    stequeCycle this = .ok { (this.store b { last with next := some a }).store a
      { first with next := none } with front := first.next, back := some a } := by
  have hfirst' : Function.update this.heap b (some ⟨last.item, some a⟩) a = some first := hfirst
  simp only [stequeCycle, hback, hfront, State.setNext_of_heap hlast]
  simp [State.setNext, State.load, State.store, hfront, hfirst', bind, Except.bind]

def stequeFront (this : State π α) : Except Fault α :=
  match this.front with
  | none => .error .exit
  | some node => do
    let node ← this.load (some node)
    .ok node.item

theorem stequePop_of_front {this : State π α} {node : π} {cell : Node π α}
    (hfront : this.front = some node) (hcell : this.heap node = some cell) :
    stequePop this = (State.setN { this with
      front := cell.next
      back := if cell.next.isNone then none else this.back
      heap := Function.update this.heap node none
      freed := this.freed ++ [node] } (this.N - 1)).map (cell.item, ·) := by
  simp only [stequePop, hfront, State.load_of_heap hcell]
  by_cases hnext : cell.next.isNone = true
  · simp [State.free, hcell, hnext, bind, Except.bind, Except.map]
  · simp [State.free, hcell, hnext, bind, Except.bind, Except.map]

/-- `N` is an `int`, so it cannot go down for ever. -/
theorem stequePop_N {this this' : State π α} {ans : α}
    (h : stequePop this = .ok (ans, this')) : intMin < this.N ∧ this'.N = this.N - 1 := by
  rcases hfront : this.front with _ | node
  · simp [stequePop, hfront] at h
  · rcases hcell : this.heap node with _ | cell
    · simp [stequePop, hfront, State.load, hcell, bind, Except.bind] at h
    · rw [stequePop_of_front hfront hcell] at h
      by_cases hN : intMin ≤ this.N - 1 ∧ this.N - 1 ≤ intMax
      · rw [State.setN_of_mem hN] at h
        cases h
        exact ⟨by omega, rfl⟩
      · rw [State.setN, if_neg hN] at h
        cases h

def stequeDestroy (this : State π α) : Except Fault (State π α) :=
  if stequeIsempty this = 1 then .ok this
  else
    match _h : stequePop this with
    | .error fault => .error fault
    | .ok (_, this') => stequeDestroy this'
termination_by (this.N - intMin).toNat
decreasing_by
  have := stequePop_N ‹_›
  omega

theorem stequeDestroy_of_isempty {this : State π α} (hN : this.N = 0) :
    stequeDestroy this = .ok this := by
  rw [stequeDestroy, if_pos (by simp [stequeIsempty, hN])]

theorem stequeDestroy_of_pop {this this' : State π α} {ans : α} (hN : this.N ≠ 0)
    (hpop : stequePop this = .ok (ans, this')) : stequeDestroy this = stequeDestroy this' := by
  rw [stequeDestroy, if_neg (by simp [stequeIsempty, hN])]
  split
  · simp_all
  · simp_all

/-- A call with its arguments, and with what `malloc` returns in it. -/
inductive Call (π α : Type)
  | init
  | enqueue (node : π) (item : α)
  | push (node : π) (item : α)
  | pop | cycle | front | isempty | size | destroy
  deriving DecidableEq

inductive Value (α : Type)
  | void
  | item (item : α)
  | int (n : ℤ)
  deriving DecidableEq

def call (this : State π α) : Call π α → Except Fault (Value α × State π α)
  | .init => .ok (.void, stequeInit this)
  | .enqueue node item => (stequeEnqueue node item this).map (.void, ·)
  | .push node item => (stequePush node item this).map (.void, ·)
  | .pop => (stequePop this).map fun (ans, this) => (.item ans, this)
  | .cycle => (stequeCycle this).map (.void, ·)
  | .front => (stequeFront this).map (.item ·, this)
  | .isempty => .ok (.int (stequeIsempty this), this)
  | .size => .ok (.int (stequeSize this), this)
  | .destroy => (stequeDestroy this).map (.void, ·)

/-- What a sequence of calls returns, up to the one that ends the process. -/
def calls : List (Call π α) → State π α → Except Fault (List (Value α) × State π α)
  | [], this => .ok ([], this)
  | c :: cs, this => do
    let (value, this) ← call this c
    let (values, this) ← calls cs this
    .ok (value :: values, this)

/-! ### On the list of the items -/

def listCall : Call π α → List α → Option (Value α × List α)
  | .init, _ => some (.void, [])
  | .enqueue _ item, items => some (.void, FileServices.stequeEnqueue items item)
  | .push _ item, items => some (.void, item :: items)
  | .pop, items => (FileServices.stequePop items).map fun (ans, items) => (.item ans, items)
  | .cycle, items => some (.void, items.rotate 1)
  | .front, items => items.head?.map fun ans => (.item ans, items)
  | .isempty, items => some (.int (if FileServices.stequeIsempty items then 1 else 0), items)
  | .size, items => some (.int items.length, items)
  | .destroy, _ => some (.void, [])

/-- `none` where one of the calls asks an empty list for an item. -/
def listCalls : List (Call π α) → List α → Option (List (Value α) × List α)
  | [], items => some ([], items)
  | c :: cs, items =>
    (listCall c items).bind fun (value, items) =>
      (listCalls cs items).map fun (values, items) => (value :: values, items)

/-- The address that `malloc` returns in a call. -/
def Call.node : Call π α → Option π
  | .enqueue node _ | .push node _ => some node
  | _ => none

/-- `malloc` never returns the address of a node that is in use. -/
def Fresh : List (Call π α) → State π α → Prop
  | [], _ => True
  | c :: cs, this => (∀ node, c.node = some node → this.heap node = none)
    ∧ ∀ value this', call this c = .ok (value, this') → Fresh cs this'

theorem Fresh.cons {c : Call π α} {cs : List (Call π α)} {this this' : State π α}
    {value : Value α} (hc : ∀ node, c.node = some node → this.heap node = none)
    (hcall : call this c = .ok (value, this')) (h : Fresh cs this') : Fresh (c :: cs) this := by
  refine ⟨hc, fun value' this'' hcall' => ?_⟩
  rw [hcall] at hcall'
  cases hcall'
  exact h

/-- After each call there are fewer than 2^31 elements. -/
def Few : List (Call π α) → List α → Prop
  | [], _ => True
  | c :: cs, items => ∀ value items', listCall c items = some (value, items') →
    items'.length < 2 ^ 31 ∧ Few cs items'

end FileServices.StequeHeap
