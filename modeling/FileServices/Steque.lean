import Mathlib

/-!
# The steque as the list of its items

`front` is the head of the list.  An operation that ends the process on an empty steque is
`none` there.
-/

namespace FileServices

variable {α : Type*}

def stequeEnqueue (this : List α) (item : α) : List α := this ++ [item]

def stequeSize (this : List α) : ℕ := this.length

def stequeIsempty (this : List α) : Bool := this.length == 0

def stequePop : List α → Option (α × List α)
  | [] => none
  | item :: this => some (item, this)

/-- Pops until the steque is empty. -/
def stequeDestroy : List α → List α
  | [] => []
  | _ :: this => stequeDestroy this

@[simp] theorem stequeIsempty_iff {this : List α} : stequeIsempty this = true ↔ this = [] := by
  simp [stequeIsempty]

@[simp] theorem stequePop_eq_none {this : List α} : stequePop this = none ↔ this = [] := by
  cases this <;> simp [stequePop]

@[simp] theorem stequePop_eq_some {this rest : List α} {item : α} :
    stequePop this = some (item, rest) ↔ this = item :: rest := by
  cases this <;> simp [stequePop]

@[simp] theorem stequeDestroy_eq : ∀ this : List α, stequeDestroy this = []
  | [] => rfl
  | _ :: this => stequeDestroy_eq this

end FileServices
