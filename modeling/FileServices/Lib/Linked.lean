import Mathlib

/-!
# Singly linked lists on a heap

A heap holds a node at each address in use.  `Seg h p cells q` is the segment that following
`next` from `p` passes through before it is at `q`, as the addresses and items of its nodes.
`none` is the null pointer, so a list is a segment that ends at `none`.
-/

namespace Linked

variable {π α : Type*}

structure Node (π α : Type*) where
  item : α
  next : Option π
  deriving DecidableEq

abbrev Heap (π α : Type*) := π → Option (Node π α)

def Seg (h : Heap π α) : Option π → List (π × α) → Option π → Prop
  | p, [], q => p = q
  | p, (a, x) :: cells, q => p = some a ∧ ∃ next, h a = some ⟨x, next⟩ ∧ Seg h next cells q

variable {h h' : Heap π α} {p q r : Option π} {a : π} {x : α} {cells cells' : List (π × α)}

@[simp] theorem seg_nil : Seg h p [] q ↔ p = q := Iff.rfl

@[simp] theorem seg_cons : Seg h p ((a, x) :: cells) q ↔
    p = some a ∧ ∃ next, h a = some ⟨x, next⟩ ∧ Seg h next cells q := Iff.rfl

theorem seg_append : ∀ {cells : List (π × α)} {p : Option π},
    Seg h p (cells ++ cells') q ↔ ∃ r, Seg h p cells r ∧ Seg h r cells' q
  | [], p => by simp
  | (a, x) :: cells, p => by
    have ih : ∀ p, Seg h p (cells ++ cells') q ↔ ∃ r, Seg h p cells r ∧ Seg h r cells' q :=
      fun _ => seg_append
    simp only [List.cons_append, seg_cons, ih]
    constructor
    · rintro ⟨hp, next, hnext, r, hr, hq⟩
      exact ⟨r, ⟨hp, next, hnext, hr⟩, hq⟩
    · rintro ⟨r, ⟨hp, next, hnext, hr⟩, hq⟩
      exact ⟨hp, next, hnext, r, hr, hq⟩

theorem seg_snoc : Seg h p (cells ++ [(a, x)]) q ↔
    Seg h p cells (some a) ∧ h a = some ⟨x, q⟩ := by
  rw [seg_append]
  constructor
  · rintro ⟨r, hr, rfl, next, hnext, rfl⟩
    exact ⟨hr, hnext⟩
  · rintro ⟨hp, ha⟩
    exact ⟨some a, hp, rfl, q, ha, rfl⟩

/-- A segment is kept by what leaves its nodes alone. -/
theorem Seg.congr : ∀ {cells : List (π × α)} {p : Option π}, Seg h p cells q →
    (∀ c ∈ cells, h' c.1 = h c.1) → Seg h' p cells q
  | [], _, hs, _ => hs
  | _ :: _, _, ⟨hp, next, hnext, hs⟩, hag =>
    ⟨hp, next, (hag _ List.mem_cons_self).trans hnext,
      hs.congr fun c hc => hag c (List.mem_cons_of_mem _ hc)⟩

theorem Seg.lookup (hs : Seg h p cells q) {c : π × α} (hc : c ∈ cells) :
    ∃ next, h c.1 = some ⟨c.2, next⟩ := by
  obtain ⟨pre, post, rfl⟩ := List.append_of_mem hc
  obtain ⟨r, -, -, next, hnext, -⟩ := seg_append.mp hs
  exact ⟨next, hnext⟩

theorem Seg.notMem (hs : Seg h p cells q) (ha : h a = none) : a ∉ cells.map Prod.fst := by
  intro hmem
  obtain ⟨c, hc, rfl⟩ := List.mem_map.mp hmem
  obtain ⟨next, hnext⟩ := hs.lookup hc
  simp [ha] at hnext

/-- The nodes of a list are the ones that are passed through, in order. -/
theorem Seg.unique : ∀ {cells cells' : List (π × α)} {p : Option π}, Seg h p cells none →
    Seg h p cells' none → cells = cells'
  | [], [], _, _, _ => rfl
  | [], _ :: _, _, hs, hs' => by simp [seg_nil.mp hs, Seg] at hs'
  | _ :: _, [], _, hs, hs' => by simp [seg_nil.mp hs', Seg] at hs
  | (a, x) :: cells, (b, y) :: cells', p, ⟨hp, n, hn, hs⟩, ⟨hp', n', hn', hs'⟩ => by
    obtain rfl : a = b := Option.some.inj (hp.symm.trans hp')
    rw [hn, Option.some.injEq, Node.mk.injEq] at hn'
    obtain ⟨rfl, rfl⟩ := hn'
    rw [hs.unique hs']

/-- No list passes a node twice: from there on it would go the same way for ever. -/
theorem Seg.nodup : ∀ {cells : List (π × α)} {p : Option π}, Seg h p cells none →
    (cells.map Prod.fst).Nodup
  | [], _, _ => List.nodup_nil
  | (a, x) :: cells, p, ⟨hp, next, hnext, hs⟩ => by
    rw [List.map_cons, List.nodup_cons]
    refine ⟨fun hmem => ?_, hs.nodup⟩
    obtain ⟨c, hc, hca⟩ := List.mem_map.mp hmem
    obtain ⟨pre, post, rfl⟩ := List.append_of_mem hc
    obtain ⟨r, -, hr⟩ := seg_append.mp hs
    obtain ⟨b, y⟩ := c
    obtain rfl : b = a := hca
    -- the list from `a` on, met at its first place and at its second
    have hfirst : Seg h (some b) ((b, x) :: (pre ++ (b, y) :: post)) none :=
      ⟨rfl, next, hnext, hs⟩
    have hsecond : Seg h (some b) ((b, y) :: post) none := ⟨rfl, hr.2⟩
    have hlen := congrArg List.length (hfirst.unique hsecond)
    simp only [List.length_cons, List.length_append] at hlen
    omega

theorem Seg.last_notMem (hs : Seg h p (cells ++ [(a, x)]) none) : a ∉ cells.map Prod.fst := by
  have hnodup := hs.nodup
  rw [List.map_append, List.nodup_append] at hnodup
  exact fun ha => hnodup.2.2 a ha a List.mem_cons_self rfl

variable [DecidableEq π]

theorem Seg.update_of_notMem (hs : Seg h p cells q) (ha : a ∉ cells.map Prod.fst)
    (node : Option (Node π α)) : Seg (Function.update h a node) p cells q :=
  hs.congr fun c hc => Function.update_of_ne
    (fun hca => ha (List.mem_map.mpr ⟨c, hc, hca⟩)) _ _

/-- Setting the `next` of the last node moves the end of a segment. -/
theorem Seg.relink (hs : Seg h p (cells ++ [(a, x)]) q) (ha : a ∉ cells.map Prod.fst) :
    Seg (Function.update h a (some ⟨x, r⟩)) p (cells ++ [(a, x)]) r := by
  rw [seg_snoc] at hs ⊢
  exact ⟨hs.1.update_of_notMem ha _, Function.update_self ..⟩

end Linked
