import Mathlib

/-! # A heap of allocated objects

Pointers are natural numbers that are handed out one after the other; an object can be
changed in place and freed. -/

namespace Nachos.Library

variable {α : Type*}

structure Heap (α : Type*) where
  cell : ℕ → Option α
  next : ℕ
  unused : ∀ p, next ≤ p → cell p = none

namespace Heap

def empty : Heap α := ⟨fun _ => none, 0, fun _ _ => rfl⟩

/-- Allocate an object; the pointer to it is `h.next`. -/
def alloc (h : Heap α) (a : α) : Heap α where
  cell := Function.update h.cell h.next (some a)
  next := h.next + 1
  unused p hp := by
    rw [Function.update_of_ne (by omega)]
    exact h.unused p (by omega)

/-- Change the object at `p`, if there is one. -/
def modify (h : Heap α) (p : ℕ) (f : α → α) : Heap α where
  cell := Function.update h.cell p ((h.cell p).map f)
  next := h.next
  unused q hq := by
    by_cases hqp : q = p
    · rw [hqp, Function.update_self, ← hqp, h.unused q hq]
      rfl
    · rw [Function.update_of_ne hqp]
      exact h.unused q hq

def free (h : Heap α) (p : ℕ) : Heap α where
  cell := Function.update h.cell p none
  next := h.next
  unused q hq := by
    by_cases hqp : q = p
    · rw [hqp, Function.update_self]
    · rw [Function.update_of_ne hqp]
      exact h.unused q hq

/-- Every object is replaced by its image. -/
def map {β : Type*} (h : Heap α) (f : α → β) : Heap β where
  cell p := (h.cell p).map f
  next := h.next
  unused p hp := by rw [h.unused p hp]; rfl

variable (h : Heap α)

theorem ne_next {p : ℕ} {a : α} (hp : h.cell p = some a) : p ≠ h.next := by
  rintro rfl
  rw [h.unused _ le_rfl] at hp
  cases hp

@[simp] theorem cell_alloc_self (a : α) : (h.alloc a).cell h.next = some a :=
  Function.update_self ..

theorem cell_alloc_of_some {p : ℕ} {a : α} (hp : h.cell p = some a) (b : α) :
    (h.alloc b).cell p = some a :=
  (Function.update_of_ne (h.ne_next hp) ..).trans hp

theorem cell_modify_self {p : ℕ} {a : α} (hp : h.cell p = some a) (f : α → α) :
    (h.modify p f).cell p = some (f a) :=
  (Function.update_self ..).trans (congrArg (Option.map f) hp)

theorem cell_modify_of_ne {p q : ℕ} (hq : q ≠ p) (f : α → α) :
    (h.modify p f).cell q = h.cell q :=
  Function.update_of_ne hq ..

/-- Of two changes of one object only their composition is seen. -/
theorem modify_modify (p : ℕ) (f g : α → α) : (h.modify p f).modify p g = h.modify p (g ∘ f) := by
  simp only [modify, Function.update_idem, Function.update_self, Option.map_map]

theorem map_modify {β : Type*} {f : α → β} {p : ℕ} {g : α → α} {g' : β → β}
    (hg : ∀ a, f (g a) = g' (f a)) : (h.modify p g).map f = (h.map f).modify p g' := by
  simp only [modify, map, Heap.mk.injEq, and_true]
  funext q
  by_cases hq : q = p
  · subst hq
    rw [Function.update_self, Function.update_self, Option.map_map, Option.map_map]
    exact congrArg (Option.map · (h.cell q)) (funext hg)
  · rw [Function.update_of_ne hq, Function.update_of_ne hq]

theorem cell_free_of_ne {p q : ℕ} (hq : q ≠ p) : (h.free p).cell q = h.cell q :=
  Function.update_of_ne hq ..

end Heap

end Nachos.Library
