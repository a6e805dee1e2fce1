import Mathlib

/-! # Items on queues

A family of queues in which every item is on at most one queue and at most once. A function
says where each item is; items enter and leave the queues one at a time. -/

namespace Nachos.Library

variable {α κ : Type*}

/-- `place` says on which queue each item is. -/
structure Placed (queue : κ → List α) (place : α → Option κ) : Prop where
  nodup : ∀ q, (queue q).Nodup
  mem_iff : ∀ a q, a ∈ queue q ↔ place a = some q

namespace Placed

variable {queue : κ → List α} {place : α → Option κ} {a : α} {q : κ} {l : List α}

theorem place_eq (h : Placed queue place) (ha : a ∈ queue q) : place a = some q :=
  (h.mem_iff a q).mp ha

variable [DecidableEq κ]

/-- The items of a queue are put in another order. -/
theorem permute (h : Placed queue place) (hl : l.Perm (queue q)) :
    Placed (Function.update queue q l) place where
  nodup q' := by
    by_cases hq : q' = q
    · subst hq
      rw [Function.update_self, hl.nodup_iff]
      exact h.nodup q'
    · rw [Function.update_of_ne hq]
      exact h.nodup q'
  mem_iff b q' := by
    by_cases hq : q' = q
    · subst hq
      rw [Function.update_self, hl.mem_iff]
      exact h.mem_iff b q'
    · rw [Function.update_of_ne hq]
      exact h.mem_iff b q'

variable [DecidableEq α]

/-- An item that is on no queue is put on one, at whatever position. -/
theorem enter (h : Placed queue place) (ha : place a = none) (hl : l.Perm (a :: queue q)) :
    Placed (Function.update queue q l) (Function.update place a (some q)) where
  nodup q' := by
    by_cases hq : q' = q
    · subst hq
      rw [Function.update_self, hl.nodup_iff, List.nodup_cons, h.mem_iff, ha]
      exact ⟨by simp, h.nodup q'⟩
    · rw [Function.update_of_ne hq]
      exact h.nodup q'
  mem_iff b q' := by
    have hold := h.mem_iff b q'
    by_cases hb : b = a
    · subst hb
      rw [Function.update_self]
      by_cases hq : q' = q
      · subst hq
        simp [hl.mem_iff]
      · rw [Function.update_of_ne hq, hold, ha]
        simp [Ne.symm hq]
    · rw [Function.update_of_ne hb, ← hold]
      by_cases hq : q' = q
      · subst hq
        rw [Function.update_self, hl.mem_iff, List.mem_cons, or_iff_right hb]
      · rw [Function.update_of_ne hq]

/-- The item leaves its queue. -/
theorem leave (h : Placed queue place) (hl : (queue q).Perm (a :: l)) :
    Placed (Function.update queue q l) (Function.update place a none) where
  nodup q' := by
    by_cases hq : q' = q
    · subst hq
      rw [Function.update_self]
      exact (List.nodup_cons.mp (hl.nodup_iff.mp (h.nodup q'))).2
    · rw [Function.update_of_ne hq]
      exact h.nodup q'
  mem_iff b q' := by
    have hold := h.mem_iff b q'
    have hplace : place a = some q := (h.mem_iff a q).mp (hl.mem_iff.mpr List.mem_cons_self)
    by_cases hb : b = a
    · subst hb
      rw [Function.update_self]
      by_cases hq : q' = q
      · subst hq
        have hnot := (List.nodup_cons.mp (hl.nodup_iff.mp (h.nodup q'))).1
        simp [hnot]
      · rw [Function.update_of_ne hq, hold, hplace]
        simp [Ne.symm hq]
    · rw [Function.update_of_ne hb, ← hold]
      by_cases hq : q' = q
      · subst hq
        rw [Function.update_self, hl.mem_iff, List.mem_cons, or_iff_right hb]
      · rw [Function.update_of_ne hq]

end Placed

end Nachos.Library
