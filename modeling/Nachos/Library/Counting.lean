import Mathlib

/-! # Sums over actors

What changes in a sum when one actor moves. -/

namespace Nachos.Library

variable {α : Type*}

theorem sum_change [DecidableEq α] {s : Finset α} {f g : α → ℤ} {a : α} (ha : a ∈ s)
    (h : ∀ b ∈ s, b ≠ a → g b = f b) : ∑ b ∈ s, g b = ∑ b ∈ s, f b + (g a - f a) := by
  have hrest : ∑ b ∈ s.erase a, g b = ∑ b ∈ s.erase a, f b :=
    Finset.sum_congr rfl fun b hb => h b (Finset.mem_of_mem_erase hb) (Finset.ne_of_mem_erase hb)
  rw [← Finset.add_sum_erase s g ha, ← Finset.add_sum_erase s f ha, hrest]
  ring

/-- Actors may be added, and each of the old ones counts at least `d` more. -/
theorem sum_add_le {s s' : Finset α} {f d g : α → ℤ} (hs : s ⊆ s') (hg : ∀ b ∈ s', 0 ≤ g b)
    (h : ∀ b ∈ s, f b + d b ≤ g b) : ∑ b ∈ s, f b + ∑ b ∈ s, d b ≤ ∑ b ∈ s', g b :=
  calc ∑ b ∈ s, f b + ∑ b ∈ s, d b = ∑ b ∈ s, (f b + d b) := Finset.sum_add_distrib.symm
    _ ≤ ∑ b ∈ s, g b := Finset.sum_le_sum h
    _ ≤ ∑ b ∈ s', g b := Finset.sum_le_sum_of_subset_of_nonneg hs fun b hb _ => hg b hb

/-- If nobody counts negatively, two actors are at most all of them. -/
theorem pair_le_sum [DecidableEq α] {s : Finset α} {f : α → ℤ} (hf : ∀ b ∈ s, 0 ≤ f b) {a b : α}
    (ha : a ∈ s) (hb : b ∈ s) (hne : a ≠ b) : f a + f b ≤ ∑ x ∈ s, f x := by
  rw [← Finset.add_sum_erase s f ha]
  have hrest := Finset.single_le_sum (fun x hx => hf x (Finset.mem_of_mem_erase hx))
    (Finset.mem_erase.mpr ⟨hne.symm, hb⟩)
  omega

end Nachos.Library
