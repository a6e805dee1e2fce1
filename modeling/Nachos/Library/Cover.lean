import Mathlib

/-! # Disjoint intervals

An interval is given by its start and its length. Disjoint intervals fill an interval that is
as long as all of them together exactly if they lie in it. -/

namespace Nachos.Library

/-- The points of the intervals. -/
noncomputable def cover : List (ℤ × ℤ) → Finset ℤ
  | [] => ∅
  | i :: l => Finset.Ico i.1 (i.1 + i.2) ∪ cover l

/-- The length of all intervals together. -/
def total (l : List (ℤ × ℤ)) : ℤ := (l.map Prod.snd).sum

@[simp] theorem total_nil : total [] = 0 := rfl

@[simp] theorem total_cons (i : ℤ × ℤ) (l : List (ℤ × ℤ)) : total (i :: l) = i.2 + total l := by
  simp [total]

theorem mem_cover {l : List (ℤ × ℤ)} {x : ℤ} :
    x ∈ cover l ↔ ∃ i ∈ l, i.1 ≤ x ∧ x < i.1 + i.2 := by
  induction l with
  | nil => simp [cover]
  | cons i l ih => simp [cover, ih]

/-- No point belongs to both intervals. -/
def Apart (i j : ℤ × ℤ) : Prop := ∀ x, i.1 ≤ x → x < i.1 + i.2 → ¬ (j.1 ≤ x ∧ x < j.1 + j.2)

theorem apart_of_le {i j : ℤ × ℤ} (h : i.1 + i.2 ≤ j.1) : Apart i j := by
  intro x _ hx hj
  omega

theorem card_cover {l : List (ℤ × ℤ)} (hlen : ∀ i ∈ l, 0 ≤ i.2) (hl : l.Pairwise Apart) :
    ((cover l).card : ℤ) = total l := by
  induction l with
  | nil => rfl
  | cons i l ih =>
      obtain ⟨hi, hl⟩ := List.pairwise_cons.mp hl
      have hdisj : Disjoint (Finset.Ico i.1 (i.1 + i.2)) (cover l) := by
        refine Finset.disjoint_left.mpr fun x hx hx' => ?_
        obtain ⟨j, hj, hjx⟩ := mem_cover.mp hx'
        obtain ⟨hlo, hhi⟩ := Finset.mem_Ico.mp hx
        exact hi j hj x hlo hhi hjx
      have hpos := hlen i List.mem_cons_self
      rw [cover, Finset.card_union_of_disjoint hdisj, Int.card_Ico, total_cons, Nat.cast_add,
        ih (fun j hj => hlen j (List.mem_cons_of_mem i hj)) hl]
      omega

theorem cover_eq_Ico_iff {l : List (ℤ × ℤ)} (hlen : ∀ i ∈ l, 0 < i.2) (hl : l.Pairwise Apart)
    (a : ℤ) : cover l = Finset.Ico a (a + total l) ↔
      ∀ i ∈ l, a ≤ i.1 ∧ i.1 + i.2 ≤ a + total l := by
  constructor
  · intro he i hi
    have hpos := hlen i hi
    have hfirst : i.1 ∈ cover l := mem_cover.mpr ⟨i, hi, le_rfl, by omega⟩
    have hlast : i.1 + i.2 - 1 ∈ cover l := mem_cover.mpr ⟨i, hi, by omega, by omega⟩
    rw [he, Finset.mem_Ico] at hfirst hlast
    omega
  · intro hin
    refine Finset.eq_of_subset_of_card_le (fun x hx => ?_) ?_
    · obtain ⟨i, hi, hlo, hhi⟩ := mem_cover.mp hx
      have := hin i hi
      exact Finset.mem_Ico.mpr ⟨by omega, by omega⟩
    · have hcard := card_cover (fun i hi => (hlen i hi).le) hl
      rw [Int.card_Ico]
      omega

end Nachos.Library
