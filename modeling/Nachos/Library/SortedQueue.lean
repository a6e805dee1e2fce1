import Mathlib

/-! # Lists sorted by a key

Insertion keeps a list sorted and puts an element behind those with the same key, so that
elements of one key leave the list in the order in which they were inserted. -/

namespace Nachos.Library

/-- An item with the key by which it is sorted. -/
structure Keyed (α : Type*) where
  key : ℤ
  item : α
  deriving DecidableEq, Repr

namespace Keyed

variable {α : Type*}

def sortedInsert (e : Keyed α) : List (Keyed α) → List (Keyed α)
  | [] => [e]
  | x :: rest => if e.key < x.key then e :: x :: rest else x :: sortedInsert e rest

def Sorted (l : List (Keyed α)) : Prop := l.Pairwise fun a b => a.key ≤ b.key

/-- The elements with the given key. -/
def withKey (l : List (Keyed α)) (k : ℤ) : List (Keyed α) := l.filter fun e => decide (e.key = k)

@[simp] theorem sortedInsert_nil (e : Keyed α) : sortedInsert e [] = [e] := rfl

theorem sortedInsert_cons_of_lt {e x : Keyed α} (h : e.key < x.key) (rest : List (Keyed α)) :
    sortedInsert e (x :: rest) = e :: x :: rest := if_pos h

theorem sortedInsert_cons_of_le {e x : Keyed α} (h : x.key ≤ e.key) (rest : List (Keyed α)) :
    sortedInsert e (x :: rest) = x :: sortedInsert e rest := if_neg (not_lt.mpr h)

theorem sortedInsert_perm (e : Keyed α) (l : List (Keyed α)) :
    (sortedInsert e l).Perm (e :: l) := by
  induction l with
  | nil => rfl
  | cons x rest ih =>
      rcases lt_or_ge e.key x.key with hlt | hle
      · rw [sortedInsert_cons_of_lt hlt]
      · rw [sortedInsert_cons_of_le hle]
        exact (ih.cons x).trans (List.Perm.swap e x rest)

theorem mem_sortedInsert {e a : Keyed α} {l : List (Keyed α)} :
    a ∈ sortedInsert e l ↔ a = e ∨ a ∈ l := by
  rw [(sortedInsert_perm e l).mem_iff, List.mem_cons]

theorem Sorted.sortedInsert {l : List (Keyed α)} (h : Sorted l) (e : Keyed α) :
    Sorted (sortedInsert e l) := by
  induction l with
  | nil => exact List.pairwise_singleton _ e
  | cons x rest ih =>
      have hrest := List.pairwise_cons.mp h
      rcases lt_or_ge e.key x.key with hlt | hle
      · rw [sortedInsert_cons_of_lt hlt]
        refine List.pairwise_cons.mpr ⟨fun a ha => ?_, h⟩
        rcases List.mem_cons.mp ha with rfl | ha
        · exact hlt.le
        · exact hlt.le.trans (hrest.1 a ha)
      · rw [sortedInsert_cons_of_le hle]
        refine List.pairwise_cons.mpr ⟨fun a ha => ?_, ih hrest.2⟩
        rcases mem_sortedInsert.mp ha with rfl | ha
        · exact hle
        · exact hrest.1 a ha

/-- An element is inserted behind all others with its key. -/
theorem withKey_sortedInsert {l : List (Keyed α)} (h : Sorted l) (e : Keyed α) (k : ℤ) :
    withKey (sortedInsert e l) k = withKey l k ++ withKey [e] k := by
  induction l with
  | nil => rfl
  | cons x rest ih =>
      have hrest := List.pairwise_cons.mp h
      rcases lt_or_ge e.key x.key with hlt | hle
      · rw [sortedInsert_cons_of_lt hlt]
        by_cases hk : e.key = k
        · -- all keys of the list are larger
          have hnone : withKey (x :: rest) k = [] := by
            refine List.filter_eq_nil_iff.mpr fun a ha => ?_
            have hle : x.key ≤ a.key := by
              rcases List.mem_cons.mp ha with rfl | ha
              · exact le_rfl
              · exact hrest.1 a ha
            simp only [decide_eq_true_eq]
            omega
          rw [hnone, List.nil_append]
          simp only [withKey, List.filter_cons, hk, decide_true, if_true, List.filter_nil]
          simp only [withKey, List.filter_cons] at hnone
          rw [hnone]
        · simp [withKey, List.filter_cons, hk]
      · rw [sortedInsert_cons_of_le hle]
        have hih := ih hrest.2
        simp only [withKey, List.filter_cons] at hih ⊢
        split
        · rw [hih, List.cons_append]
        · exact hih

/-- The first element is put back in its place if the next key is larger. -/
theorem sortedInsert_head {e : Keyed α} {rest : List (Keyed α)}
    (h : ∀ x ∈ rest.head?, e.key < x.key) : sortedInsert e rest = e :: rest := by
  cases rest with
  | nil => rfl
  | cons x rest => exact sortedInsert_cons_of_lt (h x rfl) rest

/-- It stays in its place only then, if no element is in the list twice. -/
theorem sortedInsert_eq_cons_iff {e : Keyed α} {rest : List (Keyed α)} (hne : e ∉ rest) :
    sortedInsert e rest = e :: rest ↔ ∀ x ∈ rest.head?, e.key < x.key := by
  refine ⟨fun h x hx => ?_, sortedInsert_head⟩
  cases rest with
  | nil => cases hx
  | cons y rest =>
      obtain rfl : y = x := Option.some.inj hx
      by_contra hle
      rw [sortedInsert_cons_of_le (not_lt.mp hle)] at h
      exact hne ((List.cons_eq_cons.mp h).1 ▸ List.mem_cons_self)

end Keyed

/-- Elements leave a queue in the order in which they have joined it. -/
theorem pair_sublist_of_split {α : Type*} {p : α → Bool} {joined left waiting : List α} {a b : α}
    (hsplit : joined.filter p = left.filter p ++ waiting) (hnodup : joined.Nodup)
    (hab : [a, b].Sublist joined) (ha : p a = true) (hb : p b = true) (hleft : b ∈ left) :
    [a, b].Sublist left := by
  have hfilter : [a, b].Sublist (left.filter p ++ waiting) := by
    have hsub := hab.filter p
    rwa [hsplit, List.filter_cons_of_pos ha, List.filter_cons_of_pos hb, List.filter_nil] at hsub
  have hdisjoint := (hsplit ▸ hnodup.filter p).disjoint
  have hb' : b ∉ waiting := fun hw => hdisjoint (List.mem_filter.mpr ⟨hleft, hb⟩) hw
  obtain ⟨l₁, l₂, heq, hl₁, hl₂⟩ := List.sublist_append_iff.mp hfilter
  -- `b` is the last element of the pair and does not wait
  have hl₂ : l₂ = [] := by
    rcases List.eq_nil_or_concat l₂ with h | ⟨l, x, rfl⟩
    · exact h
    · have hlast : b = x := by simpa using congrArg List.getLast? heq
      exact absurd (hl₂.subset (by simp [hlast])) hb'
  subst hl₂
  rw [List.append_nil] at heq
  exact heq ▸ hl₁.trans List.filter_sublist

end Nachos.Library
