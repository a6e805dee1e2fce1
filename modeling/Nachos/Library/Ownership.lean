import Mathlib

/-! # Ownership

A set of items is shared out between a fixed part and a family of owners. An item is in
use exactly if it belongs to one of them, and it never belongs to two. -/

namespace Nachos.Library

variable {ι α : Type*}

/-- The items in use are those of `base` and of the `parts`, each in one place. -/
structure Ownership (base : List α) (parts : ι → List α) (used : α → Prop) : Prop where
  base_nodup : base.Nodup
  nodup : ∀ i, (parts i).Nodup
  base_disjoint : ∀ i, ∀ a ∈ base, a ∉ parts i
  disjoint : ∀ i j, i ≠ j → ∀ a ∈ parts i, a ∉ parts j
  used_iff : ∀ a, used a ↔ a ∈ base ∨ ∃ i, a ∈ parts i

namespace Ownership

variable {base : List α} {parts : ι → List α} {used : α → Prop}

theorem used_of_base (o : Ownership base parts used) {a : α} (h : a ∈ base) : used a :=
  (o.used_iff a).mpr (.inl h)

theorem used_of_part (o : Ownership base parts used) {i : ι} {a : α} (h : a ∈ parts i) : used a :=
  (o.used_iff a).mpr (.inr ⟨i, h⟩)

/-- Nobody owns anything. -/
theorem empty (hnodup : base.Nodup) (hused : ∀ a, used a ↔ a ∈ base) :
    Ownership base (fun _ : ι => []) used where
  base_nodup := hnodup
  nodup _ := List.nodup_nil
  base_disjoint _ _ _ := List.not_mem_nil
  disjoint _ _ _ _ h := absurd h List.not_mem_nil
  used_iff a := by simpa using hused a

variable [DecidableEq ι]

/-- An owner exchanges what it owns for items of its own or not in use. -/
theorem exchange (o : Ownership base parts used) {i : ι} {items : List α} {used' : α → Prop}
    (hnodup : items.Nodup) (hfree : ∀ a ∈ items, used a → a ∈ parts i)
    (hused : ∀ a, used' a ↔ used a ∧ a ∉ parts i ∨ a ∈ items) :
    Ownership base (Function.update parts i items) used' := by
  have hself : Function.update parts i items i = items := Function.update_self ..
  have hother : ∀ j, j ≠ i → Function.update parts i items j = parts j :=
    fun j hj => Function.update_of_ne hj ..
  -- an item of the new part is in no other place
  have hbase : ∀ a ∈ base, a ∉ items := fun a ha hmem =>
    o.base_disjoint i a ha (hfree a hmem (o.used_of_base ha))
  have hparts : ∀ j, j ≠ i → ∀ a ∈ parts j, a ∉ items := fun j hj a ha hmem =>
    o.disjoint j i hj a ha (hfree a hmem (o.used_of_part ha))
  refine ⟨o.base_nodup, fun j => ?_, fun j a ha => ?_, fun j k hjk a ha => ?_, fun a => ?_⟩
  · by_cases hj : j = i
    · rwa [hj, hself]
    · rw [hother j hj]
      exact o.nodup j
  · by_cases hj : j = i
    · rw [hj, hself]
      exact hbase a ha
    · rw [hother j hj]
      exact o.base_disjoint j a ha
  · by_cases hj : j = i
    · rw [hj, hself] at ha
      rw [hother k fun hk => hjk (hj.trans hk.symm)]
      exact fun hmem => hparts k (fun hk => hjk (hj.trans hk.symm)) a hmem ha
    · rw [hother j hj] at ha
      by_cases hk : k = i
      · rw [hk, hself]
        exact hparts j hj a ha
      · rw [hother k hk]
        exact o.disjoint j k hjk a ha
  · rw [hused, o.used_iff]
    constructor
    · rintro (⟨hb | ⟨j, hj⟩, hmem⟩ | hmem)
      · exact .inl hb
      · exact .inr ⟨j, by rwa [hother j fun he => hmem (he ▸ hj)]⟩
      · exact .inr ⟨i, by rwa [hself]⟩
    · rintro (hb | ⟨j, hj⟩)
      · exact .inl ⟨.inl hb, o.base_disjoint i a hb⟩
      · by_cases hji : j = i
        · rw [hji, hself] at hj
          exact .inr hj
        · rw [hother j hji] at hj
          exact .inl ⟨.inr ⟨j, hj⟩, o.disjoint j i hji a hj⟩

/-- An owner of nothing takes items that are not in use. -/
theorem claim (o : Ownership base parts used) {i : ι} {items : List α} {used' : α → Prop}
    (hempty : parts i = []) (hnodup : items.Nodup) (hfree : ∀ a ∈ items, ¬ used a)
    (hused : ∀ a, used' a ↔ used a ∨ a ∈ items) :
    Ownership base (Function.update parts i items) used' :=
  o.exchange hnodup (fun a ha hu => absurd hu (hfree a ha)) (by simpa [hempty] using hused)

/-- An owner gives everything back. -/
theorem release (o : Ownership base parts used) {i : ι} {used' : α → Prop}
    (hused : ∀ a, used' a ↔ used a ∧ a ∉ parts i) :
    Ownership base (Function.update parts i []) used' :=
  o.exchange List.nodup_nil (fun _ ha => absurd ha List.not_mem_nil) (by simpa using hused)

omit [DecidableEq ι] in
/-- All that is owned, as one list without repetitions. -/
theorem nodup_append_flatMap (o : Ownership base parts used) {owners : List ι}
    (hnodup : owners.Nodup) : (base ++ owners.flatMap parts).Nodup := by
  refine List.nodup_append.mpr ⟨o.base_nodup, List.nodup_flatMap.mpr ⟨fun i _ => o.nodup i, ?_⟩, ?_⟩
  · exact hnodup.imp fun hne a ha ha' => o.disjoint _ _ hne a ha ha'
  · intro a ha b hb he
    obtain ⟨i, _, hi⟩ := List.mem_flatMap.mp hb
    exact o.base_disjoint i a ha (he ▸ hi)

end Ownership

end Nachos.Library
