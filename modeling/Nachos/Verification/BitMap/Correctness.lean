import Nachos.Model.BitMap

/-! # Bit maps as sets of items -/

namespace Nachos.BitMap

open Library

variable {numBits : ℕ} {i : Fin numBits} {bm : BitMap numBits}

/-! ## One bit -/

theorem testBit_eq (bm : BitMap numBits) (i : Fin numBits) :
    bm.testBit i = (bm.map (wordOf i)).getLsbD (i % BitsInWord) := by
  have hlt : i.val % BitsInWord < 32 := Nat.mod_lt _ (by decide)
  have hand := BitVec.and_twoPow (bm.map (wordOf i)) (i % BitsInWord)
  rw [BitVec.twoPow] at hand
  rw [testBit, mask, hand]
  cases h : (bm.map (wordOf i)).getLsbD (i % BitsInWord) with
  | false => simp
  | true =>
      simp only [ite_true, bne_iff_ne, ne_eq]
      intro h0
      have hbit := congrArg (fun w => w.getLsbD (i % BitsInWord)) h0
      simp [hlt] at hbit

theorem wordOf_eq_iff (i j : Fin numBits) :
    i = j ↔ wordOf i = wordOf j ∧ i.val % BitsInWord = j.val % BitsInWord := by
  simp only [wordOf, Fin.ext_iff, BitsInWord]
  omega

theorem getLsbD_mask (i : Fin numBits) (k : ℕ) :
    (mask i).getLsbD k = decide (k = i.val % BitsInWord) := by
  have hlt : i.val % BitsInWord < 32 := Nat.mod_lt _ (by decide)
  rw [mask, ← BitVec.twoPow, BitVec.getLsbD_twoPow]
  by_cases h : k = i.val % BitsInWord
  · subst k
    simp [hlt]
  · simp [h, Ne.symm h]

@[simp] theorem testBit_markBit (bm : BitMap numBits) (i j : Fin numBits) :
    (bm.markBit i).testBit j = (bm.testBit j || decide (j = i)) := by
  simp only [testBit_eq, markBit]
  by_cases hw : wordOf j = wordOf i
  · rw [hw, Function.update_self, BitVec.getLsbD_or, getLsbD_mask]
    congr 1
    simp [wordOf_eq_iff, hw]
  · rw [Function.update_of_ne hw]
    have hne : j ≠ i := fun h => hw (by rw [h])
    simp [hne]

@[simp] theorem testBit_clearBit (bm : BitMap numBits) (i j : Fin numBits) :
    (bm.clearBit i).testBit j = (bm.testBit j && !decide (j = i)) := by
  simp only [testBit_eq, clearBit]
  by_cases hw : wordOf j = wordOf i
  · have hlt : j.val % BitsInWord < 32 := Nat.mod_lt _ (by decide)
    rw [hw, Function.update_self, BitVec.getLsbD_and, BitVec.getLsbD_not, getLsbD_mask,
      decide_eq_true hlt, Bool.true_and]
    congr 2
    simp [wordOf_eq_iff, hw]
  · rw [Function.update_of_ne hw]
    have hne : j ≠ i := fun h => hw (by rw [h])
    simp [hne]

/-- Where the items fill the last word, the bits determine the map. -/
theorem ext_testBit {k : ℕ} {bm bm' : BitMap (BitsInWord * k)}
    (h : ∀ i, bm.testBit i = bm'.testBit i) : bm = bm' := by
  cases bm with | mk map =>
  cases bm' with | mk map' =>
  congr 1
  funext w
  apply BitVec.eq_of_getLsbD_eq
  intro b hb
  have hw : w.val < k := by
    have := w.isLt
    simpa [numWords] using this
  have hlt : BitsInWord * w + b < BitsInWord * k := by
    unfold BitsInWord
    omega
  have hword : wordOf (⟨_, hlt⟩ : Fin (BitsInWord * k)) = w := by
    simp only [wordOf, Fin.ext_iff, BitsInWord]
    omega
  have hbit : (BitsInWord * w + b) % BitsInWord = b := by
    unfold BitsInWord
    omega
  have hi := h ⟨_, hlt⟩
  simpa only [testBit_eq, hword, hbit] using hi

/-! ## A fresh map -/

theorem testBit_foldl_clearBit (items : List (Fin numBits)) (bm : BitMap numBits)
    (i : Fin numBits) :
    (items.foldl clearBit bm).testBit i = (bm.testBit i && !decide (i ∈ items)) := by
  induction items generalizing bm with
  | nil => simp
  | cons x items ih =>
      rw [List.foldl_cons, ih, testBit_clearBit]
      by_cases hx : i = x <;> simp [hx]

@[simp] theorem testBit_new (uninit : BitMap numBits) (i : Fin numBits) :
    (new uninit).testBit i = false := by
  rw [new, testBit_foldl_clearBit]
  simp

/-! ## The public operations on items in range -/

@[simp] theorem item_natCast (i : Fin numBits) : item (i : ℕ) = .ok i := by
  have hi := i.isLt
  rw [item, dif_pos (by omega)]
  simp

theorem item_eq_ok {n : ℤ} (h : item n = .ok i) : n = (i : ℕ) := by
  unfold item at h
  split at h
  · rename_i hn
    cases h
    simp
    omega
  · cases h

theorem item_of_neg {n : ℤ} (h : n < 0) : (item n : Exec (Fin numBits)) = .error .assertion := by
  rw [item, dif_neg (by omega)]

@[simp] theorem mark_natCast (bm : BitMap numBits) (i : Fin numBits) :
    bm.mark (i : ℕ) = .ok (bm.markBit i) := by
  simp [mark]

@[simp] theorem clear_natCast (bm : BitMap numBits) (i : Fin numBits) :
    bm.clear (i : ℕ) = .ok (bm.clearBit i) := by
  simp [clear]

@[simp] theorem test_natCast (bm : BitMap numBits) (i : Fin numBits) :
    bm.test (i : ℕ) = .ok (bm.testBit i) := by
  simp [test]

/-! ## Allocation takes the least free item -/

/-- The clear bits in increasing order. -/
def free (bm : BitMap numBits) : List (Fin numBits) :=
  (List.finRange numBits).filter fun i => !bm.testBit i

@[simp] theorem mem_free : i ∈ bm.free ↔ bm.testBit i = false := by
  simp [free]

theorem free_congr {bm' : BitMap numBits} (h : ∀ i, bm.testBit i = true ↔ bm'.testBit i = true) :
    bm.free = bm'.free :=
  List.filter_congr fun i _ => by rw [Bool.eq_iff_iff.mpr (h i)]

theorem free_sorted (bm : BitMap numBits) : bm.free.Pairwise (· < ·) :=
  (List.pairwise_lt_finRange numBits).filter _

theorem free_nodup (bm : BitMap numBits) : bm.free.Nodup :=
  (List.nodup_finRange numBits).filter _

theorem numClear_eq (bm : BitMap numBits) : bm.numClear = bm.free.length := by
  rw [numClear, free, List.countP_eq_length_filter]

/-- In a fresh map every item is free. -/
theorem free_new (uninit : BitMap numBits) : (new uninit).free = List.finRange numBits := by
  rw [free, List.filter_eq_self]
  simp

theorem find_of_free_nil (h : bm.free = []) : bm.find = (-1, bm) := by
  have hnone : ((List.finRange numBits).find? fun i => !bm.testBit i) = none := by
    rw [← List.head?_filter]
    exact congrArg List.head? h
  rw [find, hnone]

theorem find_of_free_cons {rest : List (Fin numBits)} (h : bm.free = i :: rest) :
    bm.find = (((i : ℕ) : ℤ), bm.markBit i) := by
  have hsome : ((List.finRange numBits).find? fun i => !bm.testBit i) = some i := by
    rw [← List.head?_filter]
    exact congrArg List.head? h
  rw [find, hsome]

/-- `Find` returns the first clear item and marks it. -/
theorem find_of_ne (h : bm.find.1 ≠ -1) :
    ∃ i : Fin numBits, bm.free.head? = some i ∧ bm.find = (((i : ℕ) : ℤ), bm.markBit i) := by
  cases hf : bm.free with
  | nil =>
      rw [find_of_free_nil hf] at h
      exact absurd rfl h
  | cons i rest =>
      exact ⟨i, rfl, find_of_free_cons hf⟩

theorem free_markBit {rest : List (Fin numBits)} (h : bm.free = i :: rest) :
    (bm.markBit i).free = rest := by
  have hsplit : (bm.markBit i).free = bm.free.filter fun j => !decide (j = i) := by
    rw [free, free, List.filter_filter]
    apply List.filter_congr
    intro j _
    simp [Bool.and_comm]
  have hnot : i ∉ rest := (List.nodup_cons.mp (h ▸ bm.free_nodup)).1
  rw [hsplit, h, List.filter_cons_of_neg (by simp), List.filter_eq_self]
  intro j hj
  have hne : j ≠ i := fun he => hnot (he ▸ hj)
  simp [hne]

/-- `k` calls of `Find` return the `k` least clear bits in increasing order, and
-1 once there are none left. -/
theorem findSeq_fst (k : ℕ) (bm : BitMap numBits) :
    (findSeq k bm).1 =
      (bm.free.take k).map (fun i : Fin numBits => ((i : ℕ) : ℤ)) ++
        List.replicate (k - bm.free.length) (-1) := by
  induction k generalizing bm with
  | zero => simp [findSeq]
  | succ k ih =>
      cases hfree : bm.free with
      | nil =>
          rw [findSeq, find_of_free_nil hfree]
          simp [ih, hfree, List.replicate_succ]
      | cons i rest =>
          rw [findSeq, find_of_free_cons hfree]
          simp [ih, free_markBit hfree]

theorem findSeq_snd_free (k : ℕ) (bm : BitMap numBits) :
    (findSeq k bm).2.free = bm.free.drop k := by
  induction k generalizing bm with
  | zero => simp [findSeq]
  | succ k ih =>
      cases hfree : bm.free with
      | nil =>
          rw [findSeq, find_of_free_nil hfree]
          simp [ih, hfree]
      | cons i rest =>
          rw [findSeq, find_of_free_cons hfree]
          simp [ih, free_markBit hfree]

/-- Exactly the bits returned are marked. -/
theorem findSeq_snd_testBit (k : ℕ) (bm : BitMap numBits) (j : Fin numBits) :
    (findSeq k bm).2.testBit j = (bm.testBit j || decide (j ∈ bm.free.take k)) := by
  induction k generalizing bm with
  | zero => simp [findSeq]
  | succ k ih =>
      cases hfree : bm.free with
      | nil =>
          rw [findSeq, find_of_free_nil hfree]
          simp [ih, hfree]
      | cons i rest =>
          rw [findSeq, find_of_free_cons hfree]
          simp only [ih, testBit_markBit, free_markBit hfree, List.take_succ_cons, List.mem_cons,
            Bool.decide_or, Bool.or_assoc]

@[simp] theorem findSeq_length (k : ℕ) (bm : BitMap numBits) : (findSeq k bm).1.length = k := by
  induction k generalizing bm with
  | zero => rfl
  | succ k ih => simp [findSeq, ih]

theorem findSeq_add (k l : ℕ) (bm : BitMap numBits) :
    findSeq (k + l) bm =
      ((findSeq k bm).1 ++ (findSeq l (findSeq k bm).2).1, (findSeq l (findSeq k bm).2).2) := by
  induction k generalizing bm with
  | zero => simp [findSeq]
  | succ k ih =>
      rw [Nat.succ_add, findSeq, findSeq]
      simp [ih]

theorem findSeq_getD {k j : ℕ} (bm : BitMap numBits) (c : ℤ) (hj : j < k)
    (hk : j < bm.free.length) : (findSeq k bm).1.getD j c = (bm.free[j] : ℕ) := by
  have hlen : j < ((bm.free.take k).map fun i : Fin numBits => ((i : ℕ) : ℤ)).length := by
    simp only [List.length_map, List.length_take]
    omega
  rw [findSeq_fst, List.getD_append _ _ _ _ hlen, List.getD_eq_getElem _ _ hlen]
  simp

/-- All of `k` calls of `Find` succeed exactly when `k` bits are clear. -/
theorem findSeq_succeeds_iff (k : ℕ) (bm : BitMap numBits) :
    (∀ s ∈ (findSeq k bm).1, s ≠ -1) ↔ k ≤ bm.free.length := by
  rw [findSeq_fst]
  constructor
  · intro h
    by_contra hlt
    refine h (-1) (List.mem_append_right _ ?_) rfl
    exact List.mem_replicate.mpr ⟨by omega, rfl⟩
  · intro hk s hs
    rw [Nat.sub_eq_zero_of_le hk, List.replicate_zero, List.append_nil] at hs
    obtain ⟨i, _, rfl⟩ := List.mem_map.mp hs
    omega

theorem free_get_inj (bm : BitMap numBits) {i j : ℕ} (hi : i < bm.free.length)
    (hj : j < bm.free.length) (h : bm.free[i] = bm.free[j]) : i = j :=
  (bm.free_nodup.getElem_inj_iff).mp h

end Nachos.BitMap
