import Nachos.Library.Transition
import Nachos.Verification.BitMap.Correctness

/-! # Bit maps refine finite sets -/

namespace Nachos.BitMap

open Library

variable {numBits : ℕ} {bm : BitMap numBits}

/-! ## Calls -/

/-- A call with an argument in range. -/
inductive Call (numBits : ℕ) where
  | mark (which : Fin numBits)
  | clear (which : Fin numBits)
  | test (which : Fin numBits)
  | find
  | numClear
  deriving DecidableEq, Repr

inductive Answer where
  | done
  | bool (b : Bool)
  | int (n : ℤ)
  deriving DecidableEq, Repr

def call (bm : BitMap numBits) : Call numBits → Exec (Answer × BitMap numBits)
  | .mark which => do return (.done, ← bm.mark (which : ℕ))
  | .clear which => do return (.done, ← bm.clear (which : ℕ))
  | .test which => do return (.bool (← bm.test (which : ℕ)), bm)
  | .find => .ok (.int bm.find.1, bm.find.2)
  | .numClear => .ok (.int bm.numClear, bm)

/-- Sequences of calls on a fresh bit map. -/
def system (numBits : ℕ) : System (BitMap numBits) (Call numBits) Answer where
  init bm := ∃ uninit, bm = new uninit
  step bm c a bm' := bm.call c = .ok (a, bm')

/-! ## Sets -/

/-- What a call means for the set of items. -/
inductive Specified (s : Finset (Fin numBits)) :
    Call numBits → Answer → Finset (Fin numBits) → Prop where
  | mark (i) : Specified s (.mark i) .done (insert i s)
  | clear (i) : Specified s (.clear i) .done (s.erase i)
  | test (i) : Specified s (.test i) (.bool (i ∈ s)) s
  | found (i) : i ∉ s → (∀ j, j ∉ s → i ≤ j) → Specified s .find (.int (i : ℕ)) (insert i s)
  | full : s = Finset.univ → Specified s .find (.int (-1)) s
  | numClear : Specified s .numClear (.int (numBits - s.card)) s

def setSystem (numBits : ℕ) : System (Finset (Fin numBits)) (Call numBits) Answer where
  init s := s = ∅
  step s c a s' := Specified s c a s'

/-- The marked items. -/
def items (bm : BitMap numBits) : Finset (Fin numBits) := Finset.univ.filter (bm.testBit ·)

@[simp] theorem mem_items {i : Fin numBits} : i ∈ bm.items ↔ bm.testBit i = true := by
  simp [items]

theorem items_new (uninit : BitMap numBits) : (new uninit).items = ∅ := by
  ext i
  simp

theorem items_markBit (bm : BitMap numBits) (i : Fin numBits) :
    (bm.markBit i).items = insert i bm.items := by
  ext j
  simp [or_comm]

theorem items_clearBit (bm : BitMap numBits) (i : Fin numBits) :
    (bm.clearBit i).items = bm.items.erase i := by
  ext j
  simp [and_comm]

theorem mem_free_iff {i : Fin numBits} : i ∈ bm.free ↔ i ∉ bm.items := by
  simp

theorem free_eq_nil_iff : bm.free = [] ↔ bm.items = Finset.univ := by
  simp only [List.eq_nil_iff_forall_not_mem, Finset.eq_univ_iff_forall, mem_free_iff, not_not]

theorem card_items (bm : BitMap numBits) : bm.free.length + bm.items.card = numBits := by
  have hfree : bm.free.length = (Finset.univ.filter fun i => ¬ bm.testBit i = true).card := by
    rw [← List.toFinset_card_of_nodup bm.free_nodup]
    congr 1
    ext i
    simp
  rw [hfree, items, add_comm, Finset.card_filter_add_card_filter_not, Finset.card_univ,
    Fintype.card_fin]

/-! ## Refinement -/

theorem specified_find (bm : BitMap numBits) :
    Specified bm.items .find (.int bm.find.1) bm.find.2.items := by
  cases hfree : bm.free with
  | nil =>
      rw [find_of_free_nil hfree]
      exact .full (free_eq_nil_iff.mp hfree)
  | cons i rest =>
      have hsorted := bm.free_sorted
      rw [hfree, List.pairwise_cons] at hsorted
      have hmem : i ∉ bm.items := by
        rw [← mem_free_iff, hfree]
        exact List.mem_cons_self
      rw [find_of_free_cons hfree, items_markBit]
      refine .found i hmem fun j hj => ?_
      rw [← mem_free_iff, hfree, List.mem_cons] at hj
      rcases hj with rfl | hj
      · exact le_rfl
      · exact (hsorted.1 j hj).le

/-- Every call returns, with what the set says. -/
theorem call_specified (bm : BitMap numBits) (c : Call numBits) :
    ∃ a bm', bm.call c = .ok (a, bm') ∧ Specified bm.items c a bm'.items := by
  cases c with
  | mark i =>
      refine ⟨.done, bm.markBit i, by rw [call, mark_natCast]; rfl, ?_⟩
      rw [items_markBit]
      exact .mark i
  | clear i =>
      refine ⟨.done, bm.clearBit i, by rw [call, clear_natCast]; rfl, ?_⟩
      rw [items_clearBit]
      exact .clear i
  | test i =>
      refine ⟨.bool (bm.testBit i), bm, by rw [call, test_natCast]; rfl, ?_⟩
      have hbit : bm.testBit i = decide (i ∈ bm.items) := by simp
      rw [hbit]
      exact .test i
  | find => exact ⟨_, _, rfl, specified_find bm⟩
  | numClear =>
      refine ⟨_, _, rfl, ?_⟩
      have hcount : (bm.numClear : ℤ) = numBits - bm.items.card := by
        have := card_items bm
        rw [numClear_eq]
        omega
      rw [hcount]
      exact .numClear

theorem step_specified {bm' : BitMap numBits} {c : Call numBits} {a : Answer}
    (h : (system numBits).step bm c a bm') : Specified bm.items c a bm'.items := by
  obtain ⟨a₁, bm₁, hcall, hspec⟩ := call_specified bm c
  cases hcall.symm.trans h
  exact hspec

/-- `k` calls of `Find` in a row, if there are `k` clear bits. -/
theorem findSeq_increasing {k : ℕ} (bm : BitMap numBits) (hk : k ≤ bm.numClear) :
    (findSeq k bm).1.Pairwise (· < ·) ∧ ∀ n ∈ (findSeq k bm).1, 0 ≤ n ∧ n < numBits := by
  rw [numClear_eq] at hk
  rw [findSeq_fst, Nat.sub_eq_zero_of_le hk, List.replicate_zero, List.append_nil]
  constructor
  · rw [List.pairwise_map]
    refine (bm.free_sorted.sublist (List.take_sublist k _)).imp fun {i j} hij => ?_
    exact_mod_cast hij
  · intro n hn
    obtain ⟨i, -, rfl⟩ := List.mem_map.mp hn
    omega

/-- A bit map is the set of items that have been marked or found and not cleared since. -/
theorem bitMap_refines_set {bm₀ bm : BitMap numBits} {trace : List (Call numBits × Answer)}
    (hinit : (system numBits).init bm₀) (hrun : (system numBits).Run bm₀ trace bm) :
    (∃ s, (setSystem numBits).Run ∅ trace s ∧
      (∀ i : Fin numBits, bm.test (i : ℕ) = .ok (decide (i ∈ s))) ∧
      bm.numClear = numBits - s.card ∧
      (bm.find = (-1, bm) ↔ s = Finset.univ)) ∧
    (∀ c, ∃ a bm', (system numBits).step bm c a bm') ∧
    ∀ k ≤ bm.numClear, (findSeq k bm).1.length = k ∧ (findSeq k bm).1.Pairwise (· < ·) ∧
      ∀ n ∈ (findSeq k bm).1, 0 ≤ n ∧ n < numBits := by
  obtain ⟨uninit, rfl⟩ := hinit
  have hsim := hrun.simulation (T := setSystem numBits) (R := fun bm s => s = bm.items)
    (items_new uninit).symm fun u v c a u' hv hstep => ⟨_, hv ▸ step_specified hstep, rfl⟩
  obtain ⟨s, hs, rfl⟩ := hsim
  refine ⟨⟨bm.items, hs, fun i => ?_, ?_, ?_⟩, fun c => ?_, fun k hk => ?_⟩
  · rw [test_natCast]
    simp
  · have := card_items bm
    rw [numClear_eq]
    omega
  · rw [← free_eq_nil_iff]
    constructor
    · intro hfind
      by_contra hne
      obtain ⟨i, rest, hfree⟩ := List.exists_cons_of_ne_nil hne
      have h1 := congrArg Prod.fst (hfind.symm.trans (find_of_free_cons hfree))
      dsimp only at h1
      omega
    · exact find_of_free_nil
  · obtain ⟨a, bm', hcall, -⟩ := call_specified bm c
    exact ⟨a, bm', hcall⟩
  · exact ⟨findSeq_length k bm, findSeq_increasing bm hk⟩

/-- A map of 33 items, in two words whose bits were all set. -/
def sample : BitMap 33 := new ⟨fun _ => 0xffffffff⟩

theorem bitMap_refines_set_sample :
    ∃ bm, (system 33).Run sample [(.mark 32, .done), (.find, .int 0)] bm ∧
      ∃ s, (setSystem 33).Run ∅ [(.mark 32, .done), (.find, .int 0)] s ∧
        bm.numClear = 33 - s.card := by
  have hfind : (sample.markBit 32).find.1 = 0 := by decide +kernel
  have hmark : (system 33).step sample (.mark 32) .done (sample.markBit 32) := rfl
  have hstep : (system 33).step (sample.markBit 32) .find (.int 0) (sample.markBit 32).find.2 :=
    congrArg (fun n => Except.ok (Answer.int n, (sample.markBit 32).find.2)) hfind
  have hrun := ((System.Run.nil sample).snoc hmark).snoc hstep
  obtain ⟨⟨s, hs, -, hcard, -⟩, -⟩ := bitMap_refines_set ⟨_, rfl⟩ hrun
  exact ⟨_, hrun, s, hs, hcard⟩

end Nachos.BitMap
