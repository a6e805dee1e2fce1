import Mathlib

/-! # Fixed-size layouts

A layout of a type is a bijection between its values and the sequences of `n` units
of storage. Layouts compose the way the fields of a record and the elements of an
array follow one another in memory. -/

namespace Nachos.Library

variable {α β γ : Type*} {m n : ℕ}

/-- Two values, one behind the other. -/
def prodLayout (a : α ≃ (Fin m → β)) (c : γ ≃ (Fin n → β)) : α × γ ≃ (Fin (m + n) → β) :=
  (Equiv.prodCongr a c).trans (Fin.appendEquiv m n)

/-- An array of `k` values. -/
def arrayLayout (a : α ≃ (Fin m → β)) (k : ℕ) : (Fin k → α) ≃ (Fin (k * m) → β) :=
  (Equiv.piCongrRight fun _ => a).trans
    ((Equiv.curry (Fin k) (Fin m) β).symm.trans (finProdFinEquiv.arrowCongr (Equiv.refl β)))

theorem arrayLayout_apply (a : α ≃ (Fin m → β)) (k : ℕ) (t : Fin k → α) (i : Fin k)
    (j : Fin m) : arrayLayout a k t (finProdFinEquiv (i, j)) = a (t i) j := by
  simp [arrayLayout, Equiv.arrowCongr]

/-! ## Words -/

/-- Four bytes as one word, the first argument being the most significant one. -/
def joinBytes (b₃ b₂ b₁ b₀ : BitVec 8) : BitVec 32 :=
  b₃ ++ b₂ ++ b₁ ++ b₀

theorem getLsbD_joinBytes (b₃ b₂ b₁ b₀ : BitVec 8) (i : ℕ) :
    (joinBytes b₃ b₂ b₁ b₀).getLsbD i =
      if i < 8 then b₀.getLsbD i else if i < 16 then b₁.getLsbD (i - 8)
      else if i < 24 then b₂.getLsbD (i - 16) else b₃.getLsbD (i - 24) := by
  change (b₃ ++ b₂ ++ b₁ ++ b₀ : BitVec (8 + 8 + 8 + 8)).getLsbD i = _
  simp only [BitVec.getLsbD_append, Nat.sub_sub]
  split_ifs <;> first | rfl | omega

theorem joinBytes_extract (w : BitVec 32) :
    joinBytes (w.extractLsb' 24 8) (w.extractLsb' 16 8) (w.extractLsb' 8 8)
      (w.extractLsb' 0 8) = w := by
  apply BitVec.eq_of_getLsbD_eq
  intro i hi
  rw [getLsbD_joinBytes]
  split_ifs <;> rw [BitVec.getLsbD_extractLsb', decide_eq_true (by omega), Bool.true_and] <;>
    congr 1 <;> omega

/-- A 32-bit word as four bytes, the least significant one first. -/
def wordLayout : BitVec 32 ≃ (Fin 4 → BitVec 8) where
  toFun w i := w.extractLsb' (8 * i) 8
  invFun b := joinBytes (b 3) (b 2) (b 1) (b 0)
  left_inv w := joinBytes_extract w
  right_inv b := by
    funext i
    apply BitVec.eq_of_getLsbD_eq
    intro j hj
    rw [BitVec.getLsbD_extractLsb', decide_eq_true hj, Bool.true_and, getLsbD_joinBytes]
    fin_cases i <;> simp <;> split_ifs <;> first | omega | rfl

theorem wordLayout_zero (w : BitVec 32) : wordLayout w 0 = w.setWidth 8 := by
  apply BitVec.eq_of_getLsbD_eq
  intro i hi
  simp [wordLayout, hi]

end Nachos.Library
