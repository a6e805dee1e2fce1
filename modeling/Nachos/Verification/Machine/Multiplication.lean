import Nachos.Model.Mips

/-! # Multiplication

`Mult` adds shifted copies of one factor, in two words. After each step of the loop the bits
of the other factor that are left tell what is still to be added. -/

namespace Nachos

/-! ## Bits of a word -/

theorem and_one_ne_zero (w : Word) : w &&& 1 ≠ 0 ↔ w.toNat % 2 = 1 := by
  have hone : (1 : Word).toNat = 1 := rfl
  have hzero : (0 : Word).toNat = 0 := rfl
  rw [ne_eq, ← BitVec.toNat_inj, BitVec.toNat_and, hone, Nat.and_one_is_mod]
  omega

theorem and_not_one_eq_zero (w : Word) : w &&& 0xfffffffe = 0 ↔ w.toNat < 2 := by
  have hshift : w &&& (0xfffffffe : Word) = (w >>> 1) <<< 1 := by
    have hall : (0xfffffffe : Word) = BitVec.allOnes 32 <<< 1 := by decide
    rw [hall]
    ext i hi
    rcases i with _ | i
    · simp
    · simp only [BitVec.getElem_and, BitVec.getElem_shiftLeft, BitVec.getElem_allOnes,
        BitVec.getElem_ushiftRight, Nat.add_sub_cancel, Nat.add_comm 1 i]
      simp [hi]
  have hzero : (0 : Word).toNat = 0 := rfl
  have hlt := w.isLt
  rw [hshift, ← BitVec.toNat_inj, BitVec.toNat_shiftLeft, BitVec.toNat_ushiftRight,
    Nat.shiftRight_eq_div_pow, Nat.shiftLeft_eq]
  omega

theorem and_signBit_ne_zero (w : Word) : w &&& 0x80000000 ≠ 0 ↔ 2 ^ 31 ≤ w.toNat := by
  have hpow : (0x80000000 : Word) = BitVec.twoPow 32 31 := by decide
  have hbit : w.getLsbD 31 = decide (2 ^ 31 ≤ w.toNat) := by
    rw [← BitVec.msb_eq_getLsbD_last (w := 32), BitVec.msb_eq_decide]
  rw [hpow, BitVec.and_twoPow, hbit]
  by_cases h : 2 ^ 31 ≤ w.toNat
  · simp only [h]
    decide
  · simp

theorem toNat_shiftLeft_or_one (w : Word) : (w <<< 1 ||| 1).toNat = 2 * w.toNat % 2 ^ 32 + 1 := by
  have hand : w <<< 1 &&& 1 = 0 := by
    ext i hi
    rcases i with _ | i <;> simp
  have hone : (1 : Word).toNat = 1 := rfl
  have hlt := w.isLt
  rw [← BitVec.add_eq_or_of_and_eq_zero _ _ hand, BitVec.toNat_add, BitVec.toNat_shiftLeft,
    Nat.shiftLeft_eq]
  omega

/-- The sign does not get into the bits that are still looked at. -/
theorem sshiftRight_mod (a : Word) {n : ℕ} (hn : n < 32) :
    (a.sshiftRight 1).toNat % 2 ^ n = a.toNat / 2 % 2 ^ n := by
  apply Nat.eq_of_testBit_eq
  intro i
  rw [Nat.testBit_mod_two_pow, Nat.testBit_mod_two_pow, BitVec.testBit_toNat,
    BitVec.getLsbD_sshiftRight, Nat.testBit_div_two, BitVec.testBit_toNat]
  by_cases hi : i < n
  · have hlt : 1 + i < 32 := by omega
    rw [if_pos hlt, Nat.add_comm]
    simp [hi, show i < 32 by omega]
  · simp [hi]

/-! ## Two words -/

/-- The value of two words. -/
def double (hi lo : Word) : ℕ := hi.toNat * 2 ^ 32 + lo.toNat

theorem double_lt (hi lo : Word) : double hi lo < 2 ^ 64 := by
  have hhi := hi.isLt
  have hlo := lo.isLt
  unfold double
  omega

/-- The sum, with the carry out of the low words. -/
theorem double_add (hi lo bHi bLo : Word) :
    double ((if lo + bLo < bLo then hi + 1 else hi) + bHi) (lo + bLo) ≡
      double hi lo + double bHi bLo [MOD 2 ^ 64] := by
  have hhi := hi.isLt
  have hlo := lo.isLt
  have hbHi := bHi.isLt
  have hbLo := bLo.isLt
  have hone : (1 : Word).toNat = 1 := rfl
  unfold double Nat.ModEq
  split
  next hlt =>
    simp only [BitVec.lt_def, BitVec.toNat_add] at hlt ⊢
    omega
  next hlt =>
    simp only [BitVec.lt_def, BitVec.toNat_add] at hlt ⊢
    omega

/-- The bit that leaves the low word gets into the high one. -/
theorem double_shift (bHi bLo : Word) :
    double (if bLo &&& 0x80000000 ≠ 0 then bHi <<< 1 ||| 1 else bHi <<< 1) (bLo <<< 1) ≡
      2 * double bHi bLo [MOD 2 ^ 64] := by
  have hbHi := bHi.isLt
  have hbLo := bLo.isLt
  unfold double Nat.ModEq
  rw [BitVec.toNat_shiftLeft, Nat.shiftLeft_eq]
  split
  next hbit =>
    have hle := (and_signBit_ne_zero bLo).mp hbit
    rw [toNat_shiftLeft_or_one]
    omega
  next hbit =>
    have hlt : ¬ 2 ^ 31 ≤ bLo.toNat := fun hle => hbit ((and_signBit_ne_zero bLo).mpr hle)
    rw [BitVec.toNat_shiftLeft, Nat.shiftLeft_eq]
    omega

/-- The complement and one more, with the carry. -/
theorem double_neg (hi lo : Word) :
    double (if ~~~lo + 1 = 0 then ~~~hi + 1 else ~~~hi) (~~~lo + 1) =
      (2 ^ 64 - double hi lo) % 2 ^ 64 := by
  have hhi := hi.isLt
  have hlo := lo.isLt
  have hone : (1 : Word).toNat = 1 := rfl
  have hzero : (0 : Word).toNat = 0 := rfl
  unfold double
  split
  next hcarry =>
    rw [← BitVec.toNat_inj, BitVec.toNat_add, BitVec.toNat_not] at hcarry
    simp only [BitVec.toNat_add, BitVec.toNat_not]
    omega
  next hcarry =>
    rw [← BitVec.toNat_inj, BitVec.toNat_add, BitVec.toNat_not] at hcarry
    simp only [BitVec.toNat_add, BitVec.toNat_not]
    omega

/-! ## The loop -/

theorem multLoop_eq {n : ℕ} (hn : n ≤ 32) (a bLo bHi lo hi : Word) :
    double (multLoop n a bLo bHi lo hi).1 (multLoop n a bLo bHi lo hi).2 ≡
      double hi lo + a.toNat % 2 ^ n * double bHi bLo [MOD 2 ^ 64] := by
  induction n generalizing a bLo bHi lo hi with
  | zero =>
      simp only [multLoop, pow_zero, Nat.mod_one, zero_mul, add_zero]
      rfl
  | succ n ih =>
      have hsplit : a.toNat % 2 ^ (n + 1) = a.toNat % 2 + 2 * (a.toNat / 2 % 2 ^ n) := by
        rw [pow_succ', Nat.mod_mul]
      -- what the rest of the loop adds
      have hnext : ∀ lo hi : Word, double
          (multLoop n (a.sshiftRight 1) (bLo <<< 1)
            (if bLo &&& 0x80000000 ≠ 0 then bHi <<< 1 ||| 1 else bHi <<< 1) lo hi).1
          (multLoop n (a.sshiftRight 1) (bLo <<< 1)
            (if bLo &&& 0x80000000 ≠ 0 then bHi <<< 1 ||| 1 else bHi <<< 1) lo hi).2 ≡
          double hi lo + a.toNat / 2 % 2 ^ n * (2 * double bHi bLo) [MOD 2 ^ 64] := by
        intro lo hi
        refine (ih (by omega) _ _ _ _ _).trans (Nat.ModEq.add_left _ ?_)
        rw [sshiftRight_mod a (by omega)]
        exact Nat.ModEq.mul_left _ (double_shift bHi bLo)
      unfold multLoop
      dsimp only
      split
      next hodd =>
        rw [and_one_ne_zero] at hodd
        have hadd := double_add hi lo bHi bLo
        split
        next hlast =>
          rw [and_not_one_eq_zero] at hlast
          have hone : a.toNat = 1 := by omega
          rw [hone, Nat.one_mod_eq_one.mpr (by simp), one_mul]
          exact hadd
        next =>
          refine (hnext _ _).trans ?_
          rw [hsplit, hodd, add_mul, one_mul, ← add_assoc]
          rw [mul_left_comm, ← mul_assoc]
          exact Nat.ModEq.add_right _ hadd
      next heven =>
        rw [and_one_ne_zero] at heven
        have hzero : a.toNat % 2 = 0 := by omega
        refine (hnext _ _).trans ?_
        rw [hsplit, hzero, zero_add, mul_left_comm, mul_assoc]

/-- The loop multiplies two words. -/
theorem double_multLoop (a b : Word) :
    double (multLoop 32 a b 0 0 0).1 (multLoop 32 a b 0 0 0).2 = a.toNat * b.toNat := by
  have ha := a.isLt
  have hb := b.isLt
  have hmod := multLoop_eq le_rfl a b 0 0 0
  have hlt : a.toNat * b.toNat < 2 ^ 64 := by
    calc a.toNat * b.toNat < 2 ^ 32 * 2 ^ 32 := Nat.mul_lt_mul'' ha hb
      _ = 2 ^ 64 := by norm_num
  have hstart : double 0 0 + a.toNat % 2 ^ 32 * double 0 b = a.toNat * b.toNat := by
    rw [Nat.mod_eq_of_lt ha]
    simp [double]
  rw [hstart] at hmod
  exact hmod.eq_of_lt_of_lt (double_lt _ _) hlt

/-! ## Signs -/

theorem toNat_append (hi lo : Word) : (hi ++ lo).toNat = double hi lo := by
  rw [BitVec.toNat_append, double, ← Nat.shiftLeft_add_eq_or_of_lt lo.isLt, Nat.shiftLeft_eq]

theorem toInt_append (hi lo : Word) :
    (hi ++ lo).toInt = if double hi lo < 2 ^ 63 then (double hi lo : ℤ) else double hi lo - 2 ^ 64 := by
  rw [BitVec.toInt_eq_toNat_cond, toNat_append]
  split <;> split <;> omega

/-- The absolute value, also of the least number. -/
theorem toNat_abs (a : Word) (neg : Bool) (hneg : neg = decide (a.toInt < 0)) :
    ((if neg then -a else a).toNat : ℤ) = if neg then -a.toInt else a.toInt := by
  have ha := a.isLt
  subst hneg
  by_cases h : a.toInt < 0
  · simp only [h, decide_true, if_true]
    rw [BitVec.toInt_eq_toNat_cond] at h ⊢
    rw [BitVec.toNat_neg]
    split at h <;> omega
  · simp only [h, decide_false, Bool.false_eq_true, if_false]
    rw [BitVec.toInt_eq_toNat_cond] at h ⊢
    split at h <;> omega

theorem mult_unsigned {a b : Word} (h : ¬ (a = 0 ∨ b = 0)) :
    mult a b false = multLoop 32 a b 0 0 0 := by
  rw [mult, if_neg h]
  rfl

/-- With signs, the absolute values are multiplied. -/
theorem double_mult_signed {a b : Word} (h : ¬ (a = 0 ∨ b = 0)) {negA negB : Bool}
    (hA : negA = decide (a.toInt < 0)) (hB : negB = decide (b.toInt < 0)) :
    double (mult a b true).1 (mult a b true).2 =
      if negA = negB then (if negA then -a else a).toNat * (if negB then -b else b).toNat
      else (2 ^ 64 - (if negA then -a else a).toNat * (if negB then -b else b).toNat) % 2 ^ 64 := by
  rw [← double_multLoop, mult, if_neg h, Bool.true_and, Bool.true_and, ← hA, ← hB]
  dsimp only
  by_cases hsign : negA = negB
  · rw [if_neg (not_not.mpr hsign), if_pos hsign]
  · rw [if_pos hsign, if_neg hsign]
    exact double_neg _ _

theorem product_bounds {a b : Word} (h : ¬ (a = 0 ∨ b = 0)) {x y : ℕ}
    (hx : (x : ℤ) = if decide (a.toInt < 0) then -a.toInt else a.toInt)
    (hy : (y : ℤ) = if decide (b.toInt < 0) then -b.toInt else b.toInt) :
    0 < x * y ∧ x * y ≤ 2 ^ 62 := by
  have hpos : ∀ {c : Word} {z : ℕ}, c ≠ 0 →
      ((z : ℤ) = if decide (c.toInt < 0) then -c.toInt else c.toInt) → 0 < z ∧ z ≤ 2 ^ 31 := by
    intro c z hc hz
    have hne : c.toInt ≠ 0 := fun h0 => hc (BitVec.eq_of_toInt_eq h0)
    have hle := BitVec.le_toInt c
    have hlt := BitVec.toInt_lt (x := c)
    by_cases hneg : c.toInt < 0
    · simp only [hneg, decide_true, if_true] at hz
      omega
    · simp only [hneg, decide_false, Bool.false_eq_true, if_false] at hz
      omega
  obtain ⟨hx0, hx1⟩ := hpos (fun h0 => h (.inl h0)) hx
  obtain ⟨hy0, hy1⟩ := hpos (fun h0 => h (.inr h0)) hy
  refine ⟨Nat.mul_pos hx0 hy0, ?_⟩
  calc x * y ≤ 2 ^ 31 * 2 ^ 31 := Nat.mul_le_mul hx1 hy1
    _ = 2 ^ 62 := by norm_num

/-- `Mult` leaves the product of its arguments in `hi` and `lo`, without signs and with them. -/
theorem mult_eq_product (a b : Word) :
    (mult a b false).1.toNat * 2 ^ 32 + (mult a b false).2.toNat = a.toNat * b.toNat ∧
    ((mult a b true).1 ++ (mult a b true).2).toInt = a.toInt * b.toInt := by
  by_cases hzero : a = 0 ∨ b = 0
  · have hmult : ∀ signedArith, mult a b signedArith = (0, 0) := fun _ => if_pos hzero
    rw [hmult, hmult]
    rcases hzero with rfl | rfl <;> simp
  · refine ⟨by rw [mult_unsigned hzero]; exact double_multLoop a b, ?_⟩
    have hdouble := double_mult_signed hzero rfl rfl
    have hA := toNat_abs a _ rfl
    have hB := toNat_abs b _ rfl
    rw [toInt_append, hdouble]
    generalize (if decide (a.toInt < 0) then -a else a).toNat = x at *
    generalize (if decide (b.toInt < 0) then -b else b).toNat = y at *
    have hbounds := product_bounds hzero hA hB
    by_cases ha : a.toInt < 0 <;> by_cases hb : b.toInt < 0
    · simp only [ha, hb, decide_true, if_true] at hA hB ⊢
      rw [if_pos (by omega), Nat.cast_mul, hA, hB]
      ring
    · simp only [ha, hb, decide_true, decide_false, if_true, Bool.false_eq_true, if_false,
        Bool.true_eq_false] at hA hB ⊢
      have hprod : ((x * y : ℕ) : ℤ) = -(a.toInt * b.toInt) := by
        rw [Nat.cast_mul, hA, hB]
        ring
      rw [if_neg (by omega)]
      omega
    · simp only [ha, hb, decide_true, decide_false, if_true, Bool.false_eq_true, if_false] at hA hB ⊢
      have hprod : ((x * y : ℕ) : ℤ) = -(a.toInt * b.toInt) := by
        rw [Nat.cast_mul, hA, hB]
        ring
      rw [if_neg (by omega)]
      omega
    · simp only [ha, hb, decide_false, Bool.false_eq_true, if_false, if_true] at hA hB ⊢
      rw [if_pos (by omega), Nat.cast_mul, hA, hB]

end Nachos
