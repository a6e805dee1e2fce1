import Nachos.Model.Mips

/-! # Single instructions

What division and shifts compute, and when arithmetic overflows. -/

namespace Nachos

open Library

/-! ## Decoding -/

namespace Instruction

/-- The major opcodes and their formats, for all values of six bits. -/
theorem opTable_cases {p : Major × Format → Prop} (h : ∀ e ∈ opTable, p e) (value : Word) :
    p (opTable.getD (value.extractLsb' 26 6).toNat (.op .res, .ifmt)) := by
  have hlt : (value.extractLsb' 26 6).toNat < opTable.length :=
    (value.extractLsb' 26 6).isLt.trans_eq rfl
  rw [List.getD_eq_getElem _ _ hlt]
  exact h _ (List.getElem_mem hlt)

theorem specialTable_cases {p : OpCode → Prop} (h : ∀ o ∈ specialTable, p o) (value : Word) :
    p (specialTable.getD (value.extractLsb' 0 6).toNat .res) := by
  have hlt : (value.extractLsb' 0 6).toNat < specialTable.length :=
    (value.extractLsb' 0 6).isLt.trans_eq rfl
  rw [List.getD_eq_getElem _ _ hlt]
  exact h _ (List.getElem_mem hlt)

theorem bcondTable_mem (value : Word) :
    bcondTable value ∈ [OpCode.bltz, .bgez, .bltzal, .bgezal, .unimp] := by
  unfold bcondTable
  split_ifs <;> simp

/-- No entry of `opTable` is one of `ops`, and `SPECIAL` has the format of registers. -/
def onlySpecial (ops : List OpCode) : Major × Format → Bool
  | (.op o, _) => o ∉ ops
  | (.special, f) => f = .rfmt
  | (.bcond, _) => true

/-- The entries for `ops` have the format of immediate operands. -/
def onlyImmediate (ops : List OpCode) : Major × Format → Bool
  | (.op o, f) => o ∈ ops → f = .ifmt
  | _ => true

variable {value : Word}

theorem extra_of_special {ops : List OpCode} (h : (decode value).opCode ∈ ops)
    (hop : ∀ e ∈ opTable, onlySpecial ops e)
    (hbcond : ∀ o ∈ [OpCode.bltz, .bgez, .bltzal, .bgezal, .unimp], o ∉ ops) :
    (decode value).extra = (value.extractLsb' 6 5).setWidth 32 := by
  have hentry := opTable_cases hop value
  unfold decode at h ⊢
  generalize opTable.getD (value.extractLsb' 26 6).toNat (.op .res, .ifmt) = e at h hentry
  obtain ⟨major, format⟩ := e
  cases major with
  | op o => exact absurd h (of_decide_eq_true hentry)
  | special =>
      cases of_decide_eq_true hentry
      rfl
  | bcond => exact absurd h (hbcond _ (bcondTable_mem value))

theorem extra_of_immediate {ops : List OpCode} (h : (decode value).opCode ∈ ops)
    (hop : ∀ e ∈ opTable, onlyImmediate ops e) (hspecial : ∀ o ∈ specialTable, o ∉ ops)
    (hbcond : ∀ o ∈ [OpCode.bltz, .bgez, .bltzal, .bgezal, .unimp], o ∉ ops) :
    (decode value).extra = (value.extractLsb' 0 16).signExtend 32 := by
  have hentry := opTable_cases hop value
  unfold decode at h ⊢
  generalize opTable.getD (value.extractLsb' 26 6).toNat (.op .res, .ifmt) = e at h hentry
  obtain ⟨major, format⟩ := e
  cases major with
  | op o =>
      cases of_decide_eq_true hentry h
      rfl
  | special => exact absurd h (specialTable_cases hspecial value)
  | bcond => exact absurd h (hbcond _ (bcondTable_mem value))

/-! ## Division -/

variable {i : Instruction} {reg : Fin NumTotalRegs → Word}

/-- The quotient `lo` and the remainder `hi` of a division. -/
def Divides (signed : Prop) [Decidable signed] (rs rt lo hi : Word) : Prop :=
  if rt = 0 then lo = 0 ∧ hi = 0
  else rs = lo * rt + hi ∧
    if signed then hi.toInt.natAbs < rt.toInt.natAbs ∧ (hi = 0 ∨ hi.toInt.sign = rs.toInt.sign)
    else hi.toNat < rt.toNat

theorem divides_sdiv {rs rt : Word} (h0 : rt ≠ 0) (h : ¬ (rs = 0x80000000 ∧ rt = 0xffffffff)) :
    Divides True rs rt (rs.sdiv rt) (rs.srem rt) := by
  have hquot : (rs.sdiv rt).toInt = rs.toInt.tdiv rt.toInt := by
    refine BitVec.toInt_sdiv_of_ne_or_ne rs rt ?_
    by_contra hboth
    push Not at hboth
    exact h ⟨hboth.1.trans (by decide), hboth.2.trans (by decide)⟩
  have hne : rt.toInt ≠ 0 := fun hzero => h0 (BitVec.eq_of_toInt_eq hzero)
  rw [Divides, if_neg h0, if_pos trivial]
  refine ⟨?_, ?_, ?_⟩
  · calc rs = BitVec.ofInt 32 (rs.toInt.tdiv rt.toInt * rt.toInt + rs.toInt.tmod rt.toInt) := by
          rw [Int.tdiv_mul_add_tmod, BitVec.ofInt_toInt]
      _ = rs.sdiv rt * rt + rs.srem rt := by
          rw [BitVec.ofInt_add, BitVec.ofInt_mul, ← hquot, ← BitVec.toInt_srem, BitVec.ofInt_toInt,
            BitVec.ofInt_toInt, BitVec.ofInt_toInt]
  · rw [BitVec.toInt_srem, Int.natAbs_tmod]
    exact Nat.mod_lt _ (Int.natAbs_pos.mpr hne)
  · by_cases hdvd : rt.toInt ∣ rs.toInt
    · refine .inl (BitVec.eq_of_toInt_eq ?_)
      rw [BitVec.toInt_srem]
      exact Int.tmod_eq_zero_of_dvd hdvd
    · refine .inr ?_
      rw [BitVec.toInt_srem, Int.sign_tmod, if_neg hdvd]

theorem divides_udiv {rs rt : Word} (h0 : rt ≠ 0) : Divides False rs rt (rs / rt) (rs % rt) := by
  have hpos : 0 < rt := by
    rw [BitVec.lt_def]
    exact Nat.pos_of_ne_zero fun hzero => h0 (BitVec.eq_of_toNat_eq hzero)
  rw [Divides, if_neg h0, if_neg not_false]
  refine ⟨?_, BitVec.umod_lt rs hpos⟩
  apply BitVec.eq_of_toNat_eq
  rw [BitVec.toNat_add, BitVec.toNat_mul, BitVec.toNat_udiv, BitVec.toNat_umod, Nat.mod_add_mod,
    Nat.div_add_mod', Nat.mod_eq_of_lt rs.isLt]

theorem operation_div (h : i.opCode = .div) : i.operation reg =
    if reg (gpr i.rt) = 0 then .write [(LoReg, 0), (HiReg, 0)] (reg NextPCReg + 4)
    else if reg (gpr i.rs) = 0x80000000 ∧ reg (gpr i.rt) = 0xffffffff then .fault .overflow
    else .write [(LoReg, (reg (gpr i.rs)).sdiv (reg (gpr i.rt))),
      (HiReg, (reg (gpr i.rs)).srem (reg (gpr i.rt)))] (reg NextPCReg + 4) := by
  unfold operation
  rw [h]

theorem operation_divu (h : i.opCode = .divu) : i.operation reg =
    if reg (gpr i.rt) = 0 then .write [(LoReg, 0), (HiReg, 0)] (reg NextPCReg + 4)
    else .write [(LoReg, reg (gpr i.rs) / reg (gpr i.rt)),
      (HiReg, reg (gpr i.rs) % reg (gpr i.rt))] (reg NextPCReg + 4) := by
  unfold operation
  rw [h]

/-- `DIV` overflows for the least number and -1, and otherwise both divisions are right. -/
theorem division_iff (value : Word) (reg : Fin NumTotalRegs → Word)
    (h : (decode value).opCode = .div ∨ (decode value).opCode = .divu) :
    (∃ lo hi, (decode value).operation reg =
        .write [(LoReg, lo), (HiReg, hi)] (reg NextPCReg + 4) ∧
      Divides ((decode value).opCode = .div) (reg (gpr (decode value).rs))
        (reg (gpr (decode value).rt)) lo hi) ↔
    ¬ ((decode value).opCode = .div ∧ reg (gpr (decode value).rs) = 0x80000000 ∧
      reg (gpr (decode value).rt) = 0xffffffff) := by
  generalize decode value = i at h ⊢
  by_cases h0 : reg (gpr i.rt) = 0
  · have hnot : ¬ (i.opCode = .div ∧ reg (gpr i.rs) = 0x80000000 ∧
        reg (gpr i.rt) = 0xffffffff) := by
      rintro ⟨-, -, h1⟩
      exact absurd (h0.symm.trans h1) (by decide)
    refine iff_of_true ⟨0, 0, ?_, ?_⟩ hnot
    · rcases h with h | h
      · rw [operation_div h, if_pos h0]
      · rw [operation_divu h, if_pos h0]
    · rw [Divides, if_pos h0]
      exact ⟨rfl, rfl⟩
  rcases h with h | h
  · rw [operation_div h, if_neg h0]
    by_cases hbad : reg (gpr i.rs) = 0x80000000 ∧ reg (gpr i.rt) = 0xffffffff
    · rw [if_pos hbad]
      refine iff_of_false ?_ (not_not.mpr ⟨h, hbad⟩)
      rintro ⟨lo, hi, heq, -⟩
      cases heq
    · rw [if_neg hbad]
      refine iff_of_true ⟨_, _, rfl, ?_⟩ (fun hall => hbad hall.2)
      simpa only [h] using divides_sdiv h0 hbad
  · rw [operation_divu h, if_neg h0]
    refine iff_of_true ⟨_, _, rfl, ?_⟩ (fun hall => ?_)
    · simpa only [h, reduceCtorEq] using divides_udiv h0
    · cases h.symm.trans hall.1

/-- `DIV` of register 1 by register 2. -/
def sampleDiv : Word := 0x22001a

/-- Register 1 holds `a` and all others `b`. -/
def sampleRegisters (a b : Word) (r : Fin NumTotalRegs) : Word := if r = 1 then a else b

theorem division_iff_sample : ∃ lo hi, (decode sampleDiv).operation (sampleRegisters (-7) 2) =
      .write [(LoReg, lo), (HiReg, hi)] 6 ∧
    Divides ((decode sampleDiv).opCode = .div) (-7) 2 lo hi :=
  (division_iff sampleDiv (sampleRegisters (-7) 2) (.inl (by decide))).mpr (by decide)

theorem division_overflow :
    (decode sampleDiv).operation (sampleRegisters 0x80000000 0xffffffff) = .fault .overflow :=
  rfl

/-! ## Shifts -/

def isShift (o : OpCode) : Bool := o ∈ [.sll, .sllv, .srl, .srlv, .sra, .srav]

/-- The amount of a shift: a field of the instruction or the low bits of a register. -/
def shiftAmount (value : Word) (reg : Fin NumTotalRegs → Word) : ℕ :=
  match (decode value).opCode with
  | .sllv | .srlv | .srav => (reg (gpr (decode value).rs)).toNat % 32
  | _ => value.toNat / 2 ^ 6 % 2 ^ 5

/-- The result of a shift of `rt` by `s`. -/
def Shifts (o : OpCode) (rt : Word) (s : ℕ) (result : Word) : Prop :=
  match o with
  | .sll | .sllv => result.toNat = rt.toNat * 2 ^ s % 2 ^ 32
  | .srl | .srlv => result.toNat = rt.toNat / 2 ^ s ∧ (1 ≤ s → 0 ≤ result.toInt)
  | .sra | .srav => result.toInt = rt.toInt / 2 ^ s
  | _ => False

theorem shiftAmount_lt (value : Word) (reg : Fin NumTotalRegs → Word) :
    shiftAmount value reg < 32 := by
  unfold shiftAmount
  split <;> omega

theorem toNat_and_mask (w : Word) : (w &&& 0x1f).toNat = w.toNat % 32 := by
  rw [BitVec.toNat_and]
  exact Nat.and_two_pow_sub_one_eq_mod w.toNat 5

theorem extra_shift (h : isShift (decode value).opCode) :
    (decode value).extra.toNat = value.toNat / 2 ^ 6 % 2 ^ 5 := by
  have hmem : (decode value).opCode ∈ [OpCode.sll, .sllv, .srl, .srlv, .sra, .srav] :=
    of_decide_eq_true h
  rw [extra_of_special hmem (by decide) (by decide), BitVec.toNat_setWidth,
    BitVec.extractLsb'_toNat, Nat.shiftRight_eq_div_pow]
  omega

theorem operation_shift (h : isShift (decode value).opCode) :
    (decode value).operation reg = .write [(gpr (decode value).rd,
      match (decode value).opCode with
      | .sll | .sllv => reg (gpr (decode value).rt) <<< shiftAmount value reg
      | _ => (reg (gpr (decode value).rt)).sshiftRight (shiftAmount value reg))]
      (reg NextPCReg + 4) := by
  have hextra := extra_shift h
  have hmask := toNat_and_mask (reg (gpr (decode value).rs))
  have hmem : (decode value).opCode ∈ [OpCode.sll, .sllv, .srl, .srlv, .sra, .srav] :=
    of_decide_eq_true h
  simp only [List.mem_cons, List.not_mem_nil, or_false] at hmem
  unfold shiftAmount operation
  rcases hmem with h | h | h | h | h | h <;> simp only [h, hextra, hmask]

theorem toNat_shiftLeft (rt : Word) (s : ℕ) :
    (rt <<< s).toNat = rt.toNat * 2 ^ s % 2 ^ 32 := by
  rw [BitVec.toNat_shiftLeft, Nat.shiftLeft_eq]

theorem toInt_sshiftRight (rt : Word) (s : ℕ) :
    (rt.sshiftRight s).toInt = rt.toInt / 2 ^ s := by
  rw [BitVec.toInt_sshiftRight, Int.shiftRight_eq_div_pow]
  norm_cast

/-- An arithmetic shift is a logical one unless it moves the sign. -/
theorem sshiftRight_logical_iff (rt : Word) (s : ℕ) :
    (rt.sshiftRight s).toNat = rt.toNat / 2 ^ s ∧ (1 ≤ s → 0 ≤ (rt.sshiftRight s).toInt) ↔
      ¬ (rt.msb ∧ s ≠ 0) := by
  have hint := toInt_sshiftRight rt s
  by_cases hneg : rt.msb
  · have hlt : rt.toInt < 0 := BitVec.toInt_neg_of_msb_true hneg
    have hquot : rt.toInt / 2 ^ s < 0 := Int.ediv_neg_of_neg_of_pos hlt (by positivity)
    constructor
    · rintro ⟨-, hpos⟩ ⟨-, hs⟩
      have := hpos (Nat.one_le_iff_ne_zero.mpr hs)
      omega
    · intro hs
      have h0 : s = 0 := by
        by_contra hs0
        exact hs ⟨hneg, hs0⟩
      subst h0
      rw [BitVec.sshiftRight_zero]
      exact ⟨by simp, fun h => absurd h (by decide)⟩
  · have hmsb : rt.msb = false := Bool.eq_false_iff.mpr hneg
    have hle : 0 ≤ rt.toInt := BitVec.toInt_nonneg_of_msb_false hmsb
    refine iff_of_true ⟨?_, fun _ => ?_⟩ (fun h => hneg h.1)
    · rw [BitVec.sshiftRight_eq_of_msb_false hmsb, BitVec.toNat_ushiftRight,
        Nat.shiftRight_eq_div_pow]
    · rw [hint]
      exact Int.ediv_nonneg hle (by positivity)

/-- `SRL` and `SRLV` are wrong for a negative operand. -/
theorem shift_iff (value : Word) (reg : Fin NumTotalRegs → Word)
    (h : isShift (decode value).opCode) :
    (shiftAmount value reg < 32 ∧ ∃ result, (decode value).operation reg =
        .write [(gpr (decode value).rd, result)] (reg NextPCReg + 4) ∧
      Shifts (decode value).opCode (reg (gpr (decode value).rt)) (shiftAmount value reg) result) ↔
    ¬ (((decode value).opCode = .srl ∨ (decode value).opCode = .srlv) ∧
      (reg (gpr (decode value).rt)).msb ∧ shiftAmount value reg ≠ 0) := by
  have hamount := shiftAmount_lt value reg
  have hmem : (decode value).opCode ∈ [OpCode.sll, .sllv, .srl, .srlv, .sra, .srav] :=
    of_decide_eq_true h
  rw [operation_shift h]
  generalize shiftAmount value reg = s at hamount ⊢
  generalize decode value = i at hmem ⊢
  have hresult (p : Word → Prop) (result : Word) :
      (s < 32 ∧ ∃ r, Operation.write [(gpr i.rd, result)] (reg NextPCReg + 4) =
        .write [(gpr i.rd, r)] (reg NextPCReg + 4) ∧ p r) ↔ p result := by
    constructor
    · rintro ⟨-, r, heq, hr⟩
      cases heq
      exact hr
    · exact fun hr => ⟨hamount, result, rfl, hr⟩
  rw [hresult]
  simp only [List.mem_cons, List.not_mem_nil, or_false] at hmem
  rcases hmem with h | h | h | h | h | h <;> simp only [h, Shifts]
  case inl | inr.inl => exact iff_of_true (toNat_shiftLeft _ _) (by simp)
  case inr.inr.inl | inr.inr.inr.inl => simpa using sshiftRight_logical_iff _ _
  all_goals exact iff_of_true (toInt_sshiftRight _ _) (by simp)

/-- `SRL` of register 1 by one, into register 2. -/
def sampleSrl : Word := 0x11042

theorem shift_iff_sample : shiftAmount sampleSrl (sampleRegisters 9 0) < 32 ∧
    ∃ result, (decode sampleSrl).operation (sampleRegisters 9 0) =
        .write [(gpr (decode sampleSrl).rd, result)] 4 ∧
      Shifts (decode sampleSrl).opCode 9 (shiftAmount sampleSrl (sampleRegisters 9 0)) result :=
  (shift_iff sampleSrl (sampleRegisters 9 0) (by decide)).mpr (by decide)

theorem shift_negative : shiftAmount sampleSrl (sampleRegisters 0x80000000 0) = 1 ∧
    (decode sampleSrl).operation (sampleRegisters 0x80000000 0) =
      .write [(gpr (decode sampleSrl).rd, 0xc0000000)] 4 ∧
    ¬ Shifts (decode sampleSrl).opCode 0x80000000 1 0xc0000000 := by
  refine ⟨by decide, rfl, ?_⟩
  change ¬ ((0xc0000000 : Word).toNat = (0x80000000 : Word).toNat / 2 ^ 1 ∧
    (1 ≤ 1 → 0 ≤ (0xc0000000 : Word).toInt))
  decide

/-! ## Overflow -/

/-- No word has this signed value. -/
def OutOfRange (n : ℤ) : Prop := n < -2 ^ 31 ∨ 2 ^ 31 - 1 < n

def Raises (i : Instruction) (reg : Fin NumTotalRegs → Word) (which : ExceptionType) : Prop :=
  ∃ badVAddr, i.operation reg = .trap which badVAddr

theorem outOfRange_add (a b : Word) :
    OutOfRange (a.toInt + b.toInt) ↔ (!signBit (a ^^^ b) && signBit (a ^^^ (a + b))) = true := by
  have hover : OutOfRange (a.toInt + b.toInt) ↔ a.saddOverflow b = true := by
    simp only [OutOfRange, BitVec.saddOverflow, Bool.or_eq_true, decide_eq_true_eq]
    omega
  rw [hover, BitVec.saddOverflow_eq, signBit, signBit, BitVec.msb_xor, BitVec.msb_xor]
  cases a.msb <;> cases b.msb <;> simp

theorem outOfRange_sub (a b : Word) :
    OutOfRange (a.toInt - b.toInt) ↔ (signBit (a ^^^ b) && signBit (a ^^^ (a - b))) = true := by
  have hover : OutOfRange (a.toInt - b.toInt) ↔ a.ssubOverflow b = true := by
    simp only [OutOfRange, BitVec.ssubOverflow, Bool.or_eq_true, decide_eq_true_eq]
    omega
  rw [hover, BitVec.ssubOverflow_eq, signBit, signBit, BitVec.msb_xor, BitVec.msb_xor]
  cases a.msb <;> cases b.msb <;> simp

/-- The operation of an instruction that traps or writes one register. -/
theorem raises_ite (b : Bool) (which : ExceptionType) (r : Fin NumTotalRegs) (value pc : Word)
    (h : i.operation reg = if b then .trap which 0 else .write [(r, value)] pc) :
    i.Raises reg which ↔ b = true := by
  rw [Raises, h]
  cases b <;> simp

theorem raises_add (h : i.opCode = .add) : i.Raises reg .overflowException ↔
    OutOfRange ((reg (gpr i.rs)).toInt + (reg (gpr i.rt)).toInt) := by
  rw [outOfRange_add]
  refine raises_ite _ _ (gpr i.rd) (reg (gpr i.rs) + reg (gpr i.rt)) (reg NextPCReg + 4) ?_
  unfold operation
  rw [h]

theorem raises_addi (h : i.opCode = .addi) : i.Raises reg .overflowException ↔
    OutOfRange ((reg (gpr i.rs)).toInt + i.extra.toInt) := by
  rw [Int.add_comm, outOfRange_add, BitVec.xor_comm i.extra (reg _), BitVec.add_comm i.extra]
  refine raises_ite _ _ (gpr i.rt) (reg (gpr i.rs) + i.extra) (reg NextPCReg + 4) ?_
  unfold operation
  rw [h]

theorem raises_sub (h : i.opCode = .sub) : i.Raises reg .overflowException ↔
    OutOfRange ((reg (gpr i.rs)).toInt - (reg (gpr i.rt)).toInt) := by
  rw [outOfRange_sub]
  refine raises_ite _ _ (gpr i.rd) (reg (gpr i.rs) - reg (gpr i.rt)) (reg NextPCReg + 4) ?_
  unfold operation
  rw [h]

theorem toInt_extra_addi (h : (decode value).opCode = .addi) :
    (decode value).extra.toInt = (value.extractLsb' 0 16).toInt := by
  have hmem : (decode value).opCode ∈ [OpCode.addi] := by simp [h]
  rw [extra_of_immediate hmem (by decide) (by decide) (by decide),
    BitVec.toInt_signExtend_of_le (by decide)]

end Instruction

end Nachos
