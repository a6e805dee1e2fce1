import Nachos.Verification.Machine.Traps

/-! # Bitwise instructions -/

namespace Nachos

open Library

variable {value : Word}

namespace Machine

variable {m m' m₁ : Machine} {build : Build} {uninit : ℕ → ℤ}

/-! ## The fetch -/

theorem tlbSwap_mainMemory {vaddr : Word} (h : m.tlbSwap build vaddr = .ok m') :
    m'.mainMemory = m.mainMemory := by
  unfold tlbSwap at h
  split at h
  · cases h
  · obtain ⟨t, -, h⟩ := bind_eq_ok.mp h
    dsimp only at h
    obtain ⟨found, -, h⟩ := bind_eq_ok.mp h
    cases found <;> obtain ⟨r, -, h⟩ := bind_eq_ok.mp h <;>
      obtain ⟨e, -, h⟩ := bind_eq_ok.mp h <;> cases h <;> rfl

/-- The kernel handles a fault without touching registers and memory. -/
theorem harmless_kernel {which : ExceptionType} (hwhich : which ≠ .syscallException) :
    Harmless (kernel build) which := by
  intro m control m' h
  rw [kernel, exceptionHandler, if_neg (fun h => hwhich h.1), if_neg (fun h => hwhich h.1)] at h
  split_ifs at h
  · obtain ⟨m₁, hswap, h⟩ := bind_eq_ok.mp h
    cases h
    exact ⟨(blind_tlbSwap build _).registers hswap, tlbSwap_mainMemory hswap⟩
  · cases h
    exact ⟨rfl, rfl⟩

/-- Without a pending load, these registers are as they were. -/
theorem Held.registers (h : Held m m') (hzero : m.registers 0 = 0) (hload : m.registers LoadReg = 0)
    {r : Fin NumTotalRegs} (hr : r ≠ LoadValueReg) (hbad : r ≠ BadVAddrReg) :
    m'.registers r = m.registers r := by
  rcases h with ⟨-, hreg⟩ | h
  · exact congrFun hreg r
  · obtain ⟨m₁, hdelayed, heq⟩ := h.loads
    obtain ⟨-, rfl⟩ := settled_of_delayedLoad hdelayed
    rw [heq r hbad]
    change settle m.registers r = m.registers r
    by_cases hspecial : r = 0 ∨ r = LoadReg
    · rw [settle_of_mem (hspecial.imp_right .inl)]
      rcases hspecial with rfl | rfl
      exacts [hzero.symm, hload.symm]
    · push Not at hspecial
      refine settle_of_ne (by simp [hspecial, hr]) fun hp => hspecial.1 (Fin.ext ?_)
      simpa [hload] using hp

/-! ## Instructions that write one register -/

/-- The end of an instruction when no load is pending. -/
theorem retire_of_settled (hload : m.registers LoadReg = 0) (pcAfter : Word) :
    ∃ m', m.retire delayed 0 0 pcAfter = .ok m' ∧ m'.mainMemory = m.mainMemory ∧
      m'.registers 0 = 0 ∧ m'.registers PCReg = m.registers NextPCReg ∧
      ∀ q : Fin NumTotalRegs, q ≠ 0 → (q : ℕ) < PCReg → m'.registers q = m.registers q := by
  have hpending : (m.registers LoadReg).toNat = (0 : Fin NumTotalRegs) := by
    rw [hload]
    rfl
  rw [retire, show delayed.complete = delayedLoad from rfl, delayedLoad_eq hpending]
  refine ⟨_, rfl, rfl, rfl, rfl, fun q hq hlt => ?_⟩
  have hne {p : Fin NumTotalRegs} (hp : PCReg ≤ (p : ℕ)) : q ≠ p := by
    rintro rfl
    omega
  simp only [setRegister]
  rw [Function.update_of_ne (hne (by decide)), Function.update_of_ne (hne (by decide)),
    Function.update_of_ne (hne (by decide)), Function.update_of_ne hq,
    Function.update_of_ne (hne (by decide)), Function.update_of_ne (hne (by decide)),
    Function.update_of_ne hq]

/-- What has changed when the next instruction follows: one general register. -/
structure Sets (m m' : Machine) (r : Fin NumGPRegs) (value : Word) : Prop where
  result : r ≠ 0 → m'.registers (Instruction.gpr r) = value
  others : ∀ q, q ≠ r → m'.registers (Instruction.gpr q) = m.registers (Instruction.gpr q)
  hi : m'.registers HiReg = m.registers HiReg
  lo : m'.registers LoReg = m.registers LoReg
  memory : m'.mainMemory = m.mainMemory
  zero : m'.registers 0 = 0
  pc : m'.registers PCReg = m.registers NextPCReg

theorem sets_of_executeTo (handler : Handler) (uninit : ℕ → ℤ) {i : Instruction} {r : Fin NumGPRegs}
    {pcAfter : Word} (hzero : m.registers 0 = 0) (hload : m.registers LoadReg = 0)
    (hop : i.operation m.registers = .write [(Instruction.gpr r, value)] pcAfter) :
    ∃ m', m.executeTo handler delayed uninit i = .ok (.completed, m') ∧ Sets m m' r value := by
  have hrun : m.executeTo handler delayed uninit i = (do
      return (.completed,
        ← (m.setRegister (Instruction.gpr r) value).retire delayed 0 0 pcAfter)) := by
    unfold executeTo
    rw [hop]
    rfl
  have hset {q : Fin NumTotalRegs} (hq : q ≠ Instruction.gpr r) :
      (m.setRegister (Instruction.gpr r) value).registers q = m.registers q :=
    Function.update_of_ne hq _ _
  have hgpr (u : Fin NumGPRegs) : (Instruction.gpr u : ℕ) < 32 := u.isLt
  have hspecial {q : Fin NumTotalRegs} (hq : 32 ≤ (q : ℕ)) : q ≠ Instruction.gpr r := by
    rintro rfl
    have := hgpr r
    omega
  obtain ⟨m', hretire, hmem, hz, hpc, hrest⟩ := retire_of_settled
    (m := m.setRegister (Instruction.gpr r) value)
    ((hset (hspecial (by decide))).trans hload) pcAfter
  refine ⟨m', by rw [hrun, hretire]; rfl, ?_, ?_, ?_, ?_, hmem, hz, ?_⟩
  · intro hr
    rw [hrest _ (fun h => hr (Instruction.gpr_eq_zero h)) ((hgpr r).trans (by decide))]
    exact Function.update_self _ _ _
  · intro q hqr
    by_cases hq : q = 0
    · subst hq
      exact hz.trans hzero.symm
    · rw [hrest _ (fun h => hq (Instruction.gpr_eq_zero h)) ((hgpr q).trans (by decide))]
      exact hset fun h => hqr (Fin.castLE_injective _ h)
  · exact (hrest HiReg (by decide) (by decide)).trans (hset (hspecial (by decide)))
  · exact (hrest LoReg (by decide) (by decide)).trans (hset (hspecial (by decide)))
  · exact hpc.trans (hset (hspecial (by decide)))

end Machine

/-! ## The seven instructions -/

namespace Instruction

def isBitwise (o : OpCode) : Bool := o ∈ [.and, .or, .xor, .nor, .andi, .ori, .xori]

/-- The register that a bitwise instruction writes. -/
def target (value : Word) : Fin NumGPRegs :=
  match (decode value).opCode with
  | .andi | .ori | .xori => (decode value).rt
  | _ => (decode value).rd

/-- The architecture's result of a bitwise instruction. -/
def bitwise (value : Word) (reg : Fin NumTotalRegs → Word) : Word :=
  let rs := reg (gpr (decode value).rs)
  let rt := reg (gpr (decode value).rt)
  let imm : Word := (value.extractLsb' 0 16).setWidth 32
  match (decode value).opCode with
  | .and => rs &&& rt
  | .or => rs ||| rt
  | .xor => rs ^^^ rt
  | .nor => ~~~(rs ||| rt)
  | .andi => rs &&& imm
  | .ori => rs ||| imm
  | _ => rs ^^^ imm

/-- The immediate operand is extended by zeros although `Decode` extends its sign. -/
theorem and_mask_immediate (h : (decode value).opCode ∈ [OpCode.andi, .ori, .xori]) :
    (decode value).extra &&& 0xffff = (value.extractLsb' 0 16).setWidth 32 := by
  have hmask : (0xffff : Word) = (BitVec.allOnes 16).setWidth 32 := by decide
  rw [extra_of_immediate h (by decide) (by decide) (by decide), hmask]
  ext k hk
  simp only [BitVec.getElem_and, BitVec.getElem_setWidth, BitVec.getLsbD_allOnes]
  by_cases hlow : k < 16
  · rw [BitVec.getElem_signExtend, dif_pos hlow, BitVec.getLsbD_eq_getElem hlow]
    simp [hlow]
  · rw [BitVec.getLsbD_of_ge _ _ (by omega)]
    simp [hlow]

/-- What a bitwise instruction writes. -/
theorem operation_bitwise {reg : Fin NumTotalRegs → Word} (h : isBitwise (decode value).opCode) :
    (decode value).operation reg = .write [(gpr (target value),
      if (decode value).opCode = .or then reg (gpr (decode value).rs) else bitwise value reg)]
      (reg NextPCReg + 4) := by
  have hmem : (decode value).opCode ∈ [OpCode.and, .or, .xor, .nor, .andi, .ori, .xori] :=
    of_decide_eq_true h
  have himm : (decode value).opCode ∈ [OpCode.andi, .ori, .xori] →
      (decode value).extra &&& 0xffff = (value.extractLsb' 0 16).setWidth 32 := and_mask_immediate
  simp only [List.mem_cons, List.not_mem_nil, or_false] at hmem
  unfold operation target bitwise
  rcases hmem with h | h | h | h | h | h | h <;>
    simp only [h, reduceCtorEq, if_false, if_true, BitVec.or_self]
  all_goals rw [himm (by simp [h])]

theorem or_eq_left_iff (a b : Word) : a ||| b = a ↔ b &&& ~~~a = 0 := by
  simp only [BitVec.eq_of_getElem_eq_iff, BitVec.getElem_or, BitVec.getElem_and,
    BitVec.getElem_not]
  refine forall₂_congr fun k hk => ?_
  cases a[k] <;> cases b[k] <;> simp

end Instruction

namespace Machine

open Instruction

variable {m m' m₁ : Machine} {build : Build} {uninit : ℕ → ℤ} {raw : Word}

theorem Held.gpr (h : Held m m₁) (hzero : m.registers 0 = 0) (hload : m.registers LoadReg = 0)
    (u : Fin NumGPRegs) : m₁.registers (gpr u) = m.registers (gpr u) := by
  have hbad : Instruction.gpr u ≠ BadVAddrReg := by
    revert u
    decide
  exact h.registers hzero hload (gpr_ne u).2 hbad

/-- The fetch does not touch what `Sets` speaks of. -/
theorem Held.sets (h : Held m m₁) (hzero : m.registers 0 = 0) (hload : m.registers LoadReg = 0)
    {r : Fin NumGPRegs} (hsets : Sets m₁ m' r value) : Sets m m' r value where
  result := hsets.result
  others q hq := (hsets.others q hq).trans (h.gpr hzero hload q)
  hi := hsets.hi.trans (h.registers hzero hload (by decide) (by decide))
  lo := hsets.lo.trans (h.registers hzero hload (by decide) (by decide))
  memory := hsets.memory.trans h.memory
  zero := hsets.zero
  pc := hsets.pc.trans (h.registers hzero hload (by decide) (by decide))

/-- A step with a bitwise instruction; `OR` gives the wrong operand. -/
theorem sets_of_bitwise (hzero : m.registers 0 = 0) (hload : m.registers LoadReg = 0)
    (hfetch : m.readMem build (m.registers PCReg) 4 (uninit 0) = .ok (some raw, m₁))
    (h : isBitwise (decode raw).opCode) :
    ∃ m', m.oneInstruction delayed build uninit = .ok (.resume, m') ∧ Sets m m' (target raw)
      (if (decode raw).opCode = .or then m.registers (gpr (decode raw).rs)
        else bitwise raw m.registers) := by
  have hheld : Held m m₁ :=
    (held_of_readMemTo (fun _ hwhich => harmless_kernel hwhich) hfetch).1
  have hzero₁ : m₁.registers 0 = 0 :=
    (hheld.registers hzero hload (by decide) (by decide)).trans hzero
  have hload₁ : m₁.registers LoadReg = 0 :=
    (hheld.registers hzero hload (by decide) (by decide)).trans hload
  obtain ⟨m', hrun, hsets⟩ := sets_of_executeTo (kernel build) uninit hzero₁ hload₁
    (operation_bitwise h)
  have hbitwise : bitwise raw m₁.registers = bitwise raw m.registers := by
    simp only [bitwise, hheld.gpr hzero hload]
  rw [hbitwise, hheld.gpr hzero hload] at hsets
  refine ⟨m', ?_, hheld.sets hzero hload hsets⟩
  change m.readMemTo (kernel build) _ 4 _ = _ at hfetch
  rw [oneInstruction, oneInstructionTo, hfetch, ok_bind]
  dsimp only
  rw [hrun]
  rfl

/-- The bitwise instructions do what the architecture says, except that `OR` ignores its
second operand. -/
theorem bitwise_iff (build : Build) (uninit : ℕ → ℤ) (m : Machine) (raw : Word)
    (hzero : m.registers 0 = 0) (hload : m.registers LoadReg = 0)
    (hfetch : m.readMem build (m.registers PCReg) 4 (uninit 0) = .ok (some raw, m₁))
    (h : isBitwise (decode raw).opCode) :
    (∃ m', m.oneInstruction delayed build uninit = .ok (.resume, m') ∧
      Sets m m' (target raw) (bitwise raw m.registers)) ↔
    ¬ ((decode raw).opCode = .or ∧ (decode raw).rd ≠ 0 ∧
      m.registers (gpr (decode raw).rt) &&& ~~~m.registers (gpr (decode raw).rs) ≠ 0) := by
  obtain ⟨m', hrun, hsets⟩ := sets_of_bitwise hzero hload hfetch h
  by_cases hor : (decode raw).opCode = .or
  · have htarget : target raw = (decode raw).rd := by rw [target, hor]
    have hvalue : bitwise raw m.registers =
        m.registers (gpr (decode raw).rs) ||| m.registers (gpr (decode raw).rt) := by
      rw [bitwise, hor]
    rw [if_pos hor, htarget] at hsets
    rw [htarget, hvalue]
    constructor
    · rintro ⟨m₂, hrun₂, hsets₂⟩ ⟨-, hrd, hne⟩
      cases hrun.symm.trans hrun₂
      exact hne ((or_eq_left_iff _ _).mp ((hsets₂.result hrd).symm.trans (hsets.result hrd)))
    · intro hok
      refine ⟨m', hrun, { hsets with result := fun hrd => ?_ }⟩
      have hsub : m.registers (gpr (decode raw).rt) &&& ~~~m.registers (gpr (decode raw).rs) = 0 := by
        by_contra hne
        exact hok ⟨hor, hrd, hne⟩
      rw [hsets.result hrd, (or_eq_left_iff _ _).mpr hsub]
  · rw [if_neg hor] at hsets
    exact iff_of_true ⟨m', hrun, hsets⟩ (fun hall => hor hall.1)

/-- `AND` of registers 1 and 2 into register 3. -/
def anding : Machine := singleStep [0x24, 0x18, 0x22, 0] fun r =>
  if r = 1 then 6 else if r = 2 then 3 else 0

theorem bitwise_iff_anding : ∃ m', anding.oneInstruction delayed ⟨false, false, false⟩
      (fun _ => 0) = .ok (.resume, m') ∧
    Sets anding m' (target 0x221824) (bitwise 0x221824 anding.registers) := by
  have hraw : (anding.readMem ⟨false, false, false⟩ (anding.registers PCReg) 4 0).map Prod.fst =
      .ok (some 0x221824) := by decide +kernel
  obtain ⟨m₁, hfetch⟩ : ∃ m₁, anding.readMem ⟨false, false, false⟩ (anding.registers PCReg) 4 0 =
      .ok (some 0x221824, m₁) := by
    rcases hread : anding.readMem ⟨false, false, false⟩ (anding.registers PCReg) 4 0 with e | r
    · rw [hread] at hraw
      cases hraw
    · rw [hread] at hraw
      exact ⟨r.2, congrArg (fun v => Except.ok (v, r.2)) (Except.ok.inj hraw)⟩
  exact (bitwise_iff _ (fun _ => 0) anding 0x221824 rfl rfl hfetch (by decide)).mpr (by decide)

/-- `OR` of registers 1 and 2 into register 3. -/
def oring : Machine := singleStep [0x25, 0x18, 0x22, 0] fun r =>
  if r = 1 then 6 else if r = 2 then 3 else 0

theorem or_ignores_operand : ∃ m', oring.oneInstruction delayed ⟨false, false, false⟩
      (fun _ => 0) = .ok (.resume, m') ∧ m'.registers 3 = 6 ∧
    bitwise 0x221825 oring.registers = 7 ∧
    ¬ Sets oring m' (target 0x221825) (bitwise 0x221825 oring.registers) := by
  obtain ⟨m', hrun, hreg⟩ : ∃ m', oring.oneInstruction delayed ⟨false, false, false⟩
      (fun _ => 0) = .ok (.resume, m') ∧ m'.registers 3 = 6 := ⟨_, rfl, rfl⟩
  refine ⟨m', hrun, hreg, by decide, fun hsets => ?_⟩
  have hresult : m'.registers 3 = 7 := hsets.result (by decide)
  exact absurd (hreg.symm.trans hresult) (by decide)

end Machine

end Nachos
