import Nachos.Verification.Machine.DelayedLoads
import Nachos.Verification.Machine.Instructions
import Nachos.Verification.Machine.Lookup

/-! # Precise exceptions

An instruction that is not completed has done nothing but apply the pending load. -/

namespace Nachos

open Library

namespace Machine

variable {m m' m₁ m₂ : Machine} {handler : Handler} {unit : LoadUnit} {uninit : ℕ → ℤ} {addr : Word}
  {size : ℤ} {writing : Bool} {control : Control}

/-! ## What an access leaves as it is -/

/-- The handler changes neither registers nor the memory at this exception. -/
def Harmless (handler : Handler) (which : ExceptionType) : Prop :=
  ∀ m control m', handler which m = .ok (control, m') →
    m'.registers = m.registers ∧ m'.mainMemory = m.mainMemory

/-- The pending load has been applied, and nothing else has changed. -/
structure Applied (m m' : Machine) : Prop where
  memory : m'.mainMemory = m.mainMemory
  loads : ∃ m₁, m.delayedLoad 0 0 = .ok m₁ ∧
    ∀ r, r ≠ BadVAddrReg → m'.registers r = m₁.registers r

/-- The pending load may have been applied. -/
def Held (m m' : Machine) : Prop :=
  (m'.mainMemory = m.mainMemory ∧ m'.registers = m.registers) ∨ Applied m m'

theorem Held.memory (h : Held m m') : m'.mainMemory = m.mainMemory := by
  rcases h with h | h
  · exact h.1
  · exact h.memory

theorem Applied.loadReg (h : Applied m m') : Settled m'.registers := by
  obtain ⟨m₁, hload, heq⟩ := h.loads
  obtain ⟨-, rfl⟩ := settled_of_delayedLoad hload
  have hsettled : Settled m.settled.registers := settled_settle _
  refine ⟨?_, ?_, ?_⟩
  · exact (heq _ (by decide)).trans hsettled.zero
  · exact (heq _ (by decide)).trans hsettled.target
  · exact (heq _ (by decide)).trans hsettled.value

/-- Once a pending load has been applied there is none. -/
theorem Held.applied (h : Held m m₁) (h' : Applied m₁ m') : Applied m m' := by
  refine ⟨h'.memory.trans h.memory, ?_⟩
  obtain ⟨m₂, hload, heq⟩ := h'.loads
  obtain ⟨hlt, rfl⟩ := settled_of_delayedLoad hload
  rcases h with ⟨-, hreg⟩ | h
  · refine ⟨m.settled, delayedLoad_settled (hreg ▸ hlt), fun r hr => (heq r hr).trans ?_⟩
    exact congrFun (congrArg settle hreg) r
  · obtain ⟨m₃, hload₃, heq₃⟩ := h.loads
    refine ⟨m₃, hload₃, fun r hr => (heq r hr).trans (Eq.trans ?_ (heq₃ r hr))⟩
    exact congrFun h.loadReg.settle_eq r

theorem Held.trans (h : Held m m₁) (h' : Held m₁ m') : Held m m' := by
  rcases h' with ⟨hmem, hreg⟩ | h'
  · rcases h with ⟨hmem₁, hreg₁⟩ | h
    · exact .inl ⟨hmem.trans hmem₁, hreg.trans hreg₁⟩
    · refine .inr ⟨hmem.trans h.memory, ?_⟩
      rw [hreg]
      exact h.loads
  · exact .inr (h.applied h')

theorem held_of_translate {result : Translation}
    (h : m.translate addr size writing = .ok (result, m')) : Held m m' :=
  .inl ⟨(translate_eq_ok.mp h).mainMemory, (blind_translate addr size writing).registers h⟩

/-- `RaiseException` applies the pending load before the handler is called. -/
theorem applied_of_raiseTo {which : ExceptionType} (hh : Harmless handler which) {badVAddr : Word}
    (h : m.raiseTo handler which badVAddr = .ok (control, m')) : Applied m m' := by
  obtain ⟨m₁, hload, hhandler⟩ := bind_eq_ok.mp h
  obtain ⟨hreg, hmem⟩ := hh m₁ control m' hhandler
  obtain ⟨hlt, rfl⟩ := settled_of_delayedLoad hload
  have hsame : (m.setRegister BadVAddrReg badVAddr).registers LoadReg = m.registers LoadReg := by
    unfold setRegister
    exact Function.update_of_ne (show LoadReg ≠ BadVAddrReg by decide) badVAddr m.registers
  rw [hsame] at hlt
  refine ⟨hmem, m.settled, delayedLoad_settled hlt, fun r hr => ?_⟩
  rw [hreg]
  change settle (Function.update m.registers BadVAddrReg badVAddr) r = settle m.registers r
  simp only [settle, Function.update_apply]
  grind

/-! ## Accesses -/

/-- No exception of a memory access is a system call. -/
theorem translate_ne_syscall {e : ExceptionType}
    (h : m.translate addr size writing = .ok (.exception e, m')) : e ≠ .syscallException := by
  rintro rfl
  cases translate_eq_ok.mp h with
  | entry _ _ huse => cases huse

theorem held_of_resolveTo (hh : ∀ which, which ≠ .syscallException → Harmless handler which) {x : ℤ}
    {result : Option ℤ} (h : m.resolveTo handler addr size writing x = .ok (result, m')) :
    Held m m' ∧ (result = none → Applied m m') := by
  obtain ⟨⟨translation, m₁⟩, htranslate, h⟩ := bind_eq_ok.mp h
  have hheld := held_of_translate htranslate
  cases translation with
  | physAddr a =>
      cases h
      exact ⟨hheld, nofun⟩
  | exception e =>
      obtain ⟨⟨control, m₂⟩, hraise, h⟩ := bind_eq_ok.mp h
      have happlied := hheld.applied (applied_of_raiseTo (hh e (translate_ne_syscall htranslate))
        hraise)
      dsimp only at h
      split at h
      · obtain ⟨⟨translation, m₃⟩, htranslate, h⟩ := bind_eq_ok.mp h
        have hheld₃ := Held.trans (.inr happlied) (held_of_translate htranslate)
        cases translation with
        | physAddr a =>
            cases h
            exact ⟨hheld₃, nofun⟩
        | exception e =>
            cases h
            exact ⟨hheld₃, nofun⟩
      · cases h
        exact ⟨.inr happlied, fun _ => happlied⟩

theorem held_of_readMemTo (hh : ∀ which, which ≠ .syscallException → Harmless handler which) {x : ℤ}
    {result : Option Word} (h : m.readMemTo handler addr size x = .ok (result, m')) :
    Held m m' ∧ (result = none → Applied m m') := by
  obtain ⟨⟨physicalAddress, m₁⟩, hresolve, h⟩ := bind_eq_ok.mp h
  obtain ⟨hheld, happlied⟩ := held_of_resolveTo hh hresolve
  cases physicalAddress with
  | none =>
      cases h
      exact ⟨hheld, fun _ => happlied rfl⟩
  | some p =>
      dsimp only at h
      split_ifs at h
      · obtain ⟨b, -, h⟩ := bind_eq_ok.mp h
        cases h
        exact ⟨hheld, nofun⟩
      · obtain ⟨b, -, h⟩ := bind_eq_ok.mp h
        cases h
        exact ⟨hheld, nofun⟩
      · obtain ⟨b, -, h⟩ := bind_eq_ok.mp h
        cases h
        exact ⟨hheld, nofun⟩

theorem applied_of_writeMemTo (hh : ∀ which, which ≠ .syscallException → Harmless handler which)
    {value : Word} {x : ℤ} (h : m.writeMemTo handler addr size value x = .ok (false, m')) :
    Applied m m' := by
  obtain ⟨⟨physicalAddress, m₁⟩, hresolve, h⟩ := bind_eq_ok.mp h
  obtain ⟨-, happlied⟩ := held_of_resolveTo hh hresolve
  cases physicalAddress with
  | none =>
      cases h
      exact happlied rfl
  | some p =>
      dsimp only at h
      split_ifs at h <;> obtain ⟨m₂, -, h⟩ := bind_eq_ok.mp h <;> cases h

/-! ## Instructions -/

theorem applied_of_executeTo (hh : ∀ which, Harmless handler which) {i : Instruction}
    (h : m.executeTo handler unit uninit i = .ok (.stopped control, m')) : Applied m m' := by
  unfold executeTo at h
  cases hop : i.operation m.registers with
  | write writes pcAfter =>
      rw [hop] at h
      obtain ⟨m₁, -, h⟩ := bind_eq_ok.mp h
      cases h
  | trap which badVAddr =>
      rw [hop] at h
      obtain ⟨⟨c, m₁⟩, hraise, h⟩ := bind_eq_ok.mp h
      cases h
      exact applied_of_raiseTo (hh which) hraise
  | load addr =>
      rw [hop] at h
      obtain ⟨⟨value, m₁⟩, hread, h⟩ := bind_eq_ok.mp h
      obtain ⟨-, happlied⟩ := held_of_readMemTo (fun which _ => hh which) hread
      cases value with
      | none =>
          cases h
          exact happlied rfl
      | some value =>
          obtain ⟨m₂, -, h⟩ := bind_eq_ok.mp h
          cases h
  | store addr size value =>
      rw [hop] at h
      obtain ⟨⟨written, m₁⟩, hwrite, h⟩ := bind_eq_ok.mp h
      cases written with
      | false =>
          cases h
          exact applied_of_writeMemTo (fun which _ => hh which) hwrite
      | true =>
          obtain ⟨m₂, -, h⟩ := bind_eq_ok.mp h
          cases h
  | storePart addr =>
      rw [hop] at h
      obtain ⟨⟨value, m₁⟩, hread, h⟩ := bind_eq_ok.mp h
      obtain ⟨hheld, happlied⟩ := held_of_readMemTo (fun which _ => hh which) hread
      cases value with
      | none =>
          cases h
          exact happlied rfl
      | some value =>
          obtain ⟨⟨written, m₂⟩, hwrite, h⟩ := bind_eq_ok.mp h
          cases written with
          | false =>
              cases h
              exact hheld.applied (applied_of_writeMemTo (fun which _ => hh which) hwrite)
          | true =>
              obtain ⟨m₃, -, h⟩ := bind_eq_ok.mp h
              cases h
  | fault f =>
      rw [hop] at h
      cases h

theorem applied_of_oneInstructionTo (hh : ∀ which, Harmless handler which)
    (h : m.oneInstructionTo handler unit uninit = .ok (.stopped control, m')) : Applied m m' := by
  obtain ⟨⟨raw, m₁⟩, hread, h⟩ := bind_eq_ok.mp h
  obtain ⟨hheld, happlied⟩ := held_of_readMemTo (fun which _ => hh which) hread
  cases raw with
  | none =>
      cases h
      exact happlied rfl
  | some raw => exact hheld.applied (applied_of_executeTo hh h)

/-- `ADD`, `ADDI` and `SUB` trap exactly when the result is out of range, and no instruction
that is not completed has done more than apply the pending load. -/
theorem exceptions_precise (handler : Handler)
    (hh : ∀ which m control m', handler which m = .ok (control, m') → m' = m)
    (value : Word) (reg : Fin NumTotalRegs → Word) (uninit : ℕ → ℤ) (m : Machine) :
    (((Instruction.decode value).opCode = .add →
        ((Instruction.decode value).Raises reg .overflowException ↔
          Instruction.OutOfRange ((reg (Instruction.gpr (Instruction.decode value).rs)).toInt +
            (reg (Instruction.gpr (Instruction.decode value).rt)).toInt))) ∧
      ((Instruction.decode value).opCode = .addi →
        ((Instruction.decode value).Raises reg .overflowException ↔
          Instruction.OutOfRange ((reg (Instruction.gpr (Instruction.decode value).rs)).toInt +
            (value.extractLsb' 0 16).toInt))) ∧
      ((Instruction.decode value).opCode = .sub →
        ((Instruction.decode value).Raises reg .overflowException ↔
          Instruction.OutOfRange ((reg (Instruction.gpr (Instruction.decode value).rs)).toInt -
            (reg (Instruction.gpr (Instruction.decode value).rt)).toInt)))) ∧
    ∀ control m', m.oneInstructionTo handler delayed uninit = .ok (.stopped control, m') →
      Applied m m' := by
  refine ⟨⟨Instruction.raises_add, fun h => ?_, Instruction.raises_sub⟩, fun control m' h => ?_⟩
  · rw [← Instruction.toInt_extra_addi h]
    exact Instruction.raises_addi h
  · refine applied_of_oneInstructionTo (fun which m₁ c m₂ heq => ?_) h
    obtain rfl := hh which m₁ c m₂ heq
    exact ⟨rfl, rfl⟩

/-- A program of one instruction, with a page table. -/
def singleStep (code : List Byte) (reg : Fin NumTotalRegs → Word) : Machine :=
  { loading with
    registers := reg
    mainMemory := fun a => code.getD a 0 }

/-- `ADD` of registers 1 and 2 overflows while a load into register 4 is pending. -/
def overflowing : Machine := singleStep [0x20, 0x18, 0x22, 0] fun r =>
  if r = 1 then 0x7fffffff else if r = 2 then 1 else if r = LoadReg then 4
  else if r = LoadValueReg then 9 else 0

theorem exceptions_precise_overflowing :
    ∃ m', overflowing.oneInstructionTo (fun _ m => .ok (.resume, m)) delayed (fun _ => 0) =
        .ok (.stopped .resume, m') ∧ m'.registers 4 = 9 ∧ Applied overflowing m' := by
  obtain ⟨m', hm', hreg⟩ : ∃ m',
      overflowing.oneInstructionTo (fun _ m => .ok (.resume, m)) delayed (fun _ => 0) =
        .ok (.stopped .resume, m') ∧ m'.registers 4 = 9 := ⟨_, rfl, rfl⟩
  refine ⟨m', hm', hreg, (exceptions_precise (fun _ m => .ok (.resume, m)) ?_ 0
    overflowing.registers (fun _ => 0) overflowing).2 _ _ hm'⟩
  rintro which m control m' h
  cases h
  rfl

end Machine

end Nachos
