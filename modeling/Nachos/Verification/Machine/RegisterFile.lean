import Nachos.Library.Transition
import Nachos.Model.OpCodes
import Nachos.Verification.Machine.DelayedLoads

/-! # The register file

Every instruction word is decoded to existing registers and a case of the switch, and
between instructions the pending load is one into a general register. -/

namespace Nachos

open Library

/-! ## Decoding -/

theorem caseOf_number (o : OpCode) : caseOf o.number = some o := by
  cases o <;> rfl

theorem toNat_field (value mask : Word) (low n : ℕ) (hmask : mask.toNat = 2 ^ n - 1) :
    (value >>> low &&& mask).toNat = (value.extractLsb' low n).toNat := by
  rw [BitVec.toNat_and, BitVec.toNat_ushiftRight, hmask, Nat.and_two_pow_sub_one_eq_mod,
    BitVec.extractLsb'_toNat]

theorem field_toNat (value : Word) (low : ℕ) :
    (Instruction.field value low : ℕ) = (value >>> low &&& 0x1f).toNat :=
  (toNat_field value 0x1f low 5 rfl).symm

theorem and_0x8000_eq_zero (value : Word) :
    value &&& 0xffff &&& 0x8000 = 0 ↔ value.getLsbD 15 = false := by
  have hmask : (0xffff : Word) &&& 0x8000 = BitVec.twoPow 32 15 := by decide
  have hne : ¬ BitVec.twoPow 32 15 = 0#32 := by decide
  rw [BitVec.and_assoc, hmask, BitVec.and_twoPow]
  cases value.getLsbD 15 <;> simp only [Bool.false_eq_true, if_false, if_true, reduceCtorEq,
    iff_false, iff_true]
  · rfl
  · exact hne

/-- The two steps of the source extend the sign. -/
theorem extraOf_ifmt (value : Word) :
    extraOf value .ifmt = (value.extractLsb' 0 16).signExtend 32 := by
  have hmsb : (value.extractLsb' 0 16).msb = value.getLsbD 15 := by
    rw [BitVec.msb_eq_getLsbD_last, BitVec.getLsbD_extractLsb']
    simp
  have hsign := and_0x8000_eq_zero value
  have hlow : (0xffff : Word) = (BitVec.allOnes 16).setWidth 32 := by decide
  have hhigh : (0xffff0000 : Word) = BitVec.allOnes 32 <<< 16 := by decide
  cases h15 : value.getLsbD 15 with
  | false =>
      rw [extraOf, if_neg (not_not.mpr (hsign.mpr h15)), hlow]
      ext k hk
      simp only [BitVec.getElem_and, BitVec.getElem_setWidth, BitVec.getLsbD_allOnes,
        BitVec.getElem_signExtend, BitVec.getElem_extractLsb', hmsb, h15]
      split <;> simp_all [BitVec.getLsbD_eq_getElem]
  | true =>
      have hne : value &&& 0xffff &&& 0x8000 ≠ 0 := by
        rw [ne_eq, hsign, h15]
        decide
      rw [extraOf, if_pos hne, hlow, hhigh]
      ext k hk
      simp only [BitVec.getElem_and, BitVec.getElem_or, BitVec.getElem_setWidth,
        BitVec.getLsbD_allOnes, BitVec.getElem_shiftLeft, BitVec.getElem_allOnes,
        BitVec.getElem_signExtend, BitVec.getElem_extractLsb', hmsb, h15]
      split <;> simp_all [BitVec.getLsbD_eq_getElem]

theorem number_lt (o : OpCode) : o.number < 64 := by
  cases o <;> decide

theorem getElem?_of_field {α : Type} {t : List α} {n : ℕ} (ht : t.length = 2 ^ n)
    (x : BitVec n) (d : α) : t[x.toNat]? = some (t.getD x.toNat d) := by
  have hlt : x.toNat < t.length := ht ▸ x.isLt
  rw [List.getElem?_eq_getElem hlt, List.getD_eq_getElem _ _ hlt]

theorem extraOf_rfmt (value : Word) :
    extraOf value .rfmt = (value.extractLsb' 6 5).setWidth 32 := by
  apply BitVec.eq_of_toNat_eq
  rw [extraOf, toNat_field value 0x1f 6 5 rfl, BitVec.toNat_setWidth, Nat.mod_eq_of_lt]
  exact (value.extractLsb' 6 5).isLt.trans (by decide)

/-- The number of what the tables of the model have. -/
theorem opCodeOf_eq (value : Word) (major : Major) :
    opCodeOf value major.number = .ok (match major with
      | .op o => o
      | .special => specialTable.getD (value.extractLsb' 0 6).toNat .res
      | .bcond => Instruction.bcondTable value).number := by
  cases major with
  | op o =>
      have hlt := number_lt o
      have hspecial : o.number ≠ SPECIAL := fun h => absurd (h ▸ hlt) (by decide)
      have hbcond : o.number ≠ BCOND := fun h => absurd (h ▸ hlt) (by decide)
      rw [opCodeOf, Major.number, if_neg hspecial, if_neg hbcond]
  | special =>
      have hfunct : (value &&& 0x3f).toNat = (value.extractLsb' 0 6).toNat := by
        rw [← toNat_field value 0x3f 0 6 rfl, BitVec.ushiftRight_zero]
      rw [opCodeOf, Major.number, if_pos rfl, hfunct, getElem?_of_field rfl _ .res]
  | bcond =>
      rw [opCodeOf, Major.number, if_neg (by decide), if_pos rfl, Instruction.bcondTable]
      split_ifs <;> rfl

/-- `Decode` never leaves its tables, its registers exist, and the switch has a case for what it
returns; `Instruction.decode` is the same in other types. -/
theorem decodeFields_eq (value : Word) :
    ∃ f, decodeFields value = .ok f ∧ f.rs < NumGPRegs ∧ f.rt < NumGPRegs ∧ f.rd < NumGPRegs ∧
      caseOf f.opCode = some (Instruction.decode value).opCode ∧
      f.rs = (Instruction.decode value).rs ∧ f.rt = (Instruction.decode value).rt ∧
      f.rd = (Instruction.decode value).rd ∧ f.extra = (Instruction.decode value).extra := by
  have hentry := getElem?_of_field (t := opTable) (n := 6) rfl (value.extractLsb' 26 6)
    (.op .res, .ifmt)
  unfold decodeFields
  rw [toNat_field value 0x3f 26 6 rfl, hentry, ← field_toNat, ← field_toNat, ← field_toNat]
  dsimp only
  rw [opCodeOf_eq]
  refine ⟨_, rfl, Fin.isLt _, Fin.isLt _, Fin.isLt _, caseOf_number _, rfl, rfl, rfl, ?_⟩
  unfold Instruction.decode
  generalize opTable.getD (value.extractLsb' 26 6).toNat (.op .res, .ifmt) = e
  obtain ⟨major, format⟩ := e
  cases format with
  | ifmt => exact extraOf_ifmt value
  | jfmt => rfl
  | rfmt => exact extraOf_rfmt value

/-! ## The pending load -/

namespace Machine

variable {m m' : Machine} {build : Build} {uninit : ℕ → ℤ} {i : Instruction}

/-- `DelayedLoad` finds its register. -/
theorem delayedLoad_ok (h : (m.registers LoadReg).toNat < NumGPRegs) (nextReg nextVal : Word) :
    ∃ m', m.delayedLoad nextReg nextVal = .ok m' :=
  ⟨_, delayedLoad_eq (r := ⟨_, h.trans (by decide)⟩) rfl nextReg nextVal⟩

theorem retire_ok (h : (m.registers LoadReg).toNat < NumGPRegs) (nextReg nextVal pcAfter : Word) :
    ∃ m', m.retire delayed nextReg nextVal pcAfter = .ok m' := by
  obtain ⟨m₁, hload⟩ := delayedLoad_ok h nextReg nextVal
  rw [retire, show delayed.complete = delayedLoad from rfl, hload]
  exact ⟨_, rfl⟩

/-- At the end of an instruction the pending load is the one it has issued. -/
theorem ready_of_retire {nextReg nextVal pcAfter : Word} (hnext : nextReg.toNat < NumGPRegs)
    (h : m.retire delayed nextReg nextVal pcAfter = .ok m') : Ready m'.registers := by
  obtain ⟨m₁, hload, h⟩ := bind_eq_ok.mp h
  cases h
  change m.delayedLoad nextReg nextVal = .ok m₁ at hload
  rw [delayedLoad] at hload
  split at hload
  · cases hload
    refine ⟨rfl, ?_⟩
    change (nextReg).toNat < NumGPRegs
    exact hnext
  · cases hload

/-- No case of the switch writes `LoadReg`. -/
theorem setRegisters_loadReg {writes : List (Fin NumTotalRegs × Word)} {pcAfter : Word}
    (hop : i.operation m.registers = .write writes pcAfter) :
    (m.setRegisters writes).registers LoadReg = m.registers LoadReg := by
  have hne : ∀ w ∈ writes, w.1 ≠ LoadReg := by
    intro w hw
    rcases Instruction.operation_writes hop w hw with h | h | ⟨u, -, h⟩ <;> rw [h]
    · decide
    · decide
    · exact (Instruction.gpr_ne u).1
  rw [setRegisters_eq, setRegs_registers]
  clear hop
  generalize m.registers = reg
  induction writes generalizing reg with
  | nil => rfl
  | cons w writes ih =>
      rw [List.foldl_cons, ih (fun w' hw' => hne w' (List.mem_cons_of_mem _ hw')),
        Function.update_of_ne (hne w List.mem_cons_self).symm]

theorem toNat_rt (rt : Fin NumGPRegs) : (BitVec.ofNat 32 (rt : ℕ)).toNat < NumGPRegs := by
  have hlt : (rt : ℕ) < 32 := rt.isLt
  rw [BitVec.toNat_ofNat, Nat.mod_eq_of_lt (by omega)]
  exact hlt

theorem ready_of_executeTo (h : Ready m.registers) {ending : Ending}
    (hrun : m.executeTo (kernel build) delayed uninit i = .ok (ending, m')) :
    Ready m'.registers := by
  unfold executeTo at hrun
  cases hop : i.operation m.registers with
  | write writes pcAfter =>
      rw [hop] at hrun
      obtain ⟨m₁, hretire, hrun⟩ := bind_eq_ok.mp hrun
      cases hrun
      exact ready_of_retire (by decide) hretire
  | trap which badVAddr =>
      rw [hop] at hrun
      obtain ⟨⟨control, m₁⟩, hraise, hrun⟩ := bind_eq_ok.mp hrun
      cases hrun
      exact ((raiseException_mirrored h which badVAddr).post hraise).ready
  | load addr =>
      rw [hop] at hrun
      obtain ⟨⟨value, m₁⟩, hread, hrun⟩ := bind_eq_ok.mp hrun
      cases value with
      | none =>
          cases hrun
          exact ((readMem_mirrored h addr _ _).post hread).ready
      | some value =>
          obtain ⟨m₂, hretire, hrun⟩ := bind_eq_ok.mp hrun
          cases hrun
          exact ready_of_retire (toNat_rt i.rt) hretire
  | store addr size value =>
      rw [hop] at hrun
      obtain ⟨⟨written, m₁⟩, hwrite, hrun⟩ := bind_eq_ok.mp hrun
      cases written with
      | false =>
          cases hrun
          exact ((writeMem_mirrored h addr _ _ _).post hwrite).ready
      | true =>
          obtain ⟨m₂, hretire, hrun⟩ := bind_eq_ok.mp hrun
          cases hrun
          exact ready_of_retire (by decide) hretire
  | storePart addr =>
      rw [hop] at hrun
      obtain ⟨⟨value, m₁⟩, hread, hrun⟩ := bind_eq_ok.mp hrun
      have h₁ : Ready m₁.registers := ((readMem_mirrored h addr _ _).post hread).ready
      cases value with
      | none =>
          cases hrun
          exact h₁
      | some value =>
          obtain ⟨⟨written, m₂⟩, hwrite, hrun⟩ := bind_eq_ok.mp hrun
          cases written with
          | false =>
              cases hrun
              exact ((writeMem_mirrored h₁ addr _ _ _).post hwrite).ready
          | true =>
              obtain ⟨m₃, hretire, hrun⟩ := bind_eq_ok.mp hrun
              cases hrun
              exact ready_of_retire (by decide) hretire
  | fault f =>
      rw [hop] at hrun
      cases hrun

theorem ready_of_oneInstruction (h : Ready m.registers) {control : Control}
    (hrun : m.oneInstruction delayed build uninit = .ok (control, m')) : Ready m'.registers := by
  obtain ⟨⟨ending, m₂⟩, hrun, hend⟩ := bind_eq_ok.mp hrun
  cases hend
  obtain ⟨⟨raw, m₁⟩, hread, hrun⟩ := bind_eq_ok.mp hrun
  have h₁ : Ready m₁.registers := ((readMem_mirrored h _ 4 _).post hread).ready
  cases raw with
  | none =>
      cases hrun
      exact h₁
  | some raw => exact ready_of_executeTo h₁ hrun

/-! ## Runs -/

/-- The machine and the registers that threads have saved. -/
structure Users where
  machine : Machine
  saved : List (Fin NumTotalRegs → Word)

/-- What happens to the registers while user programs run. -/
inductive Users.Step (build : Build) : Users → Users → Prop where
  | oneInstruction {m m' saved uninit control} :
      m.oneInstruction delayed build uninit = .ok (control, m') →
      Users.Step build ⟨m, saved⟩ ⟨m', saved⟩
  | raiseException {m m' saved which badVAddr control} :
      m.raiseException build which badVAddr = .ok (control, m') →
      Users.Step build ⟨m, saved⟩ ⟨m', saved⟩
  | interrupt {m m' saved} :
      m.delayedLoad 0 0 = .ok m' → Users.Step build ⟨m, saved⟩ ⟨m', saved⟩
  | saveUserState {m saved} : Users.Step build ⟨m, saved⟩ ⟨m, m.registers :: saved⟩
  | restoreUserState {m saved reg} :
      reg ∈ saved → Users.Step build ⟨m, saved⟩ ⟨m.setRegs reg, saved⟩
  | initRegisters {m saved} (space : AddrSpace) :
      Users.Step build ⟨m, saved⟩ ⟨space.initRegisters m, saved⟩
  /-- the kernel changes memory and tables -/
  | kernel {m m' saved} :
      m'.registers = m.registers → Users.Step build ⟨m, saved⟩ ⟨m', saved⟩

def Users.Ready (s : Users) : Prop :=
  Machine.Ready s.machine.registers ∧ ∀ reg ∈ s.saved, Machine.Ready reg

theorem Users.Ready.step {s s' : Users} (h : s.Ready) (hstep : Users.Step build s s') :
    s'.Ready := by
  obtain ⟨hm, hsaved⟩ := h
  cases hstep with
  | oneInstruction hrun => exact ⟨ready_of_oneInstruction hm hrun, hsaved⟩
  | raiseException hrun =>
      exact ⟨((raiseException_mirrored hm _ _).post hrun).ready, hsaved⟩
  | interrupt hload =>
      obtain ⟨-, rfl⟩ := settled_of_delayedLoad hload
      exact ⟨(settled_settle _).ready, hsaved⟩
  | saveUserState => exact ⟨hm, List.forall_mem_cons.mpr ⟨hm, hsaved⟩⟩
  | restoreUserState hreg => exact ⟨hsaved _ hreg, hsaved⟩
  | initRegisters space => exact ⟨ready_initRegisters space _, hsaved⟩
  | kernel hreg =>
      refine ⟨?_, hsaved⟩
      rw [hreg]
      exact hm

theorem Users.Ready.run {s s' : Users} (h : s.Ready)
    (hrun : Relation.ReflTransGen (Users.Step build) s s') : s'.Ready :=
  steps_invariant (fun _ _ ht hstep => ht.step hstep) hrun h

/-- The index of each `DelayedLoad` of the next instruction is one of a register. -/
structure Indexed (build : Build) (m : Machine) : Prop where
  loads : ∀ nextReg nextVal, ∃ m', m.delayedLoad nextReg nextVal = .ok m'
  writes : ∀ i writes pcAfter, Instruction.operation i m.registers = .write writes pcAfter →
    ∃ m', (m.setRegisters writes).retire delayed 0 0 pcAfter = .ok m'
  reads : ∀ addr size x value m₁, m.readMem build addr size x = .ok (value, m₁) →
    ∀ nextReg nextVal pcAfter, ∃ m', m₁.retire delayed nextReg nextVal pcAfter = .ok m'
  stores : ∀ addr size value x written m₁,
    m.writeMem build addr size value x = .ok (written, m₁) →
    ∀ nextReg nextVal pcAfter, ∃ m', m₁.retire delayed nextReg nextVal pcAfter = .ok m'

theorem Ready.indexed (h : Ready m.registers) (build : Build) : Indexed build m where
  loads := delayedLoad_ok h.pending
  writes i writes pcAfter hop := by
    refine retire_ok ?_ 0 0 pcAfter
    rw [setRegisters_loadReg hop]
    exact h.pending
  reads addr size x value m₁ hread := retire_ok ((readMem_mirrored h _ _ _).post hread).ready.pending
  stores addr size value x written m₁ hwrite :=
    retire_ok ((writeMem_mirrored h _ _ _ _).post hwrite).ready.pending

/-- The register file stays sound, whatever runs. -/
theorem register_file {s : Users} (hinit : m.registers = fun _ => 0)
    (hrun : Relation.ReflTransGen (Users.Step build) ⟨m, []⟩ s) :
    (s.machine.registers 0 = 0 ∧ 0 ≤ (s.machine.registers LoadReg).toInt ∧
      (s.machine.registers LoadReg).toInt < 32 ∧ Indexed build s.machine) ∧
    ∀ value, ∃ f, decodeFields value = .ok f ∧ f.rs < NumGPRegs ∧ f.rt < NumGPRegs ∧
      f.rd < NumGPRegs ∧ caseOf f.opCode = some (Instruction.decode value).opCode ∧
      f.rs = (Instruction.decode value).rs ∧ f.rt = (Instruction.decode value).rt ∧
      f.rd = (Instruction.decode value).rd ∧ f.extra = (Instruction.decode value).extra := by
  have hstart : Users.Ready ⟨m, []⟩ := by
    refine ⟨⟨?_, ?_⟩, nofun⟩
    · exact congrFun hinit 0
    · rw [hinit]
      decide
  obtain ⟨hready, -⟩ := hstart.run hrun
  have hpending : (s.machine.registers LoadReg).toNat < 32 := hready.pending
  have hint : (s.machine.registers LoadReg).toInt = (s.machine.registers LoadReg).toNat :=
    BitVec.toInt_eq_toNat_of_lt (by omega)
  exact ⟨⟨hready.zero, by omega, by omega, hready.indexed build⟩, decodeFields_eq⟩

/-- A load is pending after the first instruction of a program. -/
theorem register_file_loading : ∃ s : Users,
    Relation.ReflTransGen (Users.Step ⟨false, false, false⟩) ⟨loading.setRegs fun _ => 0, []⟩ s ∧
      s.machine.registers LoadReg = 2 ∧ s.machine.registers 0 = 0 ∧
      Indexed ⟨false, false, false⟩ s.machine := by
  obtain ⟨m', hrun, hreg⟩ : ∃ m', (loading.setRegs fun _ => 0).oneInstruction delayed
      ⟨false, false, false⟩ (fun _ => 0) = .ok (.resume, m') ∧ m'.registers LoadReg = 2 :=
    ⟨_, rfl, rfl⟩
  have hsteps : Relation.ReflTransGen (Users.Step ⟨false, false, false⟩)
      ⟨loading.setRegs fun _ => 0, []⟩ ⟨m', []⟩ := .single (.oneInstruction hrun)
  obtain ⟨⟨hzero, -, -, hindexed⟩, -⟩ := register_file rfl hsteps
  exact ⟨_, hsteps, hreg, hzero, hindexed⟩

end Machine

end Nachos
