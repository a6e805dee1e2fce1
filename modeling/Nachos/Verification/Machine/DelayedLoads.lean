import Nachos.Model.AddrSpace
import Nachos.Verification.Machine.Registers

/-! # Delayed loads

The machine with a pending load is compared with one that writes the loaded register at
once. -/

namespace Nachos

open Library

variable {r : Fin NumTotalRegs}

namespace Machine

variable {α β : Type} {m m' : Machine} {build : Build}

/-! ## The pending load -/

/-- The registers after the pending load has been completed. -/
def settle (reg : Fin NumTotalRegs → Word) : Fin NumTotalRegs → Word := fun r =>
  if r = 0 ∨ r = LoadReg ∨ r = LoadValueReg then 0
  else if (r : ℕ) = (reg LoadReg).toNat then reg LoadValueReg
  else reg r

def settled (m : Machine) : Machine := m.setRegs (settle m.registers)

/-- R0 is zero and the pending load is one into a general register. -/
structure Ready (reg : Fin NumTotalRegs → Word) : Prop where
  zero : reg 0 = 0
  pending : (reg LoadReg).toNat < NumGPRegs

/-- No load is pending. -/
structure Settled (reg : Fin NumTotalRegs → Word) : Prop where
  zero : reg 0 = 0
  target : reg LoadReg = 0
  value : reg LoadValueReg = 0

section

variable {reg : Fin NumTotalRegs → Word}

theorem Settled.ready (h : Settled reg) : Ready reg := ⟨h.zero, by simp [h.target]⟩

theorem settle_of_mem (hr : r = 0 ∨ r = LoadReg ∨ r = LoadValueReg) :
    settle reg r = 0 := if_pos hr

theorem settle_of_pending (hr : ¬(r = 0 ∨ r = LoadReg ∨ r = LoadValueReg))
    (hp : (r : ℕ) = (reg LoadReg).toNat) : settle reg r = reg LoadValueReg := by
  rw [settle, if_neg hr, if_pos hp]

theorem settle_of_ne (hr : ¬(r = 0 ∨ r = LoadReg ∨ r = LoadValueReg))
    (hp : (r : ℕ) ≠ (reg LoadReg).toNat) : settle reg r = reg r := by
  rw [settle, if_neg hr, if_neg hp]

theorem settled_settle (reg : Fin NumTotalRegs → Word) : Settled (settle reg) :=
  ⟨settle_of_mem (.inl rfl), settle_of_mem (.inr (.inl rfl)), settle_of_mem (.inr (.inr rfl))⟩

theorem Settled.settle_eq (h : Settled reg) : settle reg = reg := by
  funext r
  by_cases hr : r = 0 ∨ r = LoadReg ∨ r = LoadValueReg
  · rw [settle_of_mem hr]
    obtain rfl | rfl | rfl := hr
    exacts [h.zero.symm, h.target.symm, h.value.symm]
  · refine settle_of_ne hr fun hp => hr (.inl (Fin.ext ?_))
    simpa [h.target] using hp

/-- Registers that are not general ones are as they were. -/
theorem Ready.settle_special (h : Ready reg) (hr : NumGPRegs ≤ (r : ℕ)) (hload : r ≠ LoadReg)
    (hvalue : r ≠ LoadValueReg) : settle reg r = reg r := by
  have hp := h.pending
  refine settle_of_ne ?_ (by omega)
  rintro (rfl | hr' | hr')
  · exact absurd hr (by decide)
  · exact hload hr'
  · exact hvalue hr'

theorem settle_update (hr : ¬(r = 0 ∨ r = LoadReg ∨ r = LoadValueReg))
    (hp : (r : ℕ) ≠ (reg LoadReg).toNat) (value : Word) :
    settle (Function.update reg r value) = Function.update (settle reg) r value := by
  funext q
  simp only [settle, Function.update_apply]
  grind

theorem settle_update_zero (reg : Fin NumTotalRegs → Word) (value : Word) :
    settle (Function.update reg 0 value) = settle reg := by
  funext q
  simp only [settle, Function.update_apply]
  grind

theorem settle_pending (reg : Fin NumTotalRegs → Word) (r : Fin NumTotalRegs)
    (hr : (reg LoadReg).toNat = r) :
    Function.update (Function.update (Function.update (Function.update reg r (reg LoadValueReg))
      LoadReg 0) LoadValueReg 0) 0 0 = settle reg := by
  funext q
  simp only [Function.update_apply, settle]
  grind

end

theorem settled_setRegister (h : (m.registers LoadReg).toNat < NumGPRegs) (hr : NumGPRegs ≤ (r : ℕ))
    (hload : r ≠ LoadReg) (hvalue : r ≠ LoadValueReg) (value : Word) :
    (m.setRegister r value).settled = m.settled.setRegister r value := by
  refine congrArg m.setRegs (settle_update ?_ (by omega) value)
  rintro (rfl | hr' | hr')
  · exact absurd hr (by decide)
  · exact hload hr'
  · exact hvalue hr'

theorem delayedLoad_settled (hr : (m.registers LoadReg).toNat < NumTotalRegs) :
    m.delayedLoad 0 0 = .ok m.settled := by
  rw [delayedLoad_eq (r := ⟨_, hr⟩) rfl]
  exact congrArg (fun reg => Except.ok (m.setRegs reg)) (settle_pending m.registers ⟨_, hr⟩ rfl)

theorem delayedLoad_zero (h : (m.registers LoadReg).toNat < NumGPRegs) :
    m.delayedLoad 0 0 = .ok m.settled := delayedLoad_settled (h.trans (by decide))

/-- A load to a register that does not exist is the only way to fail. -/
theorem settled_of_delayedLoad (h : m.delayedLoad 0 0 = .ok m') :
    (m.registers LoadReg).toNat < NumTotalRegs ∧ m' = m.settled := by
  have hlt : (m.registers LoadReg).toNat < NumTotalRegs := by
    rw [delayedLoad] at h
    split at h
    · rename_i hrange
      have hcond := BitVec.toInt_eq_toNat_cond (m.registers LoadReg)
      have hT : NumTotalRegs = 40 := rfl
      split at hcond <;> omega
    · cases h
  exact ⟨hlt, Except.ok.inj (h.symm.trans (delayedLoad_settled hlt))⟩

/-! ## Calls on both machines -/

/-- The second result is the first one with the pending load completed; the registers of
the first satisfy `Q`. -/
structure Mirrored (Q : (Fin NumTotalRegs → Word) → Prop) (x y : Exec (α × Machine)) : Prop where
  eq : y = x.map fun r => (r.1, r.2.settled)
  post : ∀ {a : α} {m : Machine}, x = .ok (a, m) → Q m.registers

namespace Mirrored

variable {Q R : (Fin NumTotalRegs → Word) → Prop} {x y : Exec (α × Machine)}

theorem of_ok (a : α) (hq : Q m.registers) :
    Mirrored Q (.ok (a, m)) (.ok (a, m.settled)) where
  eq := rfl
  post h := by
    cases h
    exact hq

theorem of_error (e : Fault) : Mirrored (α := α) Q (.error e) (.error e) := ⟨rfl, nofun⟩

theorem mono (h : Mirrored Q x y) (hqr : ∀ reg, Q reg → R reg) : Mirrored R x y :=
  ⟨h.eq, fun hx => hqr _ (h.post hx)⟩

theorem bind {f g : α × Machine → Exec (β × Machine)} (h : Mirrored Q x y)
    (hf : ∀ a m, x = .ok (a, m) → Q m.registers → Mirrored R (f (a, m)) (g (a, m.settled))) :
    Mirrored R (x >>= f) (y >>= g) := by
  rw [h.eq]
  cases x with
  | error e => exact of_error e
  | ok r => exact hf r.1 r.2 rfl (h.post rfl)

end Mirrored

theorem BlindTo.mirrored {f : Machine → Exec (α × Machine)} (hf : BlindTo f) (m : Machine) :
    Mirrored (fun reg => reg = m.registers) (f m) (f m.settled) where
  eq := by
    rw [settled, hf]
    cases h : f m with
    | error e => rfl
    | ok r =>
        have hreg : r.2.registers = m.registers := hf.registers h
        exact congrArg (fun reg => Except.ok (r.1, r.2.setRegs (settle reg))) hreg.symm
  post h := hf.registers h

/-- The load that is pending may have been completed. -/
structure Kept (reg reg' : Fin NumTotalRegs → Word) : Prop where
  ready : Ready reg'
  target : reg' LoadReg = reg LoadReg ∨ reg' LoadReg = 0

theorem Kept.refl {reg : Fin NumTotalRegs → Word} (h : Ready reg) : Kept reg reg := ⟨h, .inl rfl⟩

theorem Settled.kept {reg reg' : Fin NumTotalRegs → Word} (h : Settled reg') : Kept reg reg' :=
  ⟨h.ready, .inr h.target⟩

/-! ## Exceptions and memory accesses -/

/-- The handler starts and ends without a pending load. -/
theorem raiseException_mirrored (h : Ready m.registers) (which : ExceptionType)
    (badVAddr : Word) :
    Mirrored Settled (m.raiseException build which badVAddr)
      (m.settled.raiseException build which badVAddr) := by
  have hset : (m.setRegister BadVAddrReg badVAddr).settled =
      m.settled.setRegister BadVAddrReg badVAddr :=
    settled_setRegister h.pending (by decide) (by decide) (by decide) badVAddr
  have hfirst : (m.setRegister BadVAddrReg badVAddr).delayedLoad 0 0 =
      .ok (m.settled.setRegister BadVAddrReg badVAddr) :=
    hset ▸ delayedLoad_zero h.pending
  have hclean : Settled (m.settled.setRegister BadVAddrReg badVAddr).registers :=
    hset ▸ settled_settle _
  have hsecond : (m.settled.setRegister BadVAddrReg badVAddr).delayedLoad 0 0 =
      .ok (m.settled.setRegister BadVAddrReg badVAddr) := by
    rw [delayedLoad_zero hclean.ready.pending, settled, hclean.settle_eq, setRegs_self]
  have hpost : ∀ {control m'}, (m.settled.setRegister BadVAddrReg badVAddr).exceptionHandler
      build which = .ok (control, m') → Settled m'.registers := by
    intro control m' hm'
    obtain hreg | hreg := exceptionHandler_registers hm'
    · rwa [hreg]
    · rw [hreg]
      exact ⟨hclean.zero, hclean.target, hclean.value⟩
  simp only [raiseException, raiseTo, kernel, hfirst, hsecond, ok_bind]
  refine ⟨?_, hpost⟩
  cases hx : (m.settled.setRegister BadVAddrReg badVAddr).exceptionHandler build which with
  | error e => rfl
  | ok r =>
      have hend : r.2.settled = r.2 := by rw [settled, (hpost hx).settle_eq, setRegs_self]
      simp [Except.map, hend]

theorem resolve_mirrored (h : Ready m.registers) (addr : Word) (size : ℤ) (writing : Bool)
    (uninit : ℤ) :
    Mirrored (Kept m.registers) (m.resolve build addr size writing uninit)
      (m.settled.resolve build addr size writing uninit) := by
  unfold resolve resolveTo
  refine ((blind_translate addr size writing).mirrored m).bind ?_
  rintro result m₁ - hreg
  cases result with
  | physAddr a => exact .of_ok _ (hreg.symm ▸ Kept.refl h)
  | exception e =>
      refine (raiseException_mirrored (hreg ▸ h) e addr).bind fun _ m₂ _ hm₂ => ?_
      dsimp only
      split
      · refine ((blind_translate addr size true).mirrored m₂).bind ?_
        rintro result m₃ - hm₃
        cases result with
        | physAddr a => exact .of_ok _ (hm₃ ▸ hm₂.kept)
        | exception e => exact .of_ok _ (hm₃ ▸ hm₂.kept)
      · exact .of_ok _ hm₂.kept

theorem readMem_mirrored (h : Ready m.registers) (addr : Word) (size uninit : ℤ) :
    Mirrored (Kept m.registers) (m.readMem build addr size uninit)
      (m.settled.readMem build addr size uninit) := by
  unfold readMem readMemTo
  refine (resolve_mirrored h addr size false uninit).bind fun physicalAddress m₁ _ hkept => ?_
  cases physicalAddress with
  | none => exact .of_ok _ hkept
  | some p =>
      have hload : m₁.settled.load p = m₁.load p := rfl
      have hbytes : ∀ n, m₁.settled.loadBytes p n = m₁.loadBytes p n :=
        fun n => loadBytes_setRegs m₁ _ p n
      simp only [hload, hbytes]
      split_ifs
      · cases m₁.load p with
        | error e => exact .of_error e
        | ok b => exact .of_ok _ hkept
      · cases m₁.loadBytes p 2 with
        | error e => exact .of_error e
        | ok w => exact .of_ok _ hkept
      · cases m₁.loadBytes p 4 with
        | error e => exact .of_error e
        | ok w => exact .of_ok _ hkept
      · exact .of_error _

theorem writeMem_mirrored (h : Ready m.registers) (addr : Word) (size : ℤ) (value : Word)
    (uninit : ℤ) :
    Mirrored (Kept m.registers) (m.writeMem build addr size value uninit)
      (m.settled.writeMem build addr size value uninit) := by
  unfold writeMem writeMemTo
  refine (resolve_mirrored h addr size true uninit).bind fun physicalAddress m₁ _ hkept => ?_
  cases physicalAddress with
  | none => exact .of_ok _ hkept
  | some p =>
      have hstore : ∀ n, Mirrored (Kept m.registers)
          (do return (true, ← m₁.storeBytes p (lowBytes value n)))
          (do return (true, ← m₁.settled.storeBytes p (lowBytes value n))) := fun n =>
        (((blind_storeBytes p (lowBytes value n)).returning true).mirrored m₁).mono
          fun reg hreg => hreg.symm ▸ hkept
      dsimp only
      split_ifs
      · exact hstore 1
      · exact hstore 2
      · exact hstore 4
      · exact .of_error _

end Machine

/-! ## Instructions -/

variable {writes : List (Fin NumTotalRegs × Word)}

namespace Instruction

/-- The general registers that an instruction reads or writes, apart from those that `LWL`
and `LWR` merge into. -/
def uses (i : Instruction) : List (Fin NumGPRegs) :=
  match i.opCode with
  | .add | .addu | .and | .nor | .sllv | .slt | .sltu | .srav | .srlv | .sub | .subu | .xor =>
      [i.rs, i.rt, i.rd]
  | .or | .jalr => [i.rs, i.rd]
  | .addi | .addiu | .andi | .ori | .xori | .slti | .sltiu | .beq | .bne | .div | .divu | .mult
  | .multu | .lb | .lbu | .lh | .lhu | .lw | .sb | .sh | .sw | .swl | .swr => [i.rs, i.rt]
  | .bgez | .bgtz | .blez | .bltz | .jr | .mthi | .mtlo | .lwl | .lwr => [i.rs]
  | .bgezal | .bltzal => [i.rs, R31]
  | .jal => [R31]
  | .lui => [i.rt]
  | .mfhi | .mflo => [i.rd]
  | .sll | .sra | .srl => [i.rt, i.rd]
  | .j | .syscall | .unimp | .res => []

variable {i : Instruction} {reg reg' : Fin NumTotalRegs → Word} {u : Fin NumGPRegs}

theorem operation_congr (hgpr : ∀ u ∈ i.uses, reg (gpr u) = reg' (gpr u))
    (hhi : reg HiReg = reg' HiReg) (hlo : reg LoReg = reg' LoReg)
    (hnext : reg NextPCReg = reg' NextPCReg) : i.operation reg = i.operation reg' := by
  obtain ⟨opCode, rs, rt, rd, extra⟩ := i
  cases opCode <;> simp_all [operation, uses]

theorem operation_writes {pcAfter : Word} (h : i.operation reg = .write writes pcAfter) :
    ∀ w ∈ writes, w.1 = HiReg ∨ w.1 = LoReg ∨ ∃ u ∈ i.uses, w.1 = gpr u := by
  obtain ⟨opCode, rs, rt, rd, extra⟩ := i
  cases opCode <;> simp only [operation] at h <;> (try split_ifs at h) <;>
    simp only [Operation.write.injEq, reduceCtorEq] at h <;> obtain ⟨rfl, -⟩ := h <;>
    simp [uses]

theorem rt_mem_uses {addr : Word} (h : i.operation reg = .storePart addr) : i.rt ∈ i.uses := by
  obtain ⟨opCode, rs, rt, rd, extra⟩ := i
  cases opCode <;> simp only [operation] at h <;> (try split_ifs at h) <;>
    first | (simp [uses]; done) | cases h

/-- The instruction has no hazard: it does not touch the register that is being loaded. -/
def Free (i : Instruction) (reg : Fin NumTotalRegs → Word) : Prop :=
  reg LoadReg ≠ 0 → ∀ u ∈ i.uses, (u : ℕ) ≠ (reg LoadReg).toNat

instance (i : Instruction) (reg : Fin NumTotalRegs → Word) : Decidable (i.Free reg) :=
  inferInstanceAs (Decidable (_ → _))

theorem Free.of_kept (h : i.Free reg) (hkept : Machine.Kept reg reg') : i.Free reg' := by
  intro hne
  obtain htarget | htarget := hkept.target
  · rw [htarget] at hne ⊢
    exact h hne
  · exact absurd htarget hne

theorem gpr_ne (u : Fin NumGPRegs) : gpr u ≠ LoadReg ∧ gpr u ≠ LoadValueReg := by
  revert u
  decide

theorem gpr_eq_zero (h : gpr u = 0) : u = 0 := by
  have hval : (gpr u : ℕ) = 0 := congrArg Fin.val h
  exact Fin.ext hval

theorem Free.ne_pending (h : i.Free reg) (hu : u ∈ i.uses) (hne : u ≠ 0) :
    (gpr u : ℕ) ≠ (reg LoadReg).toNat := by
  intro hp
  by_cases hload : reg LoadReg = 0
  · rw [hload] at hp
    exact hne (Fin.ext hp)
  · exact h hload u hu hp

theorem Free.settle_gpr (h : i.Free reg) (hready : Machine.Ready reg) (hu : u ∈ i.uses) :
    Machine.settle reg (gpr u) = reg (gpr u) := by
  by_cases hne : u = 0
  · subst hne
    exact (Machine.settle_of_mem (.inl rfl)).trans hready.zero.symm
  · refine Machine.settle_of_ne ?_ (h.ne_pending hu hne)
    rintro (hz | hl | hv)
    · exact hne (gpr_eq_zero hz)
    · exact (gpr_ne u).1 hl
    · exact (gpr_ne u).2 hv

theorem Free.operation_settle (h : i.Free reg) (hready : Machine.Ready reg) :
    i.operation (Machine.settle reg) = i.operation reg :=
  operation_congr (fun _ hu => h.settle_gpr hready hu)
    (hready.settle_special (by decide) (by decide) (by decide))
    (hready.settle_special (by decide) (by decide) (by decide))
    (hready.settle_special (by decide) (by decide) (by decide))

end Instruction

/-- Loads are written at once. -/
def atOnce : LoadUnit where
  old reg rt := reg (Instruction.gpr rt)
  complete m nextReg nextVal :=
    if h : nextReg.toNat < NumTotalRegs then
      .ok ((m.setRegister ⟨nextReg.toNat, h⟩ nextVal).setRegister 0 0)
    else .error .bounds

namespace Machine

variable {m s : Machine} {build : Build} {uninit : ℕ → ℤ} {i : Instruction}

/-! ## The end of an instruction -/

section

variable {reg ρ : Fin NumTotalRegs → Word}

/-- The registers of the two machines within an instruction: they agree up to R0. -/
structure Alike (reg ρ : Fin NumTotalRegs → Word) : Prop where
  pending : (reg LoadReg).toNat < NumGPRegs
  eq : Function.update ρ 0 0 = settle reg

theorem Ready.alike (h : Ready reg) : Alike reg (settle reg) := by
  have hz : settle reg 0 = 0 := settle_of_mem (.inl rfl)
  exact ⟨h.pending, Function.update_eq_self_iff.mpr hz.symm⟩

theorem Alike.update (h : Alike reg ρ) (hr : r ≠ LoadReg ∧ r ≠ LoadValueReg)
    (hp : r ≠ 0 → (r : ℕ) ≠ (reg LoadReg).toNat) (value : Word) :
    Alike (Function.update reg r value) (Function.update ρ r value) where
  pending := by
    rw [Function.update_of_ne hr.1.symm]
    exact h.pending
  eq := by
    by_cases hz : r = 0
    · rw [hz, settle_update_zero, Function.update_idem, h.eq]
    · have hspecial : ¬(r = 0 ∨ r = LoadReg ∨ r = LoadValueReg) := by simp [hz, hr]
      rw [settle_update hspecial (hp hz), ← h.eq, Function.update_comm hz]

theorem Alike.updates (h : Alike reg ρ)
    (hw : ∀ w ∈ writes, (w.1 ≠ LoadReg ∧ w.1 ≠ LoadValueReg) ∧
      (w.1 ≠ 0 → (w.1 : ℕ) ≠ (reg LoadReg).toNat)) :
    Alike (writes.foldl (fun reg w => Function.update reg w.1 w.2) reg)
      (writes.foldl (fun reg w => Function.update reg w.1 w.2) ρ) := by
  induction writes generalizing reg ρ with
  | nil => exact h
  | cons w writes ih =>
      obtain ⟨hr, hp⟩ := hw w List.mem_cons_self
      refine ih (h.update hr hp w.2) fun w' hw' => ?_
      dsimp only
      rw [Function.update_of_ne hr.1.symm]
      exact hw w' (List.mem_cons_of_mem _ hw')

end

theorem setRegisters_eq (m : Machine) (writes : List (Fin NumTotalRegs × Word)) :
    m.setRegisters writes =
      m.setRegs (writes.foldl (fun reg w => Function.update reg w.1 w.2) m.registers) := by
  induction writes generalizing m with
  | nil => rfl
  | cons w writes ih => exact ih (m.setRegister w.1 w.2)

/-- The value matters only if it is loaded into another register than R0. -/
theorem complete_alike {reg ρ : Fin NumTotalRegs → Word} (h : Alike reg ρ) (m : Machine)
    (rt : Fin NumGPRegs) {v v' : Word} (hv : rt ≠ 0 → v = v') :
    ∃ m', delayed.complete (m.setRegs reg) (BitVec.ofNat 32 rt) v = .ok m' ∧
      Ready m'.registers ∧
      atOnce.complete (m.setRegs ρ) (BitVec.ofNat 32 rt) v' = .ok m'.settled := by
  have hlt : (rt : ℕ) < 32 := rt.isLt
  have hrt : (BitVec.ofNat 32 (rt : ℕ)).toNat = rt := by
    rw [BitVec.toNat_ofNat]
    omega
  have hp : (reg LoadReg).toNat < NumTotalRegs := h.pending.trans (by decide)
  refine ⟨_, delayedLoad_eq (r := ⟨_, hp⟩) rfl _ _, ⟨?_, ?_⟩, ?_⟩
  · simp [setRegister]
  · simp only [setRegister, setRegs]
    rw [Function.update_of_ne (by decide), Function.update_of_ne (by decide),
      Function.update_self, hrt]
    exact hlt
  · have htotal : (BitVec.ofNat 32 (rt : ℕ)).toNat < NumTotalRegs := by
      rw [hrt]
      exact hlt.trans (by decide)
    simp only [atOnce, dif_pos htotal]
    refine congrArg (fun reg => Except.ok (m.setRegs reg)) (funext fun r => ?_)
    have heq := congrFun h.eq r
    simp only [Function.update_apply, settle, setRegister, setRegs] at heq ⊢
    grind

theorem Ready.setRegister (h : Ready m.registers) (hr : NumGPRegs ≤ (r : ℕ)) (hload : r ≠ LoadReg)
    (value : Word) : Ready (m.setRegister r value).registers := by
  have hzero : (0 : Fin NumTotalRegs) ≠ r := by
    rintro rfl
    exact absurd hr (by decide)
  refine ⟨(Function.update_of_ne hzero _ _).trans h.zero, ?_⟩
  rw [show (m.setRegister r value).registers LoadReg = m.registers LoadReg from
    Function.update_of_ne hload.symm _ _]
  exact h.pending

/-- User programs start without a pending load. -/
theorem ready_initRegisters (space : AddrSpace) (m : Machine) :
    Ready (space.initRegisters m).registers := by
  have hreg : ∀ r, r ≠ NextPCReg → r ≠ StackReg → (space.initRegisters m).registers r = 0 := by
    intro r hnext hstack
    simp [AddrSpace.initRegisters, setRegister, hnext, hstack]
  exact ⟨hreg 0 (by decide) (by decide), by rw [hreg LoadReg (by decide) (by decide)]; decide⟩

theorem settled_copy (h : Ready m.registers) {q : Fin NumTotalRegs}
    (hr : NumGPRegs ≤ (r : ℕ) ∧ r ≠ LoadReg ∧ r ≠ LoadValueReg)
    (hq : NumGPRegs ≤ (q : ℕ) ∧ q ≠ LoadReg ∧ q ≠ LoadValueReg) :
    m.settled.setRegister r (m.settled.registers q) =
      (m.setRegister r (m.registers q)).settled := by
  have hreg : m.settled.registers q = m.registers q := h.settle_special hq.1 hq.2.1 hq.2.2
  rw [hreg, settled_setRegister h.pending hr.1 hr.2.1 hr.2.2]

theorem retire_alike {reg ρ : Fin NumTotalRegs → Word} (h : Alike reg ρ) (m : Machine)
    (rt : Fin NumGPRegs) {v v' : Word} (hv : rt ≠ 0 → v = v') (pcAfter : Word) :
    Mirrored Ready
      (do return (Ending.completed, ← (m.setRegs reg).retire delayed (BitVec.ofNat 32 rt) v
        pcAfter))
      (do return (Ending.completed, ← (m.setRegs ρ).retire atOnce (BitVec.ofNat 32 rt) v'
        pcAfter)) := by
  obtain ⟨m₁, hdelayed, hready₁, honce⟩ := complete_alike h m rt hv
  have hready₂ := hready₁.setRegister (r := PrevPCReg) (by decide) (by decide)
    (m₁.registers PCReg)
  have hready₃ := hready₂.setRegister (r := PCReg) (by decide) (by decide)
    ((m₁.setRegister PrevPCReg (m₁.registers PCReg)).registers NextPCReg)
  simp only [retire, hdelayed, honce, ok_bind]
  rw [settled_copy hready₁ (by decide) (by decide), settled_copy hready₂ (by decide) (by decide),
    ← settled_setRegister hready₃.pending (by decide) (by decide) (by decide)]
  exact .of_ok _ (hready₃.setRegister (by decide) (by decide) _)

/-- The end of an instruction that is not a load. -/
theorem retire_mirrored (h : Ready m.registers) (pcAfter : Word) :
    Mirrored Ready (do return (Ending.completed, ← m.retire delayed 0 0 pcAfter))
      (do return (Ending.completed, ← m.settled.retire atOnce 0 0 pcAfter)) :=
  retire_alike h.alike m 0 (fun _ => rfl) pcAfter

/-! ## One instruction -/

theorem execute_write (h : Ready m.registers) (hfree : i.Free m.registers) {pcAfter : Word}
    (hop : i.operation m.registers = .write writes pcAfter) :
    Mirrored Ready
      (do return (Ending.completed, ← (m.setRegisters writes).retire delayed 0 0 pcAfter))
      (do return (Ending.completed, ← (m.settled.setRegisters writes).retire atOnce 0 0
        pcAfter)) := by
  rw [setRegisters_eq, setRegisters_eq]
  refine retire_alike (h.alike.updates fun w hw => ?_) m 0 (fun _ => rfl) pcAfter
  obtain hhi | hlo | ⟨u, hu, hgpr⟩ := Instruction.operation_writes hop w hw
  · rw [hhi]
    have hlt : NumGPRegs ≤ (HiReg : ℕ) := by decide
    exact ⟨by decide, fun _ => (h.pending.trans_le hlt).ne'⟩
  · rw [hlo]
    have hlt : NumGPRegs ≤ (LoReg : ℕ) := by decide
    exact ⟨by decide, fun _ => (h.pending.trans_le hlt).ne'⟩
  · rw [hgpr]
    refine ⟨Instruction.gpr_ne u, fun hne => hfree.ne_pending hu ?_⟩
    rintro rfl
    exact hne rfl

/-- What `LWL` and `LWR` merge into is the value of the pending load, if there is one. -/
theorem old_eq (m : Machine) {rt : Fin NumGPRegs} (hrt : rt ≠ 0) :
    delayed.old m.registers rt = atOnce.old m.settled.registers rt := by
  have hspecial : ¬(Instruction.gpr rt = 0 ∨ Instruction.gpr rt = LoadReg ∨
      Instruction.gpr rt = LoadValueReg) := by
    rintro (hz | hl | hv)
    · exact hrt (Instruction.gpr_eq_zero hz)
    · exact (Instruction.gpr_ne rt).1 hl
    · exact (Instruction.gpr_ne rt).2 hv
  have hlt : (rt : ℕ) < 32 := rt.isLt
  have hiff : m.registers LoadReg = BitVec.ofNat 32 rt ↔
      (Instruction.gpr rt : ℕ) = (m.registers LoadReg).toNat := by
    rw [← BitVec.toNat_inj, BitVec.toNat_ofNat, Nat.mod_eq_of_lt (by omega)]
    exact eq_comm
  simp only [delayed, atOnce]
  split_ifs with hp
  · exact (settle_of_pending hspecial (hiff.mp hp)).symm
  · exact (settle_of_ne hspecial (mt hiff.mpr hp)).symm

theorem executeTo_mirrored (h : Ready m.registers) (hfree : i.Free m.registers) :
    Mirrored Ready (m.executeTo (kernel build) delayed uninit i)
      (m.settled.executeTo (kernel build) atOnce uninit i) := by
  have hnext : m.settled.registers NextPCReg = m.registers NextPCReg :=
    h.settle_special (r := NextPCReg) (by decide) (by decide) (by decide)
  have hop : i.operation m.settled.registers = i.operation m.registers :=
    hfree.operation_settle h
  unfold executeTo
  simp only [hop, hnext]
  cases hoperation : i.operation m.registers with
  | write writes pcAfter => exact execute_write h hfree hoperation
  | trap which badVAddr =>
      exact (raiseException_mirrored h which badVAddr).bind fun _ _ _ hreg => .of_ok _ hreg.ready
  | load addr =>
      refine (readMem_mirrored h addr i.loadSize (uninit 1)).bind fun value m₁ _ hkept => ?_
      cases value with
      | none => exact .of_ok _ hkept.ready
      | some value =>
          refine retire_alike hkept.ready.alike m₁ i.rt (fun hrt => ?_) _
          rw [old_eq m₁ hrt]
  | store addr size value =>
      refine (writeMem_mirrored h addr size value (uninit 1)).bind fun written m₁ _ hkept => ?_
      cases written with
      | false => exact .of_ok _ hkept.ready
      | true => exact retire_mirrored hkept.ready _
  | storePart addr =>
      refine (readMem_mirrored h addr 4 (uninit 1)).bind fun value m₁ _ hkept => ?_
      cases value with
      | none => exact .of_ok _ hkept.ready
      | some value =>
          have hrt : m₁.settled.registers (Instruction.gpr i.rt) =
              m₁.registers (Instruction.gpr i.rt) :=
            (hfree.of_kept hkept).settle_gpr hkept.ready (Instruction.rt_mem_uses hoperation)
          dsimp only
          rw [hrt]
          refine (writeMem_mirrored hkept.ready addr 4 _ (uninit 2)).bind
            fun written m₂ _ hkept₂ => ?_
          cases written with
          | false => exact .of_ok _ hkept₂.ready
          | true => exact retire_mirrored hkept₂.ready _
  | fault f => exact .of_error f

/-- The instruction that is fetched next has no hazard. -/
def Fetches (build : Build) (uninit : ℕ → ℤ) (m : Machine) : Prop :=
  ∀ raw m', m.readMem build (m.registers PCReg) 4 (uninit 0) = .ok (some raw, m') →
    (Instruction.decode raw).Free m.registers

instance : Decidable (m.Fetches build uninit) :=
  match h : m.readMem build (m.registers PCReg) 4 (uninit 0) with
  | .ok (some raw, m') => decidable_of_iff ((Instruction.decode raw).Free m.registers)
      (by simp [Fetches, h])
  | .ok (none, m') => isTrue fun raw m' h' => by cases h.symm.trans h'
  | .error e => isTrue fun raw m' h' => by cases h.symm.trans h'

theorem oneInstruction_mirrored (h : Ready m.registers) (hfree : m.Fetches build uninit) :
    Mirrored Ready (m.oneInstruction delayed build uninit)
      (m.settled.oneInstruction atOnce build uninit) := by
  have hpc : m.settled.registers PCReg = m.registers PCReg :=
    h.settle_special (r := PCReg) (by decide) (by decide) (by decide)
  unfold oneInstruction oneInstructionTo
  rw [hpc]
  refine Mirrored.bind ?_ fun _ _ _ hready => .of_ok _ hready
  refine (readMem_mirrored h _ 4 (uninit 0)).bind fun raw m₁ hread hkept => ?_
  cases raw with
  | none => exact .of_ok _ hkept.ready
  | some raw => exact executeTo_mirrored hkept.ready ((hfree raw m₁ hread).of_kept hkept)

/-! ## Runs -/

/-- What happens to the machine: an instruction, or an interrupt between two instructions. -/
inductive Event where
  | oneInstruction (uninit : ℕ → ℤ)
  | interrupt

/-- A run, until the program leaves through a system call. -/
def run (unit : LoadUnit) (flush : Machine → Exec Machine) (build : Build) :
    List Event → Machine → Exec (Control × Machine)
  | [], m => .ok (.resume, m)
  | .oneInstruction uninit :: events, m => do
      match ← m.oneInstruction unit build uninit with
      | (.resume, m) => run unit flush build events m
      | (control, m) => return (control, m)
  | .interrupt :: events, m => do run unit flush build events (← flush m)

/-- The machine of the source: `CheckIfDue` completes the pending load. -/
def runDelayed (build : Build) : List Event → Machine → Exec (Control × Machine) :=
  run delayed (fun m => m.delayedLoad 0 0) build

/-- The interpreter that has nothing to complete. -/
def runAtOnce (build : Build) : List Event → Machine → Exec (Control × Machine) :=
  run atOnce .ok build

/-- No instruction of the run touches the register that the one before it loads. -/
def HazardFree (build : Build) : List Event → Machine → Prop
  | [], _ => True
  | .oneInstruction uninit :: events, m => m.Fetches build uninit ∧
      ∀ m', m.oneInstruction delayed build uninit = .ok (.resume, m') → HazardFree build events m'
  | .interrupt :: events, m => ∀ m', m.delayedLoad 0 0 = .ok m' → HazardFree build events m'

instance decidableHazardFree :
    ∀ (events : List Event) (m : Machine), Decidable (HazardFree build events m)
  | [], _ => isTrue trivial
  | .oneInstruction uninit :: events, m =>
      match h : m.oneInstruction delayed build uninit with
      | .ok (.resume, m') =>
          have := decidableHazardFree events m'
          decidable_of_iff (m.Fetches build uninit ∧ HazardFree build events m')
            (by simp [HazardFree, h])
      | .ok (.halt, m') | .ok (.finish, m') | .error e =>
          decidable_of_iff (m.Fetches build uninit) (by simp [HazardFree, h])
  | .interrupt :: events, m =>
      match h : m.delayedLoad 0 0 with
      | .ok m' =>
          have := decidableHazardFree events m'
          decidable_of_iff (HazardFree build events m')
            ⟨fun hfree m₁ h₁ => Except.ok.inj (h.symm.trans h₁) ▸ hfree, fun hfree => hfree m' h⟩
      | .error e => isTrue fun m' h' => by cases h.symm.trans h'

theorem run_mirrored (h : Ready m.registers) {events : List Event}
    (hfree : HazardFree build events m) :
    Mirrored Ready (runDelayed build events m) (runAtOnce build events m.settled) := by
  induction events generalizing m with
  | nil => exact .of_ok _ h
  | cons event events ih =>
      cases event with
      | oneInstruction uninit =>
          refine (oneInstruction_mirrored h hfree.1).bind fun control m₁ hone hready => ?_
          cases control with
          | resume => exact ih hready (hfree.2 m₁ hone)
          | halt => exact .of_ok _ hready
          | finish => exact .of_ok _ hready
      | interrupt =>
          have hflush := delayedLoad_zero h.pending
          have hclean : Settled m.settled.registers := settled_settle _
          have hsame : m.settled.settled = m.settled := by
            rw [settled, hclean.settle_eq, setRegs_self]
          have hrest := ih hclean.ready (hfree m.settled hflush)
          rw [hsame] at hrest
          simp only [runDelayed, run, hflush, ok_bind]
          exact hrest

/-- Without hazards the machine, once the pending load is completed, is where the interpreter
that writes loaded registers at once is. -/
theorem delayed_loads_invisible (h : Ready m.registers) {events : List Event}
    (hfree : HazardFree build events m) :
    (do runAtOnce build events (← m.delayedLoad 0 0)) =
      (do let (control, m') ← runDelayed build events m
          return (control, ← m'.delayedLoad 0 0)) := by
  have hrun := run_mirrored h hfree
  rw [delayedLoad_zero h.pending, ok_bind, hrun.eq]
  cases hx : runDelayed build events m with
  | error e => rfl
  | ok r =>
      have hready : Ready r.2.registers := hrun.post hx
      simp only [ok_bind, delayedLoad_zero hready.pending]
      rfl

/-- The program `lw $2, 64($0); lui $3, 1; addu $4, $2, $3` with its data. -/
def loading : Machine where
  registers := Function.update (fun _ => 0) NextPCReg 4
  mainMemory := fun a => ([0x40, 0, 2, 0x8c, 1, 0, 3, 0x3c, 0x21, 0x20, 0x43, 0] ++
    List.replicate 52 0 ++ [5] : List Byte).getD a 0
  tlb := none
  pageTable := some 0
  pageTableSize := 1
  bitMap := ⟨fun _ => 0⟩
  heap := Heap.empty.alloc [⟨0, 0, true, false, false, false, 0⟩]

theorem delayed_loads_invisible_loading :
    let build : Build := ⟨false, false, false⟩
    let events := [.oneInstruction fun _ => 0, .oneInstruction fun _ => 0, .interrupt,
      .oneInstruction fun _ => 0]
    (runDelayed build events loading).map (fun r => r.2.registers 4) = .ok 0x10005 ∧
      (do runAtOnce build events (← loading.delayedLoad 0 0)) =
        (do let (control, m') ← runDelayed build events loading
            return (control, ← m'.delayedLoad 0 0)) :=
  ⟨by decide +kernel, delayed_loads_invisible ⟨rfl, by decide⟩ (by decide +kernel)⟩

end Machine

end Nachos
