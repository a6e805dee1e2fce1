import Nachos.Model.Mips

/-! # Registers and memory are separate

Translation, memory accesses and the changes that the kernel makes to the tables depend on
no register and change none. -/

namespace Nachos.Machine

open Library

variable {m m' : Machine} {f : Machine → Exec Machine}

theorem raiseTo_kernel (build : Build) (m : Machine) (which : ExceptionType) (badVAddr : Word) :
    m.raiseTo (kernel build) which badVAddr = m.raiseException build which badVAddr := rfl

theorem resolveTo_kernel (build : Build) (m : Machine) (addr : Word) (size : ℤ) (writing : Bool)
    (uninit : ℤ) :
    m.resolveTo (kernel build) addr size writing uninit =
      m.resolve build addr size writing uninit := rfl

/-- The machine with other registers. -/
def setRegs (m : Machine) (reg : Fin NumTotalRegs → Word) : Machine := { m with registers := reg }

@[simp] theorem setRegs_registers (m : Machine) (reg : Fin NumTotalRegs → Word) :
    (m.setRegs reg).registers = reg := rfl

@[simp] theorem setRegs_self (m : Machine) : m.setRegs m.registers = m := rfl

/-- The call neither reads nor writes registers. -/
def Blind (f : Machine → Exec Machine) : Prop :=
  ∀ m reg, f (m.setRegs reg) = (f m).map fun m' => m'.setRegs reg

/-- The same for a call with a result. -/
def BlindTo {α : Type} (f : Machine → Exec (α × Machine)) : Prop :=
  ∀ m reg, f (m.setRegs reg) = (f m).map fun r => (r.1, r.2.setRegs reg)

theorem Blind.registers (hf : Blind f) (h : f m = .ok m') : m'.registers = m.registers := by
  have hsame := hf m m.registers
  rw [setRegs_self, h] at hsame
  have he : m' = m'.setRegs m.registers := Except.ok.inj hsame
  rw [he, setRegs_registers]

theorem BlindTo.registers {α : Type} {f : Machine → Exec (α × Machine)} {a : α} (hf : BlindTo f)
    (h : f m = .ok (a, m')) : m'.registers = m.registers := by
  have hsame := hf m m.registers
  rw [setRegs_self, h] at hsame
  have he : m' = m'.setRegs m.registers := (Prod.mk.inj (Except.ok.inj hsame)).2
  rw [he, setRegs_registers]

theorem Blind.bind {g : Machine → Exec Machine} (hf : Blind f) (hg : Blind g) :
    Blind fun m => f m >>= g := by
  intro m reg
  dsimp only
  rw [hf m reg]
  cases f m with
  | error e => rfl
  | ok m' => exact hg m' reg

theorem Blind.returning {α : Type} (hf : Blind f) (a : α) :
    BlindTo fun m => do return (a, ← f m) := by
  intro m reg
  dsimp only
  rw [hf m reg]
  cases f m <;> rfl

/-! ## Delayed loads -/

theorem delayedLoad_eq {m : Machine} {r : Fin NumTotalRegs}
    (h : (m.registers LoadReg).toNat = r) (nextReg nextVal : Word) :
    m.delayedLoad nextReg nextVal = .ok ((((m.setRegister r (m.registers LoadValueReg)).setRegister
      LoadReg nextReg).setRegister LoadValueReg nextVal).setRegister 0 0) := by
  have hr := r.isLt
  have hT : NumTotalRegs = 40 := rfl
  have hint : (m.registers LoadReg).toInt = (r : ℕ) := by
    rw [BitVec.toInt_eq_toNat_of_lt (by omega), h]
  have hreg : (⟨(m.registers LoadReg).toInt.toNat, by rw [hint]; omega⟩ : Fin NumTotalRegs) = r :=
    Fin.ext ((congrArg Int.toNat hint).trans (Int.toNat_natCast _))
  rw [delayedLoad, dif_pos (by rw [hint]; omega), hreg]

/-! ## Memory -/

theorem loadBytes_setRegs (m : Machine) (reg : Fin NumTotalRegs → Word) (p : ℤ) (n : ℕ) :
    (m.setRegs reg).loadBytes p n = m.loadBytes p n := by
  induction n generalizing p with
  | zero => rfl
  | succ n ih =>
      unfold loadBytes
      rw [ih]
      rfl

theorem blind_store (p : ℤ) (b : Byte) : Blind fun m => m.store p b := by
  intro m reg
  simp only [store]
  split <;> rfl

theorem blind_storeBytes (p : ℤ) (bytes : List Byte) : Blind fun m => m.storeBytes p bytes := by
  induction bytes generalizing p with
  | nil => exact fun m reg => rfl
  | cons b bytes ih =>
      simp only [storeBytes]
      exact (blind_store p b).bind (ih (p + 1))

/-! ## Translation -/

theorem blind_translateLinear (p : ℕ) (virtAddr : Word) (size : ℤ) (writing : Bool) :
    BlindTo fun m => m.translateLinear p virtAddr size writing := by
  intro m reg
  have htable : (m.setRegs reg).table p = m.table p := rfl
  have hsize : (m.setRegs reg).pageTableSize = m.pageTableSize := rfl
  simp only [translateLinear, htable, hsize]
  split
  · rfl
  · cases m.table p with
    | error e => rfl
    | ok t =>
        simp only [ok_bind]
        cases entryAt t (pageOf virtAddr) with
        | error e => rfl
        | ok e =>
            simp only [ok_bind]
            split
            · cases useEntry e (offsetOf virtAddr) size writing <;> rfl
            · rfl

theorem blind_translateTlb (p : ℕ) (virtAddr : Word) (size : ℤ) (writing : Bool) :
    BlindTo fun m => m.translateTlb p virtAddr size writing := by
  intro m reg
  have htable : (m.setRegs reg).table p = m.table p := rfl
  simp only [translateTlb, htable]
  cases m.table p with
  | error e => rfl
  | ok t =>
      simp only [ok_bind]
      cases scan (fun e => e.valid && e.virtualPage.toNat == pageOf virtAddr) TLBSize t 0 with
      | error e => rfl
      | ok found =>
          cases found with
          | none => rfl
          | some i =>
              simp only [ok_bind]
              cases entryAt t i with
              | error e => rfl
              | ok e =>
                  simp only [ok_bind]
                  cases useEntry { e with hitRate := e.hitRate + 1 } (offsetOf virtAddr) size
                    writing <;> rfl

theorem blind_translate (virtAddr : Word) (size : ℤ) (writing : Bool) :
    BlindTo fun m => m.translate virtAddr size writing := by
  intro m reg
  have htlb : (m.setRegs reg).tlb = m.tlb := rfl
  have hpage : (m.setRegs reg).pageTable = m.pageTable := rfl
  simp only [translate, htlb, hpage]
  split
  · rfl
  · cases m.tlb with
    | none =>
        cases m.pageTable with
        | none => rfl
        | some p => exact blind_translateLinear p virtAddr size writing m reg
    | some p =>
        cases m.pageTable with
        | none => exact blind_translateTlb p virtAddr size writing m reg
        | some q => rfl

/-! ## The kernel -/

theorem blind_clear (num : ℤ) : Blind fun m => m.clear num := by
  intro m reg
  have hmap : (m.setRegs reg).bitMap = m.bitMap := rfl
  simp only [clear, hmap]
  cases m.bitMap.test num with
  | error e => rfl
  | ok set =>
      cases set with
      | false => rfl
      | true => cases m.bitMap.clear num <;> simp [Except.map, setRegs]

theorem blind_clearEntries (t : List TranslationEntry) (n i : ℕ) :
    Blind fun m => clearEntries t n i m := by
  induction n generalizing i with
  | zero => exact fun m reg => rfl
  | succ n ih =>
      simp only [clearEntries]
      cases entryAt t i with
      | error e => exact fun m reg => rfl
      | ok e => exact (blind_clear e.physicalPage.toInt).bind (ih (i + 1))

theorem blind_clearAll (build : Build) : Blind fun m => m.clearAll build := by
  intro m reg
  have htlb : (m.setRegs reg).tlb = m.tlb := rfl
  have hpage : (m.setRegs reg).pageTable = m.pageTable := rfl
  simp only [clearAll, htlb, hpage]
  cases (if build.useTlb then m.tlb else m.pageTable) with
  | none =>
      have hsize : (m.setRegs reg).pageTableSize = m.pageTableSize := rfl
      simp only [hsize]
      split <;> rfl
  | some p =>
      have htable : (m.setRegs reg).table p = m.table p := rfl
      simp only [htable]
      cases m.table p with
      | error e => rfl
      | ok t => exact blind_clearEntries t _ 0 m reg

theorem blind_tlbSwap (build : Build) (vaddr : Word) : Blind fun m => m.tlbSwap build vaddr := by
  intro m reg
  have htlb : (m.setRegs reg).tlb = m.tlb := rfl
  have hreplace : ∀ t vpn, replace build (m.setRegs reg) t vpn = replace build m t vpn :=
    fun _ _ => rfl
  simp only [tlbSwap, htlb, hreplace]
  cases m.tlb with
  | none => rfl
  | some p =>
      have htable : (m.setRegs reg).table p = m.table p := rfl
      simp only [htable]
      cases m.table p with
      | error e => rfl
      | ok t =>
          simp only [ok_bind]
          cases scan (fun e => !e.valid) TLBSize t 0 with
          | error e => rfl
          | ok found =>
              cases found with
              | some i =>
                  simp only [ok_bind]
                  cases entryAt t i <;> rfl
              | none =>
                  simp only [ok_bind]
                  cases replace build m t (vaddr.toInt.tdiv PageSize) with
                  | error e => rfl
                  | ok r =>
                      simp only [ok_bind]
                      cases entryAt r.1 r.2 <;> rfl

/-- Besides the tables, the handler changes the program counter at most. -/
theorem exceptionHandler_registers {build : Build} {which : ExceptionType} {control : Control}
    (h : m.exceptionHandler build which = .ok (control, m')) :
    m'.registers = m.registers ∨
      m'.registers = Function.update m.registers PCReg (m.registers NextPCReg) := by
  unfold exceptionHandler at h
  dsimp only at h
  split at h
  · obtain ⟨m₁, hclear, h⟩ := bind_eq_ok.mp h
    obtain ⟨-, rfl⟩ := Prod.mk.inj (Except.ok.inj h)
    exact .inl ((blind_clearAll build).registers hclear)
  · split at h
    · obtain ⟨m₁, hclear, h⟩ := bind_eq_ok.mp h
      obtain ⟨-, rfl⟩ := Prod.mk.inj (Except.ok.inj h)
      refine .inr ?_
      rw [← (blind_clearAll build).registers hclear]
      rfl
    · split at h
      · split at h
        · obtain ⟨m₁, hswap, h⟩ := bind_eq_ok.mp h
          obtain ⟨-, rfl⟩ := Prod.mk.inj (Except.ok.inj h)
          exact .inl ((blind_tlbSwap build _).registers hswap)
        · obtain ⟨-, rfl⟩ := Prod.mk.inj (Except.ok.inj h)
          exact .inl rfl
      · cases h

end Nachos.Machine
