import Nachos.Verification.Machine.Refill

/-! # The second translation

After a page fault `ReadMem` and `WriteMem` translate once more, as for writing, and go on
whatever comes of it. -/

namespace Nachos.Machine

open Library

variable {build : Build} {m m' : Machine} {addr : Word} {size : ℤ} {writing : Bool} {p i : ℕ}
  {t : List TranslationEntry} {e : TranslationEntry} {result : Translation}

/-! ## Raising an exception -/

/-- A delayed load goes to one of the registers. -/
def Loadable (m : Machine) : Prop :=
  0 ≤ (m.registers LoadReg).toInt ∧ (m.registers LoadReg).toInt < NumTotalRegs

/-- The address that the handler reads: a delayed load may have overwritten `BadVAddrReg`. -/
def faultAddr (m : Machine) (addr : Word) : Word :=
  if (m.registers LoadReg).toInt = 39 then m.registers LoadValueReg else addr

/-- Before the handler is called, nothing but registers changes. -/
theorem raiseException_eq (h : m.Loadable) (build : Build) (which : ExceptionType) (addr : Word) :
    ∃ reg, reg BadVAddrReg = m.faultAddr addr ∧
      m.raiseException build which addr = (m.setRegs reg).exceptionHandler build which := by
  obtain ⟨hlo, hhi⟩ := h
  have hT : NumTotalRegs = 40 := rfl
  have hsame : (m.setRegister BadVAddrReg addr).registers LoadReg = m.registers LoadReg := by
    unfold setRegister
    exact Function.update_of_ne (show LoadReg ≠ BadVAddrReg by decide) addr m.registers
  obtain ⟨r, hr⟩ : ∃ r : Fin NumTotalRegs, (m.registers LoadReg).toNat = r := by
    have htoInt := BitVec.toInt_eq_toNat_cond (m.registers LoadReg)
    exact ⟨⟨(m.registers LoadReg).toNat, by split at htoInt <;> omega⟩, rfl⟩
  rw [raiseException, raiseTo, delayedLoad_eq (r := r) (by rw [hsame, hr]), ok_bind]
  refine ⟨_, ?_, rfl⟩
  have hvalue : (m.setRegister BadVAddrReg addr).registers LoadValueReg =
      m.registers LoadValueReg := by
    unfold setRegister
    exact Function.update_of_ne (show LoadValueReg ≠ BadVAddrReg by decide) addr m.registers
  have hint : (m.registers LoadReg).toInt = (r : ℕ) := by
    rw [BitVec.toInt_eq_toNat_of_lt (by have := r.isLt; omega), hr]
  rw [hvalue]
  simp only [setRegister]
  rw [Function.update_of_ne (by decide), Function.update_of_ne (by decide),
    Function.update_of_ne (by decide), faultAddr, hint]
  by_cases h39 : r = BadVAddrReg
  · rw [h39, Function.update_self, if_pos (by decide)]
  · have hne : ((r : ℕ) : ℤ) ≠ 39 := fun heq => h39 (Fin.ext (Int.ofNat_inj.mp heq))
    rw [Function.update_of_ne (Ne.symm h39), Function.update_self, if_neg hne]

theorem loadable_of_raiseException {which : ExceptionType} {r : Control × Machine}
    (h : m.raiseException build which addr = .ok r) : m.Loadable := by
  rw [raiseException, raiseTo] at h
  obtain ⟨m₁, hload, -⟩ := bind_eq_ok.mp h
  have hsame : (m.setRegister BadVAddrReg addr).registers LoadReg = m.registers LoadReg := by
    unfold setRegister
    exact Function.update_of_ne (show LoadReg ≠ BadVAddrReg by decide) addr m.registers
  rw [delayedLoad] at hload
  split at hload
  · rename_i hrange
    rw [hsame] at hrange
    exact hrange
  · cases hload

/-- The kernel stops at any other exception than a page fault. -/
theorem raiseException_eq_ok {which : ExceptionType} (hwhich : which ≠ .syscallException)
    {r : Control × Machine} (h : m.raiseException build which addr = .ok r) :
    which = .pageFaultException := by
  obtain ⟨reg, -, heq⟩ := raiseException_eq (loadable_of_raiseException h) build which addr
  rw [heq, exceptionHandler] at h
  simp only [hwhich, false_and, if_false] at h
  by_contra hne
  rw [if_neg hne] at h
  cases h

theorem raiseException_page (hload : m.Loadable) (htlb : m.tlb = none) (build : Build)
    (addr : Word) :
    ∃ reg, m.raiseException build .pageFaultException addr = .ok (.resume, m.setRegs reg) := by
  obtain ⟨reg, -, heq⟩ := raiseException_eq hload build .pageFaultException addr
  refine ⟨reg, ?_⟩
  rw [heq, exceptionHandler, if_neg (by simp), if_neg (by simp), if_pos rfl,
    if_neg (by simp [setRegs, htlb])]

theorem raiseException_tlb (hload : m.Loadable) (htlb : m.tlb = some p) (build : Build)
    (addr : Word) :
    ∃ reg, m.raiseException build .pageFaultException addr =
      (m.tlbSwap build (m.faultAddr addr)).map fun m' => (.resume, m'.setRegs reg) := by
  obtain ⟨reg, hreg, heq⟩ := raiseException_eq hload build .pageFaultException addr
  refine ⟨reg, ?_⟩
  have hblind := blind_tlbSwap build (m.faultAddr addr) m reg
  dsimp only at hblind
  rw [heq, exceptionHandler, if_neg (by simp), if_neg (by simp), if_pos rfl,
    if_pos (by simp [setRegs, htlb]), setRegs_registers, hreg, hblind]
  cases m.tlbSwap build (m.faultAddr addr) <;> rfl

/-! ## The table after a refill -/

/-- The page that `tlbSwap` has computed is that of the address, and the frame exists. -/
def Finds (m : Machine) (addr : Word) (e : TranslationEntry) : Prop :=
  (m.faultAddr addr).toInt.tdiv PageSize = pageOf addr ∧ e.physicalPage.toNat < NumPhysPages

theorem pageOf_lt (addr : Word) : pageOf addr < 2 ^ 25 := by
  have hlt := addr.isLt
  have hP : PageSize = 128 := rfl
  rw [pageOf, hP]
  omega

theorem virtualPage_swapped (e : TranslationEntry) (vaddr addr : Word) :
    (swapped e vaddr).virtualPage.toNat = pageOf addr ↔
      vaddr.toInt.tdiv PageSize = pageOf addr := by
  change (Word.ofInt (vaddr.toInt.tdiv PageSize)).toNat = _ ↔ _
  have hpage := pageOf_lt addr
  have hlo := BitVec.le_toInt vaddr
  have hhi := BitVec.toInt_lt (x := vaddr)
  have hP : (PageSize : ℤ) = 128 := rfl
  have hbound : -2 ^ 25 ≤ vaddr.toInt.tdiv PageSize ∧ vaddr.toInt.tdiv PageSize < 2 ^ 25 := by
    rw [hP]
    rcases le_total 0 vaddr.toInt with hle | hle
    · rw [Int.tdiv_eq_ediv_of_nonneg hle]
      omega
    · obtain ⟨n, hn⟩ := Int.eq_ofNat_of_zero_le (neg_nonneg.mpr hle)
      rw [show vaddr.toInt = -(n : ℤ) by omega, Int.neg_tdiv, Int.tdiv_eq_ediv_of_nonneg (by omega)]
      omega
  rw [Word.ofInt, BitVec.toNat_ofInt]
  generalize vaddr.toInt.tdiv PageSize = x at hbound ⊢
  omega

/-- The machine after `tlbSwap` has made `e'` of the entry at `i`. -/
def refilled (m : Machine) (p : ℕ) (t : List TranslationEntry) (i : ℕ) (e' : TranslationEntry)
    (reg : Fin NumTotalRegs → Word) : Machine :=
  (m.setTable p (t.set i e')).setRegs reg

theorem cell_refilled (hcell : m.heap.cell p = some t) (i : ℕ) (e' : TranslationEntry)
    (reg : Fin NumTotalRegs → Word) : (m.refilled p t i e' reg).heap.cell p = some (t.set i e') :=
  Heap.cell_modify_self _ hcell _

theorem setTable_refilled (e' e'' : TranslationEntry) (reg : Fin NumTotalRegs → Word) :
    (m.refilled p t i e' reg).setTable p ((t.set i e').set i e'') = m.refilled p t i e'' reg := by
  rw [List.set_set]
  simp only [refilled, setTable, setRegs, Heap.modify_modify]
  rfl

section

variable (htlb : m.tlb = some p) (hmiss : Miss m addr p t) (hvictim : Victim build t i e)
  {vaddr : Word} {reg : Fin NumTotalRegs → Word}

include htlb hmiss hvictim

theorem slot_refilled (reg : Fin NumTotalRegs → Word)
    (hpage : (swapped e vaddr).virtualPage.toNat = pageOf addr) :
    Slot (m.refilled p t i (swapped e vaddr) reg) addr p (t.set i (swapped e vaddr)) i
      (swapped e vaddr) := by
  cases hmiss with
  | page htlb' =>
      rw [htlb] at htlb'
      cases htlb'
  | tlb _ hp hcell hlen hall =>
      have hi := hvictim.lt
      refine .tlb htlb hp (cell_refilled hcell _ _ _) hi (List.getElem?_set_self (by omega)) rfl
        hpage fun j hj e' he' => ?_
      rw [List.getElem?_set_ne (by omega)] at he'
      exact hall j (by omega) e' he'

theorem miss_refilled (hpage : (swapped e vaddr).virtualPage.toNat ≠ pageOf addr) :
    Miss (m.refilled p t i (swapped e vaddr) reg) addr p (t.set i (swapped e vaddr)) := by
  cases hmiss with
  | page htlb' =>
      rw [htlb] at htlb'
      cases htlb'
  | tlb _ hp hcell hlen hall =>
      have hi := hvictim.lt
      refine .tlb htlb hp (cell_refilled hcell _ _ _) (by rwa [List.length_set])
        fun j hj e' he' hv => ?_
      by_cases hji : j = i
      · subst hji
        rw [List.getElem?_set_self (by omega)] at he'
        obtain rfl := Option.some.inj he'
        exact hpage
      · rw [List.getElem?_set_ne (Ne.symm hji)] at he'
        exact hall j hj e' he' hv

end

/-! ## The last translation of a call -/

/-- The last `Translate` of `ReadMem` or `WriteMem`, with the machine that it leaves. -/
def lastTranslate (build : Build) (m : Machine) (addr : Word) (size : ℤ) (writing : Bool) :
    Exec (Translation × Machine) := do
  let (result, m) ← m.translate addr size writing
  match result with
  | .physAddr a => return (.physAddr a, m)
  | .exception e => do
      let (_, m) ← m.raiseException build e addr
      if e = .pageFaultException then m.translate addr size true
      else return (.exception e, m)

/-- What comes of the refilled entry `e'` of the table. -/
inductive Retried (m : Machine) (addr : Word) (e : TranslationEntry) :
    Translation → TranslationEntry → Prop where
  | found (h : m.Finds addr e) :
      Retried m addr e (.physAddr (e.physicalPage.toNat * PageSize + offsetOf addr))
        { swapped e (m.faultAddr addr) with hitRate := 1, use := true, dirty := true }
  | badFrame (hpage : (m.faultAddr addr).toInt.tdiv PageSize = pageOf addr)
      (hf : NumPhysPages ≤ e.physicalPage.toNat) :
      Retried m addr e (.exception .busErrorException)
        { swapped e (m.faultAddr addr) with hitRate := 1 }
  | lost (hpage : (m.faultAddr addr).toInt.tdiv PageSize ≠ pageOf addr) :
      Retried m addr e (.exception .pageFaultException) (swapped e (m.faultAddr addr))

theorem exists_retried (m : Machine) (addr : Word) (e : TranslationEntry) :
    ∃ result e', Retried m addr e result e' := by
  by_cases hpage : (m.faultAddr addr).toInt.tdiv PageSize = pageOf addr
  · by_cases hf : e.physicalPage.toNat < NumPhysPages
    · exact ⟨_, _, .found ⟨hpage, hf⟩⟩
    · exact ⟨_, _, .badFrame hpage (not_lt.mp hf)⟩
  · exact ⟨_, _, .lost hpage⟩

/-- The second `Translate`, after a refill. -/
theorem translate_refilled (halign : misaligned addr size = false)
    (hsize : size = 1 ∨ size = 2 ∨ size = 4) (htlb : m.tlb = some p) (hmiss : Miss m addr p t)
    (hvictim : Victim build t i e) (reg : Fin NumTotalRegs → Word) {e' : TranslationEntry}
    (h : Retried m addr e result e') :
    (m.refilled p t i (swapped e (m.faultAddr addr)) reg).translate addr size true =
      .ok (result, m.refilled p t i e' reg) := by
  have hcounted : (m.refilled p t i (swapped e (m.faultAddr addr)) reg).counted
      (swapped e (m.faultAddr addr)) = { swapped e (m.faultAddr addr) with hitRate := 1 } :=
    if_pos (by simp [refilled, setRegs, setTable, htlb])
  cases h with
  | found h =>
      have hslot := slot_refilled htlb hmiss hvictim reg
        ((virtualPage_swapped e (m.faultAddr addr) addr).mpr h.1)
      have huse : Used { swapped e (m.faultAddr addr) with hitRate := 1 } (offsetOf addr) size true
          _ _ := Used.of_frame halign hsize rfl h.2
      rw [← hcounted] at huse
      rw [translate_of_slot halign hslot huse, setTable_refilled, hcounted]
      rfl
  | badFrame hpage hf =>
      have hslot := slot_refilled htlb hmiss hvictim reg
        ((virtualPage_swapped e (m.faultAddr addr) addr).mpr hpage)
      have huse : Used ((m.refilled p t i (swapped e (m.faultAddr addr)) reg).counted
          (swapped e (m.faultAddr addr))) (offsetOf addr) size true
          (.exception .busErrorException) _ := .badFrame (by rw [hcounted]; rfl) (by
        rw [hcounted]
        exact hf)
      rw [translate_of_slot halign hslot huse, setTable_refilled, hcounted]
  | lost hpage =>
      exact translate_of_miss halign (miss_refilled htlb hmiss hvictim fun heq =>
        hpage ((virtualPage_swapped e (m.faultAddr addr) addr).mp heq))

/-- With a page table nothing is done about a page fault. -/
theorem lastTranslate_page (halign : misaligned addr size = false) (hload : m.Loadable)
    (htlb : m.tlb = none) (hmiss : Miss m addr p t) (build : Build) (writing : Bool) :
    ∃ reg, m.lastTranslate build addr size writing =
      .ok (.exception .pageFaultException, m.setRegs reg) := by
  obtain ⟨reg, hraise⟩ := raiseException_page hload htlb build addr
  refine ⟨reg, ?_⟩
  have hagain : (m.setRegs reg).translate addr size true =
      .ok (.exception .pageFaultException, m.setRegs reg) := by
    have hblind := blind_translate addr size true m reg
    dsimp only at hblind
    rw [hblind, translate_of_miss halign hmiss]
    rfl
  rw [lastTranslate, translate_of_miss halign hmiss, ok_bind]
  dsimp only
  rw [hraise, ok_bind, if_pos rfl, hagain]

theorem lastTranslate_tlb (halign : misaligned addr size = false)
    (hsize : size = 1 ∨ size = 2 ∨ size = 4) (hload : m.Loadable) (htlb : m.tlb = some p)
    (hmiss : Miss m addr p t) (hvictim : Victim build t i e) (writing : Bool) :
    ∃ reg, ∀ result e', Retried m addr e result e' →
      m.lastTranslate build addr size writing = .ok (result, m.refilled p t i e' reg) := by
  obtain ⟨reg, hraise⟩ := raiseException_tlb hload htlb build addr
  refine ⟨reg, fun result e' h => ?_⟩
  have hlen : TLBSize ≤ t.length := by
    cases hmiss with
    | page htlb' =>
        rw [htlb] at htlb'
        cases htlb'
    | tlb _ _ _ hlen => exact hlen
  rw [tlbSwap_of_victim htlb hmiss.cell hlen hvictim] at hraise
  rw [lastTranslate, translate_of_miss halign hmiss, ok_bind]
  dsimp only
  rw [hraise]
  exact translate_refilled halign hsize htlb hmiss hvictim reg h

/-- Everything that can come of the translations of a call. -/
theorem lastTranslate_eq_ok (hsize : size = 1 ∨ size = 2 ∨ size = 4)
    (h : m.lastTranslate build addr size writing = .ok (result, m')) :
    (∃ a, result = .physAddr a ∧ Translated m addr size writing (.physAddr a) m') ∨
      ∃ p t, misaligned addr size = false ∧ m.Loadable ∧ Miss m addr p t ∧
        ((m.tlb = none ∧ result = .exception .pageFaultException ∧ ∃ reg, m' = m.setRegs reg) ∨
          m.tlb = some p ∧ ∃ i e e' reg, Victim build t i e ∧ Retried m addr e result e' ∧
            m' = m.refilled p t i e' reg) := by
  have hall := h
  rw [lastTranslate] at h
  obtain ⟨⟨result₁, m₁⟩, hfirst, h⟩ := bind_eq_ok.mp h
  have hfirst := translate_eq_ok.mp hfirst
  cases result₁ with
  | physAddr a =>
      cases h
      exact .inl ⟨a, rfl, hfirst⟩
  | exception x =>
      dsimp only at h
      obtain ⟨⟨c, m₂⟩, hraise, -⟩ := bind_eq_ok.mp h
      have hx : x ≠ .syscallException := by
        rintro rfl
        cases hfirst with
        | entry _ _ huse => cases huse
      obtain rfl := raiseException_eq_ok hx hraise
      obtain ⟨rfl, halign, p, t, hmiss⟩ := hfirst.miss_inv
      have hload := loadable_of_raiseException hraise
      refine .inr ⟨p, t, halign, hload, hmiss, ?_⟩
      cases hmiss with
      | page htlb hp hcell hlt he hv =>
          obtain ⟨reg, heq⟩ := lastTranslate_page halign hload htlb (.page htlb hp hcell hlt he hv)
            build writing
          cases heq.symm.trans hall
          exact .inl ⟨htlb, rfl, reg, rfl⟩
      | tlb htlb hp hcell hlen hmissed =>
          have hmiss : Miss m₁ addr p t := .tlb htlb hp hcell hlen hmissed
          obtain ⟨reg, heq⟩ := raiseException_tlb hload htlb build addr
          rw [heq] at hraise
          cases hswap : m₁.tlbSwap build (m₁.faultAddr addr) with
          | error f =>
              rw [hswap] at hraise
              cases hraise
          | ok m₃ =>
              obtain ⟨i, e, hvictim, -⟩ := tlbSwap_eq_ok htlb hcell (.inr hp) hswap
              obtain ⟨reg', hlast⟩ :=
                lastTranslate_tlb halign hsize hload htlb hmiss hvictim writing
              obtain ⟨result', e', hretried⟩ := exists_retried m₁ addr e
              cases (hlast result' e' hretried).symm.trans hall
              exact .inr ⟨htlb, i, e, e', reg', hvictim, hretried, rfl⟩

theorem lastTranslate_mainMemory (hsize : size = 1 ∨ size = 2 ∨ size = 4)
    (h : m.lastTranslate build addr size writing = .ok (result, m')) :
    m'.mainMemory = m.mainMemory := by
  rcases lastTranslate_eq_ok hsize h with ⟨a, rfl, htranslated⟩ | ⟨p, t, -, -, -, hcase⟩
  · exact htranslated.mainMemory
  · rcases hcase with ⟨-, -, reg, rfl⟩ | ⟨-, i, e, e', reg, -, -, rfl⟩ <;> rfl

/-! ## Calls that go on without an address -/

/-- A page fault that the handler does not get rid of: with a page table, or if the entry that is
refilled is not the one looked for or has no frame. -/
def Unresolved (build : Build) (m : Machine) (addr : Word) (size : ℤ) : Prop :=
  misaligned addr size = false ∧ m.Loadable ∧ ∃ p t, Miss m addr p t ∧
    (m.tlb.isSome → ∃ i e, Victim build t i e ∧ ¬ m.Finds addr e)

theorem lastTranslate_exception_iff (hsize : size = 1 ∨ size = 2 ∨ size = 4) (writing : Bool) :
    (∃ x m', m.lastTranslate build addr size writing = .ok (.exception x, m')) ↔
      Unresolved build m addr size := by
  constructor
  · rintro ⟨x, m', h⟩
    rcases lastTranslate_eq_ok hsize h with ⟨a, ha, -⟩ | ⟨p, t, halign, hload, hmiss, hcase⟩
    · cases ha
    · refine ⟨halign, hload, p, t, hmiss, fun hsome => ?_⟩
      rcases hcase with ⟨htlb, -⟩ | ⟨htlb, i, e, e', reg, hvictim, hretried, -⟩
      · simp [htlb] at hsome
      · refine ⟨i, e, hvictim, fun hfinds => ?_⟩
        cases hretried with
        | badFrame _ hf => exact absurd hfinds.2 (not_lt.mpr hf)
        | lost hpage => exact hpage hfinds.1
  · rintro ⟨halign, hload, p, t, hmiss, hvictim⟩
    cases htlb : m.tlb with
    | none =>
        obtain ⟨reg, h⟩ := lastTranslate_page halign hload htlb hmiss build writing
        exact ⟨_, _, h⟩
    | some q =>
        obtain ⟨i, e, hvictim, hlost⟩ := hvictim (by simp [htlb])
        obtain rfl : q = p := by
          cases hmiss with
          | page htlb' =>
              rw [htlb] at htlb'
              cases htlb'
          | tlb htlb' => exact Option.some.inj (htlb.symm.trans htlb')
        obtain ⟨reg, h⟩ := lastTranslate_tlb halign hsize hload htlb hmiss hvictim writing
        obtain ⟨result, e', hretried⟩ := exists_retried m addr e
        cases hretried with
        | found hfinds => exact absurd hfinds hlost
        | badFrame hpage hf => exact ⟨_, _, h _ _ (.badFrame hpage hf)⟩
        | lost hpage => exact ⟨_, _, h _ _ (.lost hpage)⟩

/-- `ReadMem` and `WriteMem` do not look at what the last `Translate` returned. -/
theorem resolve_eq (build : Build) (m : Machine) (addr : Word) (size : ℤ) (writing : Bool)
    (uninit : ℤ) :
    m.resolve build addr size writing uninit = do
      let (result, m) ← m.lastTranslate build addr size writing
      match result with
      | .physAddr a => return (some (a : ℤ), m)
      | .exception _ => return (some uninit, m) := by
  rw [resolve, resolveTo, lastTranslate]
  cases hfirst : m.translate addr size writing with
  | error f => rfl
  | ok r =>
      obtain ⟨result, m₁⟩ := r
      rw [ok_bind, ok_bind]
      cases result with
      | physAddr a => rfl
      | exception x =>
          dsimp only
          rw [raiseTo_kernel]
          cases hraise : m₁.raiseException build x addr with
          | error f => rfl
          | ok r =>
              obtain ⟨c, m₂⟩ := r
              have hx : x ≠ .syscallException := by
                rintro rfl
                cases translate_eq_ok.mp hfirst with
                | entry _ _ huse => cases huse
              obtain rfl := raiseException_eq_ok hx hraise
              rw [ok_bind, ok_bind, if_pos rfl]
              -- both sides go on from the second translation
              change m₂.translate addr size true >>= _ = m₂.translate addr size true >>= _
              cases m₂.translate addr size true with
              | error f => rfl
              | ok r =>
                  obtain ⟨result, m₃⟩ := r
                  cases result <;> rfl

end Nachos.Machine
