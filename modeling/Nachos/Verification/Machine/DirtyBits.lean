import Nachos.Verification.Machine.Accesses

/-! # Reads and dirty bits

The second translation of a read is one for writing. It never finds a page that is read-only, but
it marks the page that it finds as dirty. -/

namespace Nachos.Machine

open Library

variable {build : Build} {m m' : Machine} {addr : Word} {size uninit : ℤ} {writing : Bool} {p i : ℕ}
  {t : List TranslationEntry} {e : TranslationEntry}

/-! ## Read-only pages -/

def unprotect (e : TranslationEntry) : TranslationEntry := { e with readOnly := false }

/-- The machine with no page read-only. -/
def unprotected (m : Machine) : Machine := { m with heap := m.heap.map (List.map unprotect) }

theorem table_unprotected (m : Machine) (p : ℕ) :
    m.unprotected.table p = (m.table p).map (List.map unprotect) := by
  rw [table, table, unprotected, Heap.map]
  dsimp only
  cases m.heap.cell p <;> rfl

theorem setTable_unprotected (m : Machine) (p : ℕ) (t : List TranslationEntry) :
    m.unprotected.setTable p (t.map unprotect) = (m.setTable p t).unprotected := by
  simp only [setTable, unprotected, Machine.mk.injEq, true_and]
  exact (Heap.map_modify m.heap (f := List.map unprotect) (g := fun _ => t) fun _ => rfl).symm

theorem entryAt_map (t : List TranslationEntry) (i : ℤ) :
    entryAt (t.map unprotect) i = (entryAt t i).map unprotect := by
  unfold entryAt
  split
  · rename_i h
    rw [List.length_map] at h
    rw [dif_pos h]
    simp [Except.map]
  · rename_i h
    rw [List.length_map] at h
    rw [dif_neg h]
    rfl

theorem scan_map (q : TranslationEntry → Bool) (hq : ∀ e, q (unprotect e) = q e) (n k : ℕ)
    (t : List TranslationEntry) : scan q n (t.map unprotect) k = scan q n t k := by
  induction t generalizing n k with
  | nil => rfl
  | cons e t ih =>
      cases n with
      | zero => rfl
      | succ n => rw [List.map_cons, scan, scan, hq, ih]

theorem leastUsed_map (n k : ℕ) (t : List TranslationEntry) (min : ℤ) (swapI : Option ℕ) :
    leastUsed n (t.map unprotect) k min swapI = leastUsed n t k min swapI := by
  induction t generalizing n k min swapI with
  | nil => rfl
  | cons e t ih =>
      cases n with
      | zero => rfl
      | succ n =>
          rw [List.map_cons, leastUsed, leastUsed, ih, ih]
          rfl

theorem useEntry_unprotect (h : (e.readOnly && writing) = false) (offset : ℕ) (size : ℤ) :
    useEntry (unprotect e) offset size writing =
      (useEntry e offset size writing).map fun r => (r.1, unprotect r.2) := by
  have hro : ¬ ((unprotect e).readOnly && writing) = true := by simp [unprotect]
  have hro' : ¬ (e.readOnly && writing) = true := by simp [h]
  rw [useEntry, useEntry, if_neg hro, if_neg hro']
  change (if e.physicalPage.toNat ≥ NumPhysPages then _ else _) = _
  split
  · rfl
  · change (do assert ((e.physicalPage.toNat * PageSize + offset : ℕ) + size ≤ MemorySize); _) =
      Except.map _ (do assert ((e.physicalPage.toNat * PageSize + offset : ℕ) + size ≤ MemorySize); _)
    cases assert ((e.physicalPage.toNat * PageSize + offset : ℕ) + size ≤ MemorySize) <;> rfl

/-- `Translate` does not depend on what is read-only unless it writes to such a page. -/
theorem translate_unprotected
    (h : ∀ p t i e, Slot m addr p t i e → (e.readOnly && writing) = false) :
    m.unprotected.translate addr size writing =
      (m.translate addr size writing).map fun r => (r.1, r.2.unprotected) := by
  rw [translate, translate]
  split
  · rfl
  · rw [show m.unprotected.tlb = m.tlb from rfl, show m.unprotected.pageTable = m.pageTable from rfl]
    cases htlb : m.tlb with
    | none =>
        cases hp : m.pageTable with
        | none => rfl
        | some p =>
            dsimp only
            rw [translateLinear, translateLinear,
              show m.unprotected.pageTableSize = m.pageTableSize from rfl]
            split
            · rfl
            · rename_i hlt
              rw [table_unprotected]
              cases htable : m.table p with
              | error f => rfl
              | ok t =>
                  change (do
                    let e ← entryAt (t.map unprotect) (pageOf addr); _) = Except.map _ (do
                    let e ← entryAt t (pageOf addr); _)
                  rw [entryAt_map]
                  cases hentry : entryAt t (pageOf addr) with
                  | error f => rfl
                  | ok e =>
                      change (if e.valid then _ else _) = Except.map _ (if e.valid then _ else _)
                      split
                      · rename_i hv
                        have hro := h p t _ e (.page htlb hp (table_eq_ok htable) (not_le.mp hlt) rfl
                          (entryAt_natCast_eq_ok hentry) hv)
                        rw [useEntry_unprotect hro]
                        cases useEntry e (offsetOf addr) size writing with
                        | error f => rfl
                        | ok r =>
                            change Except.ok (r.1, _) = Except.ok (r.1, _)
                            rw [← setTable_unprotected, List.map_set]
                      · rfl
    | some p =>
        cases hp : m.pageTable with
        | some q => rfl
        | none =>
            dsimp only
            rw [translateTlb, translateTlb, table_unprotected]
            cases htable : m.table p with
            | error f => rfl
            | ok t =>
                change (do
                  let r ← scan _ TLBSize (t.map unprotect) 0; _) = Except.map _ (do
                  let r ← scan _ TLBSize t 0; _)
                rw [scan_map _ fun _ => rfl]
                cases hscan : scan (fun e => e.valid && e.virtualPage.toNat == pageOf addr) TLBSize t 0
                  with
                | error f => rfl
                | ok r =>
                    cases r with
                    | none => rfl
                    | some i =>
                        change (do
                          let e ← entryAt (t.map unprotect) i; _) = Except.map _ (do
                          let e ← entryAt t i; _)
                        rw [entryAt_map]
                        cases hentry : entryAt t i with
                        | error f => rfl
                        | ok e =>
                            have hro : (e.readOnly && writing) = false := by
                              obtain ⟨j, hj, rfl, ⟨e₀, he₀, hmatch⟩, hbefore⟩ := scan_some_inv hscan
                              have he := entryAt_natCast_eq_ok hentry
                              rw [Nat.zero_add] at he
                              obtain rfl := Option.some.inj (he.symm.trans he₀)
                              simp only [Bool.and_eq_true, beq_iff_eq] at hmatch
                              refine h p t j e (.tlb htlb hp (table_eq_ok htable) hj he hmatch.1
                                hmatch.2 fun j' hj' e' he' hv hpage => ?_)
                              simpa [hv, hpage] using hbefore j' hj' e' he'
                            change (do
                              let r ← useEntry (unprotect { e with hitRate := e.hitRate + 1 })
                                (offsetOf addr) size writing; _) = Except.map _ (do
                              let r ← useEntry { e with hitRate := e.hitRate + 1 }
                                (offsetOf addr) size writing; _)
                            rw [useEntry_unprotect (e := { e with hitRate := e.hitRate + 1 }) hro]
                            cases useEntry { e with hitRate := e.hitRate + 1 } (offsetOf addr) size
                              writing with
                            | error f => rfl
                            | ok r =>
                                change Except.ok (r.1, _) = Except.ok (r.1, _)
                                rw [← setTable_unprotected, List.map_set]

theorem replace_unprotected (build : Build) (m : Machine) (t : List TranslationEntry) (vpn : ℤ) :
    replace build m.unprotected (t.map unprotect) vpn =
      (replace build m t vpn).map fun r => (r.1.map unprotect, r.2) := by
  rw [replace, replace, show m.unprotected.pageTable = m.pageTable from rfl]
  split
  · rw [leastUsed_map]
    cases leastUsed TLBSize t 0 (2 ^ 31 - 1) none with
    | error f => rfl
    | ok r => cases r <;> rfl
  · cases m.pageTable with
    | none => rfl
    | some q =>
        dsimp only
        rw [table_unprotected]
        cases m.table q with
        | error f => rfl
        | ok t' =>
            change (do
              let e ← entryAt (t'.map unprotect) vpn; _) = Except.map _ (do
              let e ← entryAt t' vpn; _)
            rw [entryAt_map]
            cases entryAt t' vpn with
            | error f => rfl
            | ok e =>
                change (do
                  let last ← entryAt (t.map unprotect) (TLBSize - 1); _) = Except.map _ (do
                  let last ← entryAt t (TLBSize - 1); _)
                rw [entryAt_map]
                cases entryAt t (TLBSize - 1) with
                | error f => rfl
                | ok last =>
                    change Except.ok _ = Except.ok _
                    simp [unprotect, List.map_take, List.map_drop]

theorem tlbSwap_unprotected (build : Build) (m : Machine) (vaddr : Word) :
    m.unprotected.tlbSwap build vaddr = (m.tlbSwap build vaddr).map unprotected := by
  rw [tlbSwap, tlbSwap, show m.unprotected.tlb = m.tlb from rfl]
  cases m.tlb with
  | none => rfl
  | some p =>
      dsimp only
      rw [table_unprotected]
      cases m.table p with
      | error f => rfl
      | ok t =>
          change (do
            let r ← scan _ TLBSize (t.map unprotect) 0; _) = Except.map _ (do
            let r ← scan _ TLBSize t 0; _)
          rw [scan_map _ fun _ => rfl]
          cases scan (fun e => !e.valid) TLBSize t 0 with
          | error f => rfl
          | ok r =>
              -- both ways to find an entry end in the same update
              have hset : ∀ (t : List TranslationEntry) (i : ℕ), (do
                  let e ← entryAt (t.map unprotect) i
                  return m.unprotected.setTable p ((t.map unprotect).set i (swapped e vaddr))) =
                  Except.map unprotected (do
                    let e ← entryAt t i
                    return m.setTable p (t.set i (swapped e vaddr))) := by
                intro t i
                rw [entryAt_map]
                cases entryAt t i with
                | error f => rfl
                | ok e =>
                    change Except.ok _ = Except.ok _
                    rw [← setTable_unprotected, List.map_set]
                    rfl
              cases r with
              | some i => exact hset t i
              | none =>
                  change (do
                    let r ← replace build m.unprotected (t.map unprotect) _; _) = Except.map _ (do
                    let r ← replace build m t _; _)
                  rw [replace_unprotected]
                  cases replace build m t (vaddr.toInt.tdiv PageSize) with
                  | error f => rfl
                  | ok r => exact hset r.1 r.2

theorem raiseException_unprotected (build : Build) (m : Machine) {which : ExceptionType}
    (hwhich : which ≠ .syscallException) (addr : Word) :
    m.unprotected.raiseException build which addr =
      (m.raiseException build which addr).map fun r => (r.1, r.2.unprotected) := by
  rw [raiseException, raiseException, raiseTo, raiseTo]
  have hload : (m.unprotected.setRegister BadVAddrReg addr).delayedLoad 0 0 =
      ((m.setRegister BadVAddrReg addr).delayedLoad 0 0).map unprotected := by
    rw [delayedLoad, delayedLoad]
    by_cases hrange : 0 ≤ ((m.setRegister BadVAddrReg addr).registers LoadReg).toInt ∧
        ((m.setRegister BadVAddrReg addr).registers LoadReg).toInt < NumTotalRegs
    · refine (dif_pos hrange).trans ?_
      rw [dif_pos hrange]
      rfl
    · refine (dif_neg hrange).trans ?_
      rw [dif_neg hrange]
      rfl
  rw [hload]
  cases (m.setRegister BadVAddrReg addr).delayedLoad 0 0 with
  | error f => rfl
  | ok m₁ =>
      change m₁.unprotected.exceptionHandler build which =
        Except.map _ (m₁.exceptionHandler build which)
      rw [exceptionHandler, exceptionHandler]
      simp only [hwhich, false_and, if_false, show m₁.unprotected.tlb = m₁.tlb from rfl,
        show m₁.unprotected.registers = m₁.registers from rfl]
      split
      · split
        · rw [tlbSwap_unprotected]
          cases m₁.tlbSwap build (m₁.registers BadVAddrReg) <;> rfl
        · rfl
      · rfl

/-- After a page fault has been handled no valid entry for the address is read-only. -/
theorem slot_after_fault {c : Control} (hmiss : ∃ p t, Miss m addr p t)
    (hraise : m.raiseException build .pageFaultException addr = .ok (c, m'))
    (hslot : Slot m' addr p t i e) : e.readOnly = false := by
  have hload := loadable_of_raiseException hraise
  obtain ⟨q, t₀, hmiss⟩ := hmiss
  cases htlb : m.tlb with
  | none =>
      obtain ⟨reg, heq⟩ := raiseException_page hload htlb build addr
      cases heq.symm.trans hraise
      exact absurd hslot.valid (by
        cases hmiss with
        | tlb htlb' =>
            rw [htlb] at htlb'
            cases htlb'
        | page _ hp hcell _ he hv =>
            cases hslot with
            | tlb htlb' =>
                cases htlb.symm.trans htlb'
            | page _ hp' hcell' _ hi he' =>
                cases hp.symm.trans hp'
                cases hcell.symm.trans hcell'
                subst hi
                cases he.symm.trans he'
                simp [hv])
  | some q' =>
      cases hmiss with
      | page htlb' =>
          rw [htlb] at htlb'
          cases htlb'
      | tlb htlb' hp hcell hlen hall =>
          cases htlb.symm.trans htlb'
          obtain ⟨reg, heq⟩ := raiseException_tlb hload htlb build addr
          rw [heq] at hraise
          cases hswap : m.tlbSwap build (m.faultAddr addr) with
          | error f =>
              rw [hswap] at hraise
              cases hraise
          | ok m₁ =>
              obtain ⟨j, e₀, hvictim, rfl⟩ := tlbSwap_eq_ok htlb hcell (.inr hp) hswap
              rw [hswap] at hraise
              cases hraise
              cases hslot with
              | page htlb'' => cases htlb.symm.trans htlb''
              | tlb htlb'' _ hcell' hi he hv hpage =>
                  cases htlb.symm.trans htlb''
                  have hset := cell_refilled hcell j (swapped e₀ (m.faultAddr addr)) reg
                  obtain rfl := Option.some.inj (hset.symm.trans hcell')
                  by_cases hij : i = j
                  · subst hij
                    rw [List.getElem?_set_self (by omega)] at he
                    obtain rfl := Option.some.inj he
                    rfl
                  · rw [List.getElem?_set_ne (Ne.symm hij)] at he
                    exact absurd hpage (hall i hi e he hv)

theorem lastTranslate_unprotected (build : Build) (m : Machine) (addr : Word) (size : ℤ) :
    m.unprotected.lastTranslate build addr size false =
      (m.lastTranslate build addr size false).map fun r => (r.1, r.2.unprotected) := by
  rw [lastTranslate, lastTranslate, translate_unprotected (by simp)]
  cases hfirst : m.translate addr size false with
  | error f => rfl
  | ok r =>
      obtain ⟨result, m₁⟩ := r
      cases result with
      | physAddr a => rfl
      | exception x =>
          have hx : x ≠ .syscallException := by
            rintro rfl
            cases translate_eq_ok.mp hfirst with
            | entry _ _ huse => cases huse
          change m₁.unprotected.raiseException build x addr >>= _ =
            Except.map _ (m₁.raiseException build x addr >>= _)
          rw [raiseException_unprotected build m₁ hx]
          cases hraise : m₁.raiseException build x addr with
          | error f => rfl
          | ok r =>
              obtain ⟨c, m₂⟩ := r
              obtain rfl := raiseException_eq_ok hx hraise
              obtain ⟨rfl, -, hmiss⟩ := (translate_eq_ok.mp hfirst).miss_inv
              exact translate_unprotected fun p t i e hslot => by
                rw [slot_after_fault hmiss hraise hslot]
                rfl

theorem fetch_unprotected (m : Machine) (a size : ℤ) : m.unprotected.fetch a size = m.fetch a size := by
  have hbytes : ∀ (n : ℕ) (a : ℤ), m.unprotected.loadBytes a n = m.loadBytes a n := by
    intro n
    induction n with
    | zero => exact fun _ => rfl
    | succ n ih =>
        intro a
        rw [loadBytes, loadBytes, ih]
        rfl
  rw [fetch, fetch, hbytes]
  rfl

/-- What `ReadMem` returns and does is the same whatever is read-only. -/
theorem readMem_unprotected (hsize : size = 1 ∨ size = 2 ∨ size = 4) (build : Build) (m : Machine)
    (addr : Word) (uninit : ℤ) :
    m.unprotected.readMem build addr size uninit =
      (m.readMem build addr size uninit).map fun r => (r.1, r.2.unprotected) := by
  rw [readMem_eq hsize, readMem_eq hsize, resolve_eq, resolve_eq, lastTranslate_unprotected]
  cases m.lastTranslate build addr size false with
  | error f => rfl
  | ok r =>
      obtain ⟨result, m₁⟩ := r
      have hread : ∀ a : ℤ, (do return (some (← m₁.unprotected.fetch a size), m₁.unprotected)) =
          Except.map (fun r : Option Word × Machine => (r.1, r.2.unprotected))
            (do return (some (← m₁.fetch a size), m₁) : Exec (Option Word × Machine)) := by
        intro a
        rw [fetch_unprotected]
        cases m₁.fetch a size <;> rfl
      cases result with
      | physAddr a => exact hread a
      | exception x => exact hread uninit

/-! ## Dirty pages -/

/-- The table that is in use. -/
def active (m : Machine) : Option ℕ := m.tlb.or m.pageTable

/-- How many entries of the table are in use. -/
def limit (m : Machine) : ℕ := if m.tlb.isSome then TLBSize else m.pageTableSize

def dirtyPages (m : Machine) : Set Word :=
  { v | ∃ p t, m.active = some p ∧ m.heap.cell p = some t ∧ ∃ j < m.limit, ∃ e, t[j]? = some e ∧
    e.valid = true ∧ e.dirty = true ∧ e.virtualPage = v }

/-- No dirty bit of any table is set that was not set before. -/
def NoneDirtied (m m' : Machine) : Prop :=
  ∀ (q j : ℕ) (t t' : List TranslationEntry) (e e' : TranslationEntry), m.heap.cell q = some t →
    m'.heap.cell q = some t' → t[j]? = some e → t'[j]? = some e' → e'.dirty = true → e.dirty = true

theorem Slot.active_eq (h : Slot m addr p t i e) : m.active = some p := by
  cases h with
  | page htlb hp => rw [active, htlb, hp]; rfl
  | tlb htlb hp => rw [active, htlb]; rfl

theorem mem_dirtyPages (hactive : m.active = some p) (hcell : m.heap.cell p = some t) {v : Word} :
    v ∈ m.dirtyPages ↔ ∃ j < m.limit, ∃ e, t[j]? = some e ∧ e.valid = true ∧ e.dirty = true ∧
      e.virtualPage = v := by
  constructor
  · rintro ⟨q, t', hactive', hcell', h⟩
    cases hactive.symm.trans hactive'
    cases hcell.symm.trans hcell'
    exact h
  · exact fun h => ⟨p, t, hactive, hcell, h⟩

/-- An entry keeps its page and its dirty bit. -/
theorem dirtyPages_set (hactive : m.active = some p) (hcell : m.heap.cell p = some t)
    (he : t[i]? = some e) {e' : TranslationEntry} (hv : e'.valid = e.valid)
    (hd : e'.dirty = e.dirty) (hpage : e'.virtualPage = e.virtualPage) :
    (m.setTable p (t.set i e')).dirtyPages = m.dirtyPages := by
  have hset : (m.setTable p (t.set i e')).heap.cell p = some (t.set i e') :=
    Heap.cell_modify_self _ hcell _
  obtain ⟨hi, -⟩ := List.getElem?_eq_some_iff.mp he
  ext v
  rw [mem_dirtyPages hactive hcell,
    mem_dirtyPages (m := m.setTable p (t.set i e')) hactive hset]
  constructor
  · rintro ⟨j, hj, e₁, he₁, hv₁, hd₁, hpage₁⟩
    by_cases hji : j = i
    · subst hji
      rw [List.getElem?_set_self hi] at he₁
      cases he₁
      exact ⟨j, hj, e, he, hv ▸ hv₁, hd ▸ hd₁, hpage ▸ hpage₁⟩
    · rw [List.getElem?_set_ne (Ne.symm hji)] at he₁
      exact ⟨j, hj, e₁, he₁, hv₁, hd₁, hpage₁⟩
  · rintro ⟨j, hj, e₁, he₁, hv₁, hd₁, hpage₁⟩
    by_cases hji : j = i
    · subst hji
      cases he.symm.trans he₁
      exact ⟨j, hj, e', List.getElem?_set_self hi, hv ▸ hv₁, hd ▸ hd₁, hpage ▸ hpage₁⟩
    · exact ⟨j, hj, e₁, by rwa [List.getElem?_set_ne (Ne.symm hji)], hv₁, hd₁, hpage₁⟩

theorem noneDirtied_set (hcell : m.heap.cell p = some t) (he : t[i]? = some e)
    {e' : TranslationEntry} (hd : e'.dirty = true → e.dirty = true) (reg : Fin NumTotalRegs → Word) :
    NoneDirtied m (m.refilled p t i e' reg) := by
  intro q j t₁ t₂ e₁ e₂ hcell₁ hcell₂ he₁ he₂ hdirty
  obtain ⟨hi, -⟩ := List.getElem?_eq_some_iff.mp he
  by_cases hq : q = p
  · subst hq
    cases hcell.symm.trans hcell₁
    cases (cell_refilled hcell i e' reg).symm.trans hcell₂
    by_cases hji : j = i
    · subst hji
      rw [List.getElem?_set_self hi] at he₂
      cases he₂
      cases he.symm.trans he₁
      exact hd hdirty
    · rw [List.getElem?_set_ne (Ne.symm hji)] at he₂
      cases he₁.symm.trans he₂
      exact hdirty
  · have hsame : (m.refilled p t i e' reg).heap.cell q = m.heap.cell q :=
      Heap.cell_modify_of_ne _ hq _
    rw [hsame] at hcell₂
    cases hcell₁.symm.trans hcell₂
    cases he₁.symm.trans he₂
    exact hdirty

/-- The entry at `i` is dirty, and no other entry for its page is. -/
def LastDirty (t : List TranslationEntry) (i : ℕ) (e : TranslationEntry) : Prop :=
  e.valid = true ∧ e.dirty = true ∧ ∀ j < TLBSize, j ≠ i → ∀ e', t[j]? = some e' →
    e'.valid = true → e'.dirty = true → e'.virtualPage ≠ e.virtualPage

/-- A read that refills the TLB and finds its page there, or that evicts a dirty page. -/
def Dirties (build : Build) (m : Machine) (addr : Word) (size : ℤ) : Prop :=
  misaligned addr size = false ∧ m.Loadable ∧ ∃ p t i e, m.tlb = some p ∧ Miss m addr p t ∧
    Victim build t i e ∧ (m.Finds addr e ∨ LastDirty t i e)

/-- A read does not depend on what is read-only, and leaves dirty bits and pages alone. -/
structure ReadClean (build : Build) (m : Machine) (addr : Word) (size : ℤ) : Prop where
  blind : ∀ uninit, m.unprotected.readMem build addr size uninit =
    (m.readMem build addr size uninit).map fun r => (r.1, r.2.unprotected)
  clean : ∀ uninit v m', m.readMem build addr size uninit = .ok (v, m') →
    NoneDirtied m m' ∧ m'.dirtyPages = m.dirtyPages

/-- A read leaves the machine as its last translation does. -/
theorem lastTranslate_of_readMem {v : Option Word}
    (h : m.readMem build addr size uninit = .ok (v, m')) :
    ∃ result, m.lastTranslate build addr size false = .ok (result, m') := by
  obtain ⟨a, hresolve⟩ := readMem_eq_ok h
  rw [resolve_eq] at hresolve
  obtain ⟨⟨result, m₁⟩, hlast, hresolve⟩ := bind_eq_ok.mp hresolve
  cases result with
  | physAddr b =>
      cases hresolve
      exact ⟨_, hlast⟩
  | exception x =>
      cases hresolve
      exact ⟨_, hlast⟩

section

variable (htlb : m.tlb = some p) (hmiss : Miss m addr p t) (hvictim : Victim build t i e)
  {e' : TranslationEntry} {reg : Fin NumTotalRegs → Word}

include htlb hmiss hvictim

/-- The dirty pages after a refill: those of the other entries, and that of the new one. -/
theorem mem_dirtyPages_refilled {v : Word} : v ∈ (m.refilled p t i e' reg).dirtyPages ↔
    (∃ j < TLBSize, j ≠ i ∧ ∃ e₁, t[j]? = some e₁ ∧ e₁.valid = true ∧ e₁.dirty = true ∧
      e₁.virtualPage = v) ∨ e'.valid = true ∧ e'.dirty = true ∧ e'.virtualPage = v := by
  have hactive : (m.refilled p t i e' reg).active = some p := by
    change m.tlb.or m.pageTable = some p
    rw [htlb]
    rfl
  have hlimit : (m.refilled p t i e' reg).limit = TLBSize := by
    change (if m.tlb.isSome then _ else _) = _
    rw [htlb]
    rfl
  have hi : i < t.length := (List.getElem?_eq_some_iff.mp hvictim.get).1
  rw [mem_dirtyPages hactive (cell_refilled hmiss.cell i e' reg), hlimit]
  constructor
  · rintro ⟨j, hj, e₁, he₁, h⟩
    by_cases hji : j = i
    · subst hji
      rw [List.getElem?_set_self hi] at he₁
      cases he₁
      exact .inr h
    · rw [List.getElem?_set_ne (Ne.symm hji)] at he₁
      exact .inl ⟨j, hj, hji, e₁, he₁, h⟩
  · rintro (⟨j, hj, hji, e₁, he₁, h⟩ | h)
    · exact ⟨j, hj, e₁, by rwa [List.getElem?_set_ne (Ne.symm hji)], h⟩
    · exact ⟨i, hvictim.lt, e', List.getElem?_set_self hi, h⟩

theorem mem_dirtyPages_tlb {v : Word} : v ∈ m.dirtyPages ↔
    (∃ j < TLBSize, j ≠ i ∧ ∃ e₁, t[j]? = some e₁ ∧ e₁.valid = true ∧ e₁.dirty = true ∧
      e₁.virtualPage = v) ∨ e.valid = true ∧ e.dirty = true ∧ e.virtualPage = v := by
  have hactive : m.active = some p := by
    rw [active, htlb]
    rfl
  have hlimit : m.limit = TLBSize := by
    rw [limit, htlb]
    rfl
  rw [mem_dirtyPages hactive hmiss.cell, hlimit]
  constructor
  · rintro ⟨j, hj, e₁, he₁, h⟩
    by_cases hji : j = i
    · subst hji
      cases hvictim.get.symm.trans he₁
      exact .inr h
    · exact .inl ⟨j, hj, hji, e₁, he₁, h⟩
  · rintro (⟨j, hj, -, e₁, he₁, h⟩ | h)
    · exact ⟨j, hj, e₁, he₁, h⟩
    · exact ⟨i, hvictim.lt, e, hvictim.get, h⟩

/-- An entry that is not dirty takes the place of one whose page is not the last dirty one. -/
theorem dirtyPages_refilled_eq (hd : e'.dirty = false) (hlast : ¬ LastDirty t i e) :
    (m.refilled p t i e' reg).dirtyPages = m.dirtyPages := by
  ext v
  rw [mem_dirtyPages_refilled htlb hmiss hvictim, mem_dirtyPages_tlb htlb hmiss hvictim]
  constructor
  · rintro (h | ⟨-, hd', -⟩)
    · exact .inl h
    · rw [hd] at hd'
      cases hd'
  · rintro (h | ⟨hv, hd', hpage⟩)
    · exact .inl h
    · by_contra hnone
      refine hlast ⟨hv, hd', fun j hj hji e₁ he₁ hv₁ hd₁ hpage₁ => hnone (.inl ?_)⟩
      exact ⟨j, hj, hji, e₁, he₁, hv₁, hd₁, hpage₁.trans hpage⟩

end

theorem readClean_of_not_dirties (hsize : size = 1 ∨ size = 2 ∨ size = 4)
    (h : ¬ Dirties build m addr size) : ReadClean build m addr size := by
  refine ⟨readMem_unprotected hsize build m addr, fun uninit v m' hread => ?_⟩
  obtain ⟨result, hlast⟩ := lastTranslate_of_readMem hread
  rcases lastTranslate_eq_ok hsize hlast with ⟨a, -, htranslated⟩ | ⟨p, t, halign, hload, hmiss, hcase⟩
  · cases htranslated with
    | @entry p i t e e' _ _ hslot huse =>
        cases huse with
        | frame =>
            have hkeep : (m.counted e).valid = e.valid ∧ (m.counted e).dirty = e.dirty ∧
                (m.counted e).virtualPage = e.virtualPage := by
              unfold counted
              split <;> exact ⟨rfl, rfl, rfl⟩
            refine ⟨?_, dirtyPages_set hslot.active_eq hslot.cell hslot.get hkeep.1 ?_ hkeep.2.2⟩
            · exact noneDirtied_set hslot.cell hslot.get (by simp [hkeep.2.1]) m.registers
            · simp [hkeep.2.1]
  · rcases hcase with ⟨-, -, reg, rfl⟩ | ⟨htlb, i, e, e', reg, hvictim, hretried, rfl⟩
    · refine ⟨fun q j t t' e e' hcell hcell' he he' hd => ?_, rfl⟩
      cases hcell.symm.trans hcell'
      cases he.symm.trans he'
      exact hd
    · have hnot : ¬ (m.Finds addr e ∨ LastDirty t i e) := fun hor =>
        h ⟨halign, hload, p, t, i, e, htlb, hmiss, hvictim, hor⟩
      have hd : e'.dirty = false := by
        cases hretried with
        | found hfinds => exact absurd (.inl hfinds) hnot
        | badFrame | lost => rfl
      exact ⟨noneDirtied_set hmiss.cell hvictim.get (by simp [hd]) reg,
        dirtyPages_refilled_eq htlb hmiss hvictim hd fun hlast => hnot (.inr hlast)⟩

theorem not_readClean_of_dirties (hsize : size = 1 ∨ size = 2 ∨ size = 4)
    (h : Dirties build m addr size) : ¬ ReadClean build m addr size := by
  obtain ⟨halign, hload, p, t, i, e, htlb, hmiss, hvictim, hor⟩ := h
  intro hclean
  obtain ⟨reg, hlast⟩ := lastTranslate_tlb halign hsize hload htlb hmiss hvictim false
  obtain ⟨result, e', hretried⟩ := exists_retried m addr e
  have hlast := hlast result e' hretried
  -- with `0` in the variable for the address the read returns
  have hread : ∃ v, m.readMem build addr size 0 = .ok (v, m.refilled p t i e' reg) := by
    obtain ⟨a, ha, hfetch⟩ : ∃ a : ℤ, m.resolve build addr size false 0 =
        .ok (some a, m.refilled p t i e' reg) ∧
        ∃ w, (m.refilled p t i e' reg).fetch a size = .ok w := by
      rw [resolve_eq, hlast, ok_bind]
      cases result with
      | physAddr a =>
          exact ⟨a, rfl, fetch_total hsize (Int.natCast_nonneg a) (lastTranslate_le hsize hlast)⟩
      | exception x =>
          refine ⟨0, rfl, fetch_total hsize le_rfl ?_⟩
          rcases hsize with rfl | rfl | rfl <;> decide
    obtain ⟨w, hw⟩ := hfetch
    refine ⟨some w, ?_⟩
    rw [readMem_eq hsize, ha, ok_bind]
    dsimp only
    rw [hw]
    rfl
  obtain ⟨v, hread⟩ := hread
  have hsame := (hclean.clean 0 v _ hread).2
  have hin := fun v => Set.ext_iff.mp hsame v
  simp only [mem_dirtyPages_refilled htlb hmiss hvictim, mem_dirtyPages_tlb htlb hmiss hvictim] at hin
  have hother : ∀ j < TLBSize, ∀ e₁, t[j]? = some e₁ → e₁.valid = true →
      e₁.virtualPage.toNat ≠ pageOf addr := by
    cases hmiss with
    | page htlb' =>
        rw [htlb] at htlb'
        cases htlb'
    | tlb _ _ _ _ hall => exact hall
  by_cases hfinds : m.Finds addr e
  · -- the page of the address has become dirty
    cases hretried with
    | badFrame _ hf => exact absurd hfinds.2 (not_lt.mpr hf)
    | lost hpage => exact hpage hfinds.1
    | found _ =>
        have hpage := (virtualPage_swapped e (m.faultAddr addr) addr).mpr hfinds.1
        rcases (hin (swapped e (m.faultAddr addr)).virtualPage).mp (.inr ⟨rfl, rfl, rfl⟩) with
          ⟨j, hj, -, e₁, he₁, hv₁, -, hpage₁⟩ | ⟨hv, -, hpage₁⟩
        · exact hother j hj e₁ he₁ hv₁ (hpage₁ ▸ hpage)
        · exact hother i hvictim.lt e hvictim.get hv (hpage₁ ▸ hpage)
  · -- the page of the entry is not dirty any more
    obtain ⟨hv, hd, halone⟩ := hor.resolve_left hfinds
    have hd' : e'.dirty = false := by
      cases hretried with
      | found h => exact absurd h hfinds
      | badFrame | lost => rfl
    rcases (hin e.virtualPage).mpr (.inr ⟨hv, hd, rfl⟩) with
      ⟨j, hj, hji, e₁, he₁, hv₁, hd₁, hpage₁⟩ | ⟨-, hdirty, -⟩
    · exact halone j hj hji e₁ he₁ hv₁ hd₁ hpage₁
    · rw [hd'] at hdirty
      cases hdirty

/-! ## Runs of reads -/

structure Read where
  addr : Word
  size : ℤ
  uninit : ℤ
  size_eq : size = 1 ∨ size = 2 ∨ size = 4

def readAll (build : Build) : Machine → List Read → Exec Machine
  | m, [] => .ok m
  | m, r :: reads => do
      let (_, m) ← m.readMem build r.addr r.size r.uninit
      readAll build m reads

/-- None of the reads dirties a page. -/
def AllClean (build : Build) : Machine → List Read → Prop
  | _, [] => True
  | m, r :: reads => ¬ Dirties build m r.addr r.size ∧
      ∀ v m', m.readMem build r.addr r.size r.uninit = .ok (v, m') → AllClean build m' reads

theorem dirtyPages_readAll {reads : List Read} (hclean : AllClean build m reads)
    (h : readAll build m reads = .ok m') : m'.dirtyPages = m.dirtyPages := by
  induction reads generalizing m with
  | nil =>
      cases h
      rfl
  | cons r reads ih =>
      rw [readAll] at h
      obtain ⟨⟨v, m₁⟩, hread, h⟩ := bind_eq_ok.mp h
      have hfirst := (readClean_of_not_dirties r.size_eq hclean.1).clean r.uninit v m₁ hread
      exact (ih (hclean.2 v m₁ hread) h).trans hfirst.2

/-- A read is clean exactly if it does not dirty a page by refilling the TLB, and a run of such
reads keeps the set of dirty pages. -/
theorem reads_clean_iff (build : Build) :
    (∀ (m : Machine) (addr : Word) (size : ℤ), size = 1 ∨ size = 2 ∨ size = 4 →
      (ReadClean build m addr size ↔ ¬ Dirties build m addr size)) ∧
    ∀ (m m' : Machine) (reads : List Read), AllClean build m reads →
      readAll build m reads = .ok m' → m'.dirtyPages = m.dirtyPages :=
  ⟨fun _ _ _ hsize => ⟨fun hclean hdirties => not_readClean_of_dirties hsize hdirties hclean,
    readClean_of_not_dirties hsize⟩, fun _ _ _ => dirtyPages_readAll⟩

theorem Slot.not_dirties (h : Slot m addr p t i e) : ¬ Dirties build m addr size := by
  rintro ⟨-, -, q, t', _, _, htlb, hmiss, -⟩
  cases hmiss with
  | page htlb' =>
      rw [htlb] at htlb'
      cases htlb'
  | tlb _ _ hcell' _ hall =>
      cases h with
      | page htlb' =>
          rw [htlb] at htlb'
          cases htlb'
      | tlb htlb' _ hcell hi he hv hpage =>
          cases htlb.symm.trans htlb'
          cases hcell.symm.trans hcell'
          exact hall i hi e he hv hpage

/-- A machine whose TLB has page 5 and, next to it, the dirty page 6. -/
def besideDirty : Machine :=
  { withTlb with
    heap := Heap.empty.alloc [⟨5, 0, true, false, false, false, 0⟩,
      ⟨6, 1, true, false, true, true, 1⟩, ⟨7, 2, true, false, false, false, 0⟩,
      ⟨8, 3, true, false, false, false, 0⟩] }

/-- Two reads of page 5. -/
theorem reads_clean_iff_besideDirty :
    6 ∈ besideDirty.dirtyPages ∧ ReadClean ⟨true, true, true⟩ besideDirty 640 4 ∧
      ∃ m', readAll ⟨true, true, true⟩ besideDirty
          [⟨640, 4, 0, .inr (.inr rfl)⟩, ⟨644, 4, 0, .inr (.inr rfl)⟩] = .ok m' ∧
        m'.dirtyPages = besideDirty.dirtyPages := by
  have hfirst : ¬ Dirties ⟨true, true, true⟩ besideDirty 640 4 :=
    (Slot.tlb rfl rfl rfl (Nat.succ_pos 3) rfl rfl rfl (by simp)).not_dirties
  have hsecond : ∀ v m', besideDirty.readMem ⟨true, true, true⟩ 640 4 0 = .ok (v, m') →
      ¬ Dirties ⟨true, true, true⟩ m' 644 4 := by
    intro v m' hread
    have hseen : (besideDirty.readMem ⟨true, true, true⟩ 640 4 0).map
        (fun r => (r.2.tlb, r.2.pageTable, r.2.heap.cell 0)) =
        .ok (some 0, none, some [⟨5, 0, true, false, true, false, 1⟩,
          ⟨6, 1, true, false, true, true, 1⟩, ⟨7, 2, true, false, false, false, 0⟩,
          ⟨8, 3, true, false, false, false, 0⟩]) := by decide +kernel
    rw [hread] at hseen
    obtain ⟨htlb, hrest⟩ := Prod.mk.inj (Except.ok.inj hseen)
    obtain ⟨hp, hcell⟩ := Prod.mk.inj hrest
    exact (Slot.tlb htlb hp hcell (Nat.succ_pos 3) rfl rfl rfl (by simp)).not_dirties
  refine ⟨⟨0, _, rfl, rfl, 1, by decide, _, rfl, rfl, rfl, rfl⟩,
    ((reads_clean_iff _).1 _ _ _ (.inr (.inr rfl))).mpr hfirst, _, rfl, ?_⟩
  exact (reads_clean_iff ⟨true, true, true⟩).2 besideDirty _
    [⟨640, 4, 0, .inr (.inr rfl)⟩, ⟨644, 4, 0, .inr (.inr rfl)⟩]
    ⟨hfirst, fun v m' hread => ⟨hsecond v m' hread, fun _ _ _ => trivial⟩⟩ rfl

/-- A read makes the fifth page dirty. -/
theorem read_dirties_page :
    ∃ v m', withTlb.readMem ⟨true, true, true⟩ 640 4 0 = .ok (v, m') ∧ 5 ∈ m'.dirtyPages ∧
      5 ∉ withTlb.dirtyPages ∧ ¬ ReadClean ⟨true, true, true⟩ withTlb 640 4 := by
  have hnone : (5 : Word) ∉ withTlb.dirtyPages := by
    rintro ⟨p, t, hactive, hcell, j, -, e, he, hv, -⟩
    cases hactive
    cases hcell
    have hmem := List.mem_of_getElem? he
    simp only [List.mem_map] at hmem
    obtain ⟨e₀, -, rfl⟩ := hmem
    cases hv
  have hseen : (withTlb.readMem ⟨true, true, true⟩ 640 4 0).map
      (fun r => (r.2.tlb, (r.2.heap.cell 0).bind fun t => t[0]?)) =
      .ok (some 0, some ⟨5, 0, true, false, true, true, 1⟩) := by decide +kernel
  cases hread : withTlb.readMem ⟨true, true, true⟩ 640 4 0 with
  | error f =>
      rw [hread] at hseen
      cases hseen
  | ok r =>
      obtain ⟨v, m'⟩ := r
      rw [hread] at hseen
      obtain ⟨htlb, hfirst⟩ := Prod.mk.inj (Except.ok.inj hseen)
      obtain ⟨t, hcell, he⟩ := Option.bind_eq_some_iff.mp hfirst
      have htlb : m'.tlb = some 0 := htlb
      have hdirty : (5 : Word) ∈ m'.dirtyPages := by
        refine ⟨0, t, ?_, hcell, 0, ?_, _, he, rfl, rfl, rfl⟩
        · rw [active, htlb]
          rfl
        · rw [limit, htlb]
          exact Nat.succ_pos 3
      refine ⟨v, m', rfl, hdirty, hnone, fun hclean => hnone ?_⟩
      rw [← (hclean.clean 0 v m' hread).2]
      exact hdirty

end Nachos.Machine
