import Nachos.Verification.AddrSpace.Isolation
import Nachos.Verification.Machine.Registers

/-! # The TLB against the page table

`RestoreState` installs the page table itself as the TLB, and `tlbSwap` renames an entry
without giving it the frame of its new page. Translation is right as long as only the first
pages are used. -/

namespace Nachos

open Library

variable {i : ℕ} {e : TranslationEntry} {a : Access}

namespace Machine

/-- A call of `ReadMem` or, if there is a value, of `WriteMem`. `uninit` is what the variable
`physicalAddress` holds before it is set. -/
structure Access where
  addr : Word
  size : ℕ
  value : Option Word
  uninit : ℤ
  size_eq : size = 1 ∨ size = 2 ∨ size = 4

namespace Access

def writing (a : Access) : Bool := a.value.isSome

def resolve (build : Build) (m : Machine) (a : Access) : Exec (Option ℤ × Machine) :=
  m.resolve build a.addr a.size a.writing a.uninit

def run (build : Build) (m : Machine) (a : Access) : Exec Machine :=
  match a.value with
  | none => do return (← m.readMem build a.addr a.size a.uninit).2
  | some value => do return (← m.writeMem build a.addr a.size value a.uninit).2

/-- The address that is used is the one that `reference` translates to; where `reference`
raises an exception, no address is used. -/
def Agrees (build : Build) (reference m : Machine) (a : Access) : Prop :=
  match reference.translate a.addr a.size a.writing with
  | .ok (.physAddr p, _) => ∃ m', a.resolve build m = .ok (some (p : ℤ), m')
  | .ok (.exception _, _) =>
      (∃ m', a.resolve build m = .ok (none, m')) ∨ a.resolve build m = .error .assertion
  | .error _ => False

end Access

/-- Each of a sequence of accesses agrees, as long as those before it return. -/
def AllAgree (build : Build) (reference : Machine) : Machine → List Access → Prop
  | _, [] => True
  | m, a :: accesses => a.Agrees build reference m ∧
      ∀ m', a.run build m = .ok m' → AllAgree build reference m' accesses

/-- Every access is to one of the first pages, up to one that is misaligned and stops the
program. -/
def AllSmall (numPages : ℕ) : List Access → Prop
  | [] => True
  | a :: accesses => misaligned a.addr a.size = true ∨
      pageOf a.addr < min TLBSize numPages ∧ AllSmall numPages accesses

/-- The machine with the table of the space as a linear page table. -/
def linear (m : Machine) (space : AddrSpace) : Machine :=
  { m with tlb := none, pageTable := some space.pageTable, pageTableSize := space.numPages }

/-! ## Single steps -/

section

variable {p : TranslationEntry → Bool} {n : ℕ} {t : List TranslationEntry}

theorem scan_eq_some {j : ℕ} (hj : t[j]? = some e) (he : p e = true) (hlt : j < n)
    (hbefore : ∀ k < j, ∀ e', t[k]? = some e' → p e' = false) :
    scan p n t i = .ok (some (i + j)) := by
  induction t generalizing i j n with
  | nil => simp at hj
  | cons e₀ t ih =>
      cases n with
      | zero => omega
      | succ n =>
          cases j with
          | zero =>
              obtain rfl : e₀ = e := by simpa using hj
              rw [scan, if_pos he, Nat.add_zero]
          | succ j =>
              have hfirst : p e₀ = false := hbefore 0 (by omega) e₀ rfl
              rw [scan, if_neg (by simp [hfirst]), ih (by simpa using hj) (by omega)
                (fun k hk e' he' => hbefore (k + 1) (by omega) e' (by simpa using he')),
                Nat.add_assoc, Nat.add_comm 1 j]

theorem scan_eq_none (hlen : n ≤ t.length) (hall : ∀ k < n, ∀ e, t[k]? = some e → p e = false) :
    scan p n t i = .ok none := by
  induction t generalizing i n with
  | nil =>
      obtain rfl : n = 0 := by simpa using hlen
      rfl
  | cons e t ih =>
      cases n with
      | zero => rfl
      | succ n =>
          rw [scan, if_neg (by simp [hall 0 (by omega) e rfl])]
          exact ih (by simpa using hlen) fun k hk e' he' =>
            hall (k + 1) (by omega) e' (by simpa using he')

theorem scan_eq_bounds (hlen : t.length < n) (hall : ∀ e ∈ t, p e = false) :
    scan p n t i = .error .bounds := by
  induction t generalizing i n with
  | nil =>
      cases n with
      | zero => simp at hlen
      | succ n => rfl
  | cons e t ih =>
      cases n with
      | zero => simp at hlen
      | succ n =>
          rw [scan, if_neg (by simp [hall e List.mem_cons_self])]
          exact ih (by simpa using hlen) fun e' he' => hall e' (List.mem_cons_of_mem e he')

end

/-- Any entry chosen for replacement is one of the first `n`. -/
theorem leastUsed_lt {n : ℕ} {t : List TranslationEntry} {min : ℤ} {swapI : Option ℕ} {j : ℕ}
    (h : leastUsed n t i min swapI = .ok (some j)) : swapI = some j ∨ i ≤ j ∧ j < i + n := by
  induction n generalizing t i min swapI with
  | zero => exact .inl (Except.ok.inj h)
  | succ n ih =>
      cases t with
      | nil => cases h
      | cons e t =>
          rw [leastUsed] at h
          split at h
          · rcases ih h with heq | hlt
            · obtain rfl := Option.some.inj heq
              omega
            · omega
          · rcases ih h with heq | hlt
            · exact .inl heq
            · omega

theorem leastUsed_total {n : ℕ} {t : List TranslationEntry} (h : n ≤ t.length) (i : ℕ) (min : ℤ)
    (swapI : Option ℕ) : ∃ r, leastUsed n t i min swapI = .ok r := by
  induction n generalizing t i min swapI with
  | zero => exact ⟨swapI, rfl⟩
  | succ n ih =>
      cases t with
      | nil => simp at h
      | cons e t =>
          rw [leastUsed]
          split
          · exact ih (by simpa using h) ..
          · exact ih (by simpa using h) ..

theorem offset_add_le (h : misaligned a.addr a.size = false) : offsetOf a.addr + a.size ≤ 128 := by
  have hlt : offsetOf a.addr < 128 := Nat.mod_lt _ (by decide)
  have hoff : offsetOf a.addr = a.addr.toNat % 128 := rfl
  rcases a.size_eq with hsize | hsize | hsize
  · omega
  · have heven : a.addr.toNat % 2 = 0 := by
      have hand : a.addr &&& 1 = 0 := by simpa [misaligned, hsize] using h
      rw [← Nat.and_one_is_mod]
      exact congrArg BitVec.toNat hand
    omega
  · have heven : a.addr.toNat % 4 = 0 := by
      have hand : a.addr &&& 3 = 0 := by simpa [misaligned, hsize] using h
      rw [show 4 = 2 ^ 2 from rfl, ← Nat.and_two_pow_sub_one_eq_mod]
      exact congrArg BitVec.toNat hand
    omega

end Machine

/-- The entry maps the page `i` to the frame `f`, for reading and writing. -/
structure TranslationEntry.Maps (e : TranslationEntry) (i : ℕ) (f : Fin NumPhysPages) : Prop where
  virtualPage : e.virtualPage.toNat = i
  physicalPage : e.physicalPage.toNat = f
  valid : e.valid = true
  readOnly : e.readOnly = false

namespace Machine

theorem table_of_cell {m : Machine} {p : ℕ} {t : List TranslationEntry}
    (h : m.heap.cell p = some t) : m.table p = .ok t := by
  rw [table, h]

variable {f : Fin NumPhysPages}

theorem useEntry_of_maps (h : e.Maps i f) (halign : misaligned a.addr a.size = false)
    (writing : Bool) :
    useEntry e (offsetOf a.addr) a.size writing =
      .ok (.physAddr (f * PageSize + offsetOf a.addr),
        { e with use := true, dirty := e.dirty || writing }) := by
  have hf : (f : ℕ) < 32 := f.isLt
  have hle := offset_add_le halign
  have hM : MemorySize = 4096 := rfl
  have hbase : (f : ℕ) * PageSize = f * 128 := rfl
  rw [useEntry, if_neg (by simp [h.readOnly]), if_neg (by rw [h.physicalPage]; omega),
    h.physicalPage]
  dsimp only
  rw [assert_of_true (by omega), ok_bind, pure_eq_ok]

/-! ## The reference -/

/-- Translation with a linear page table as the constructor has made it. -/
theorem translate_linear {m : Machine} {space : AddrSpace} {frames : List (Fin NumPhysPages)}
    (hcell : m.heap.cell space.pageTable = some (AddrSpace.pages 0 frames))
    (hpages : space.numPages = frames.length) (hlen : frames.length ≤ NumPhysPages)
    (halign : misaligned a.addr a.size = false) :
    ∃ m', (m.linear space).translate a.addr a.size a.writing =
      .ok (match frames[pageOf a.addr]? with
        | some f => .physAddr (f * PageSize + offsetOf a.addr)
        | none => .exception .addressErrorException, m') := by
  rw [translate, if_neg (by simp [halign])]
  change ∃ m', translateLinear _ _ _ _ _ = _
  rw [translateLinear]
  cases hframe : frames[pageOf a.addr]? with
  | none =>
      have hle : frames.length ≤ pageOf a.addr := List.getElem?_eq_none_iff.mp hframe
      exact ⟨_, if_pos (by rw [linear, hpages]; exact hle)⟩
  | some f =>
      obtain ⟨hlt, -⟩ := List.getElem?_eq_some_iff.mp hframe
      have hentry : (AddrSpace.pages 0 frames)[pageOf a.addr]? =
          some (AddrSpace.pageEntry (pageOf a.addr) f) := by
        rw [AddrSpace.getElem?_pages, hframe, Nat.zero_add]
        rfl
      have hN : NumPhysPages = 32 := rfl
      have hmaps : (AddrSpace.pageEntry (pageOf a.addr) f).Maps (pageOf a.addr) f :=
        ⟨by rw [AddrSpace.pageEntry, BitVec.toNat_ofNat]; omega,
          AddrSpace.toNat_physicalPage _ _, rfl, rfl⟩
      have htable : (m.linear space).table space.pageTable = .ok (AddrSpace.pages 0 frames) :=
        table_of_cell hcell
      have hsize : ¬ pageOf a.addr ≥ (m.linear space).pageTableSize := by
        rw [show (m.linear space).pageTableSize = space.numPages from rfl, hpages]
        omega
      rw [if_neg hsize, htable, ok_bind, entryAt_natCast hentry, ok_bind, if_pos hmaps.valid,
        useEntry_of_maps hmaps halign, ok_bind]
      exact ⟨_, rfl⟩

theorem translate_of_misaligned {m : Machine} (halign : misaligned a.addr a.size = true)
    (writing : Bool) :
    m.translate a.addr a.size writing = .ok (.exception .addressErrorException, m) := by
  rw [translate, if_pos halign]

/-! ## The TLB -/

/-- The table with the given frames is the TLB, and its first entries have not changed. -/
structure Installed (m : Machine) (space : AddrSpace) (frames : List (Fin NumPhysPages)) :
    Prop where
  tlb : m.tlb = some space.pageTable
  pageTable : m.pageTable = none
  load : (m.registers LoadReg).toNat < NumGPRegs
  table : ∃ t, m.heap.cell space.pageTable = some t ∧ t.length = frames.length ∧
    ∀ i < TLBSize, ∀ f, frames[i]? = some f → ∃ e, t[i]? = some e ∧ e.Maps i f

namespace Installed

variable {m m' : Machine} {space : AddrSpace} {frames : List (Fin NumPhysPages)}

theorem congr (h : m.Installed space frames) (htlb : m'.tlb = m.tlb)
    (hpage : m'.pageTable = m.pageTable) (hregs : m'.registers = m.registers)
    (hheap : m'.heap = m.heap) : m'.Installed space frames :=
  ⟨htlb.trans h.tlb, hpage.trans h.pageTable, by rw [hregs]; exact h.load,
    by rw [hheap]; exact h.table⟩

/-- An access to one of the first pages is a hit. -/
theorem translate_small (h : m.Installed space frames) (halign : misaligned a.addr a.size = false)
    (hlt : pageOf a.addr < TLBSize) (hf : frames[pageOf a.addr]? = some f) (writing : Bool) :
    ∃ m', m.translate a.addr a.size writing =
        .ok (.physAddr (f * PageSize + offsetOf a.addr), m') ∧ m'.Installed space frames := by
  obtain ⟨t, hcell, hlen, hmaps⟩ := h.table
  obtain ⟨e, he, hmap⟩ := hmaps _ hlt f hf
  have hscan : scan (fun e => e.valid && e.virtualPage.toNat == pageOf a.addr) TLBSize t 0 =
      .ok (some (0 + pageOf a.addr)) := by
    refine scan_eq_some he (by simp [hmap.valid, hmap.virtualPage]) hlt fun k hk e' he' => ?_
    obtain ⟨hk', -⟩ := List.getElem?_eq_some_iff.mp he'
    obtain ⟨e'', he'', hmap'⟩ := hmaps k (by omega) _ (List.getElem?_eq_getElem (by omega))
    obtain rfl := Option.some.inj (he'.symm.trans he'')
    have hne : k ≠ pageOf a.addr := by omega
    simp [hmap'.virtualPage, hne]
  have hmap' : ({ e with hitRate := e.hitRate + 1 } : TranslationEntry).Maps (pageOf a.addr) f :=
    ⟨hmap.virtualPage, hmap.physicalPage, hmap.valid, hmap.readOnly⟩
  have huse := useEntry_of_maps hmap' halign writing
  refine ⟨m.setTable space.pageTable (t.set (pageOf a.addr) { e with
      hitRate := e.hitRate + 1, use := true, dirty := e.dirty || writing }), ?_, ?_⟩
  · rw [translate, if_neg (by simp [halign]), h.tlb, h.pageTable]
    dsimp only
    rw [translateTlb, table_of_cell hcell, ok_bind, hscan, ok_bind]
    dsimp only
    rw [Nat.zero_add, entryAt_natCast he, ok_bind, huse, ok_bind, pure_eq_ok]
  · refine ⟨h.tlb, h.pageTable, h.load, _, Heap.cell_modify_self _ hcell _, ?_, fun i hi g hg => ?_⟩
    · rw [List.length_set, hlen]
    · obtain ⟨e', he', hmap''⟩ := hmaps i hi g hg
      by_cases hi' : i = pageOf a.addr
      · subst hi'
        obtain rfl := Option.some.inj (hf.symm.trans hg)
        obtain ⟨hk, -⟩ := List.getElem?_eq_some_iff.mp he
        exact ⟨_, List.getElem?_set_self hk, hmap'.virtualPage, hmap'.physicalPage, hmap'.valid,
          hmap'.readOnly⟩
      · exact ⟨e', by rw [List.getElem?_set_ne (Ne.symm hi')]; exact he', hmap''⟩

theorem resolve_small (h : m.Installed space frames) (halign : misaligned a.addr a.size = false)
    (hlt : pageOf a.addr < TLBSize) (hf : frames[pageOf a.addr]? = some f) (build : Build) :
    ∃ m', a.resolve build m = .ok (some ((f * PageSize + offsetOf a.addr : ℕ) : ℤ), m') ∧
      m'.Installed space frames := by
  obtain ⟨m', htranslate, h'⟩ := h.translate_small halign hlt hf a.writing
  refine ⟨m', ?_, h'⟩
  rw [Access.resolve, Machine.resolve, resolveTo, htranslate, ok_bind]
  rfl

end Installed

variable {build : Build}

theorem readMem_eq_ok {m m' : Machine} {addr : Word} {size uninit : ℤ} {value : Option Word}
    (h : m.readMem build addr size uninit = .ok (value, m')) :
    ∃ p, m.resolve build addr size false uninit = .ok (p, m') := by
  rw [readMem, readMemTo] at h
  obtain ⟨⟨p, m₁⟩, hresolve, h⟩ := bind_eq_ok.mp h
  have hsame : m₁ = m' := by
    cases p with
    | none => exact (Prod.mk.inj (Except.ok.inj h)).2
    | some p =>
        dsimp only at h
        split at h
        · obtain ⟨b, -, h⟩ := bind_eq_ok.mp h
          exact (Prod.mk.inj (Except.ok.inj h)).2
        · split at h
          · obtain ⟨b, -, h⟩ := bind_eq_ok.mp h
            exact (Prod.mk.inj (Except.ok.inj h)).2
          · split at h
            · obtain ⟨b, -, h⟩ := bind_eq_ok.mp h
              exact (Prod.mk.inj (Except.ok.inj h)).2
            · cases h
  exact ⟨p, hsame ▸ hresolve⟩

theorem writeMem_eq_ok {m m' : Machine} {addr value : Word} {size uninit : ℤ} {success : Bool}
    (h : m.writeMem build addr size value uninit = .ok (success, m')) :
    ∃ p m₁, m.resolve build addr size true uninit = .ok (p, m₁) ∧ m₁.SameButMemory m' := by
  rw [writeMem, writeMemTo] at h
  obtain ⟨⟨p, m₁⟩, hresolve, h⟩ := bind_eq_ok.mp h
  refine ⟨p, m₁, hresolve, ?_⟩
  have hstored : ∀ {n : ℕ} {q : ℤ}, (do return (true, ← m₁.storeBytes q (lowBytes value n))) =
      (.ok (success, m') : Exec (Bool × Machine)) → m₁.SameButMemory m' := by
    intro n q h
    obtain ⟨m₂, hstore, h⟩ := bind_eq_ok.mp h
    obtain rfl := (Prod.mk.inj (Except.ok.inj h)).2
    rw [storeBytes_eq_ok hstore]
    exact .of_memory _ _
  cases p with
  | none =>
      obtain rfl := (Prod.mk.inj (Except.ok.inj h)).2
      exact .of_memory _ _
  | some p =>
      dsimp only at h
      split at h
      · exact hstored h
      · split at h
        · exact hstored h
        · split at h
          · exact hstored h
          · cases h

theorem load_total {m : Machine} {p : ℤ} (hlo : 0 ≤ p) (hhi : p < MemorySize) :
    ∃ b, m.load p = .ok b := by
  rw [load, dif_pos ⟨hlo, hhi⟩]
  exact ⟨_, rfl⟩

theorem loadBytes_total {m : Machine} {p : ℤ} {n : ℕ} (hlo : 0 ≤ p) (hhi : p + n ≤ MemorySize) :
    ∃ w, m.loadBytes p n = .ok w := by
  induction n generalizing p with
  | zero => exact ⟨0, rfl⟩
  | succ n ih =>
      obtain ⟨low, hlow⟩ := load_total (m := m) hlo (by omega)
      obtain ⟨high, hhigh⟩ := ih (p := p + 1) (by omega) (by omega)
      rw [loadBytes, hlow, ok_bind, hhigh, ok_bind]
      exact ⟨_, rfl⟩

/-- An access whose address is inside of the memory returns. -/
theorem run_total {m m₁ : Machine} {p : ℤ} (h : a.resolve build m = .ok (some p, m₁)) (hlo : 0 ≤ p)
    (hhi : p + a.size ≤ MemorySize) : ∃ m', a.run build m = .ok m' := by
  rw [Access.resolve, Access.writing] at h
  rw [Access.run]
  cases hvalue : a.value with
  | none =>
      rw [hvalue] at h
      dsimp only
      rw [readMem, readMemTo, resolveTo_kernel,
        show m.resolve build a.addr a.size false a.uninit = _ from h, ok_bind]
      dsimp only
      rcases a.size_eq with hsize | hsize | hsize <;> rw [hsize] at hhi ⊢
      · obtain ⟨b, hload⟩ := load_total (m := m₁) hlo (by omega)
        rw [if_pos (by decide), hload, ok_bind]
        exact ⟨_, rfl⟩
      · obtain ⟨w, hload⟩ := loadBytes_total (m := m₁) hlo hhi
        rw [if_neg (by decide), if_pos (by decide), hload, ok_bind]
        exact ⟨_, rfl⟩
      · obtain ⟨w, hload⟩ := loadBytes_total (m := m₁) hlo hhi
        rw [if_neg (by decide), if_neg (by decide), if_pos (by decide), hload, ok_bind]
        exact ⟨_, rfl⟩
  | some value =>
      rw [hvalue] at h
      dsimp only
      rw [writeMem, writeMemTo, resolveTo_kernel,
        show m.resolve build a.addr a.size true a.uninit = _ from h, ok_bind]
      dsimp only
      have hstore : ∃ m', m₁.storeBytes p (lowBytes value a.size) = .ok m' :=
        storeBytes_total m₁ _ hlo (by rw [lowBytes, List.length_map, List.length_range]; exact hhi)
      obtain ⟨m', hstore⟩ := hstore
      refine ⟨m', ?_⟩
      rcases a.size_eq with hsize | hsize | hsize <;> rw [hsize] at hstore ⊢
      · rw [if_pos (by decide), hstore]
        rfl
      · rw [if_neg (by decide), if_pos (by decide), hstore]
        rfl
      · rw [if_neg (by decide), if_neg (by decide), if_pos (by decide), hstore]
        rfl

namespace Installed

variable {m m' : Machine} {space : AddrSpace} {frames : List (Fin NumPhysPages)}

theorem run_small (h : m.Installed space frames) (halign : misaligned a.addr a.size = false)
    (hlt : pageOf a.addr < TLBSize) (hf : frames[pageOf a.addr]? = some f)
    (hrun : a.run build m = .ok m') : m'.Installed space frames := by
  obtain ⟨m₁, hresolve, h₁⟩ := h.resolve_small halign hlt hf build
  rw [Access.resolve, Access.writing] at hresolve
  rw [Access.run] at hrun
  cases hvalue : a.value with
  | none =>
      rw [hvalue] at hrun hresolve
      obtain ⟨⟨value, m₂⟩, hread, hret⟩ := bind_eq_ok.mp hrun
      obtain rfl := Except.ok.inj hret
      obtain ⟨p, hresolve'⟩ := readMem_eq_ok hread
      obtain rfl := (Prod.mk.inj (Except.ok.inj (hresolve.symm.trans hresolve'))).2
      exact h₁
  | some value =>
      rw [hvalue] at hrun hresolve
      obtain ⟨⟨success, m₂⟩, hwrite, hret⟩ := bind_eq_ok.mp hrun
      obtain rfl := Except.ok.inj hret
      obtain ⟨p, m₃, hresolve', hsame⟩ := writeMem_eq_ok hwrite
      obtain rfl := (Prod.mk.inj (Except.ok.inj (hresolve.symm.trans hresolve'))).2
      exact h₁.congr hsame.tlb hsame.pageTable hsame.registers hsame.heap

/-- Raising an exception changes nothing but registers before the handler is called. -/
theorem raiseException_eq (h : m.Installed space frames) (build : Build) (which : ExceptionType)
    (addr : Word) :
    ∃ regs, regs BadVAddrReg = addr ∧ ({ m with registers := regs } : Machine).Installed space frames ∧
      m.raiseException build which addr =
        ({ m with registers := regs } : Machine).exceptionHandler build which := by
  have hload := h.load
  have hT : NumTotalRegs = 40 := rfl
  have hG : NumGPRegs = 32 := rfl
  have hlt : (m.registers LoadReg).toNat < NumTotalRegs := by omega
  have hne : BadVAddrReg ≠ ⟨(m.registers LoadReg).toNat, hlt⟩ := by
    intro he
    have hval : 39 = (m.registers LoadReg).toNat := congrArg Fin.val he
    omega
  have hsame : (m.setRegister BadVAddrReg addr).registers LoadReg = m.registers LoadReg := by
    unfold setRegister
    exact Function.update_of_ne (show LoadReg ≠ BadVAddrReg by decide) addr m.registers
  rw [raiseException, raiseTo, delayedLoad_eq (r := ⟨_, hlt⟩) (by rw [hsame]), ok_bind]
  refine ⟨_, ?_, ?_, rfl⟩
  · simp only [setRegister]
    rw [Function.update_of_ne (by decide), Function.update_of_ne (by decide),
      Function.update_of_ne (by decide), Function.update_of_ne hne, Function.update_self]
  · refine ⟨h.tlb, h.pageTable, ?_, h.table⟩
    simp only [setRegister]
    rw [Function.update_of_ne (by decide), Function.update_of_ne (by decide), Function.update_self]
    decide

theorem resolve_misaligned (h : m.Installed space frames) (halign : misaligned a.addr a.size = true)
    (build : Build) : a.resolve build m = .error .assertion := by
  obtain ⟨regs, -, -, hraise⟩ := h.raiseException_eq build .addressErrorException a.addr
  rw [Access.resolve, Machine.resolve, resolveTo, translate_of_misaligned halign, ok_bind]
  dsimp only
  rw [raiseTo_kernel, hraise, exceptionHandler]
  rfl

/-- With less pages than the TLB has entries, a miss reads behind the table. -/
theorem resolve_short (h : m.Installed space frames) (halign : misaligned a.addr a.size = false)
    (hlen : frames.length < TLBSize) (hge : frames.length ≤ pageOf a.addr) (build : Build) :
    a.resolve build m = .error .bounds := by
  obtain ⟨t, hcell, htlen, hmaps⟩ := h.table
  have hscan : scan (fun e => e.valid && e.virtualPage.toNat == pageOf a.addr) TLBSize t 0 =
      .error .bounds := by
    refine scan_eq_bounds (by omega) fun e he => ?_
    obtain ⟨i, hi, rfl⟩ := List.getElem_of_mem he
    obtain ⟨e, he', hmap⟩ := hmaps i (by omega) _ (List.getElem?_eq_getElem (by omega))
    obtain rfl := Option.some.inj ((List.getElem?_eq_getElem hi).symm.trans he')
    have hne : i ≠ pageOf a.addr := by omega
    simp [hmap.virtualPage, hne]
  rw [Access.resolve, Machine.resolve, resolveTo, translate, if_neg (by simp [halign]), h.tlb, h.pageTable]
  dsimp only
  rw [translateTlb, table_of_cell hcell, ok_bind, hscan]
  rfl

/-- What `tlbSwap` makes of an entry. -/
def renamed (e : TranslationEntry) (virtualPage : Word) : TranslationEntry :=
  { e with
    valid := true
    virtualPage := virtualPage
    use := false
    dirty := false
    readOnly := false
    hitRate := 0 }

/-- As all entries are valid, one of them is replaced, if there is one that has been hit less
than `INT_MAX` times. -/
theorem tlbSwap_full (h : m.Installed space frames) (hlen : TLBSize ≤ frames.length)
    (hlru : build.tlbLru = true) (vaddr : Word) :
    m.tlbSwap build vaddr = .error .bounds ∨
      ∃ t, ∃ j < TLBSize, ∃ e, m.heap.cell space.pageTable = some t ∧ t[j]? = some e ∧
        m.tlbSwap build vaddr = .ok (m.setTable space.pageTable
          (t.set j (renamed e (Word.ofInt (vaddr.toInt.tdiv PageSize))))) := by
  obtain ⟨t, hcell, htlen, hmaps⟩ := h.table
  have hscan : scan (fun e => !e.valid) TLBSize t 0 = .ok none := by
    refine scan_eq_none (by omega) fun k hk e he => ?_
    obtain ⟨e', he', hmap⟩ := hmaps k hk _ (List.getElem?_eq_getElem (by omega))
    obtain rfl := Option.some.inj (he.symm.trans he')
    simp [hmap.valid]
  obtain ⟨r, hr⟩ := leastUsed_total (n := TLBSize) (t := t) (by omega) 0 (2 ^ 31 - 1) none
  rw [tlbSwap, h.tlb]
  dsimp only
  rw [table_of_cell hcell, ok_bind, hscan, ok_bind]
  dsimp only
  rw [replace, if_pos hlru, hr, ok_bind]
  cases r with
  | none => exact .inl rfl
  | some j =>
      have hj : j < TLBSize := by
        rcases leastUsed_lt hr with heq | hlt
        · cases heq
        · omega
      obtain ⟨e, he, -⟩ := hmaps j hj _ (List.getElem?_eq_getElem (by omega))
      refine .inr ⟨t, j, hj, e, hcell, he, ?_⟩
      dsimp only
      rw [pure_eq_ok, ok_bind]
      dsimp only
      rw [entryAt_natCast he, ok_bind]
      rfl

/-- The translation after an entry has been renamed. -/
theorem translate_renamed (h : m.Installed space frames) {t : List TranslationEntry} {j : ℕ}
    {w : Word} (halign : misaligned a.addr a.size = false) (hlen : TLBSize ≤ frames.length)
    (hge : TLBSize ≤ pageOf a.addr) (hcell : m.heap.cell space.pageTable = some t)
    (hj : j < TLBSize) (he : t[j]? = some e) (writing : Bool) :
    ∃ result m', (m.setTable space.pageTable (t.set j (renamed e w))).translate a.addr a.size
        writing = .ok (result, m') ∧
      (w.toNat = pageOf a.addr → ∃ f, frames[j]? = some f ∧
        result = .physAddr (f * PageSize + offsetOf a.addr)) ∧
      (w.toNat ≠ pageOf a.addr → result = .exception .pageFaultException) := by
  obtain ⟨t', hcell', htlen, hmaps⟩ := h.table
  obtain rfl := Option.some.inj (hcell.symm.trans hcell')
  have hset : (m.setTable space.pageTable (t.set j (renamed e w))).heap.cell space.pageTable =
      some (t.set j (renamed e w)) := Heap.cell_modify_self _ hcell _
  have hself : (t.set j (renamed e w))[j]? = some (renamed e w) :=
    List.getElem?_set_self (by omega)
  -- the other entries are for the first pages
  have hothers : ∀ k < TLBSize, k ≠ j → ∀ e', (t.set j (renamed e w))[k]? = some e' →
      (e'.valid && e'.virtualPage.toNat == pageOf a.addr) = false := by
    intro k hk hne e' he'
    rw [List.getElem?_set_ne (Ne.symm hne)] at he'
    obtain ⟨e'', he'', hmap⟩ := hmaps k hk _ (List.getElem?_eq_getElem (by omega))
    obtain rfl := Option.some.inj (he'.symm.trans he'')
    have hne' : k ≠ pageOf a.addr := by omega
    simp [hmap.virtualPage, hne']
  rw [translate, if_neg (by simp [halign]), show (m.setTable space.pageTable
    (t.set j (renamed e w))).tlb = some space.pageTable from h.tlb,
    show (m.setTable space.pageTable (t.set j (renamed e w))).pageTable = none from h.pageTable]
  dsimp only
  rw [translateTlb, table_of_cell hset, ok_bind]
  by_cases hw : w.toNat = pageOf a.addr
  · obtain ⟨e', he', hmap⟩ := hmaps j hj _ (List.getElem?_eq_getElem (by omega))
    obtain rfl := Option.some.inj (he.symm.trans he')
    have hscan := scan_eq_some (n := TLBSize) (i := 0)
      (p := fun e => e.valid && e.virtualPage.toNat == pageOf a.addr) hself
      (by simp [renamed, hw]) hj fun k hk e' he' => hothers k (by omega) (by omega) e' he'
    have hmap' : ({ renamed e w with hitRate := (renamed e w).hitRate + 1 } :
        TranslationEntry).Maps (pageOf a.addr) frames[j] := ⟨hw, hmap.physicalPage, rfl, rfl⟩
    rw [hscan, ok_bind]
    dsimp only
    rw [Nat.zero_add, entryAt_natCast hself, ok_bind, useEntry_of_maps hmap' halign, ok_bind]
    exact ⟨_, _, rfl, fun _ => ⟨_, List.getElem?_eq_getElem (by omega), rfl⟩,
      fun hne => absurd hw hne⟩
  · have hscan := scan_eq_none (n := TLBSize) (i := 0) (t := t.set j (renamed e w))
      (p := fun e => e.valid && e.virtualPage.toNat == pageOf a.addr)
      (by rw [List.length_set]; omega) fun k hk e' he' => by
        by_cases hkj : k = j
        · subst hkj
          obtain rfl := Option.some.inj (hself.symm.trans he')
          simp [renamed, hw]
        · exact hothers k hk hkj e' he'
    rw [hscan, ok_bind]
    exact ⟨_, _, rfl, fun hw' => absurd hw' hw, fun _ => rfl⟩

/-- The entry that `tlbSwap` renames keeps its frame, so that the access goes to the frame of
one of the first pages or, if the renamed entry is not found, to whatever the variable for
the address holds. -/
theorem resolve_miss (h : m.Installed space frames) (halign : misaligned a.addr a.size = false)
    (hlen : TLBSize ≤ frames.length) (hge : TLBSize ≤ pageOf a.addr) (hlru : build.tlbLru = true) :
    a.resolve build m = .error .bounds ∨
      ∃ q m', a.resolve build m = .ok (some q, m') ∧
        (2 ^ 24 ≤ pageOf a.addr ∨ ∃ j < TLBSize, ∃ f, frames[j]? = some f ∧
          q = ((f * PageSize + offsetOf a.addr : ℕ) : ℤ)) := by
  obtain ⟨t, hcell, htlen, hmaps⟩ := h.table
  have hscan : scan (fun e => e.valid && e.virtualPage.toNat == pageOf a.addr) TLBSize t 0 =
      .ok none := by
    refine scan_eq_none (by omega) fun k hk e he => ?_
    obtain ⟨e', he', hmap⟩ := hmaps k hk _ (List.getElem?_eq_getElem (by omega))
    obtain rfl := Option.some.inj (he.symm.trans he')
    have hne : k ≠ pageOf a.addr := by omega
    simp [hmap.virtualPage, hne]
  have hfault : m.translate a.addr a.size a.writing = .ok (.exception .pageFaultException, m) := by
    rw [translate, if_neg (by simp [halign]), h.tlb, h.pageTable]
    dsimp only
    rw [translateTlb, table_of_cell hcell, ok_bind, hscan, ok_bind]
    rfl
  obtain ⟨regs, hbad, hinst, hraise⟩ := h.raiseException_eq build .pageFaultException a.addr
  have hhandler : ({ m with registers := regs } : Machine).exceptionHandler build
      .pageFaultException = (do
        return (.resume, ← ({ m with registers := regs } : Machine).tlbSwap build a.addr)) := by
    rw [exceptionHandler, if_neg (by simp), if_neg (by simp), if_pos rfl, if_pos (by simp [h.tlb])]
    dsimp only
    rw [hbad]
  rw [Access.resolve, Machine.resolve, resolveTo, hfault, ok_bind]
  dsimp only
  rw [raiseTo_kernel, hraise, hhandler]
  rcases hinst.tlbSwap_full hlen hlru a.addr with herror | ⟨t', j, hj, e, hcell', he, hswap⟩
  · rw [herror]
    exact .inl rfl
  · obtain ⟨result, m', htranslate, hfound, hmissed⟩ :=
      hinst.translate_renamed (w := Word.ofInt (a.addr.toInt.tdiv PageSize)) halign hlen hge hcell'
        hj he true
    rw [hswap, ok_bind, pure_eq_ok, ok_bind]
    dsimp only
    rw [if_pos rfl, htranslate, ok_bind]
    right
    by_cases hneg : a.addr.toNat < 2 ^ 31
    · -- the page numbers of the two functions are the same
      have hpage : (Word.ofInt (a.addr.toInt.tdiv PageSize)).toNat = pageOf a.addr := by
        rw [BitVec.toInt_eq_toNat_of_lt (by omega), ← Int.ofNat_tdiv, Word.ofInt,
          BitVec.ofInt_natCast, BitVec.toNat_ofNat]
        exact Nat.mod_eq_of_lt ((Nat.div_le_self _ _).trans_lt a.addr.isLt)
      obtain ⟨f, hf, rfl⟩ := hfound hpage
      exact ⟨_, m', rfl, .inr ⟨j, hj, f, hf, rfl⟩⟩
    · have hlarge : 2 ^ 24 ≤ pageOf a.addr := by
        rw [pageOf, show PageSize = 128 from rfl]
        omega
      cases result with
      | physAddr q => exact ⟨_, m', rfl, .inl hlarge⟩
      | exception e => exact ⟨_, m', rfl, .inl hlarge⟩

/-- An access to another page does not agree with the page table. -/
theorem not_agrees (h : m.Installed space frames) {m₀ : Machine}
    (hcell : m₀.heap.cell space.pageTable = some (AddrSpace.pages 0 frames))
    (hpages : space.numPages = frames.length) (hle : frames.length ≤ NumPhysPages)
    (hnodup : frames.Nodup) (hlru : build.tlbLru = true) (halign : misaligned a.addr a.size = false)
    (hge : min TLBSize frames.length ≤ pageOf a.addr) : ¬ a.Agrees build (m₀.linear space) m := by
  have hN : NumPhysPages = 32 := rfl
  obtain ⟨m₁, href⟩ := translate_linear hcell hpages hle halign
  rw [Access.Agrees, href]
  rcases Nat.lt_or_ge frames.length TLBSize with hshort | hlong
  · rw [List.getElem?_eq_none (by omega), h.resolve_short halign hshort (by omega)]
    simp
  · rcases h.resolve_miss halign hlong (by omega) hlru with herror | ⟨q, m', hresolve, hq⟩
    · rw [herror]
      cases frames[pageOf a.addr]? <;> simp
    · rw [hresolve]
      cases hframe : frames[pageOf a.addr]? with
      | none => simp
      | some f =>
          rintro ⟨m'', heq⟩
          obtain ⟨hlt, hget⟩ := List.getElem?_eq_some_iff.mp hframe
          obtain rfl := Option.some.inj (Prod.mk.inj (Except.ok.inj heq)).1
          rcases hq with hlarge | ⟨j, hj, g, hg, hsame⟩
          · omega
          · -- two pages of the table do not have the same frame
            obtain ⟨hjlt, hget'⟩ := List.getElem?_eq_some_iff.mp hg
            have hbase : (f : ℕ) * PageSize = g * PageSize := by
              rw [Int.natCast_inj] at hsame
              omega
            have hfg : f = g := Fin.ext (Nat.eq_of_mul_eq_mul_right (by decide) hbase)
            have hidx := hnodup.getElem_inj_iff.mp (hget.trans (hfg.trans hget'.symm))
            omega

theorem allAgree_iff (h : m.Installed space frames) {m₀ : Machine}
    (hcell : m₀.heap.cell space.pageTable = some (AddrSpace.pages 0 frames))
    (hpages : space.numPages = frames.length) (hle : frames.length ≤ NumPhysPages)
    (hnodup : frames.Nodup) (hlru : build.tlbLru = true) (accesses : List Access) :
    AllAgree build (m₀.linear space) m accesses ↔ AllSmall space.numPages accesses := by
  induction accesses generalizing m with
  | nil => exact Iff.rfl
  | cons a accesses ih =>
      rw [AllAgree, AllSmall]
      cases halign : misaligned a.addr a.size with
      | true =>
          have herror := h.resolve_misaligned halign build
          refine iff_of_true ⟨?_, fun m' hrun => ?_⟩ (.inl rfl)
          · rw [Access.Agrees, translate_of_misaligned halign]
            exact .inr herror
          · -- the handler has stopped the program
            exfalso
            rw [Access.resolve, Access.writing] at herror
            rw [Access.run] at hrun
            cases hvalue : a.value with
            | none =>
                rw [hvalue] at hrun herror
                obtain ⟨r, hread, -⟩ := bind_eq_ok.mp hrun
                obtain ⟨p, hresolve⟩ := readMem_eq_ok hread
                rw [show none.isSome = false from rfl, hresolve] at herror
                cases herror
            | some value =>
                rw [hvalue] at hrun herror
                obtain ⟨r, hwrite, -⟩ := bind_eq_ok.mp hrun
                obtain ⟨p, m₁, hresolve, -⟩ := writeMem_eq_ok hwrite
                rw [show (some value).isSome = true from rfl, hresolve] at herror
                cases herror
      | false =>
          rw [hpages] at ih ⊢
          rcases Nat.lt_or_ge (pageOf a.addr) (min TLBSize frames.length) with hsmall | hge
          · have hf := List.getElem?_eq_getElem (show pageOf a.addr < frames.length by omega)
            obtain ⟨m', hresolve, -⟩ := h.resolve_small halign (by omega) hf build
            obtain ⟨m'', href⟩ := translate_linear hcell hpages hle halign
            have hagrees : a.Agrees build (m₀.linear space) m := by
              rw [Access.Agrees, href, hf]
              exact ⟨m', hresolve⟩
            have hM : MemorySize = 4096 := rfl
            have hbase : (frames[pageOf a.addr] : ℕ) * PageSize = frames[pageOf a.addr] * 128 := rfl
            have hframe : (frames[pageOf a.addr] : ℕ) < 32 := frames[pageOf a.addr].isLt
            have hoffset := offset_add_le halign
            obtain ⟨m₁, hrun⟩ := run_total hresolve (by omega) (by omega)
            have hrest := ih (h.run_small halign (by omega) hf hrun)
            constructor
            · rintro ⟨-, hall⟩
              exact .inr ⟨hsmall, hrest.mp (hall m₁ hrun)⟩
            · rintro (habs | ⟨-, hall⟩)
              · cases habs
              · refine ⟨hagrees, fun m₂ hrun' => ?_⟩
                obtain rfl := Except.ok.inj (hrun.symm.trans hrun')
                exact hrest.mpr hall
          · exact iff_of_false (fun hagree => h.not_agrees hcell hpages hle hnodup hlru halign hge
              hagree.1) (by simp; omega)

end Installed

/-- The table of a program that has just been loaded is installed with all of its frames. -/
theorem restoreState_installed (huse : build.useTlb = true) {m m' : Machine}
    {executable : List Byte} {uninit : NoffHeader} {space : AddrSpace} (hpage : m.pageTable = none)
    (hload : (m.registers LoadReg).toNat < NumGPRegs)
    (hnew : AddrSpace.new build m executable uninit = .ok (space, m')) :
    ∃ frames, m'.heap.cell space.pageTable = some (AddrSpace.pages 0 frames) ∧
      space.numPages = frames.length ∧ frames.length ≤ NumPhysPages ∧ frames.Nodup ∧
      (space.restoreState build m').Installed space frames := by
  obtain ⟨hle, hfree, rfl, -⟩ := AddrSpace.new_eq_ok hnew rfl
  have hsame := AddrSpace.new_allocated hnew rfl
  have hlen := List.length_take_of_le hfree
  have hcell : m'.heap.cell m.heap.next = some (AddrSpace.pages 0
      (m.bitMap.free.take (NoffHeader.readFrom executable uninit).numPages)) := by
    rw [hsame.heap, Heap.cell_alloc_self]
  refine ⟨_, hcell, hlen.symm, hlen.trans_le hle,
    m.bitMap.free_nodup.sublist (List.take_sublist _ _), ?_⟩
  rw [AddrSpace.restoreState, if_pos huse]
  refine ⟨rfl, hsame.pageTable.trans hpage, ?_, _, hcell, AddrSpace.length_pages .., ?_⟩
  · exact (congrArg (fun regs => (regs LoadReg).toNat) hsame.registers).trans_lt hload
  · intro i hi f hf
    refine ⟨AddrSpace.pageEntry i f, ?_, ?_, AddrSpace.toNat_physicalPage .., rfl, rfl⟩
    · rw [AddrSpace.getElem?_pages, hf, Nat.zero_add]
      rfl
    · rw [AddrSpace.pageEntry, BitVec.toNat_ofNat]
      exact Nat.mod_eq_of_lt (hi.trans (by decide))

/-- In the `USE_TLB` build with `TLB_LRU`, any sequence of accesses to a program that has just
been loaded agrees with its page table exactly if, up to the first misaligned one, all of
them are to the first `TLBSize` pages. -/
theorem tlb_agrees_iff (build : Build) (huse : build.useTlb = true) (hlru : build.tlbLru = true)
    (m m' : Machine) (executable : List Byte) (uninit : NoffHeader) (space : AddrSpace)
    (hpage : m.pageTable = none) (hload : (m.registers LoadReg).toNat < NumGPRegs)
    (hnew : AddrSpace.new build m executable uninit = .ok (space, m')) (accesses : List Access) :
    AllAgree build (m'.linear space) (space.restoreState build m') accesses ↔
      AllSmall space.numPages accesses := by
  obtain ⟨frames, hcell, hpages, hle, hnodup, hinstalled⟩ :=
    restoreState_installed huse hpage hload hnew
  exact hinstalled.allAgree_iff hcell hpages hle hnodup hlru accesses

/-! ## The sample program -/

/-- A one-byte read at the start of the page `i`. -/
def readPage (i : ℕ) : Access := ⟨BitVec.ofNat 32 (i * 128), 1, none, 0, .inl rfl⟩

theorem tlb_agrees_iff_sample :
    ∃ space m', AddrSpace.new AddrSpace.defaultBuild AddrSpace.freshMachine
        (AddrSpace.program [1]) (AddrSpace.programHeader []) = .ok (space, m') ∧
      AllAgree AddrSpace.defaultBuild (m'.linear space)
        (space.restoreState AddrSpace.defaultBuild m') [readPage 3, readPage 0] := by
  obtain ⟨space, m', -, -, hnew, -⟩ :=
    AddrSpace.freshMachine_new (AddrSpace.programHeader []) [1] [1] (by decide) (by decide)
  refine ⟨space, m', hnew, (tlb_agrees_iff _ rfl rfl _ _ _ _ _ rfl (by decide) hnew _).mpr ?_⟩
  obtain ⟨-, -, rfl, -⟩ := AddrSpace.new_eq_ok hnew (AddrSpace.program_readFrom _ _)
  have hpages : (AddrSpace.programHeader [1]).numPages = 9 := by decide
  rw [hpages]
  exact .inr ⟨by decide, .inr ⟨by decide, trivial⟩⟩

/-- The fifth page of the sample program has the frame 4, but a read of it goes to the frame
of another page. -/
theorem fifth_page_disagrees :
    ∃ space m', AddrSpace.new AddrSpace.defaultBuild AddrSpace.freshMachine
        (AddrSpace.program [1]) (AddrSpace.programHeader []) = .ok (space, m') ∧
      4 < space.numPages ∧
      ¬ AllAgree AddrSpace.defaultBuild (m'.linear space)
        (space.restoreState AddrSpace.defaultBuild m') [readPage 4] := by
  obtain ⟨space, m', -, -, hnew, -⟩ :=
    AddrSpace.freshMachine_new (AddrSpace.programHeader []) [1] [1] (by decide) (by decide)
  obtain ⟨frames, hcell, hpages, hle, hnodup, hinstalled⟩ :=
    restoreState_installed rfl rfl (by decide) hnew
  have hnum : space.numPages = 9 := by
    obtain ⟨-, -, rfl, -⟩ := AddrSpace.new_eq_ok hnew (AddrSpace.program_readFrom _ _)
    exact show (AddrSpace.programHeader [1]).numPages = 9 by decide
  refine ⟨space, m', hnew, by omega, fun hagree => ?_⟩
  refine hinstalled.not_agrees hcell hpages hle hnodup rfl (by decide) ?_ hagree.1
  rw [← hpages, hnum]
  decide

end Machine

end Nachos
