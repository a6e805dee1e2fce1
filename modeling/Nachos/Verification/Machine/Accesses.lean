import Nachos.Verification.Machine.Retry

/-! # `ReadMem` and `WriteMem` after a page fault

An access goes to the address of the last `Translate` exactly if that has succeeded. -/

namespace Nachos.Machine

open Library

variable {build : Build} {m m' : Machine} {addr value : Word} {size uninit : ℤ} {p i : ℕ}
  {t : List TranslationEntry} {e : TranslationEntry}

/-! ## The switches over the size -/

/-- What `ReadMem` reads at a physical address. -/
def fetch (m : Machine) (a size : ℤ) : Exec Word :=
  if size = 1 then do return (← m.load a).signExtend 32
  else m.loadBytes a size.toNat

theorem readMem_eq (hsize : size = 1 ∨ size = 2 ∨ size = 4) (build : Build) (m : Machine)
    (addr : Word) (uninit : ℤ) :
    m.readMem build addr size uninit = do
      let (a, m) ← m.resolve build addr size false uninit
      match a with
      | none => return (none, m)
      | some a => return (some (← m.fetch a size), m) := by
  rw [readMem, readMemTo, resolveTo_kernel]
  cases m.resolve build addr size false uninit with
  | error f => rfl
  | ok r =>
      obtain ⟨a, m₁⟩ := r
      cases a with
      | none => rfl
      | some a =>
          rw [ok_bind, ok_bind]
          dsimp only
          rcases hsize with rfl | rfl | rfl
          · rw [if_pos rfl, fetch, if_pos rfl]
            cases m₁.load a <;> rfl
          · rfl
          · rfl

theorem writeMem_eq (hsize : size = 1 ∨ size = 2 ∨ size = 4) (build : Build) (m : Machine)
    (addr value : Word) (uninit : ℤ) :
    m.writeMem build addr size value uninit = do
      let (a, m) ← m.resolve build addr size true uninit
      match a with
      | none => return (false, m)
      | some a => return (true, ← m.storeBytes a (lowBytes value size.toNat)) := by
  rw [writeMem, writeMemTo, resolveTo_kernel]
  cases m.resolve build addr size true uninit with
  | error f => rfl
  | ok r =>
      obtain ⟨a, m₁⟩ := r
      cases a with
      | none => rfl
      | some a => rcases hsize with rfl | rfl | rfl <;> rfl

theorem fetch_total (hsize : size = 1 ∨ size = 2 ∨ size = 4) {a : ℤ} (hlo : 0 ≤ a)
    (hhi : a + size ≤ MemorySize) : ∃ w, m.fetch a size = .ok w := by
  rw [fetch]
  split
  · obtain ⟨b, hb⟩ := load_total (m := m) hlo (by omega)
    rw [hb]
    exact ⟨_, rfl⟩
  · exact loadBytes_total hlo (by omega)

theorem length_lowBytes (value : Word) (n : ℕ) : (lowBytes value n).length = n := by
  simp [lowBytes]

/-- The address of a successful translation is in memory, with all of its bytes. -/
theorem lastTranslate_le (hsize : size = 1 ∨ size = 2 ∨ size = 4) {writing : Bool} {a : ℕ}
    (h : m.lastTranslate build addr size writing = .ok (.physAddr a, m')) :
    (a : ℤ) + size ≤ MemorySize := by
  rcases lastTranslate_eq_ok hsize h with ⟨b, hb, htranslated⟩ | ⟨p, t, halign, -, -, hcase⟩
  · cases hb
    cases htranslated with
    | entry _ _ huse =>
        cases huse with
        | frame _ _ hle => exact hle
  · rcases hcase with ⟨-, hfault, -⟩ | ⟨-, i, e, e', reg, -, hretried, -⟩
    · cases hfault
    · cases hretried with
      | found hfinds =>
          have hle := offset_add_size_le halign hsize
          have hf := hfinds.2
          have hN : NumPhysPages = 32 := rfl
          have hP : PageSize = 128 := rfl
          have hM : (MemorySize : ℤ) = 4096 := rfl
          rw [hP, hM]
          omega

/-! ## Accesses and the last translation -/

/-- `ReadMem` returns `TRUE`, with what is at the address that the last `Translate` has produced,
if that has succeeded, and `FALSE` if it has not. If the simulator stops, so does the call. -/
def ReadSound (build : Build) (m : Machine) (addr : Word) (size uninit : ℤ) : Prop :=
  match m.lastTranslate build addr size false with
  | .ok (.physAddr a, m₁) => m₁.mainMemory = m.mainMemory ∧
      ∃ w, m₁.fetch a size = .ok w ∧ m.readMem build addr size uninit = .ok (some w, m₁)
  | .ok (.exception _, _) => ∃ m', m.readMem build addr size uninit = .ok (none, m') ∧
      m'.mainMemory = m.mainMemory
  | .error f => m.readMem build addr size uninit = .error f

/-- The same for `WriteMem`. -/
def WriteSound (build : Build) (m : Machine) (addr : Word) (size : ℤ) (value : Word) (uninit : ℤ) :
    Prop :=
  match m.lastTranslate build addr size true with
  | .ok (.physAddr a, m₁) => m₁.mainMemory = m.mainMemory ∧
      ∃ m', m₁.storeBytes a (lowBytes value size.toNat) = .ok m' ∧
        m.writeMem build addr size value uninit = .ok (true, m')
  | .ok (.exception _, _) => ∃ m', m.writeMem build addr size value uninit = .ok (false, m') ∧
      m'.mainMemory = m.mainMemory
  | .error f => m.writeMem build addr size value uninit = .error f

theorem readSound_iff (hsize : size = 1 ∨ size = 2 ∨ size = 4) :
    ReadSound build m addr size uninit ↔ ¬ Unresolved build m addr size := by
  rw [← lastTranslate_exception_iff hsize false, ReadSound, readMem_eq hsize, resolve_eq]
  cases hlast : m.lastTranslate build addr size false with
  | error f =>
      refine iff_of_true rfl ?_
      rintro ⟨x, m', h⟩
      cases h
  | ok r =>
      obtain ⟨result, m₁⟩ := r
      cases result with
      | physAddr a =>
          obtain ⟨w, hw⟩ := fetch_total (m := m₁) hsize (Int.natCast_nonneg a)
            (lastTranslate_le hsize hlast)
          refine iff_of_true ⟨lastTranslate_mainMemory hsize hlast, w, hw, ?_⟩ ?_
          · rw [ok_bind]
            dsimp only
            rw [pure_eq_ok, ok_bind]
            dsimp only
            rw [hw]
            rfl
          · rintro ⟨x, m', h⟩
            cases h
      | exception x =>
          refine iff_of_false ?_ (not_not.mpr ⟨x, m₁, rfl⟩)
          -- the call returns `TRUE`, or reads outside of the memory
          rintro ⟨m', h, -⟩
          rw [ok_bind] at h
          dsimp only at h
          rw [pure_eq_ok, ok_bind] at h
          obtain ⟨w, -, h⟩ := bind_eq_ok.mp h
          cases h

theorem writeSound_iff (hsize : size = 1 ∨ size = 2 ∨ size = 4) :
    WriteSound build m addr size value uninit ↔ ¬ Unresolved build m addr size := by
  rw [← lastTranslate_exception_iff hsize true, WriteSound, writeMem_eq hsize, resolve_eq]
  cases hlast : m.lastTranslate build addr size true with
  | error f =>
      refine iff_of_true rfl ?_
      rintro ⟨x, m', h⟩
      cases h
  | ok r =>
      obtain ⟨result, m₁⟩ := r
      cases result with
      | physAddr a =>
          have hle := lastTranslate_le hsize hlast
          obtain ⟨m', hm'⟩ := storeBytes_total m₁ (lowBytes value size.toNat)
            (Int.natCast_nonneg a) (by rw [length_lowBytes]; omega)
          refine iff_of_true ⟨lastTranslate_mainMemory hsize hlast, m', hm', ?_⟩ ?_
          · rw [ok_bind]
            dsimp only
            rw [pure_eq_ok, ok_bind]
            dsimp only
            rw [hm']
            rfl
          · rintro ⟨x, m', h⟩
            cases h
      | exception x =>
          refine iff_of_false ?_ (not_not.mpr ⟨x, m₁, rfl⟩)
          rintro ⟨m', h, -⟩
          rw [ok_bind] at h
          dsimp only at h
          rw [pure_eq_ok, ok_bind] at h
          obtain ⟨w, -, h⟩ := bind_eq_ok.mp h
          cases h

/-- An access goes to the address of its last `Translate` exactly if no page fault is left
unresolved. -/
theorem accesses_sound_iff (build : Build) (m : Machine) (addr : Word) (size : ℤ)
    (hsize : size = 1 ∨ size = 2 ∨ size = 4) (value : Word) (uninit : ℤ) :
    (ReadSound build m addr size uninit ↔ ¬ Unresolved build m addr size) ∧
      (WriteSound build m addr size value uninit ↔ ¬ Unresolved build m addr size) :=
  ⟨readSound_iff hsize, writeSound_iff hsize⟩

/-- A machine with a page table of one page that is not valid. -/
def withoutPage : Machine where
  registers _ := 0
  mainMemory _ := 0
  tlb := none
  pageTable := some 0
  pageTableSize := 1
  bitMap := ⟨fun _ => 0⟩
  heap := Heap.empty.alloc [⟨0, 0, false, false, false, false, 0⟩]

theorem accesses_sound_iff_withTlb :
    ReadSound ⟨true, true, true⟩ withTlb 640 4 0 ∧ WriteSound ⟨true, true, true⟩ withTlb 640 4 7 0 := by
  have hresolved : ¬ Unresolved ⟨true, true, true⟩ withTlb 640 4 := by
    rintro ⟨-, -, p, t, hmiss, hvictim⟩
    obtain ⟨i, e, hvictim, hfinds⟩ := hvictim rfl
    have hcell := hmiss.cell
    cases hmiss with
    | page htlb => cases htlb
    | tlb htlb =>
        cases htlb
        cases hcell
        refine hfinds ⟨by decide, ?_⟩
        have hmem := List.mem_of_getElem? hvictim.get
        simp only [List.mem_map, List.mem_ofFn] at hmem
        obtain ⟨-, ⟨j, rfl⟩, rfl⟩ := hmem
        fin_cases j <;> decide
  have hiff := accesses_sound_iff ⟨true, true, true⟩ withTlb 640 4 (.inr (.inr rfl)) 7 0
  exact ⟨hiff.1.mpr hresolved, hiff.2.mpr hresolved⟩

/-- Both accesses return `TRUE` though both of their translations have failed. -/
theorem page_fault_ignored :
    (∃ m₁, withoutPage.lastTranslate ⟨false, true, true⟩ 0 4 false =
      .ok (.exception .pageFaultException, m₁)) ∧
    (∃ m', withoutPage.readMem ⟨false, true, true⟩ 0 4 40 = .ok (some 0, m')) ∧
    (∃ m', withoutPage.writeMem ⟨false, true, true⟩ 0 4 7 40 = .ok (true, m') ∧
      m'.mainMemory 40 = 7) ∧
    ¬ ReadSound ⟨false, true, true⟩ withoutPage 0 4 40 ∧
    ¬ WriteSound ⟨false, true, true⟩ withoutPage 0 4 7 40 := by
  refine ⟨⟨_, rfl⟩, ⟨_, rfl⟩, ⟨_, rfl, rfl⟩, ?_, ?_⟩
  · rintro ⟨m', h, -⟩
    cases h
  · rintro ⟨m', h, -⟩
    cases h

end Nachos.Machine
