import Nachos.Model.AddrSpace
import Nachos.Verification.BitMap.Correctness

/-! # What the constructor of an address space does -/

namespace Nachos

open Library

/-- The frames of an address space. -/
def Machine.frames (m : Machine) (space : AddrSpace) : List ℕ :=
  ((m.heap.cell space.pageTable).getD []).map fun e => e.physicalPage.toNat

/-- The frame is in use. -/
def Machine.Marked (m : Machine) (frame : ℕ) : Prop :=
  ∃ h : frame < NumPhysPages, m.bitMap.testBit ⟨frame, h⟩ = true

/-! ## Physical memory -/

variable {n : ℕ} {e : TranslationEntry}

namespace Machine

variable {m m' : Machine} {p : ℤ}

/-- Only the memory has changed. -/
structure SameButMemory (m m' : Machine) : Prop where
  registers : m'.registers = m.registers
  tlb : m'.tlb = m.tlb
  pageTable : m'.pageTable = m.pageTable
  pageTableSize : m'.pageTableSize = m.pageTableSize
  bitMap : m'.bitMap = m.bitMap
  heap : m'.heap = m.heap

theorem SameButMemory.of_memory (m : Machine) (mem : Fin MemorySize → Byte) :
    SameButMemory m { m with mainMemory := mem } :=
  ⟨rfl, rfl, rfl, rfl, rfl, rfl⟩

theorem SameButMemory.trans {m₁ m₂ m₃ : Machine} (h : SameButMemory m₁ m₂)
    (h' : SameButMemory m₂ m₃) : SameButMemory m₁ m₃ :=
  ⟨h'.registers.trans h.registers, h'.tlb.trans h.tlb, h'.pageTable.trans h.pageTable,
    h'.pageTableSize.trans h.pageTableSize, h'.bitMap.trans h.bitMap, h'.heap.trans h.heap⟩

/-- The memory with the given bytes from `p` on. -/
def overlay (mem : Fin MemorySize → Byte) (p : ℤ) (bytes : List Byte) : Fin MemorySize → Byte :=
  fun a => if p ≤ (a : ℕ) then bytes.getD ((a : ℕ) - p).toNat (mem a) else mem a

theorem overlay_nil (mem : Fin MemorySize → Byte) (p : ℤ) : overlay mem p [] = mem := by
  funext a
  simp [overlay]

theorem overlay_update (mem : Fin MemorySize → Byte) (x : Fin MemorySize) (b : Byte)
    (bytes : List Byte) :
    overlay (Function.update mem x b) ((x : ℕ) + 1) bytes = overlay mem (x : ℕ) (b :: bytes) := by
  funext a
  rcases lt_trichotomy (a : ℕ) x with hlt | heq | hgt
  · have hne : a ≠ x := by rintro rfl; omega
    rw [overlay, overlay, if_neg (by omega), if_neg (by omega), Function.update_of_ne hne]
  · obtain rfl := Fin.ext heq
    rw [overlay, overlay, if_neg (by omega), if_pos le_rfl, Function.update_self]
    simp
  · have hne : a ≠ x := by rintro rfl; omega
    rw [overlay, overlay, if_pos (by omega), if_pos (by omega), Function.update_of_ne hne,
      show ((a : ℕ) - (x : ℕ) : ℤ).toNat = ((a : ℕ) - ((x : ℕ) + 1) : ℤ).toNat + 1 by omega,
      List.getD_cons_succ]

/-- Behind the bytes, too, nothing changes. -/
theorem overlay_of_le {mem : Fin MemorySize → Byte} {p : ℤ} {bytes : List Byte}
    {a : Fin MemorySize} (h : p + bytes.length ≤ (a : ℕ)) : overlay mem p bytes a = mem a := by
  rw [overlay, if_pos (by omega), List.getD_eq_default _ _ (by omega)]

theorem store_eq_ok {b : Byte} (h : m.store p b = .ok m') :
    ∃ a : Fin MemorySize, p = (a : ℕ) ∧
      m' = { m with mainMemory := Function.update m.mainMemory a b } := by
  unfold store at h
  split at h
  · rename_i hp
    exact ⟨⟨p.toNat, by omega⟩, by simp only; omega, (Except.ok.inj h).symm⟩
  · cases h

theorem store_natCast (m : Machine) (a : Fin MemorySize) (b : Byte) :
    m.store (a : ℕ) b = .ok { m with mainMemory := Function.update m.mainMemory a b } := by
  have ha := a.isLt
  rw [store, dif_pos (by omega)]
  simp

theorem storeBytes_eq_ok {bytes : List Byte} (h : m.storeBytes p bytes = .ok m') :
    m' = { m with mainMemory := overlay m.mainMemory p bytes } := by
  induction bytes generalizing m p with
  | nil =>
      cases h
      rw [overlay_nil]
  | cons b bytes ih =>
      rw [storeBytes] at h
      obtain ⟨m₁, hstore, h⟩ := bind_eq_ok.mp h
      obtain ⟨x, rfl, rfl⟩ := store_eq_ok hstore
      rw [ih h, overlay_update]

theorem storeBytes_total (m : Machine) (bytes : List Byte) (hlo : 0 ≤ p)
    (hhi : p + bytes.length ≤ MemorySize) : ∃ m', m.storeBytes p bytes = .ok m' := by
  induction bytes generalizing m p with
  | nil => exact ⟨m, rfl⟩
  | cons b bytes ih =>
      rw [List.length_cons] at hhi
      have hp : p.toNat < MemorySize := by omega
      have hstore := store_natCast m ⟨p.toNat, hp⟩ b
      rw [show ((⟨p.toNat, hp⟩ : Fin MemorySize) : ℕ) = p.toNat from rfl,
        Int.toNat_of_nonneg hlo] at hstore
      obtain ⟨m', hm'⟩ := ih { m with mainMemory := Function.update m.mainMemory ⟨p.toNat, hp⟩ b }
        (p := p + 1) (by omega) (by omega)
      exact ⟨m', by rw [storeBytes, hstore, ok_bind, hm']⟩

theorem readAt_eq_ok {executable : List Byte} {position : ℤ}
    (h : m.readAt executable p n position = .ok m') :
    0 ≤ position ∧ m' = { m with
      mainMemory := overlay m.mainMemory p ((executable.drop position.toNat).take n) } := by
  rw [readAt] at h
  by_cases hpos : position ≥ 0
  · rw [assert_of_true hpos, ok_bind] at h
    exact ⟨hpos, storeBytes_eq_ok h⟩
  · rw [assert_of_false hpos] at h
    cases h

theorem readAt_total (m : Machine) (executable : List Byte) {position : ℤ} (hpos : 0 ≤ position)
    (hlo : 0 ≤ p) (hhi : p + n ≤ MemorySize) : ∃ m', m.readAt executable p n position = .ok m' := by
  rw [readAt, assert_of_true hpos, ok_bind]
  refine storeBytes_total m _ hlo ?_
  have := List.length_take_le n (executable.drop position.toNat)
  omega

theorem entryAt_eq_ok {t : List TranslationEntry} {i : ℤ} (h : entryAt t i = .ok e) :
    ∃ k : ℕ, i = k ∧ t[k]? = some e := by
  unfold entryAt at h
  split at h
  · rename_i hi
    refine ⟨i.toNat, (Int.toNat_of_nonneg hi.1).symm, ?_⟩
    rw [← Except.ok.inj h, List.getElem?_eq_getElem (by omega)]
    rfl
  · cases h

theorem entryAt_natCast {t : List TranslationEntry} {k : ℕ} (h : t[k]? = some e) :
    entryAt t k = .ok e := by
  obtain ⟨hk, rfl⟩ := List.getElem?_eq_some_iff.mp h
  rw [entryAt, dif_pos (by omega)]
  rfl

end Machine

/-! ## Frames -/

namespace AddrSpace

/-- The entry that the constructor makes for a page. -/
def pageEntry (i : ℕ) (frame : Fin NumPhysPages) : TranslationEntry where
  virtualPage := BitVec.ofNat 32 i
  physicalPage := BitVec.ofNat 32 frame
  valid := true
  readOnly := false
  use := false
  dirty := false
  hitRate := 0

/-- The entries of the pages from `i` on. -/
def pages : ℕ → List (Fin NumPhysPages) → List TranslationEntry
  | _, [] => []
  | i, frame :: frames => pageEntry i frame :: pages (i + 1) frames

@[simp] theorem length_pages (i : ℕ) (frames : List (Fin NumPhysPages)) :
    (pages i frames).length = frames.length := by
  induction frames generalizing i with
  | nil => rfl
  | cons frame frames ih => rw [pages, List.length_cons, List.length_cons, ih]

theorem getElem?_pages (i k : ℕ) (frames : List (Fin NumPhysPages)) :
    (pages i frames)[k]? = frames[k]?.map (pageEntry (i + k)) := by
  induction frames generalizing i k with
  | nil => rfl
  | cons frame frames ih =>
      cases k with
      | zero => rfl
      | succ k => rw [pages, List.getElem?_cons_succ, List.getElem?_cons_succ, ih, Nat.succ_add,
          Nat.add_succ]

@[simp] theorem toNat_physicalPage (i : ℕ) (frame : Fin NumPhysPages) :
    (pageEntry i frame).physicalPage.toNat = frame := by
  have hlt : (frame : ℕ) < 32 := frame.isLt
  rw [pageEntry, BitVec.toNat_ofNat]
  omega

theorem map_physicalPage (i : ℕ) (frames : List (Fin NumPhysPages)) :
    (pages i frames).map (fun e => e.physicalPage.toNat) = frames.map Fin.val := by
  induction frames generalizing i with
  | nil => rfl
  | cons frame frames ih => rw [pages, List.map_cons, List.map_cons, ih, toNat_physicalPage]

theorem find_of_free {m : Machine} {frame : Fin NumPhysPages} {rest : List (Fin NumPhysPages)}
    (h : m.bitMap.free = frame :: rest) :
    m.find = .ok (((frame : ℕ) : ℤ), { m with bitMap := m.bitMap.markBit frame }) := by
  rw [Machine.find, BitMap.find_of_free_cons h]
  dsimp only
  rw [assert_of_true (by omega), ok_bind, pure_eq_ok]

/-- The pages get the first free frames. -/
theorem allocPages_eq (n i : ℕ) (m : Machine) (hn : n ≤ m.bitMap.free.length) :
    allocPages n i m = .ok (pages i (m.bitMap.free.take n),
      { m with bitMap := (m.bitMap.findSeq n).2 }) := by
  induction n generalizing i m with
  | zero => rfl
  | succ n ih =>
      cases hfree : m.bitMap.free with
      | nil =>
          rw [hfree] at hn
          exact absurd hn (by simp)
      | cons frame rest =>
          have hrest := BitMap.free_markBit hfree
          rw [hfree, List.length_cons] at hn
          have hnext := ih (i + 1) { m with bitMap := m.bitMap.markBit frame }
            (by rw [hrest]; omega)
          rw [hrest] at hnext
          rw [allocPages, find_of_free hfree, ok_bind]
          dsimp only
          rw [hnext, ok_bind, BitMap.findSeq, BitMap.find_of_free_cons hfree, List.take_succ_cons]
          rfl

theorem le_of_allocPages {i : ℕ} {m : Machine} {r : List TranslationEntry × Machine}
    (h : allocPages n i m = .ok r) : n ≤ m.bitMap.free.length := by
  induction n generalizing i m r with
  | zero => exact Nat.zero_le _
  | succ n ih =>
      cases hfree : m.bitMap.free with
      | nil =>
          rw [allocPages, Machine.find, BitMap.find_of_free_nil hfree] at h
          cases h
      | cons frame rest =>
          rw [allocPages, find_of_free hfree, ok_bind] at h
          obtain ⟨r', h, _⟩ := bind_eq_ok.mp h
          have hlen := ih h
          rw [BitMap.free_markBit hfree] at hlen
          rw [List.length_cons]
          omega

/-! ## Segments -/

section

variable {table : List TranslationEntry} {executable : List Byte} {seg : Segment} {m m' : Machine}
  {j : ℕ} {frames : List (Fin NumPhysPages)}

theorem copyBytes_same (h : copyBytes table executable seg n j m = .ok m') :
    m.SameButMemory m' := by
  induction n generalizing j m with
  | zero =>
      cases h
      exact .of_memory _ _
  | succ n ih =>
      rw [copyBytes] at h
      obtain ⟨e, -, h⟩ := bind_eq_ok.mp h
      obtain ⟨m₁, hread, h⟩ := bind_eq_ok.mp h
      obtain ⟨-, rfl⟩ := Machine.readAt_eq_ok hread
      exact (Machine.SameButMemory.of_memory m _).trans (ih h)

theorem loadSegment_same {build : Build} (h : loadSegment build table executable seg m = .ok m') :
    m.SameButMemory m' := by
  unfold loadSegment at h
  split at h
  · split at h
    · exact copyBytes_same h
    · obtain ⟨-, rfl⟩ := Machine.readAt_eq_ok h
      exact .of_memory _ _
  · cases h
    exact .of_memory _ _

/-- Where the byte `j` of a segment goes. -/
theorem physicalAddress_eq {va : ℕ}
    (he : Machine.entryAt (pages 0 frames) ((va : ℤ).tdiv PageSize) = .ok e) :
    ∃ f, frames[va / 128]? = some f ∧
      i32 (i32 (e.physicalPage.toInt * PageSize) + (va : ℤ).tmod PageSize) =
        ((f : ℕ) * 128 + va % 128 : ℕ) := by
  obtain ⟨k, hk, hget⟩ := Machine.entryAt_eq_ok he
  obtain rfl : va / 128 = k := by
    rw [show (va : ℤ).tdiv PageSize = (va / 128 : ℕ) from (Int.ofNat_tdiv va 128).symm] at hk
    omega
  rw [getElem?_pages] at hget
  obtain ⟨f, hf, rfl⟩ := Option.map_eq_some_iff.mp hget
  have hlt : (f : ℕ) < 32 := f.isLt
  have hframe : (pageEntry (0 + va / 128) f).physicalPage.toInt = (f : ℕ) := by
    rw [BitVec.toInt_eq_toNat_of_lt (by rw [toNat_physicalPage]; omega), toNat_physicalPage]
  have hoffset : (va : ℤ).tmod PageSize = (va % 128 : ℕ) := (Int.ofNat_tmod va 128).symm
  have hbase : ((f : ℕ) : ℤ) * (PageSize : ℕ) = ((f : ℕ) * 128 : ℕ) := (Nat.cast_mul _ 128).symm
  refine ⟨f, hf, ?_⟩
  rw [hframe, hoffset, hbase, i32_of_range (x := ((f : ℕ) * 128 : ℕ)) (by omega) (by omega),
    ← Nat.cast_add, i32_of_range (by omega) (by omega)]

/-- The virtual address of the byte `j`, if the segment is inside of the positive ones. -/
theorem virtualAddress_eq (h : seg.virtualAddr.toNat + j < 2 ^ 31) :
    i32 (seg.virtualAddr.toInt + j) = (seg.virtualAddr.toNat + j : ℕ) := by
  rw [BitVec.toInt_eq_toNat_of_lt (by omega), ← Nat.cast_add, i32_of_range (by omega) (by omega)]

/-- Only bytes in the frames of the table are written. -/
theorem copyBytes_frame (hva : seg.virtualAddr.toNat + (j + n) < 2 ^ 31)
    (h : copyBytes (pages 0 frames) executable seg n j m = .ok m') {a : Fin MemorySize}
    (ha : ∀ f ∈ frames, (a : ℕ) / PageSize ≠ f) : m'.mainMemory a = m.mainMemory a := by
  induction n generalizing j m with
  | zero =>
      cases h
      rfl
  | succ n ih =>
      rw [copyBytes, virtualAddress_eq (by omega)] at h
      obtain ⟨e, he, h⟩ := bind_eq_ok.mp h
      obtain ⟨f, hf, hp⟩ := physicalAddress_eq he
      dsimp only at h
      rw [hp] at h
      obtain ⟨m₁, hread, h⟩ := bind_eq_ok.mp h
      obtain ⟨-, rfl⟩ := Machine.readAt_eq_ok hread
      rw [ih (by omega) h]
      have hne : (a : ℕ) / 128 ≠ f := ha f (List.mem_of_getElem? hf)
      generalize List.drop _ executable = rest
      have hlen := List.length_take_le 1 rest
      by_cases hle : (f : ℕ) * 128 + (seg.virtualAddr.toNat + j) % 128 ≤ (a : ℕ)
      · exact Machine.overlay_of_le (by omega)
      · exact if_neg (by omega)

theorem copyBytes_total (m : Machine) (hframes : frames.length ≤ NumPhysPages)
    (hva : seg.virtualAddr.toNat + (j + n) ≤ frames.length * 128)
    (hpos : seg.inFileAddr.toNat + (j + n) < 2 ^ 31) :
    ∃ m', copyBytes (pages 0 frames) executable seg n j m = .ok m' := by
  have hN : NumPhysPages = 32 := rfl
  have hM : MemorySize = 4096 := rfl
  induction n generalizing j m with
  | zero => exact ⟨m, rfl⟩
  | succ n ih =>
      have hk : (seg.virtualAddr.toNat + j) / 128 < frames.length := by omega
      have hget : (pages 0 frames)[(seg.virtualAddr.toNat + j) / 128]? =
          some (pageEntry ((seg.virtualAddr.toNat + j) / 128)
            frames[(seg.virtualAddr.toNat + j) / 128]) := by
        rw [getElem?_pages, List.getElem?_eq_getElem hk, Nat.zero_add]
        rfl
      have he := Machine.entryAt_natCast hget
      rw [show (((seg.virtualAddr.toNat + j) / 128 : ℕ) : ℤ) =
        ((seg.virtualAddr.toNat + j : ℕ) : ℤ).tdiv PageSize from Int.ofNat_tdiv _ _] at he
      obtain ⟨f, hf, hp⟩ := physicalAddress_eq he
      have hlt : (f : ℕ) < 32 := f.isLt
      have hfile : i32 (seg.inFileAddr.toInt + j) = (seg.inFileAddr.toNat + j : ℕ) := by
        rw [BitVec.toInt_eq_toNat_of_lt (by omega), ← Nat.cast_add,
          i32_of_range (by omega) (by omega)]
      obtain ⟨m₁, hread⟩ := Machine.readAt_total m executable (n := 1)
        (p := ((f : ℕ) * 128 + (seg.virtualAddr.toNat + j) % 128 : ℕ))
        (show 0 ≤ ((seg.inFileAddr.toNat + j : ℕ) : ℤ) by omega) (by omega) (by omega)
      obtain ⟨m', hrest⟩ := ih m₁ (j := j + 1) (by omega) (by omega)
      refine ⟨m', ?_⟩
      rw [copyBytes, virtualAddress_eq (by omega), he, ok_bind]
      dsimp only
      rw [hp, hfile, hread, ok_bind, hrest]

end

/-! ## The constructor -/

/-- The machine once `n` pages have been allocated and the memory has been cleared. -/
def cleared (m : Machine) (n : ℕ) : Machine :=
  ({ m with
    bitMap := (m.bitMap.findSeq n).2
    heap := m.heap.alloc (pages 0 (m.bitMap.free.take n)) } : Machine).bzero (n * PageSize)

section

variable {build : Build} {m m' : Machine} {executable : List Byte} {uninit noffH : NoffHeader}
  {space : AddrSpace}

theorem new_eq (hH : NoffHeader.readFrom executable uninit = noffH)
    (hmagic : noffH.noffMagic = NOFFMAGIC) (hle : noffH.numPages ≤ NumPhysPages)
    (hfree : noffH.numPages ≤ m.bitMap.free.length) :
    new build m executable uninit = (do
      let table := pages 0 (m.bitMap.free.take noffH.numPages)
      let m₁ ← loadSegment build table executable noffH.code (cleared m noffH.numPages)
      let m₂ ← loadSegment build table executable noffH.initData m₁
      return (⟨m.heap.next, noffH.numPages⟩, m₂)) := by
  rw [new]
  dsimp only
  rw [hH, assert_of_true hmagic, ok_bind, assert_of_true hle, ok_bind, allocPages_eq _ _ _ hfree,
    ok_bind]
  unfold cleared
  dsimp only

section

variable (h : new build m executable uninit = .ok (space, m'))
  (hH : NoffHeader.readFrom executable uninit = noffH)

include h hH

/-- What is known when the constructor has returned. -/
theorem new_eq_ok :
    noffH.numPages ≤ NumPhysPages ∧ noffH.numPages ≤ m.bitMap.free.length ∧
      space = ⟨m.heap.next, noffH.numPages⟩ ∧
      ∃ m₁, loadSegment build (pages 0 (m.bitMap.free.take noffH.numPages)) executable noffH.code
          (cleared m noffH.numPages) = .ok m₁ ∧
        loadSegment build (pages 0 (m.bitMap.free.take noffH.numPages)) executable noffH.initData
          m₁ = .ok m' := by
  have hret := h
  rw [new] at h
  dsimp only at h
  rw [hH] at h
  obtain ⟨_, hmagic, h⟩ := bind_eq_ok.mp h
  obtain ⟨_, hle, h⟩ := bind_eq_ok.mp h
  obtain ⟨r, halloc, -⟩ := bind_eq_ok.mp h
  have hmagic' : noffH.noffMagic = NOFFMAGIC := by
    by_contra hne
    rw [assert_of_false hne] at hmagic
    cases hmagic
  have hle' : noffH.numPages ≤ NumPhysPages := by
    by_contra hgt
    rw [assert_of_false hgt] at hle
    cases hle
  have hfree := le_of_allocPages halloc
  rw [new_eq hH hmagic' hle' hfree] at hret
  obtain ⟨m₁, hcode, hret⟩ := bind_eq_ok.mp hret
  obtain ⟨m₂, hdata, hret⟩ := bind_eq_ok.mp hret
  obtain ⟨rfl, rfl⟩ := Prod.mk.inj (Except.ok.inj hret)
  exact ⟨hle', hfree, rfl, m₁, hcode, hdata⟩

/-- Apart from the memory, only the bitmap and the heap have changed. -/
theorem new_allocated :
    Machine.SameButMemory { m with
      bitMap := (m.bitMap.findSeq noffH.numPages).2
      heap := m.heap.alloc (pages 0 (m.bitMap.free.take noffH.numPages)) } m' := by
  obtain ⟨-, -, -, m₁, hcode, hdata⟩ := new_eq_ok h hH
  exact ((Machine.SameButMemory.of_memory _ _).trans (loadSegment_same hcode)).trans
    (loadSegment_same hdata)

theorem new_frames : m'.frames space = (m.bitMap.free.take noffH.numPages).map Fin.val := by
  obtain ⟨-, -, rfl, -⟩ := new_eq_ok h hH
  rw [Machine.frames, (new_allocated h hH).heap, Heap.cell_alloc_self, Option.getD_some,
    map_physicalPage]

theorem new_free : m'.bitMap.free = m.bitMap.free.drop noffH.numPages := by
  rw [(new_allocated h hH).bitMap, BitMap.findSeq_snd_free]

theorem new_marked (f : ℕ) :
    m'.Marked f ↔ m.Marked f ∨ f ∈ (m.bitMap.free.take noffH.numPages).map Fin.val := by
  rw [Machine.Marked, Machine.Marked, (new_allocated h hH).bitMap]
  simp only [BitMap.findSeq_snd_testBit, Bool.or_eq_true, decide_eq_true_eq, List.mem_map,
    exists_or]
  refine or_congr_right ⟨fun ⟨hf, hmem⟩ => ⟨_, hmem, rfl⟩, ?_⟩
  rintro ⟨g, hmem, rfl⟩
  exact ⟨g.isLt, hmem⟩

end

end

end AddrSpace

end Nachos
