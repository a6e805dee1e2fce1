import Nachos.Verification.FileHeader.Allocation

/-! # Lookup against allocation

`ByteToSector` answers from the table in the header up to and including the offset
`NumDirect * SectorSize`, which is already the first one behind the direct blocks. -/

namespace Nachos.FileHeader

open Library BitMap

/-! ## What `Allocate` obtained -/

/-- How often `Allocate` calls `Find` for a file of `n` data sectors. -/
def findCount (n : ℕ) : ℕ := if n > NumDirect then n + 1 else n

/-- The sector obtained for a data block. The index sector is taken between the sectors
of blocks `NumDirect - 1` and `NumDirect`. -/
def obtained (freeMap : BitMap NumSectors) (fileSize : ℤ) (block : ℕ) : ℤ :=
  (findSeq (findCount (dataSectorCount fileSize)) freeMap).1.getD
    (if block < NumDirect then block else block + 1) (-1)

/-- The successful calls of `Allocate` all of whose calls of `Find` succeed. -/
structure Allocated (h : FileHeader) (freeMap : BitMap NumSectors) (d : Disk) (fileSize : ℤ)
    (szTime : List Byte) (h' : FileHeader) (freeMap' : BitMap NumSectors) (d' : Disk) : Prop where
  nonneg : 0 ≤ fileSize
  le_max : fileSize ≤ MaxFileSize
  returns : h.allocate freeMap d fileSize szTime = .ok (true, h', freeMap', d')
  finds : ∀ s ∈ (findSeq (findCount (dataSectorCount fileSize)) freeMap).1, s ≠ -1

/-- Lookup answers for every byte of the file with the sector obtained for its block. -/
structure LookupAgrees (freeMap : BitMap NumSectors) (fileSize : ℤ) (h : FileHeader)
    (d : Disk) : Prop where
  block : ∀ offset : ℤ, 0 ≤ offset → offset < fileSize →
    h.byteToSector d offset = .ok (obtained freeMap fileSize (offset / SectorSize).toNat)
  not_index : h.hasIndex → ∀ offset : ℤ, 0 ≤ offset → offset < fileSize →
    h.byteToSector d offset ≠ .ok (h.dataSectors indexSlot).toInt
  injective : ∀ o o' : ℤ, 0 ≤ o → o < fileSize → 0 ≤ o' → o' < fileSize →
    h.byteToSector d o = h.byteToSector d o' → o / SectorSize = o' / SectorSize

section

variable {h : FileHeader} {freeMap : BitMap NumSectors} {d : Disk} {fileSize : ℤ}
  {szTime : List Byte} {h' : FileHeader} {freeMap' : BitMap NumSectors} {d' : Disk} {b : ℕ}
  {offset : ℤ}

theorem Allocated.findCount_le (a : Allocated h freeMap d fileSize szTime h' freeMap' d') :
    findCount (dataSectorCount fileSize) ≤ freeMap.free.length :=
  (findSeq_succeeds_iff _ _).mp a.finds

theorem findCount_pos_of_lt {n : ℕ} (hb : b < n) :
    (if b < NumDirect then b else b + 1) < findCount n := by
  unfold findCount
  split <;> split <;> omega

theorem Allocated.slot_lt (a : Allocated h freeMap d fileSize szTime h' freeMap' d')
    (hb : b < dataSectorCount fileSize) :
    (if b < NumDirect then b else b + 1) < freeMap.free.length :=
  (findCount_pos_of_lt hb).trans_le a.findCount_le

theorem Allocated.obtained_eq (a : Allocated h freeMap d fileSize szTime h' freeMap' d')
    (hb : b < dataSectorCount fileSize) :
    obtained freeMap fileSize b =
      (freeMap.free.get ⟨if b < NumDirect then b else b + 1, a.slot_lt hb⟩ : ℕ) :=
  findSeq_getD freeMap (-1) (findCount_pos_of_lt hb) (a.slot_lt hb)

theorem Allocated.obtained_inj (a : Allocated h freeMap d fileSize szTime h' freeMap' d') {c : ℕ}
    (hb : b < dataSectorCount fileSize) (hc : c < dataSectorCount fileSize)
    (he : obtained freeMap fileSize b = obtained freeMap fileSize c) : b = c := by
  rw [a.obtained_eq hb, a.obtained_eq hc, Int.natCast_inj] at he
  have hinj := freeMap.free_get_inj (a.slot_lt hb) (a.slot_lt hc) (Fin.ext he)
  split at hinj <;> split at hinj <;> omega

theorem block_bounds (hlo : 0 ≤ offset) :
    128 * ((offset / SectorSize).toNat : ℤ) ≤ offset ∧
      offset < 128 * ((offset / SectorSize).toNat : ℤ) + 128 := by
  simp only [SectorSize]
  omega

theorem block_lt_dataSectorCount (hlo : 0 ≤ offset) (hlt : offset < fileSize) :
    (offset / SectorSize).toNat < dataSectorCount fileSize := by
  simp only [dataSectorCount, SectorSize]
  omega

/-! ## Answers from the table in the header -/

theorem byteToSector_direct (h : FileHeader) (d : Disk) (hb : b < 15) (hlo : 128 * b ≤ offset)
    (hhi : offset < 128 * b + 128) (hmax : offset ≤ 1792) :
    h.byteToSector d offset = .ok (h.dataSectors ⟨b, hb⟩).toInt := by
  have hu : u32 offset = offset := u32_of_range (by omega) (by omega)
  have hle : u32 offset ≤ (NumDirect * SectorSize : ℕ) := by
    rw [hu]
    exact hmax
  rw [byteToSector, dif_pos hle]
  congr 3
  apply Fin.ext
  simp only [hu, SectorSize]
  omega

theorem directTable_toInt (h : FileHeader) {n j : ℕ} (hj : j < n) (hj' : j < NumDirect + NumFirst)
    (hfree : j < freeMap.free.length) :
    (h.directTable freeMap n ⟨j, hj'⟩).toInt = (freeMap.free[j] : ℕ) := by
  have := sector_lt freeMap.free[j]
  rw [directTable, if_pos hj, findSeq_getD freeMap 0 hj hfree, toInt_ofInt (by omega) (by omega)]

theorem indexedTable_toInt {n j : ℕ} (hj : j < n + 1) (hj' : j < NumDirect + NumFirst)
    (hfree : j < freeMap.free.length) :
    (indexedTable freeMap n ⟨j, hj'⟩).toInt = (freeMap.free[j] : ℕ) := by
  have := sector_lt freeMap.free[j]
  rw [indexedTable, findSeq_getD freeMap 0 hj hfree, toInt_ofInt (by omega) (by omega)]

theorem Allocated.lookup_of_le (a : Allocated h freeMap d fileSize szTime h' freeMap' d')
    (hle : fileSize ≤ (NumDirect * SectorSize : ℕ)) :
    LookupAgrees freeMap fileSize h' d' := by
  have hle' : fileSize ≤ 1792 := hle
  have hN : NumDirect = 14 := rfl
  obtain ⟨hn, _⟩ := numSectors_setSize h a.nonneg a.le_max
  have hcount : dataSectorCount fileSize ≤ 14 := by
    simp only [dataSectorCount, SectorSize]
    omega
  obtain ⟨_, ⟨_, hh', _, _⟩ | ⟨hlt, _⟩⟩ := allocate_eq_ok_true hn a.returns
  · have hblock : ∀ offset : ℤ, 0 ≤ offset → offset < fileSize →
        h'.byteToSector d' offset =
          .ok (obtained freeMap fileSize (offset / SectorSize).toNat) := by
      intro offset hlo hlt
      have hb := block_lt_dataSectorCount hlo hlt
      have hbounds := block_bounds hlo
      have hslot := a.slot_lt hb
      have hobt := a.obtained_eq hb
      simp only [if_pos (show (offset / SectorSize).toNat < NumDirect by omega)] at hslot hobt
      have htable : h'.dataSectors = h.directTable freeMap (dataSectorCount fileSize) := by
        rw [hh']
        rfl
      rw [byteToSector_direct _ _ (by omega) hbounds.1 hbounds.2 (by omega), hobt, htable]
      exact congrArg _ (directTable_toInt h hb _ hslot)
    refine ⟨hblock, ?_, ?_⟩
    · intro hidx
      rw [hh'] at hidx
      have hlt : NumDirect < dataSectorCount fileSize := by
        rw [← hn]
        exact hidx
      omega
    · intro o o' ho hlt ho' hlt' he
      rw [hblock o ho hlt, hblock o' ho' hlt', Except.ok.injEq] at he
      have hb := a.obtained_inj (block_lt_dataSectorCount ho hlt)
        (block_lt_dataSectorCount ho' hlt') he
      simp only [SectorSize] at hb ⊢
      omega
  · exact absurd hlt (by omega)

/-! ## Files with an index sector -/

/-- At offset `NumDirect * SectorSize` lookup answers with the index sector itself. -/
theorem Allocated.lookup_boundary (a : Allocated h freeMap d fileSize szTime h' freeMap' d')
    (hlt : (NumDirect * SectorSize : ℕ) < fileSize) :
    h'.hasIndex ∧ h'.byteToSector d' (NumDirect * SectorSize : ℕ) =
      .ok (h'.dataSectors indexSlot).toInt := by
  have hlt' : 1792 < fileSize := hlt
  have hN : NumDirect = 14 := rfl
  obtain ⟨hn, _⟩ := numSectors_setSize h a.nonneg a.le_max
  have hcount : 14 < dataSectorCount fileSize := by
    simp only [dataSectorCount, SectorSize]
    omega
  obtain ⟨_, ⟨hle, _⟩ | ⟨_, _, hh', _⟩⟩ := allocate_eq_ok_true hn a.returns
  · exact absurd hle (by omega)
  · refine ⟨?_, byteToSector_direct h' d' (by decide) le_rfl (by decide) (by decide)⟩
    rw [hh', hasIndex]
    exact hn ▸ hcount

theorem Allocated.lookup_agrees_iff (a : Allocated h freeMap d fileSize szTime h' freeMap' d') :
    LookupAgrees freeMap fileSize h' d' ↔ fileSize ≤ (NumDirect * SectorSize : ℕ) := by
  refine ⟨fun hagrees => ?_, a.lookup_of_le⟩
  by_contra hlt
  obtain ⟨hidx, hlookup⟩ := a.lookup_boundary (not_le.mp hlt)
  exact hagrees.not_index hidx _ (Int.natCast_nonneg _) (not_le.mp hlt) hlookup

end

/-- `Allocate` succeeds when the free sectors suffice for the data and the index. -/
theorem exists_allocated (h : FileHeader) (freeMap : BitMap NumSectors) (d : Disk)
    (szTime : List Byte) {fileSize : ℤ} (hlo : 0 ≤ fileSize)
    (hhi : fileSize ≤ MaxFileSize)
    (hfree : findCount (dataSectorCount fileSize) ≤ freeMap.free.length) :
    ∃ h' freeMap' d', Allocated h freeMap d fileSize szTime h' freeMap' d' := by
  have hmax : MaxFileSize = 5888 := rfl
  have hN : NumDirect = 14 := rfl
  obtain ⟨hn, hint⟩ := numSectors_setSize h hlo hhi
  have hcount : dataSectorCount fileSize ≤ 46 := by
    simp only [dataSectorCount, SectorSize]
    omega
  have hfind := (findSeq_succeeds_iff _ _).mpr hfree
  have hclear : (h.setSize fileSize).numSectors.toInt ≤ freeMap.numClear := by
    rw [hint, numClear_eq]
    unfold findCount at hfree
    split at hfree <;> omega
  by_cases hdir : dataSectorCount fileSize ≤ NumDirect
  · exact ⟨_, _, _, hlo, hhi, allocate_direct _ _ _ _ _ hn hdir hclear, hfind⟩
  · rw [findCount, if_pos (by omega)] at hfree
    have hret := allocate_indexed h freeMap d fileSize szTime hn (by omega) hcount hclear
    rw [show (indexedTable freeMap (dataSectorCount fileSize) indexSlot).toInt = _ from
      indexedTable_toInt (by omega) (by decide) (by omega), Disk.writeSector_natCast,
      ok_bind] at hret
    exact ⟨_, _, _, hlo, hhi, hret, hfind⟩

/-! ## The whole range of sizes -/

/-- For every free map and every size the format supports, lookup agrees with allocation
exactly for the files that need no index sector. -/
theorem byteToSector_agrees_iff (h : FileHeader) (freeMap : BitMap NumSectors) (d : Disk)
    (fileSize : ℤ) (szTime : List Byte) (h' : FileHeader) (freeMap' : BitMap NumSectors)
    (d' : Disk) (hlo : 0 ≤ fileSize) (hhi : fileSize ≤ MaxFileSize)
    (ha : h.allocate freeMap d fileSize szTime = .ok (true, h', freeMap', d'))
    (hfind : ∀ s ∈ (findSeq (findCount (dataSectorCount fileSize)) freeMap).1, s ≠ -1) :
    LookupAgrees freeMap fileSize h' d' ↔ fileSize ≤ (NumDirect * SectorSize : ℕ) :=
  Allocated.lookup_agrees_iff ⟨hlo, hhi, ha, hfind⟩

/-! An empty disk, on which every allocation succeeds. -/

def blankHeader : FileHeader :=
  ⟨0, 0, fun _ => 0, fun _ => 0, fun _ => 0, fun _ => 0⟩

def blankDisk : Disk := fun _ _ => 0

def freshMap : BitMap NumSectors := BitMap.new ⟨fun _ => 0⟩

theorem freshMap_free : freshMap.free = List.finRange NumSectors := free_new _

/-- On an empty disk the first `k` calls of `Find` return `0, 1, ..., k - 1`. -/
theorem freshMap_getD {k j : ℕ} (c : ℤ) (hj : j < k) (hk : k ≤ 1024) :
    (findSeq k freshMap).1.getD j c = j := by
  have hlen : j < freshMap.free.length := by
    rw [freshMap_free, List.length_finRange]
    exact hj.trans_le hk
  rw [findSeq_getD freshMap c hj hlen]
  simp [freshMap_free]

theorem freshMap_allocated {fileSize : ℤ} (hlo : 0 ≤ fileSize) (hhi : fileSize ≤ MaxFileSize) :
    ∃ h' freeMap' d', Allocated blankHeader freshMap blankDisk fileSize [] h' freeMap' d' := by
  refine exists_allocated _ _ _ _ hlo hhi ?_
  have hmax : MaxFileSize = 5888 := rfl
  have hcount : dataSectorCount fileSize ≤ 46 := by
    simp only [dataSectorCount, SectorSize]
    omega
  rw [freshMap_free, List.length_finRange, findCount]
  split <;> simp only [NumSectors] <;> omega

theorem byteToSector_agrees_iff_small :
    ∃ h' freeMap' d',
      blankHeader.allocate freshMap blankDisk 1792 [] = .ok (true, h', freeMap', d') ∧
      LookupAgrees freshMap 1792 h' d' := by
  obtain ⟨h', freeMap', d', a⟩ := freshMap_allocated (show (0 : ℤ) ≤ 1792 by decide) (by decide)
  exact ⟨h', freeMap', d', a.returns, (byteToSector_agrees_iff _ _ _ _ _ _ _ _ a.nonneg a.le_max
    a.returns a.finds).mpr (by decide)⟩

/-- One byte more, and the last byte is looked up in the index sector: it is sector 14,
while block 14 was given sector 15. -/
theorem not_lookupAgrees_1793 :
    ∃ h' freeMap' d',
      blankHeader.allocate freshMap blankDisk 1793 [] = .ok (true, h', freeMap', d') ∧
      (∀ s ∈ (findSeq (findCount (dataSectorCount 1793)) freshMap).1, s ≠ -1) ∧
      h'.byteToSector d' 1792 = .ok 14 ∧ obtained freshMap 1793 14 = 15 ∧
      ¬ LookupAgrees freshMap 1793 h' d' := by
  obtain ⟨h', freeMap', d', a⟩ := freshMap_allocated (show (0 : ℤ) ≤ 1793 by decide) (by decide)
  have hcount : dataSectorCount 1793 = 15 := rfl
  obtain ⟨hn, _⟩ := numSectors_setSize blankHeader a.nonneg a.le_max
  obtain ⟨_, hlookup⟩ := a.lookup_boundary (by decide)
  have hslot : (h'.dataSectors indexSlot).toInt = 14 := by
    obtain ⟨_, ⟨hle, _⟩ | ⟨_, _, hh', _⟩⟩ := allocate_eq_ok_true hn a.returns
    · exact absurd hle (by decide)
    · rw [hh']
      change (indexedTable freshMap 15 indexSlot).toInt = 14
      rw [indexedTable, indexSlot, freshMap_getD _ (by decide) (by decide)]
      rfl
  refine ⟨h', freeMap', d', a.returns, a.finds, ?_, ?_, fun hagrees => ?_⟩
  · rw [hslot] at hlookup
    exact hlookup
  · rw [obtained, hcount]
    exact freshMap_getD (k := 16) (j := 15) _ (by decide) (by decide)
  · exact absurd (a.lookup_agrees_iff.mp hagrees) (by decide)

end Nachos.FileHeader
