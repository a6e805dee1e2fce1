import Nachos.Verification.FileHeader.Lookup
import Nachos.Verification.FileSystem.Operations

/-! # Sizes that a file cannot have

A header names at most `NumDirect + NumIndex` data sectors, `MaxFileSize` bytes. `Allocate`
compares the size with the free sectors only. -/

namespace Nachos.FileHeader

open Library BitMap

variable {h : FileHeader} {freeMap : BitMap NumSectors} {d : Disk} {fileSize : ℤ}
  {szTime : List Byte}

/-! ## The number of sectors for any size -/

/-- A negative size is divided towards zero. -/
theorem numSectors_of_neg (h : FileHeader) (hneg : fileSize < 0) (hlo : -2 ^ 31 ≤ fileSize) :
    (h.setSize fileSize).numSectors.toInt = -((-fileSize) / 128) := by
  obtain ⟨size, rfl⟩ : ∃ size : ℕ, fileSize = -size :=
    ⟨(-fileSize).toNat, by omega⟩
  have hdiv : divRoundUp (-(size : ℤ)) SectorSize = -((size : ℤ) / 128) := by
    have hdown : (-(size : ℤ)).tdiv SectorSize = -((size : ℤ) / 128) := by
      rw [Int.neg_tdiv, Int.tdiv_eq_ediv_of_nonneg (by omega)]
      rfl
    have hrest : ¬ (-(size : ℤ)).tmod SectorSize > 0 := by
      rw [Int.neg_tmod, Int.tmod_eq_emod_of_nonneg (by omega)]
      have := Int.emod_nonneg (size : ℤ) (show (SectorSize : ℤ) ≠ 0 by decide)
      omega
    rw [divRoundUp, if_neg hrest, hdown, add_zero]
  rw [setSize]
  dsimp only
  rw [hdiv, toInt_ofInt (by omega) (by omega), neg_neg]

theorem lt_dataSectorCount (hhi : MaxFileSize < fileSize) :
    NumDirect + NumIndex < dataSectorCount fileSize := by
  have hmax : MaxFileSize = 5888 := rfl
  have hsum : NumDirect + NumIndex = 46 := rfl
  rw [dataSectorCount, hsum]
  simp only [SectorSize]
  omega

/-! ## `Allocate` -/

/-- The size is one that a file can have, or there are not enough free sectors for it. -/
def SizeAllowed (freeMap : BitMap NumSectors) (fileSize : ℤ) : Prop :=
  0 ≤ fileSize ∧ (fileSize ≤ MaxFileSize ∨ freeMap.numClear < dataSectorCount fileSize)

/-- The call stays inside the table of the header and the index table, and it returns
`FALSE` for a size that no file can have. -/
def RefusesBadSize (h : FileHeader) (freeMap : BitMap NumSectors) (d : Disk) (fileSize : ℤ)
    (szTime : List Byte) : Prop :=
  h.allocate freeMap d fileSize szTime ≠ .error .bounds ∧
    (fileSize < 0 ∨ MaxFileSize < fileSize → ∃ h' freeMap' d',
      h.allocate freeMap d fileSize szTime = .ok (false, h', freeMap', d'))

/-- A few bytes less than nothing need no sector. -/
theorem allocate_of_neg (hneg : fileSize < 0) (hlo : -128 < fileSize) :
    ∃ h', h.allocate freeMap d fileSize szTime = .ok (true, h', freeMap, d) := by
  have hint : (h.setSize fileSize).numSectors.toInt = 0 := by
    rw [numSectors_of_neg h hneg (by omega)]
    omega
  have hnat : (h.setSize fileSize).numSectors.toNat = 0 := by
    rw [BitVec.toInt_eq_toNat_cond] at hint
    omega
  exact ⟨_, allocate_direct _ _ _ _ _ hnat (by omega) (by omega)⟩

/-- The quotient of a larger negative size is huge as an unsigned number, and the loop
over the index table leaves it. -/
theorem allocate_of_le_neg (hhi : fileSize ≤ -128) (hlo : -2 ^ 31 ≤ fileSize) :
    h.allocate freeMap d fileSize szTime = .error .bounds := by
  have hint := numSectors_of_neg h (by omega) hlo
  refine allocate_bounds _ _ _ _ _ rfl ?_ (by omega)
  have hsum : NumDirect + NumIndex = 46 := rfl
  rw [BitVec.toInt_eq_toNat_cond] at hint
  omega

/-- Every other size takes the call out of the index table or makes it succeed. -/
theorem allocate_of_not_sizeAllowed (hlo : -2 ^ 31 ≤ fileSize) (hhi : fileSize < 2 ^ 31)
    (hbad : ¬ SizeAllowed freeMap fileSize) :
    h.allocate freeMap d fileSize szTime = .error .bounds ∨
      fileSize < 0 ∧ ∃ h', h.allocate freeMap d fileSize szTime = .ok (true, h', freeMap, d) := by
  by_cases hneg : fileSize < 0
  · by_cases hfew : -128 < fileSize
    · exact .inr ⟨hneg, allocate_of_neg hneg hfew⟩
    · exact .inl (allocate_of_le_neg (by omega) hlo)
  have hpos := not_lt.mp hneg
  obtain ⟨hnat, hint⟩ := numSectors_of_nonneg h hpos hhi
  have hgt : MaxFileSize < fileSize := not_le.mp fun hle => hbad ⟨hpos, .inl hle⟩
  have hclear : dataSectorCount fileSize ≤ freeMap.numClear :=
    not_lt.mp fun hlt => hbad ⟨hpos, .inr hlt⟩
  exact .inl (allocate_bounds _ _ _ _ _ hnat (lt_dataSectorCount hgt) (by omega))

/-- A size that is too large is refused if there are not enough free sectors for it. -/
theorem SizeAllowed.allocate_of_gt (hsize : SizeAllowed freeMap fileSize)
    (hgt : MaxFileSize < fileSize) (hhi : fileSize < 2 ^ 31) :
    ∃ h', h.allocate freeMap d fileSize szTime = .ok (false, h', freeMap, d) := by
  have hlt := hsize.2.resolve_left (not_le.mpr hgt)
  obtain ⟨-, hint⟩ := numSectors_of_nonneg h hsize.1 hhi
  exact ⟨_, allocate_of_numClear_lt h freeMap d fileSize szTime (by omega)⟩

/-- With a size that is allowed the call returns. -/
theorem SizeAllowed.allocate (hsize : SizeAllowed freeMap fileSize) (hhi : fileSize < 2 ^ 31) :
    ∃ result, h.allocate freeMap d fileSize szTime = .ok result := by
  by_cases hgt : MaxFileSize < fileSize
  · obtain ⟨h', hret⟩ := hsize.allocate_of_gt hgt hhi
    exact ⟨_, hret⟩
  · exact allocate_total h freeMap d szTime hsize.1 (not_lt.mp hgt)

theorem refusesBadSize_iff (hlo : -2 ^ 31 ≤ fileSize) (hhi : fileSize < 2 ^ 31) :
    RefusesBadSize h freeMap d fileSize szTime ↔ SizeAllowed freeMap fileSize := by
  constructor
  · rintro ⟨hinside, hrefused⟩
    by_contra hbad
    rcases allocate_of_not_sizeAllowed hlo hhi hbad with hbounds | ⟨hneg, h', htrue⟩
    · exact hinside hbounds
    · obtain ⟨_, _, _, hfalse⟩ := hrefused (.inl hneg)
      cases hfalse.symm.trans htrue
  · intro hsize
    constructor
    · obtain ⟨result, hret⟩ := hsize.allocate hhi
      rw [hret]
      rintro ⟨⟩
    · rintro (hneg | hgt)
      · exact absurd hsize.1 (not_le.mpr hneg)
      · obtain ⟨h', hret⟩ := hsize.allocate_of_gt hgt hhi
        exact ⟨h', freeMap, d, hret⟩

end Nachos.FileHeader

namespace Nachos.FileSystem

open Library BitMap FileHeader

variable {fs : FileSystem} {d : Disk} {env : Env} {name : List Byte} {initialSize : ℤ}
  {mapBlocks dirBlocks : List (Fin NumSectors)}

/-! ## `Create` -/

/-- The call does not leave the tables, and it makes no file of a size that `ByteToSector`
cannot address. -/
def CreatesAddressable (fs : FileSystem) (d : Disk) (env : Env) (name : List Byte)
    (initialSize : ℤ) : Prop :=
  fs.create d env name initialSize ≠ .error .bounds ∧
    ∀ d', fs.create d env name initialSize = .ok (true, d') →
      0 ≤ initialSize ∧ initialSize ≤ MaxFileSize

/-- `Create` succeeds for a few bytes less than nothing and leaves the tables for every other
size that is not allowed. -/
theorem Readable.create_of_not_sizeAllowed (r : fs.Readable mapBlocks dirBlocks)
    (hapart : ∀ s ∈ dirBlocks, s ∉ mapBlocks) (env : Env) (hlo : -2 ^ 31 ≤ initialSize)
    (hhi : initialSize < 2 ^ 31) (hv : Vacant mapBlocks dirBlocks d name)
    (hbad : ¬ SizeAllowed (freeMapOn d mapBlocks).find.2 initialSize) :
    fs.create d env name initialSize = .error .bounds ∨
      initialSize < 0 ∧ ∃ d', fs.create d env name initialSize = .ok (true, d') := by
  obtain ⟨sector, dir, hcreate⟩ := r.create_of_vacant env initialSize hv
  rw [hcreate]
  rcases allocate_of_not_sizeAllowed hlo hhi hbad with hbounds | ⟨hneg, hdr, htrue⟩
  · left
    rw [FileSystem.createFile, hbounds, error_bind]
  · exact .inr ⟨hneg, r.createFile_of_allocate hapart sector dir htrue⟩

theorem Readable.createsAddressable_iff (r : fs.Readable mapBlocks dirBlocks)
    (hapart : ∀ s ∈ dirBlocks, s ∉ mapBlocks) (d : Disk) (env : Env) (name : List Byte)
    (hlo : -2 ^ 31 ≤ initialSize) (hhi : initialSize < 2 ^ 31) :
    CreatesAddressable fs d env name initialSize ↔ (Vacant mapBlocks dirBlocks d name →
      SizeAllowed (freeMapOn d mapBlocks).find.2 initialSize) := by
  constructor
  · rintro ⟨hinside, haddr⟩ hv
    by_contra hbad
    rcases r.create_of_not_sizeAllowed hapart env hlo hhi hv hbad with hbounds | ⟨hneg, d', htrue⟩
    · exact hinside hbounds
    · exact absurd (haddr d' htrue).1 (not_le.mpr hneg)
  · intro hallowed
    by_cases hv : Vacant mapBlocks dirBlocks d name
    · have hsize := hallowed hv
      obtain ⟨sector, dir, hcreate⟩ := r.create_of_vacant env initialSize hv
      rw [CreatesAddressable, hcreate]
      by_cases hgt : MaxFileSize < initialSize
      · obtain ⟨hdr, hret⟩ := hsize.allocate_of_gt hgt hhi
        obtain ⟨d', hfile⟩ := r.createFile_of_allocate hapart sector dir hret
        rw [hfile]
        exact ⟨by rintro ⟨⟩, by rintro _ ⟨⟩⟩
      · obtain ⟨⟨success, _⟩, hret⟩ := hsize.allocate hhi
        obtain ⟨d', hfile⟩ := r.createFile_of_allocate hapart sector dir hret
        rw [hfile]
        exact ⟨by rintro ⟨⟩, fun _ _ => ⟨hsize.1, not_lt.mp hgt⟩⟩
    · rw [CreatesAddressable, r.create_of_not_vacant env initialSize hv]
      exact ⟨by rintro ⟨⟩, by rintro _ ⟨⟩⟩

/-- `Allocate` handles a size as it should exactly when the size is allowed: it is not negative
and, if it is too large, the free sectors do not suffice either. So does `Create` with the
bitmap that it hands to `Allocate`, if it comes to that. -/
theorem bad_sizes_refused_iff (size : ℤ) (hlo : -2 ^ 31 ≤ size) (hhi : size < 2 ^ 31) :
    (∀ (h : FileHeader) (freeMap : BitMap NumSectors) (d : Disk) (szTime : List Byte),
      RefusesBadSize h freeMap d size szTime ↔ SizeAllowed freeMap size) ∧
    ∀ (fs : FileSystem) (mapBlocks dirBlocks : List (Fin NumSectors)),
      fs.Readable mapBlocks dirBlocks → (∀ s ∈ dirBlocks, s ∉ mapBlocks) →
      ∀ (d : Disk) (env : Env) (name : List Byte),
        CreatesAddressable fs d env name size ↔ (Vacant mapBlocks dirBlocks d name →
          SizeAllowed (freeMapOn d mapBlocks).find.2 size) :=
  ⟨fun _ _ _ _ => refusesBadSize_iff hlo hhi,
    fun _ _ _ r hapart d env name => r.createsAddressable_iff hapart d env name hlo hhi⟩

/-- A file of 100 bytes is created, and as many bytes as the disk does not have are refused. -/
theorem bad_sizes_refused_iff_sample :
    (∃ d', sampleSystem.create blankDisk sampleEnv [97] 100 = .ok (true, d')) ∧
      CreatesAddressable sampleSystem blankDisk sampleEnv [97] 100 ∧
      RefusesBadSize blankHeader freshMap blankDisk 100 [] ∧
      RefusesBadSize blankHeader freshMap blankDisk (2 ^ 20) [] := by
  refine ⟨sampleSystem_creates, ?_, ?_, ?_⟩
  · have hiff := (bad_sizes_refused_iff 100 (by decide) (by decide)).2 sampleSystem [2] [3, 4]
      sampleSystem_readable sampleSystem_apart blankDisk sampleEnv [97]
    exact hiff.mpr fun _ => ⟨by decide, .inl (by decide)⟩
  · have hiff := (bad_sizes_refused_iff 100 (by decide) (by decide)).1 blankHeader freshMap
      blankDisk []
    exact hiff.mpr ⟨by decide, .inl (by decide)⟩
  · have hiff := (bad_sizes_refused_iff (2 ^ 20) (by decide) (by decide)).1 blankHeader freshMap
      blankDisk []
    refine hiff.mpr ⟨by decide, .inr ?_⟩
    rw [numClear_eq, freshMap_free, List.length_finRange]
    decide

/-- A file of -1 bytes is created, and a file of one byte more than a header can describe is
not refused: the loop over the index table runs out of it. -/
theorem bad_sizes_accepted :
    (∃ d', sampleSystem.create blankDisk sampleEnv [97] (-1) = .ok (true, d')) ∧
    blankHeader.allocate freshMap blankDisk (MaxFileSize + 1) [] = .error .bounds := by
  constructor
  · obtain ⟨sector, dir, hcreate⟩ := sampleSystem_readable.create_of_vacant sampleEnv (-1)
      sampleSystem_vacant
    obtain ⟨hdr, htrue⟩ := allocate_of_neg (h := FileHeader.new (sampleEnv.header 0))
      (d := blankDisk) (show (-1 : ℤ) < 0 by decide) (by decide)
    rw [hcreate]
    exact sampleSystem_readable.createFile_of_allocate sampleSystem_apart sector dir htrue
  · obtain ⟨hnat, hint⟩ := numSectors_of_nonneg blankHeader
      (show (0 : ℤ) ≤ MaxFileSize + 1 by decide) (by decide)
    refine allocate_bounds _ _ _ _ _ hnat (lt_dataSectorCount (by decide)) ?_
    rw [hint, numClear_eq, freshMap_free, List.length_finRange]
    decide

end Nachos.FileSystem
