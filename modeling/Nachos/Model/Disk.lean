import Nachos.Model.Basic

/-! # The synchronous disk

`SynchDisk::ReadSector` and `WriteSector` return once the request has completed, so
that for their caller the disk is an array of sectors. -/

namespace Nachos

abbrev SectorSize : ℕ := 128

abbrev NumSectors : ℕ := 32 * 32

instance : NeZero SectorSize := ⟨by decide⟩

instance : NeZero NumSectors := ⟨by decide⟩

abbrev Sector := Fin SectorSize → Byte

abbrev Disk := Fin NumSectors → Sector

theorem sector_lt (s : Fin NumSectors) : (s : ℕ) < 1024 := s.isLt

/-- The `SectorSize` bytes found at the start of a buffer. -/
def Sector.ofList (buf : List Byte) : Sector := fun i => buf.getD i 0

namespace Disk

/-- `ReadSector`, with the `ASSERT` of `Disk::ReadRequest` on the sector number. -/
def readSector (d : Disk) (sectorNumber : ℤ) : Exec Sector :=
  if h : 0 ≤ sectorNumber ∧ sectorNumber < NumSectors then
    .ok (d ⟨sectorNumber.toNat, by omega⟩)
  else .error .assertion

/-- `WriteSector`, with the `ASSERT` of `Disk::WriteRequest` on the sector number. -/
def writeSector (d : Disk) (sectorNumber : ℤ) (data : Sector) : Exec Disk :=
  if h : 0 ≤ sectorNumber ∧ sectorNumber < NumSectors then
    .ok (Function.update d ⟨sectorNumber.toNat, by omega⟩ data)
  else .error .assertion

@[simp] theorem readSector_natCast (d : Disk) (s : Fin NumSectors) :
    d.readSector (s : ℕ) = .ok (d s) := by
  have hs := s.isLt
  rw [readSector, dif_pos (by omega)]
  simp

@[simp] theorem writeSector_natCast (d : Disk) (s : Fin NumSectors) (data : Sector) :
    d.writeSector (s : ℕ) data = .ok (Function.update d s data) := by
  have hs := s.isLt
  rw [writeSector, dif_pos (by omega)]
  simp

theorem writeSector_eq_ok {d d' : Disk} {n : ℤ} {data : Sector}
    (h : d.writeSector n data = .ok d') :
    ∃ s : Fin NumSectors, n = (s : ℕ) ∧ d' = Function.update d s data := by
  unfold writeSector at h
  split at h
  · rename_i hn
    exact ⟨⟨n.toNat, by omega⟩, by simp; omega, by simpa using h.symm⟩
  · cases h

end Disk

end Nachos
