import Nachos.Model.BitMap
import Nachos.Model.Disk

/-! # File headers

`filehdr.cc`. A header fills one sector: two `int`s, three dates and a table of sector
numbers, the last entry of which is the index sector of a file with more than
`NumDirect` data sectors. -/

namespace Nachos

open Library

/-! ## C strings -/

/-- The characters of a string up to its terminating NUL. -/
def cstring (s : List Byte) : List Byte := s.takeWhile (· != 0)

/-- `strncpy(dst, src, n)`: the rest of the `n` bytes is filled with NULs. -/
def strncpy {k : ℕ} (dst : Fin k → Byte) (src : List Byte) (n : ℕ) : Fin k → Byte :=
  fun i => if i < n then (cstring src).getD i 0 else dst i

/-- `strncmp(a, b, n)`; the end of a list stands for the terminating NUL. -/
def strncmp : List Byte → List Byte → ℕ → ℤ
  | _, _, 0 => 0
  | a, b, n + 1 =>
      let x := a.headD 0
      let y := b.headD 0
      if x ≠ y then (x.toNat : ℤ) - y.toNat
      else if x = 0 then 0
      else strncmp a.tail b.tail n

/-! ## The header and its layout -/

abbrev DateLength : ℕ := 20

abbrev NumFirst : ℕ := 1

abbrev NumDirect : ℕ := (SectorSize - 2 * 4 - 3 * DateLength) / 4 - NumFirst

abbrev MaxFileSize : ℕ := (NumDirect + NumFirst * SectorSize / 4) * SectorSize

/-- The number of entries of an index sector. -/
abbrev NumIndex : ℕ := SectorSize / 4

structure FileHeader where
  numBytes : Word
  numSectors : Word
  createTime : Fin DateLength → Byte
  updateTime : Fin DateLength → Byte
  accessTime : Fin DateLength → Byte
  dataSectors : Fin (NumDirect + NumFirst) → Word

/-- An index sector holds `NumIndex` words. -/
def indexLayout : (Fin NumIndex → Word) ≃ Sector := arrayLayout wordLayout NumIndex

namespace FileHeader

def fields : FileHeader ≃ Word × Word × (Fin DateLength → Byte) × (Fin DateLength → Byte) ×
    (Fin DateLength → Byte) × (Fin (NumDirect + NumFirst) → Word) where
  toFun h := (h.numBytes, h.numSectors, h.createTime, h.updateTime, h.accessTime, h.dataSectors)
  invFun | (n, s, c, u, a, t) => ⟨n, s, c, u, a, t⟩
  left_inv _ := rfl
  right_inv _ := rfl

/-- A header as the bytes of the sector that holds it. -/
def layout : FileHeader ≃ Sector :=
  let date := Equiv.refl (Fin DateLength → Byte)
  fields.trans (prodLayout wordLayout (prodLayout wordLayout (prodLayout date (prodLayout date
    (prodLayout date (arrayLayout wordLayout (NumDirect + NumFirst)))))))

def fetchFrom (d : Disk) (sector : ℤ) : Exec FileHeader := do
  return layout.symm (← d.readSector sector)

def writeBack (h : FileHeader) (d : Disk) (sector : ℤ) : Exec Disk :=
  d.writeSector sector (layout h)

def fileLength (h : FileHeader) : ℤ := h.numBytes.toInt

/-- The constructor clears the dates; `uninit` is what the memory held before. -/
def new (uninit : FileHeader) : FileHeader :=
  { uninit with createTime := fun _ => 0, updateTime := fun _ => 0, accessTime := fun _ => 0 }

/-! ## Dates -/

/-- `getFormatDate(out)`; `szTime` is the text it formats the current time to. -/
def getFormatDate (out : Fin DateLength → Byte) (szTime : List Byte) : Fin DateLength → Byte :=
  strncpy out szTime (DateLength - 1)

def setCreateTime (h : FileHeader) (szTime : List Byte) : FileHeader :=
  { h with createTime := getFormatDate h.createTime szTime }

def setAccessTime (h : FileHeader) (szTime : List Byte) : FileHeader :=
  { h with accessTime := getFormatDate h.accessTime szTime }

/-! ## Allocation -/

/-- `numSectors > NumDirect`: the right side is unsigned, and so is the comparison. -/
def hasIndex (h : FileHeader) : Prop := h.numSectors.toNat > NumDirect

instance (h : FileHeader) : Decidable h.hasIndex := inferInstanceAs (Decidable (_ > _))

def needDirect (h : FileHeader) : ℕ :=
  if h.hasIndex then NumDirect else h.numSectors.toNat

/-- `numSectors - NumDirect` -/
def needIndirect (h : FileHeader) : ℕ := h.numSectors.toNat - NumDirect

/-- `table[i] = freeMap->Find()` for the next `n` indices from `i` on. -/
def fillTable {k : ℕ} (table : Fin k → Word) (freeMap : BitMap NumSectors) (i : ℕ) :
    ℕ → Exec ((Fin k → Word) × BitMap NumSectors)
  | 0 => .ok (table, freeMap)
  | n + 1 =>
      if h : i < k then
        let found := freeMap.find
        fillTable (Function.update table ⟨i, h⟩ (Word.ofInt found.1)) found.2 (i + 1) n
      else .error .bounds

/-- The entry of `dataSectors` that holds the number of the index sector. -/
def indexSlot : Fin (NumDirect + NumFirst) := ⟨NumDirect, by decide⟩

def setSize (h : FileHeader) (fileSize : ℤ) : FileHeader :=
  { h with
    numBytes := Word.ofInt fileSize
    numSectors := Word.ofInt (divRoundUp fileSize SectorSize) }

def setTable (h : FileHeader) (dataSectors : Fin (NumDirect + NumFirst) → Word) : FileHeader :=
  { h with dataSectors := dataSectors }

/-- Allocate the index sector and the sectors behind it, and write the index sector. -/
def allocateIndex (h : FileHeader) (freeMap : BitMap NumSectors) (d : Disk) :
    Exec (FileHeader × BitMap NumSectors × Disk) := do
  let found := freeMap.find
  let h := h.setTable (Function.update h.dataSectors indexSlot (Word.ofInt found.1))
  let (direct_first, freeMap) ← fillTable (fun _ : Fin NumIndex => 0) found.2 0 h.needIndirect
  let d ← d.writeSector (h.dataSectors indexSlot).toInt (indexLayout direct_first)
  return (h, freeMap, d)

/-- Initialise a fresh header for a file of `fileSize` bytes. -/
def allocate (h : FileHeader) (freeMap : BitMap NumSectors) (d : Disk) (fileSize : ℤ)
    (szTime : List Byte) : Exec (Bool × FileHeader × BitMap NumSectors × Disk) := do
  let h := h.setSize fileSize
  if (freeMap.numClear : ℤ) < h.numSectors.toInt then
    return (false, h, freeMap, d)
  let (dataSectors, freeMap) ← fillTable h.dataSectors freeMap 0 h.needDirect
  let h := h.setTable dataSectors
  let (h, freeMap, d) ← if h.hasIndex then h.allocateIndex freeMap d else pure (h, freeMap, d)
  return (true, h.setCreateTime szTime, freeMap, d)

/-- `(int) direct_first[pos * 4]`, where `direct_first` is an array of `char`. -/
def indexEntry (direct_first : Sector) (pos : ℕ) : Exec ℤ :=
  if h : pos * 4 < SectorSize then .ok (direct_first ⟨pos * 4, h⟩).toInt else .error .bounds

/-- `ASSERT(freeMap->Test(sector)); freeMap->Clear(sector);` -/
def release (freeMap : BitMap NumSectors) (sector : ℤ) : Exec (BitMap NumSectors) := do
  assert (← freeMap.test sector)
  freeMap.clear sector

def deallocate (h : FileHeader) (freeMap : BitMap NumSectors) (d : Disk) :
    Exec (BitMap NumSectors) := do
  let freeMap ← ((List.finRange (NumDirect + NumFirst)).take h.needDirect).foldlM
    (fun freeMap i => release freeMap (h.dataSectors i).toInt) freeMap
  if h.hasIndex then
    let direct_first ← d.readSector (h.dataSectors indexSlot).toInt
    let freeMap ← (List.range h.needIndirect).foldlM
      (fun freeMap i => do release freeMap (← indexEntry direct_first i)) freeMap
    release freeMap (h.dataSectors indexSlot).toInt
  else
    return freeMap

/-! ## Lookup -/

theorem directIndex_lt {offset : ℤ} (h : u32 offset ≤ (NumDirect * SectorSize : ℕ)) :
    (u32 offset / SectorSize).toNat < NumDirect + NumFirst := by
  have hnn : 0 ≤ u32 offset := Int.emod_nonneg _ (by decide)
  simp only [NumDirect, NumFirst, SectorSize, DateLength] at *
  omega

/-- The sector that holds the byte at `offset`. Both `offset <= NumDirect * SectorSize`
and the subtraction are unsigned. -/
def byteToSector (h : FileHeader) (d : Disk) (offset : ℤ) : Exec ℤ :=
  if hle : u32 offset ≤ (NumDirect * SectorSize : ℕ) then
    .ok (h.dataSectors ⟨(u32 offset / SectorSize).toNat, directIndex_lt hle⟩).toInt
  else do
    let pos := u32 (offset - (NumDirect * SectorSize : ℕ)) / SectorSize
    let direct_first ← d.readSector (h.dataSectors indexSlot).toInt
    indexEntry direct_first pos.toNat

end FileHeader

end Nachos
