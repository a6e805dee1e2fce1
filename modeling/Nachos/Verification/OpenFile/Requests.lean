import Nachos.Library.Logged
import Nachos.Verification.OpenFile.Transfer

/-! # What a request touches

`ReadAt` and `WriteAt` once more, over any way to read and write blocks and with a note of
each access to a block, to the buffer for the sectors and to the buffer of the caller. -/

namespace Nachos

open Library Logged

inductive Access where
  /-- Block `i` of the file is read or written. -/
  | block (i : ℤ)
  /-- Some bytes from `start` on of a buffer of `size` bytes for sectors. -/
  | buffer (size start length : ℤ)
  /-- Some bytes from `start` on of the buffer of the caller. -/
  | caller (start length : ℤ)
  deriving DecidableEq

/-- Blocks of the file are read and written in some state. -/
structure BlockFile (σ : Type) where
  read : σ → ℤ → Exec Sector
  write : σ → ℤ → Sector → Exec σ

def Extent.bufferSize (e : Extent) : ℤ := i32 (e.numSectors * SectorSize)

/-- The access of a call that gets `&buf[start]` as its buffer. -/
def Access.redirect (size start : ℤ) : Access → Access
  | block i => .block i
  | buffer size' start' length => .buffer size' start' length
  | caller start' length => .buffer size (start + start') length

namespace BlockFile

variable {σ : Type} (io : BlockFile σ) (s : σ)

def readSectors (e : Extent) (i : ℤ) : ℕ → Logged Fault Access (List Byte)
  | 0 => pure []
  | n + 1 => do
      log (.block i)
      let data ← lift (io.read s i)
      log (.buffer e.bufferSize (i32 ((i - e.firstSector) * SectorSize)) SectorSize)
      return List.ofFn data ++ (← readSectors e (i + 1) n)

def writeSectors (e : Extent) (s : σ) (i : ℤ) (buf : List Byte) : ℕ → Logged Fault Access σ
  | 0 => pure s
  | n + 1 => do
      log (.buffer e.bufferSize (i32 ((i - e.firstSector) * SectorSize)) SectorSize)
      log (.block i)
      let s ← lift (io.write s i (Sector.ofList buf))
      writeSectors e s (i + 1) (buf.drop SectorSize) n

variable (fileLength : ℤ)

def readAt (numBytes position : ℤ) : Logged Fault Access (ℤ × List Byte) :=
  match extent fileLength numBytes position with
  | none => pure (0, [])
  | some e =>
      if e.bufferSize < 0 then lift (.error .badAlloc)
      else do
        let buf ← io.readSectors s e e.firstSector e.numSectors.toNat
        log (.buffer e.bufferSize (e.start position) e.numBytes)
        log (.caller 0 e.numBytes)
        return (e.numBytes, ← lift (bcopyFrom buf (e.start position) e.numBytes))

def readInto (e : Extent) (buf : List Byte) (start position : ℤ) :
    Logged Fault Access (List Byte) := do
  let (_, data) ← relabel (.redirect e.bufferSize start)
    (io.readAt s fileLength SectorSize position)
  lift (bcopyTo buf start data)

def readFirst (e : Extent) (position : ℤ) (buf : List Byte) : Logged Fault Access (List Byte) :=
  if position ≠ i32 (e.firstSector * SectorSize) then
    io.readInto s fileLength e buf 0 (i32 (e.firstSector * SectorSize))
  else pure buf

def readLast (e : Extent) (position : ℤ) (buf : List Byte) : Logged Fault Access (List Byte) :=
  if i32 (position + e.numBytes) ≠ i32 ((e.lastSector + 1) * SectorSize) ∧
      (e.firstSector ≠ e.lastSector ∨ position = i32 (e.firstSector * SectorSize)) then
    io.readInto s fileLength e buf (i32 ((e.lastSector - e.firstSector) * SectorSize))
      (i32 (e.lastSector * SectorSize))
  else pure buf

def writeAt (junk : ℕ → Byte) (src : List Byte) (numBytes position : ℤ) :
    Logged Fault Access (ℤ × σ) :=
  match extent fileLength numBytes position with
  | none => pure (0, s)
  | some e => do
      let buf ← lift (newChars e.bufferSize junk)
      let buf ← io.readFirst s fileLength e position buf
      let buf ← io.readLast s fileLength e position buf
      log (.caller 0 e.numBytes)
      let data ← lift (bcopyFrom src 0 e.numBytes)
      log (.buffer e.bufferSize (e.start position) e.numBytes)
      let buf ← lift (bcopyTo buf (e.start position) data)
      let s ← io.writeSectors e s e.firstSector buf e.numSectors.toNat
      return (e.numBytes, s)

end BlockFile

/-! ## The calls of the model -/

/-- The blocks of a file on the disk. -/
def FileHeader.blockFile (h : FileHeader) : BlockFile Disk where
  read d i := do d.readSector (← h.byteToSector d (i32 (i * SectorSize)))
  write d i data := do d.writeSector (← h.byteToSector d (i32 (i * SectorSize))) data

namespace OpenFile

variable (f : OpenFile) (d : Disk)

theorem readSectors_logged (h : FileHeader) (e : Extent) (i : ℤ) (n : ℕ) :
    (h.blockFile.readSectors d e i n).result = h.readSectors d i n := by
  induction n generalizing i with
  | zero => rfl
  | succ n ih =>
      simp only [BlockFile.readSectors, FileHeader.readSectors, FileHeader.blockFile, result_bind,
        result_log, result_lift, ok_bind, bind_assoc]
      simp only [← ih, result_pure]
      rfl

theorem writeSectors_logged (h : FileHeader) (e : Extent) (i : ℤ) (buf : List Byte) (n : ℕ) :
    (h.blockFile.writeSectors e d i buf n).result = h.writeSectors d i buf n := by
  induction n generalizing i buf d with
  | zero => rfl
  | succ n ih =>
      simp only [BlockFile.writeSectors, FileHeader.writeSectors, FileHeader.blockFile, result_bind,
        result_log, result_lift, ok_bind, bind_assoc]
      simp only [← ih]
      rfl

/-- Without its notes the call is the one of the model. -/
theorem readAt_logged (numBytes position : ℤ) :
    (f.hdr.blockFile.readAt d f.hdr.fileLength numBytes position).result =
      f.readAt d numBytes position := by
  rw [BlockFile.readAt, readAt]
  cases extent f.hdr.fileLength numBytes position with
  | none => rfl
  | some e =>
      dsimp only
      rw [Extent.bufferSize]
      split
      · rfl
      · simp only [result_bind, result_log, result_lift, result_pure, ok_bind,
          readSectors_logged]
        rfl

theorem readInto_logged (e : Extent) (buf : List Byte) (start position : ℤ) :
    (f.hdr.blockFile.readInto d f.hdr.fileLength e buf start position).result =
      f.readInto d buf start position := by
  simp only [BlockFile.readInto, readInto, result_bind, result_relabel, readAt_logged, result_lift]

theorem writeAt_logged (junk : ℕ → Byte) (src : List Byte) (numBytes position : ℤ) :
    (f.hdr.blockFile.writeAt d f.hdr.fileLength junk src numBytes position).result =
      f.writeAt d junk src numBytes position := by
  rw [BlockFile.writeAt, writeAt]
  cases extent f.hdr.fileLength numBytes position with
  | none => rfl
  | some e =>
      have hfirst : ∀ buf, (f.hdr.blockFile.readFirst d f.hdr.fileLength e position buf).result =
          f.readFirst d e position buf := by
        intro buf
        rw [BlockFile.readFirst, readFirst]
        split
        · exact readInto_logged f d e buf _ _
        · rfl
      have hlast : ∀ buf, (f.hdr.blockFile.readLast d f.hdr.fileLength e position buf).result =
          f.readLast d e position buf := by
        intro buf
        rw [BlockFile.readLast, readLast]
        split
        · exact readInto_logged f d e buf _ _
        · rfl
      simp only [result_bind, result_log, result_lift, result_pure, ok_bind, hfirst, hlast,
        writeSectors_logged]
      rfl

end OpenFile

end Nachos
