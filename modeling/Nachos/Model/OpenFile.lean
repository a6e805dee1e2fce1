import Nachos.Library.Overwrite
import Nachos.Model.FileHeader

/-! # Open files

`openfile.cc`. An open file keeps a copy of the header of the file, the sector the header
came from and the position of the next transfer. -/

namespace Nachos

open Library

/-! ## Buffers -/

/-- `new char[n]`; `junk` is what the memory holds. -/
def newChars (n : ℤ) (junk : ℕ → Byte) : Exec (List Byte) :=
  if n < 0 then .error .badAlloc else .ok ((List.range n.toNat).map junk)

/-- The bytes that `bcopy(&buf[start], _, n)` copies. -/
def bcopyFrom (buf : List Byte) (start n : ℤ) : Exec (List Byte) :=
  if 0 ≤ start ∧ 0 ≤ n ∧ start + n ≤ buf.length then
    .ok ((buf.drop start.toNat).take n.toNat)
  else .error .bounds

/-- The buffer after `bcopy(data, &buf[start], _)`. -/
def bcopyTo (buf : List Byte) (start : ℤ) (data : List Byte) : Exec (List Byte) :=
  if 0 ≤ start ∧ start + data.length ≤ buf.length then
    .ok (overwrite buf start.toNat data)
  else .error .bounds

/-! ## The sectors of a request -/

/-- A request after it has been clamped to the end of the file. -/
structure Extent where
  numBytes : ℤ
  firstSector : ℤ
  lastSector : ℤ

/-- The start of `ReadAt` and `WriteAt`: nothing is transferred for a request without
bytes or from behind the end of the file. -/
def extent (fileLength numBytes position : ℤ) : Option Extent :=
  if numBytes ≤ 0 ∨ position ≥ fileLength then none
  else
    let numBytes := if i32 (position + numBytes) > fileLength then i32 (fileLength - position)
      else numBytes
    some {
      numBytes := numBytes
      firstSector := divRoundDown position SectorSize
      lastSector := divRoundDown (i32 (position + numBytes - 1)) SectorSize }

namespace Extent

def numSectors (e : Extent) : ℤ := i32 (1 + e.lastSector - e.firstSector)

/-- Where the request starts in a buffer that holds its sectors. -/
def start (e : Extent) (position : ℤ) : ℤ :=
  i32 (position - i32 (e.firstSector * SectorSize))

end Extent

/-- Read `n` blocks of a file from block `i` on, one behind the other. -/
def FileHeader.readSectors (h : FileHeader) (d : Disk) (i : ℤ) : ℕ → Exec (List Byte)
  | 0 => .ok []
  | n + 1 => do
      let data ← d.readSector (← h.byteToSector d (i32 (i * SectorSize)))
      return List.ofFn data ++ (← h.readSectors d (i + 1) n)

/-- Write `n` blocks of a file from block `i` on. -/
def FileHeader.writeSectors (h : FileHeader) (d : Disk) (i : ℤ) (buf : List Byte) :
    ℕ → Exec Disk
  | 0 => .ok d
  | n + 1 => do
      let d ← d.writeSector (← h.byteToSector d (i32 (i * SectorSize))) (Sector.ofList buf)
      h.writeSectors d (i + 1) (buf.drop SectorSize) n

/-! ## The file -/

structure OpenFile where
  hdr : FileHeader
  hdrSector : ℤ
  seekPosition : ℤ

namespace OpenFile

def new (d : Disk) (sector : ℤ) : Exec OpenFile := do
  return ⟨← FileHeader.fetchFrom d sector, sector, 0⟩

def seek (f : OpenFile) (position : ℤ) : OpenFile := { f with seekPosition := position }

/-- `ReadAt`: the value it returns and the bytes it copies to `into`. -/
def readAt (f : OpenFile) (d : Disk) (numBytes position : ℤ) : Exec (ℤ × List Byte) :=
  match extent f.hdr.fileLength numBytes position with
  | none => .ok (0, [])
  | some e =>
      -- the sectors fill the new buffer, so that nothing of its old contents is left
      if i32 (e.numSectors * SectorSize) < 0 then .error .badAlloc
      else do
        let buf ← f.hdr.readSectors d e.firstSector e.numSectors.toNat
        return (e.numBytes, ← bcopyFrom buf (e.start position) e.numBytes)

/-- `ReadAt(&buf[start], SectorSize, position)` -/
def readInto (f : OpenFile) (d : Disk) (buf : List Byte) (start position : ℤ) :
    Exec (List Byte) := do
  bcopyTo buf start (← f.readAt d SectorSize position).2

/-- Read in the first sector of a request, if it is to be partially modified. -/
def readFirst (f : OpenFile) (d : Disk) (e : Extent) (position : ℤ) (buf : List Byte) :
    Exec (List Byte) :=
  if position ≠ i32 (e.firstSector * SectorSize) then
    f.readInto d buf 0 (i32 (e.firstSector * SectorSize))
  else .ok buf

/-- Read in the last sector, if it is to be partially modified and was not read yet. -/
def readLast (f : OpenFile) (d : Disk) (e : Extent) (position : ℤ) (buf : List Byte) :
    Exec (List Byte) :=
  if i32 (position + e.numBytes) ≠ i32 ((e.lastSector + 1) * SectorSize) ∧
      (e.firstSector ≠ e.lastSector ∨ position = i32 (e.firstSector * SectorSize)) then
    f.readInto d buf (i32 ((e.lastSector - e.firstSector) * SectorSize))
      (i32 (e.lastSector * SectorSize))
  else .ok buf

/-- `WriteAt`; `src` is the buffer `from`. -/
def writeAt (f : OpenFile) (d : Disk) (junk : ℕ → Byte) (src : List Byte)
    (numBytes position : ℤ) : Exec (ℤ × Disk) :=
  match extent f.hdr.fileLength numBytes position with
  | none => .ok (0, d)
  | some e => do
      let buf ← newChars (i32 (e.numSectors * SectorSize)) junk
      let buf ← f.readFirst d e position buf
      let buf ← f.readLast d e position buf
      let buf ← bcopyTo buf (e.start position) (← bcopyFrom src 0 e.numBytes)
      let d ← f.hdr.writeSectors d e.firstSector buf e.numSectors.toNat
      return (e.numBytes, d)

/-- Advance the position and note the time of the access. -/
def touch (f : OpenFile) (szTime : List Byte) (result : ℤ) : OpenFile :=
  { f with
    seekPosition := i32 (f.seekPosition + result)
    hdr := f.hdr.setAccessTime szTime }

/-- What `Read` and `Write` do after the transfer. The header is written back to the sector
it once came from. -/
def finish (f : OpenFile) (d : Disk) (szTime : List Byte) (result : ℤ) :
    Exec (OpenFile × Disk) := do
  let f := f.touch szTime result
  return (f, ← f.hdr.writeBack d f.hdrSector)

def read (f : OpenFile) (d : Disk) (szTime : List Byte) (numBytes : ℤ) :
    Exec ((ℤ × List Byte) × OpenFile × Disk) := do
  let result ← f.readAt d numBytes f.seekPosition
  return (result, ← f.finish d szTime result.1)

def write (f : OpenFile) (d : Disk) (szTime : List Byte) (junk : ℕ → Byte) (src : List Byte)
    (numBytes : ℤ) : Exec (ℤ × OpenFile × Disk) := do
  let (result, d) ← f.writeAt d junk src numBytes f.seekPosition
  return (result, ← f.finish d szTime result)

def length (f : OpenFile) : ℤ := f.hdr.fileLength

/-! ## Records kept in a file -/

/-- `ReadAt((char *) &x, sizeof(x), 0)`: what is not read keeps its value. -/
def fetch {α : Type} {k : ℕ} (layout : α ≃ (Fin k → Byte)) (x : α) (f : OpenFile) (d : Disk) :
    Exec α := do
  let data := (← f.readAt d k 0).2
  return layout.symm fun i => data.getD i (layout x i)

/-- `WriteAt((char *) &x, sizeof(x), 0)` -/
def store {α : Type} {k : ℕ} (layout : α ≃ (Fin k → Byte)) (x : α) (f : OpenFile) (d : Disk)
    (junk : ℕ → Byte) : Exec Disk := do
  return (← f.writeAt d junk (List.ofFn (layout x)) k 0).2

/-! ## Calls -/

/-- What a call finds outside of its arguments: the text of the current date and the
contents of newly allocated memory. -/
structure Env where
  szTime : List Byte
  junk : ℕ → Byte

inductive Call where
  | seek (position : ℤ)
  | read (numBytes : ℤ)
  | write (src : List Byte) (numBytes : ℤ)
  | readAt (numBytes position : ℤ)
  | writeAt (src : List Byte) (numBytes position : ℤ)

/-- The value that a call returns together with the bytes it copies out. -/
abbrev Result := ℤ × List Byte

def Call.run (env : Env) (f : OpenFile) (d : Disk) : Call → Exec (Result × OpenFile × Disk)
  | seek position => .ok ((0, []), f.seek position, d)
  | read numBytes => f.read d env.szTime numBytes
  | write src numBytes => do
      let (result, f, d) ← f.write d env.szTime env.junk src numBytes
      return ((result, []), f, d)
  | readAt numBytes position => do
      return (← f.readAt d numBytes position, f, d)
  | writeAt src numBytes position => do
      let (result, d) ← f.writeAt d env.junk src numBytes position
      return ((result, []), f, d)

/-- A sequence of calls on one open file. -/
def runAll (f : OpenFile) (d : Disk) :
    List (Env × Call) → Exec (List Result × OpenFile × Disk)
  | [] => .ok ([], f, d)
  | (env, call) :: calls => do
      let (result, f, d) ← call.run env f d
      let (results, f, d) ← f.runAll d calls
      return (result :: results, f, d)

end OpenFile

namespace BitMap

variable {numBits : ℕ}

def layout : BitMap numBits ≃ (Fin (numWords numBits * 4) → Byte) :=
  (Equiv.mk BitMap.map BitMap.mk (fun _ => rfl) fun _ => rfl).trans
    (arrayLayout wordLayout (numWords numBits))

def fetchFrom (bm : BitMap numBits) (file : OpenFile) (d : Disk) : Exec (BitMap numBits) :=
  OpenFile.fetch layout bm file d

def writeBack (bm : BitMap numBits) (file : OpenFile) (d : Disk) (junk : ℕ → Byte) : Exec Disk :=
  OpenFile.store layout bm file d junk

end BitMap

end Nachos
