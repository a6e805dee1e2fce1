import Nachos.Model.Disk

/-! # The timing of the disk

How long a request to `disk.cc` takes. Times are in ticks and do not overflow. -/

namespace Nachos

abbrev SectorsPerTrack : ℤ := 32

abbrev RotationTime : ℤ := 500

abbrev SeekTime : ℤ := 500

/-- The fields of `Disk` that its timing depends on. -/
structure DiskDevice where
  lastSector : ℤ
  bufferInit : ℤ
  active : Bool
  deriving DecidableEq, Repr

namespace DiskDevice

def new : DiskDevice := ⟨0, 0, false⟩

variable (d : DiskDevice) (totalTicks newSector : ℤ)

/-- The time for the seek, and `*rotation`. -/
def timeToSeek : ℤ × ℤ :=
  let newTrack := newSector.tdiv SectorsPerTrack
  let oldTrack := d.lastSector.tdiv SectorsPerTrack
  let seek := |newTrack - oldTrack| * SeekTime
  let beyond := (totalTicks + seek).tmod RotationTime
  (seek, if beyond > 0 then RotationTime - beyond else 0)

def moduloDiff (target source : ℤ) : ℤ :=
  let toOffset := target.tmod SectorsPerTrack
  let fromOffset := source.tmod SectorsPerTrack
  (toOffset - fromOffset + SectorsPerTrack).tmod SectorsPerTrack

/-- The variable `timeAfter` of `ComputeLatency`. -/
def timeAfter : ℤ :=
  totalTicks + (d.timeToSeek totalTicks newSector).1 + (d.timeToSeek totalTicks newSector).2

/-- The track buffer applies. -/
def buffered (writing : Bool) : Bool :=
  writing = false ∧ (d.timeToSeek totalTicks newSector).1 = 0 ∧
    (d.timeAfter totalTicks newSector - d.bufferInit).tdiv RotationTime >
      moduloDiff newSector (d.bufferInit.tdiv RotationTime)

def computeLatency (writing : Bool) : ℤ :=
  if d.buffered totalTicks newSector writing then RotationTime
  else
    let (seek, rotation) := d.timeToSeek totalTicks newSector
    let rotation := rotation +
      moduloDiff newSector ((d.timeAfter totalTicks newSector).tdiv RotationTime) * RotationTime
    seek + rotation + RotationTime

def updateLast : DiskDevice :=
  let (seek, rotate) := d.timeToSeek totalTicks newSector
  { d with
    bufferInit := if seek ≠ 0 then totalTicks + seek + rotate else d.bufferInit
    lastSector := newSector }

/-- `ReadRequest` and `WriteRequest`; the result is after how many ticks the interrupt is
scheduled. -/
def request (writing : Bool) : Exec (ℤ × DiskDevice) := do
  let ticks := d.computeLatency totalTicks newSector writing
  assert (!d.active)
  assert (0 ≤ newSector ∧ newSector < NumSectors)
  return (ticks, ({ d with active := true } : DiskDevice).updateLast totalTicks newSector)

def handleInterrupt : DiskDevice := { d with active := false }

end DiskDevice

end Nachos
