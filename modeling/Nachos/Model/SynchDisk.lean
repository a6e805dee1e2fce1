import Nachos.Model.Component
import Nachos.Model.DiskTiming

/-! # The disk and its callers

`synchdisk.cc` on top of the kernel, with the requests of `disk.cc`: threads call `ReadSector` and
`WriteSector`, and an interrupt of the disk calls `RequestDone`. -/

namespace Nachos.SynchDisk

open Library

abbrev lock : ℕ := 0

abbrev semaphore : ℕ := 0

inductive Op where
  | readSector (sectorNumber : Fin NumSectors)
  | writeSector (sectorNumber : Fin NumSectors) (data : Sector)
  deriving DecidableEq

def Op.sectorNumber : Op → Fin NumSectors
  | .readSector s | .writeSector s _ => s

def Op.writing : Op → Bool
  | .readSector _ => false
  | .writeSector _ _ => true

/-- The code that calls the operations, and `ReadRequest` or `WriteRequest`. -/
inductive Routine where
  | caller
  | request (op : Op)
  deriving DecidableEq

/-- What a request finds in `stats` and in the field `active`, which interrupts change. -/
structure Readings where
  totalTicks : ℤ
  active : Bool
  deriving DecidableEq

/-- A request, the thread that has made it, and the data that were read or written. -/
structure Transfer where
  thread : ℕ
  sectorNumber : Fin NumSectors
  writing : Bool
  data : Sector

/-- The disk. The requests so far are recorded. -/
structure Device where
  timing : DiskDevice
  disk : Disk
  history : List Transfer

def component : Component Routine := ⟨.caller, [lock], [], [semaphore], [.disk]⟩

def request (g : Device) (r : Readings) (t : ℕ) (op : Op) :
    Exec (Device × List (Cmd Routine)) := do
  let (ticks, timing) ← DiskDevice.request { g.timing with active := r.active } r.totalTicks
    (op.sectorNumber : ℕ) op.writing
  match op with
  | .readSector s =>
      let data ← g.disk.readSector (s : ℕ)
      return ({ g with timing := timing, history := g.history ++ [⟨t, s, false, data⟩] },
        [.schedule ticks .disk])
  | .writeSector s data =>
      let disk ← g.disk.writeSector (s : ℕ) data
      return (⟨timing, disk, g.history ++ [⟨t, s, true, data⟩]⟩, [.schedule ticks .disk])

def step (g : Device) (t : ℕ) :
    Routine → Use component Op × Readings → Exec (Device × List (Cmd Routine))
  | .caller, (.call op, _) => .ok (g, [.call (.acquire lock), .run (.request op),
      .call (.p (.user semaphore)), .call (.release lock), .run .caller])
  | .caller, (.other x, _) => .ok (g, [x.1, .run .caller])
  | .caller, (.leave, _) => .ok (g, [])
  | .request op, (_, r) => request g r t op

theorem cmds_of_request {g g' : Device} {r : Readings} {t : ℕ} {op : Op}
    {cmds : List (Cmd Routine)} (h : request g r t op = .ok (g', cmds)) :
    ∃ ticks, cmds = [.schedule ticks .disk] := by
  obtain ⟨x, -, h⟩ := bind_eq_ok.mp h
  cases op with
  | readSector | writeSector =>
      obtain ⟨y, -, h⟩ := bind_eq_ok.mp h
      cases h
      exact ⟨_, rfl⟩

theorem isPublic_of_step {g g' : Device} {t : ℕ} {f : Routine} {i : Use component Op × Readings}
    {cmds : List (Cmd Routine)} (h : step g t f i = .ok (g', cmds)) : ∀ x ∈ cmds, x.Public := by
  cases f with
  | caller =>
      obtain ⟨use, r⟩ := i
      cases use with
      | call op =>
          cases h
          simp [Cmd.Public]
      | other x =>
          cases h
          simpa [Cmd.Public] using x.2.isPublic
      | leave =>
          cases h
          simp
  | request op =>
      obtain ⟨ticks, rfl⟩ := cmds_of_request h
      simp [Cmd.Public]

def program : Program Routine Device (Use component Op × Readings) where
  step f i g t := step g t f i
  isPublic _ _ _ _ _ _ h := isPublic_of_step h

def config (build : Build) (schedPriority : Bool) :
    Config Routine Device (Use component Op × Readings) where
  build := build
  schedPriority := schedPriority
  program := program

/-- The main thread is about to use a disk with the given contents. -/
def start (disk : Disk) (values : ℕ → ℤ) (machine : Option Machine) : Kernel Routine Device :=
  .start .caller ⟨.new, disk, []⟩ values machine

/-! ## The device -/

def noteActive (active : Bool) : Event Routine → Bool
  | .scheduled p => if p.type = .disk then true else active
  | .fired p _ => if p.type = .disk then false else active
  | _ => active

/-- The field `active`: requests set it, and `HandleInterrupt` clears it. -/
def active (log : List (Event Routine)) : Bool := log.foldl noteActive false

/-- What a handler that has nothing to do with the disk may do. -/
def Apart : HandlerAct → Bool
  | .schedule _ type => type ≠ .disk
  | .v n => n ≠ semaphore
  | .yieldOnReturn => true

/-- Requests see the clock and the device as they are, and the handler of the disk's interrupt
calls `RequestDone`. -/
def Serves (k : Kernel Routine Device) (env : Env (Use component Op × Readings)) : Prop :=
  env.choice.2 = ⟨k.stats.totalTicks, active k.log⟩ ∧
    ∀ e ∈ k.interrupt.pending.head?,
      if e.item.type = .disk then env.handler = [.v semaphore] else ∀ act ∈ env.handler, Apart act

instance (k : Kernel Routine Device) (env : Env (Use component Op × Readings)) :
    Decidable (Serves k env) := by
  unfold Serves
  infer_instance

end Nachos.SynchDisk
