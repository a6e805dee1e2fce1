import Nachos.Library.Heap
import Nachos.Model.BitMap
import Nachos.Model.Disk

/-! # The simulated machine

The machine of `machine.cc` and `translate.cc` with the exception handler of
`exception.cc`. What depends on the handler is defined for any handler first. Translation
tables are shared by pointers, so that they live on a heap of their own. -/

namespace Nachos

open Library

abbrev PageSize : ℕ := SectorSize

abbrev NumPhysPages : ℕ := 32

abbrev MemorySize : ℕ := NumPhysPages * PageSize

abbrev TLBSize : ℕ := 4

abbrev NumGPRegs : ℕ := 32

abbrev NumTotalRegs : ℕ := 40

instance : NeZero NumPhysPages := ⟨by decide⟩

instance : NeZero NumTotalRegs := ⟨by decide⟩

abbrev StackReg : Fin NumTotalRegs := 29

abbrev PCReg : Fin NumTotalRegs := 34

abbrev NextPCReg : Fin NumTotalRegs := 35

abbrev LoadReg : Fin NumTotalRegs := 37

abbrev LoadValueReg : Fin NumTotalRegs := 38

abbrev BadVAddrReg : Fin NumTotalRegs := 39

abbrev SC_Halt : Word := 0

abbrev SC_Exit : Word := 1

/-- The defines `USE_TLB`, `TLB_LRU` and `MULTI_THREAD`. -/
structure Build where
  useTlb : Bool
  tlbLru : Bool
  multiThread : Bool
  deriving DecidableEq, Repr

inductive ExceptionType where
  | syscallException
  | pageFaultException
  | readOnlyException
  | busErrorException
  | addressErrorException
  | overflowException
  | illegalInstrException
  deriving DecidableEq, Repr

structure TranslationEntry where
  virtualPage : Word
  physicalPage : Word
  valid : Bool
  readOnly : Bool
  use : Bool
  dirty : Bool
  hitRate : Word
  deriving DecidableEq, Repr

/-- `tlb` and `pageTable` are pointers into `heap`, which stands for the part of the host's
memory that holds translation tables. -/
structure Machine where
  registers : Fin NumTotalRegs → Word
  mainMemory : Fin MemorySize → Byte
  tlb : Option ℕ
  pageTable : Option ℕ
  pageTableSize : ℕ
  bitMap : BitMap NumPhysPages
  heap : Heap (List TranslationEntry)

namespace Machine

/-- `Machine::Machine`; `entries` is what `new` returned for the TLB and `uninit` what the
fields that are not set hold. -/
def new (build : Build) (entries : Fin TLBSize → TranslationEntry) (uninit : BitMap NumPhysPages)
    (pageTableSize : ℕ) : Machine :=
  let tlb := (List.ofFn entries).map fun e => { e with valid := false, hitRate := 0 }
  { registers := fun _ => 0
    mainMemory := fun _ => 0
    tlb := if build.useTlb then some 0 else none
    pageTable := none
    pageTableSize := pageTableSize
    bitMap := BitMap.new uninit
    heap := if build.useTlb then Heap.empty.alloc tlb else Heap.empty }

/-! ## Physical memory -/

def load (m : Machine) (p : ℤ) : Exec Byte :=
  if h : 0 ≤ p ∧ p < MemorySize then .ok (m.mainMemory ⟨p.toNat, by omega⟩) else .error .bounds

def store (m : Machine) (p : ℤ) (b : Byte) : Exec Machine :=
  if h : 0 ≤ p ∧ p < MemorySize then
    .ok { m with mainMemory := Function.update m.mainMemory ⟨p.toNat, by omega⟩ b }
  else .error .bounds

/-- `n` bytes from `p` on, the least significant one first. -/
def loadBytes (m : Machine) (p : ℤ) : ℕ → Exec Word
  | 0 => .ok 0
  | n + 1 => do
      let low ← m.load p
      let high ← m.loadBytes (p + 1) n
      return high <<< 8 ||| low.setWidth 32

def storeBytes (m : Machine) (p : ℤ) : List Byte → Exec Machine
  | [] => .ok m
  | b :: bytes => do
      let m ← m.store p b
      m.storeBytes (p + 1) bytes

/-- The `n` low bytes of a word, the least significant one first. -/
def lowBytes (value : Word) (n : ℕ) : List Byte :=
  (List.range n).map fun i => value.extractLsb' (8 * i) 8

/-! ## Registers -/

def setRegister (m : Machine) (r : Fin NumTotalRegs) (value : Word) : Machine :=
  { m with registers := Function.update m.registers r value }

def delayedLoad (m : Machine) (nextReg nextVal : Word) : Exec Machine :=
  let target := (m.registers LoadReg).toInt
  if h : 0 ≤ target ∧ target < NumTotalRegs then
    .ok ((((m.setRegister ⟨target.toNat, by omega⟩ (m.registers LoadValueReg)).setRegister
      LoadReg nextReg).setRegister LoadValueReg nextVal).setRegister 0 0)
  else .error .bounds

/-! ## Translation tables -/

def table (m : Machine) (p : ℕ) : Exec (List TranslationEntry) :=
  match m.heap.cell p with
  | some t => .ok t
  | none => .error .bounds

def setTable (m : Machine) (p : ℕ) (t : List TranslationEntry) : Machine :=
  { m with heap := m.heap.modify p fun _ => t }

/-- `t[i]` -/
def entryAt (t : List TranslationEntry) (i : ℤ) : Exec TranslationEntry :=
  if h : 0 ≤ i ∧ i < t.length then .ok (t.get ⟨i.toNat, by omega⟩) else .error .bounds

/-- The first of the next `n` entries for which `p` holds. -/
def scan (p : TranslationEntry → Bool) : ℕ → List TranslationEntry → ℕ → Exec (Option ℕ)
  | 0, _, _ => .ok none
  | _ + 1, [], _ => .error .bounds
  | n + 1, e :: t, i => if p e then .ok (some i) else scan p n t (i + 1)

/-! ## `Translate` -/

/-- The alignment check of `Translate`. -/
def misaligned (virtAddr : Word) (size : ℤ) : Bool :=
  (size = 4 ∧ virtAddr &&& 3 ≠ 0) ∨ (size = 2 ∧ virtAddr &&& 1 ≠ 0)

/-- `(unsigned) virtAddr / PageSize` -/
def pageOf (virtAddr : Word) : ℕ := virtAddr.toNat / PageSize

/-- `(unsigned) virtAddr % PageSize` -/
def offsetOf (virtAddr : Word) : ℕ := virtAddr.toNat % PageSize

/-- What `Translate` returns: the physical address, or another exception than
`NoException`. -/
inductive Translation where
  | physAddr (a : ℕ)
  | exception (e : ExceptionType)
  deriving DecidableEq, Repr

/-- The end of `Translate`, once the entry is found. -/
def useEntry (e : TranslationEntry) (offset : ℕ) (size : ℤ) (writing : Bool) :
    Exec (Translation × TranslationEntry) :=
  if e.readOnly && writing then .ok (.exception .readOnlyException, e)
  else if e.physicalPage.toNat ≥ NumPhysPages then .ok (.exception .busErrorException, e)
  else do
    let physAddr := e.physicalPage.toNat * PageSize + offset
    assert (physAddr + size ≤ MemorySize)
    return (.physAddr physAddr, { e with use := true, dirty := e.dirty || writing })

/-- `Translate` with the page table at `p`. -/
def translateLinear (m : Machine) (p : ℕ) (virtAddr : Word) (size : ℤ) (writing : Bool) :
    Exec (Translation × Machine) :=
  if pageOf virtAddr ≥ m.pageTableSize then .ok (.exception .addressErrorException, m)
  else do
    let t ← m.table p
    let e ← entryAt t (pageOf virtAddr)
    if e.valid then
      let (result, e) ← useEntry e (offsetOf virtAddr) size writing
      return (result, m.setTable p (t.set (pageOf virtAddr) e))
    else return (.exception .pageFaultException, m)

/-- `Translate` with the TLB at `p`. -/
def translateTlb (m : Machine) (p : ℕ) (virtAddr : Word) (size : ℤ) (writing : Bool) :
    Exec (Translation × Machine) := do
  let t ← m.table p
  match ← scan (fun e => e.valid && e.virtualPage.toNat == pageOf virtAddr) TLBSize t 0 with
  | some i => do
      let e ← entryAt t i
      let (result, e) ← useEntry { e with hitRate := e.hitRate + 1 } (offsetOf virtAddr) size
        writing
      return (result, m.setTable p (t.set i e))
  | none => return (.exception .pageFaultException, m)

def translate (m : Machine) (virtAddr : Word) (size : ℤ) (writing : Bool) :
    Exec (Translation × Machine) :=
  if misaligned virtAddr size then .ok (.exception .addressErrorException, m)
  else
    match m.tlb, m.pageTable with
    | none, some p => m.translateLinear p virtAddr size writing
    | some p, none => m.translateTlb p virtAddr size writing
    | _, _ => .error .assertion

/-! ## Exceptions -/

/-- The entry that has been hit least often, if any has been hit less than `INT_MAX` times. -/
def leastUsed : ℕ → List TranslationEntry → ℕ → ℤ → Option ℕ → Exec (Option ℕ)
  | 0, _, _, _, swapI => .ok swapI
  | _ + 1, [], _, _, _ => .error .bounds
  | n + 1, e :: t, i, min, swapI =>
      if e.valid ∧ e.hitRate.toInt < min then leastUsed n t (i + 1) e.hitRate.toInt (some i)
      else leastUsed n t (i + 1) min swapI

/-- The replacement when every entry is valid. Without `TLB_LRU` the entries move up and
the last one takes its frame from `pageTable`. -/
def replace (build : Build) (m : Machine) (t : List TranslationEntry) (vpn : ℤ) :
    Exec (List TranslationEntry × ℕ) :=
  if build.tlbLru then do
    match ← leastUsed TLBSize t 0 (2 ^ 31 - 1) none with
    | some i => return (t, i)
    | none => .error .bounds
  else
    match m.pageTable with
    | some q => do
        let e ← entryAt (← m.table q) vpn
        let last ← entryAt t (TLBSize - 1)
        return ((t.take TLBSize).drop 1 ++ { last with physicalPage := e.physicalPage } ::
          t.drop TLBSize, TLBSize - 1)
    | none => .error .bounds

/-- The frame of the entry is left as it is. -/
def tlbSwap (build : Build) (m : Machine) (vaddr : Word) : Exec Machine :=
  match m.tlb with
  | none => .error .assertion
  | some p => do
      let t ← m.table p
      let vpn := vaddr.toInt.tdiv PageSize
      let (t, swapI) ← match ← scan (fun e => !e.valid) TLBSize t 0 with
        | some i => .ok (t, i)
        | none => replace build m t vpn
      let e ← entryAt t swapI
      return m.setTable p (t.set swapI { e with
        valid := true
        virtualPage := Word.ofInt vpn
        use := false
        dirty := false
        readOnly := false
        hitRate := 0 })

/-- `Find`, which must succeed. -/
def find (m : Machine) : Exec (ℤ × Machine) := do
  let found := m.bitMap.find
  assert (found.1 ≠ -1)
  return (found.1, { m with bitMap := found.2 })

def clear (m : Machine) (num : ℤ) : Exec Machine := do
  if ← m.bitMap.test num then
    return { m with bitMap := ← m.bitMap.clear num }
  else return m

/-- The frames of the first entries of a table are cleared. -/
def clearEntries (t : List TranslationEntry) : ℕ → ℕ → Machine → Exec Machine
  | 0, _, m => .ok m
  | n + 1, i, m => do
      let e ← entryAt t i
      let m ← m.clear e.physicalPage.toInt
      clearEntries t n (i + 1) m

def clearAll (build : Build) (m : Machine) : Exec Machine :=
  match (if build.useTlb then m.tlb else m.pageTable) with
  | some p => do clearEntries (← m.table p) m.pageTableSize 0 m
  | none => if m.pageTableSize = 0 then .ok m else .error .bounds

/-- How the kernel leaves the exception handler. -/
inductive Control where
  | resume
  | halt
  | finish
  deriving DecidableEq, Repr

def incrementPCRegs (m : Machine) : Machine := m.setRegister PCReg (m.registers NextPCReg)

def exceptionHandler (build : Build) (m : Machine) (which : ExceptionType) :
    Exec (Control × Machine) :=
  let type := m.registers 2
  if which = .syscallException ∧ type = SC_Halt then do
    return (.halt, ← m.clearAll build)
  else if which = .syscallException ∧ type = SC_Exit then do
    let m ← m.clearAll build
    return (.finish, m.incrementPCRegs)
  else if which = .pageFaultException then
    if m.tlb.isSome then do
      return (.resume, ← m.tlbSwap build (m.registers BadVAddrReg))
    else .ok (.resume, m)
  else .error .assertion

/-- What the kernel does at an exception. -/
abbrev Handler := ExceptionType → Machine → Exec (Control × Machine)

/-- The handler of `exception.cc`. -/
def kernel (build : Build) : Handler := fun which m => m.exceptionHandler build which

/-- `RaiseException` under any handler -/
def raiseTo (handler : Handler) (m : Machine) (which : ExceptionType) (badVAddr : Word) :
    Exec (Control × Machine) := do
  let m ← (m.setRegister BadVAddrReg badVAddr).delayedLoad 0 0
  handler which m

def raiseException (build : Build) (m : Machine) (which : ExceptionType) (badVAddr : Word) :
    Exec (Control × Machine) :=
  m.raiseTo (kernel build) which badVAddr

/-! ## `ReadMem` and `WriteMem` -/

/-- The common start of `ReadMem` and `WriteMem`: the physical address that they go on to
use, or `none` if they return `FALSE`. The result of the second `Translate` is not looked
at, so that `uninit`, what the variable `physicalAddress` holds before it is set, may be
the address. -/
def resolveTo (handler : Handler) (m : Machine) (addr : Word) (size : ℤ) (writing : Bool)
    (uninit : ℤ) : Exec (Option ℤ × Machine) := do
  let (result, m) ← m.translate addr size writing
  match result with
  | .physAddr a => return (some (a : ℤ), m)
  | .exception e => do
      let (_, m) ← m.raiseTo handler e addr
      if e = .pageFaultException then
        let (result, m) ← m.translate addr size true
        match result with
        | .physAddr a => return (some (a : ℤ), m)
        | .exception _ => return (some uninit, m)
      else return (none, m)

/-- The value read, or `none` if the call returns `FALSE`. -/
def readMemTo (handler : Handler) (m : Machine) (addr : Word) (size : ℤ) (uninit : ℤ) :
    Exec (Option Word × Machine) := do
  let (physicalAddress, m) ← m.resolveTo handler addr size false uninit
  match physicalAddress with
  | none => return (none, m)
  | some p =>
      if size = 1 then return (some ((← m.load p).signExtend 32), m)
      else if size = 2 then return (some (← m.loadBytes p 2), m)
      else if size = 4 then return (some (← m.loadBytes p 4), m)
      else .error .assertion

def writeMemTo (handler : Handler) (m : Machine) (addr : Word) (size : ℤ) (value : Word)
    (uninit : ℤ) : Exec (Bool × Machine) := do
  let (physicalAddress, m) ← m.resolveTo handler addr size true uninit
  match physicalAddress with
  | none => return (false, m)
  | some p =>
      if size = 1 then return (true, ← m.storeBytes p (lowBytes value 1))
      else if size = 2 then return (true, ← m.storeBytes p (lowBytes value 2))
      else if size = 4 then return (true, ← m.storeBytes p (lowBytes value 4))
      else .error .assertion

def resolve (build : Build) (m : Machine) (addr : Word) (size : ℤ) (writing : Bool)
    (uninit : ℤ) : Exec (Option ℤ × Machine) :=
  m.resolveTo (kernel build) addr size writing uninit

def readMem (build : Build) (m : Machine) (addr : Word) (size : ℤ) (uninit : ℤ) :
    Exec (Option Word × Machine) :=
  m.readMemTo (kernel build) addr size uninit

def writeMem (build : Build) (m : Machine) (addr : Word) (size : ℤ) (value : Word)
    (uninit : ℤ) : Exec (Bool × Machine) :=
  m.writeMemTo (kernel build) addr size value uninit

end Machine

end Nachos
