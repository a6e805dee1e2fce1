import Nachos.Model.Machine

/-! # Address spaces

Executables are files of the host, as in the `FILESYS_STUB` build of `userprog`. -/

namespace Nachos

open Library

abbrev NOFFMAGIC : Word := 0xbadfad

abbrev UserStackSize : ℕ := 1024

structure Segment where
  virtualAddr : Word
  inFileAddr : Word
  size : Word

structure NoffHeader where
  noffMagic : Word
  code : Segment
  initData : Segment
  uninitData : Segment

namespace NoffHeader

/-- The words of a header, in the order of its fields. -/
def words : NoffHeader ≃ (Fin 10 → Word) where
  toFun h := ![h.noffMagic, h.code.virtualAddr, h.code.inFileAddr, h.code.size,
    h.initData.virtualAddr, h.initData.inFileAddr, h.initData.size,
    h.uninitData.virtualAddr, h.uninitData.inFileAddr, h.uninitData.size]
  invFun w := ⟨w 0, ⟨w 1, w 2, w 3⟩, ⟨w 4, w 5, w 6⟩, ⟨w 7, w 8, w 9⟩⟩
  left_inv _ := rfl
  right_inv w := by
    funext i
    fin_cases i <;> rfl

def layout : NoffHeader ≃ (Fin (10 * 4) → Byte) := words.trans (arrayLayout wordLayout 10)

/-- `ReadAt((char *)&noffH, sizeof(noffH), 0)`; what is not read keeps its value. The host is
little-endian, so that the header needs no conversion. -/
def readFrom (executable : List Byte) (uninit : NoffHeader) : NoffHeader :=
  layout.symm fun i => executable.getD i (layout uninit i)

/-- The size of the address space before it is rounded up to pages; the sum wraps. -/
def size (h : NoffHeader) : ℕ :=
  (h.code.size + h.initData.size + h.uninitData.size + BitVec.ofNat 32 UserStackSize).toNat

/-- `divRoundUp(size, PageSize)` -/
def numPages (h : NoffHeader) : ℕ :=
  h.size / PageSize + if h.size % PageSize > 0 then 1 else 0

end NoffHeader

namespace Machine

def bzero (m : Machine) (size : ℕ) : Machine :=
  { m with mainMemory := fun a => if a.val < size then 0 else m.mainMemory a }

/-- `ReadAt(&(machine->mainMemory[p]), numBytes, position)` -/
def readAt (m : Machine) (executable : List Byte) (p : ℤ) (numBytes : ℕ) (position : ℤ) :
    Exec Machine := do
  assert (position ≥ 0)
  m.storeBytes p ((executable.drop position.toNat).take numBytes)

end Machine

structure AddrSpace where
  pageTable : ℕ
  numPages : ℕ
  deriving DecidableEq, Repr

namespace AddrSpace

/-- The entries of the pages `i`, `i + 1`, … with the next frames that `Find` returns. -/
def allocPages : ℕ → ℕ → Machine → Exec (List TranslationEntry × Machine)
  | 0, _, m => .ok ([], m)
  | n + 1, i, m => do
      let (frame, m) ← m.find
      let (rest, m) ← allocPages n (i + 1) m
      return ({
        virtualPage := BitVec.ofNat 32 i
        physicalPage := Word.ofInt frame
        valid := true
        readOnly := false
        use := false
        dirty := false
        hitRate := 0 } :: rest, m)

/-- The loop of `MULTI_THREAD`: byte by byte to where the page table says. -/
def copyBytes (table : List TranslationEntry) (executable : List Byte) (seg : Segment) :
    ℕ → ℕ → Machine → Exec Machine
  | 0, _, m => .ok m
  | n + 1, j, m => do
      let va := i32 (seg.virtualAddr.toInt + j)
      let e ← Machine.entryAt table (va.tdiv PageSize)
      let paddr := i32 (i32 (e.physicalPage.toInt * PageSize) + va.tmod PageSize)
      let m ← m.readAt executable paddr 1 (i32 (seg.inFileAddr.toInt + j))
      copyBytes table executable seg n (j + 1) m

/-- Without `MULTI_THREAD` the segment goes to its virtual address in physical memory. -/
def loadSegment (build : Build) (table : List TranslationEntry) (executable : List Byte)
    (seg : Segment) (m : Machine) : Exec Machine :=
  if seg.size.toInt > 0 then
    if build.multiThread then copyBytes table executable seg seg.size.toNat 0 m
    else m.readAt executable seg.virtualAddr.toInt seg.size.toNat seg.inFileAddr.toInt
  else .ok m

/-- `AddrSpace::AddrSpace`; `uninit` is what `noffH` holds before it is read. -/
def new (build : Build) (m : Machine) (executable : List Byte) (uninit : NoffHeader) :
    Exec (AddrSpace × Machine) := do
  let noffH := NoffHeader.readFrom executable uninit
  assert (noffH.noffMagic = NOFFMAGIC)
  let numPages := noffH.numPages
  assert (numPages ≤ NumPhysPages)
  let (table, m) ← allocPages numPages 0 m
  let pageTable := m.heap.next
  let m := { m with heap := m.heap.alloc table }
  -- the first `size` bytes of physical memory, whatever the page table says
  let m := m.bzero (numPages * PageSize)
  let m ← loadSegment build table executable noffH.code m
  let m ← loadSegment build table executable noffH.initData m
  return (⟨pageTable, numPages⟩, m)

/-- `AddrSpace::~AddrSpace` -/
def destroy (space : AddrSpace) (m : Machine) : Exec Machine := do
  let m ← Machine.clearEntries (← m.table space.pageTable) space.numPages 0 m
  return { m with heap := m.heap.free space.pageTable }

def initRegisters (space : AddrSpace) (m : Machine) : Machine :=
  (((({ m with registers := fun _ => 0 } : Machine).setRegister PCReg 0).setRegister
    NextPCReg 4).setRegister StackReg (Word.ofInt (space.numPages * PageSize - 16)))

/-- `SaveState` makes the first entries of the TLB that is installed invalid. -/
def saveState (m : Machine) : Exec Machine :=
  match m.tlb with
  | none => .error .bounds
  | some p => do
      let t ← m.table p
      let _ ← Machine.entryAt t (TLBSize - 1)
      return m.setTable p ((t.take TLBSize).map (fun e => { e with valid := false }) ++
        t.drop TLBSize)

def restoreState (build : Build) (space : AddrSpace) (m : Machine) : Machine :=
  if build.useTlb then { m with tlb := some space.pageTable, pageTableSize := space.numPages }
  else { m with pageTable := some space.pageTable, pageTableSize := space.numPages }

end AddrSpace

end Nachos
