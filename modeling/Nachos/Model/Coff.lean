import Nachos.Model.AddrSpace

/-! # Conversion of executables

`coff2noff` reads a COFF file of the 32-bit layout and writes a NOFF file, on a little-endian
host. Memory and space on the disk suffice, and sums of `int`s wrap around. -/

namespace Nachos

open Library

/-- `strcmp` compares up to the first zero. -/
def cString (bytes : List Byte) : List Byte := bytes.takeWhile (· ≠ 0)

def ascii (s : String) : List Byte := s.toList.map fun c => BitVec.ofNat 8 c.toNat

/-- The section names that `coff2noff` knows. -/
inductive SectionName where
  | text
  | data
  | rdata
  | bss
  | sbss
  | unknown
  deriving DecidableEq, Repr

def SectionName.ofBytes (bytes : List Byte) : SectionName :=
  if cString bytes = ascii ".text" then .text
  else if cString bytes = ascii ".data" then .data
  else if cString bytes = ascii ".rdata" then .rdata
  else if cString bytes = ascii ".bss" then .bss
  else if cString bytes = ascii ".sbss" then .sbss
  else .unknown

/-- The fields of `struct scnhdr` that are used. -/
structure ScnHdr where
  name : List Byte
  paddr : Word
  size : Word
  scnptr : Word
  deriving DecidableEq, Repr

def ScnHdr.kind (s : ScnHdr) : SectionName := .ofBytes s.name

namespace Coff

abbrev MIPSELMAGIC : BitVec 16 := 0x0162

abbrev OMAGIC : BitVec 16 := 0x0107

/-- `sizeof(struct filehdr)`, `sizeof(struct aouthdr)` and `sizeof(struct scnhdr)` -/
abbrev filehdrSize : ℕ := 20

abbrev aouthdrSize : ℕ := 56

abbrev scnhdrSize : ℕ := 40

/-- Why there is no NOFF file in the end. -/
inductive Failure where
  /-- "File is too short" -/
  | tooShort
  /-- "File is not a MIPSEL COFF file" -/
  | notMipsel
  /-- "File is not a OMAGIC file" -/
  | notOmagic
  /-- "Can't handle both data and rdata" -/
  | bothData
  /-- "Can't handle both bss and sbss" -/
  | bothBss
  /-- "Unknown segment type: %s" -/
  | unknownSegment (name : List Byte)
  deriving DecidableEq, Repr

def byteAt (coff : List Byte) (i : ℕ) : Byte := coff.getD i 0

def shortAt (coff : List Byte) (i : ℕ) : BitVec 16 := byteAt coff (i + 1) ++ byteAt coff i

def wordAt (coff : List Byte) (i : ℕ) : Word :=
  joinBytes (byteAt coff (i + 3)) (byteAt coff (i + 2)) (byteAt coff (i + 1)) (byteAt coff i)

def scnhdrAt (coff : List Byte) (i : ℕ) : ScnHdr where
  name := (coff.drop i).take 8
  paddr := wordAt coff (i + 8)
  size := wordAt coff (i + 16)
  scnptr := wordAt coff (i + 20)

/-- The number of sections, according to the file header. -/
def numSections (coff : List Byte) : ℕ := (shortAt coff 2).toNat

def sections (coff : List Byte) : List ScnHdr :=
  (List.range (numSections coff)).map fun i =>
    scnhdrAt coff (filehdrSize + aouthdrSize + scnhdrSize * i)

/-- `Read` at the given position of the file. For `nBytes` -1, `read` fails and returns just
this value, so that nothing is noticed. -/
def read (coff : List Byte) (position : ℕ) (nBytes : ℤ) : Except Failure (List Byte × ℕ) :=
  if nBytes = -1 then .ok ([], position)
  else if 0 ≤ nBytes ∧ position + nBytes ≤ coff.length then
    .ok ((coff.drop position).take nBytes.toNat, position + nBytes.toNat)
  else .error .tooShort

/-- The variables of the loop: `position` is that of `fdIn`, `output` what has been written
behind the place of the header. -/
structure State where
  noffH : NoffHeader
  inNoffFile : Word
  position : ℕ
  output : List Byte

/-- Copy a section to the NOFF file. A seek to a negative position has no effect. -/
def copySection (coff : List Byte) (s : ScnHdr) (st : State) : Except Failure (Segment × State) := do
  let position := if s.scnptr.toInt < 0 then st.position else s.scnptr.toNat
  let (buffer, position) ← read coff position s.size.toInt
  return (⟨s.paddr, st.inNoffFile, s.size⟩,
    { st with
      inNoffFile := st.inNoffFile + s.size
      position := position
      output := st.output ++ buffer })

/-- The uninitialized data with a further section. -/
def mergeSection (seg : Segment) (s : ScnHdr) : Except Failure Segment :=
  if seg.size ≠ 0 then
    if s.paddr = seg.virtualAddr + seg.size then .error .bothBss
    else .ok { seg with size := seg.size + s.size }
  else .ok { seg with virtualAddr := s.paddr, size := s.size }

/-- One turn of the loop over the sections. -/
def loadSection (coff : List Byte) (st : State) (s : ScnHdr) : Except Failure State :=
  if s.size = 0 then .ok st
  else match s.kind with
    | .text => do
        let (seg, st) ← copySection coff s st
        return { st with noffH := { st.noffH with code := seg } }
    | .data | .rdata =>
        if st.noffH.initData.size ≠ 0 then .error .bothData
        else do
          let (seg, st) ← copySection coff s st
          return { st with noffH := { st.noffH with initData := seg } }
    | .bss | .sbss => do
        return { st with noffH := { st.noffH with
          uninitData := ← mergeSection st.noffH.uninitData s } }
    | .unknown => .error (.unknownSegment s.name)

/-- The sizes are set before the loop, everything else of the header is left as it is. -/
def initialState (uninit : NoffHeader) (position : ℕ) : State where
  noffH :=
    { noffMagic := NOFFMAGIC
      code := { uninit.code with size := 0 }
      initData := { uninit.initData with size := 0 }
      uninitData := { uninit.uninitData with size := 0 } }
  inNoffFile := 40
  position := position
  output := []

def loadSections (coff : List Byte) (secs : List ScnHdr) (st : State) : Except Failure State :=
  secs.foldlM (loadSection coff) st

/-- The tests of the headers. -/
def checkHeaders (coff : List Byte) : Except Failure Unit := do
  if coff.length < filehdrSize then .error .tooShort
  if shortAt coff 0 ≠ MIPSELMAGIC then .error .notMipsel
  if coff.length < filehdrSize + aouthdrSize then .error .tooShort
  if shortAt coff filehdrSize ≠ OMAGIC then .error .notOmagic
  if coff.length < filehdrSize + aouthdrSize + scnhdrSize * numSections coff then .error .tooShort

/-- `main`, after the files have been opened: the NOFF file, if the exit status is 0. `uninit`
is what `noffH` holds before it is set. -/
def coff2noff (uninit : NoffHeader) (coff : List Byte) : Except Failure (List Byte) := do
  checkHeaders coff
  let position := filehdrSize + aouthdrSize + scnhdrSize * numSections coff
  let st ← loadSections coff (sections coff) (initialState uninit position)
  return List.ofFn (NoffHeader.layout st.noffH) ++ st.output

end Coff

end Nachos
