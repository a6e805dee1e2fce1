import Nachos.Model.Directory

/-! # The file system

`filesys.cc`. The bitmap of free sectors and the directory are kept in two files whose
headers lie in sectors 0 and 1; both files stay open. -/

namespace Nachos

abbrev FreeMapSector : ℤ := 0

abbrev DirectorySector : ℤ := 1

abbrev FreeMapFileSize : ℕ := NumSectors / BitsInByte

abbrev NumDirEntries : ℕ := 10

abbrev DirectoryFileSize : ℕ := NumDirEntries * EntrySize

structure FileSystem where
  freeMapFile : OpenFile
  directoryFile : OpenFile

namespace FileSystem

/-- What a call finds on the clock and in newly allocated memory: the texts of the dates,
headers, the words of a bitmap, the entries of a directory and buffers. A number tells
apart what one call asks for more than once. -/
structure Env where
  szTime : ℕ → List Byte
  header : ℕ → FileHeader
  words : BitMap NumSectors
  entries : Fin NumDirEntries → DirectoryEntry
  buffer : ℕ → ℕ → Byte

/-! ## Starting up -/

/-- `FileSystem(FALSE)` -/
def mount (d : Disk) : Exec FileSystem := do
  return ⟨← OpenFile.new d FreeMapSector, ← OpenFile.new d DirectorySector⟩

/-- `ASSERT(hdr->Allocate(freeMap, fileSize))` -/
def allocateOrFail (hdr : FileHeader) (freeMap : BitMap NumSectors) (d : Disk) (fileSize : ℤ)
    (szTime : List Byte) : Exec (FileHeader × BitMap NumSectors × Disk) := do
  let (success, rest) ← hdr.allocate freeMap d fileSize szTime
  assert success
  return rest

/-- `FileSystem(TRUE)` -/
def format (d : Disk) (env : Env) : Exec (FileSystem × Disk) := do
  let freeMap := BitMap.new env.words
  let directory := Directory.new env.entries
  let freeMap ← freeMap.mark FreeMapSector
  let freeMap ← freeMap.mark DirectorySector
  let (mapHdr, freeMap, d) ← allocateOrFail (FileHeader.new (env.header 0)) freeMap d
    FreeMapFileSize (env.szTime 0)
  let (dirHdr, freeMap, d) ← allocateOrFail (FileHeader.new (env.header 1)) freeMap d
    DirectoryFileSize (env.szTime 1)
  let d ← mapHdr.writeBack d FreeMapSector
  let d ← dirHdr.writeBack d DirectorySector
  let fs ← mount d
  let d ← freeMap.writeBack fs.freeMapFile d (env.buffer 0)
  let d ← directory.writeBack fs.directoryFile d (env.buffer 1)
  return (fs, d)

/-! ## Operations -/

def fetchDirectory (fs : FileSystem) (d : Disk) (env : Env) : Exec (Directory NumDirEntries) :=
  (Directory.new env.entries).fetchFrom fs.directoryFile d

def fetchFreeMap (fs : FileSystem) (d : Disk) (env : Env) : Exec (BitMap NumSectors) :=
  (BitMap.new env.words).fetchFrom fs.freeMapFile d

/-- The last part of `Create`: everything worked, flush all changes back to disk. -/
def flush (fs : FileSystem) (d : Disk) (env : Env) (hdr : FileHeader) (sector : ℤ)
    (directory : Directory NumDirEntries) (freeMap : BitMap NumSectors) : Exec Disk := do
  let d ← hdr.writeBack d sector
  let d ← directory.writeBack fs.directoryFile d (env.buffer 0)
  freeMap.writeBack fs.freeMapFile d (env.buffer 1)

/-- `Create` once the name is in the directory: allocate the file. -/
def createFile (fs : FileSystem) (d : Disk) (env : Env) (sector : ℤ)
    (directory : Directory NumDirEntries) (freeMap : BitMap NumSectors) (initialSize : ℤ) :
    Exec (Bool × Disk) := do
  let (success, hdr, freeMap, d) ←
    (FileHeader.new (env.header 0)).allocate freeMap d initialSize (env.szTime 0)
  if success then
    return (true, ← fs.flush d env hdr sector directory freeMap)
  else
    return (false, d)

/-- `Create` once the name is known not to be in the directory. -/
def createAbsent (fs : FileSystem) (d : Disk) (env : Env) (directory : Directory NumDirEntries)
    (name : List Byte) (initialSize : ℤ) : Exec (Bool × Disk) := do
  let freeMap ← fs.fetchFreeMap d env
  let found := freeMap.find
  let added := directory.add name found.1
  if found.1 = -1 then
    return (false, d)
  else if ¬ added.1 then
    return (false, d)
  else
    fs.createFile d env found.1 added.2 found.2 initialSize

def create (fs : FileSystem) (d : Disk) (env : Env) (name : List Byte) (initialSize : ℤ) :
    Exec (Bool × Disk) := do
  let directory ← fs.fetchDirectory d env
  if directory.find name ≠ -1 then
    return (false, d)
  else
    fs.createAbsent d env directory name initialSize

/-- `Open` (the word is taken in Lean); `none` stands for the null pointer. -/
def openFile (fs : FileSystem) (d : Disk) (env : Env) (name : List Byte) :
    Exec (Option OpenFile) := do
  let directory ← fs.fetchDirectory d env
  let sector := directory.find name
  if sector ≥ 0 then
    return some (← OpenFile.new d sector)
  else
    return none

/-- `Remove` once the file is found. -/
def removeFile (fs : FileSystem) (d : Disk) (env : Env) (directory : Directory NumDirEntries)
    (name : List Byte) (sector : ℤ) : Exec (Bool × Disk) := do
  let fileHdr ← FileHeader.fetchFrom d sector
  let freeMap ← fs.fetchFreeMap d env
  let freeMap ← fileHdr.deallocate freeMap d
  let freeMap ← freeMap.clear sector
  let directory := (directory.remove name).2
  let d ← freeMap.writeBack fs.freeMapFile d (env.buffer 0)
  let d ← directory.writeBack fs.directoryFile d (env.buffer 1)
  return (true, d)

def remove (fs : FileSystem) (d : Disk) (env : Env) (name : List Byte) : Exec (Bool × Disk) := do
  let directory ← fs.fetchDirectory d env
  let sector := directory.find name
  if sector = -1 then
    return (false, d)
  else
    fs.removeFile d env directory name sector

end FileSystem

end Nachos
