import Nachos.Model.OpenFile

/-! # Directories

`directory.cc`. A directory is a table of entries that is kept in a file as it stands in
memory. -/

namespace Nachos

open Library

abbrev FileNameMaxLen : ℕ := 11

/-- An entry, with the padding in front of `sector`. A `bool` is a byte that holds 0 for
`FALSE`. -/
structure DirectoryEntry where
  type : Byte
  inUse : Byte
  padding : Fin 2 → Byte
  sector : Word
  name : Fin (FileNameMaxLen + 1) → Byte

abbrev EntrySize : ℕ := 20

namespace DirectoryEntry

def fields : DirectoryEntry ≃
    (Fin 1 → Byte) × (Fin 1 → Byte) × (Fin 2 → Byte) × Word × (Fin (FileNameMaxLen + 1) → Byte)
    where
  toFun e := (fun _ => e.type, fun _ => e.inUse, e.padding, e.sector, e.name)
  invFun | (t, u, p, s, n) => ⟨t 0, u 0, p, s, n⟩
  left_inv _ := rfl
  right_inv := by
    rintro ⟨t, u, p, s, n⟩
    simp only [Prod.mk.injEq, and_true]
    exact ⟨funext fun i => congrArg t (Subsingleton.elim _ _),
      funext fun i => congrArg u (Subsingleton.elim _ _)⟩

def layout : DirectoryEntry ≃ (Fin EntrySize → Byte) :=
  let bytes (k : ℕ) := Equiv.refl (Fin k → Byte)
  fields.trans (prodLayout (bytes 1) (prodLayout (bytes 1) (prodLayout (bytes 2)
    (prodLayout wordLayout (bytes (FileNameMaxLen + 1))))))

end DirectoryEntry

structure Directory (tableSize : ℕ) where
  table : Fin tableSize → DirectoryEntry

namespace Directory

variable {tableSize : ℕ}

def layout : Directory tableSize ≃ (Fin (tableSize * EntrySize) → Byte) :=
  (Equiv.mk Directory.table Directory.mk (fun _ => rfl) fun _ => rfl).trans
    (arrayLayout DirectoryEntry.layout tableSize)

/-- The constructor; `uninit` is what the memory of the table held before. -/
def new (uninit : Fin tableSize → DirectoryEntry) : Directory tableSize :=
  ⟨fun i => { uninit i with inUse := 0, name := fun _ => 0 }⟩

def fetchFrom (dir : Directory tableSize) (file : OpenFile) (d : Disk) :
    Exec (Directory tableSize) :=
  OpenFile.fetch layout dir file d

def writeBack (dir : Directory tableSize) (file : OpenFile) (d : Disk) (junk : ℕ → Byte) :
    Exec Disk :=
  OpenFile.store layout dir file d junk

/-- `table[i].inUse && !strncmp(table[i].name, name, FileNameMaxLen)` -/
def matchesAt (dir : Directory tableSize) (name : List Byte) (i : Fin tableSize) : Bool :=
  (dir.table i).inUse ≠ 0 ∧ strncmp (List.ofFn (dir.table i).name) name FileNameMaxLen = 0

/-- The index of the entry with this name; `none` stands for -1. -/
def findIndex (dir : Directory tableSize) (name : List Byte) : Option (Fin tableSize) :=
  (List.finRange tableSize).find? (dir.matchesAt name)

def find (dir : Directory tableSize) (name : List Byte) : ℤ :=
  match dir.findIndex name with
  | some i => (dir.table i).sector.toInt
  | none => -1

def setEntry (dir : Directory tableSize) (i : Fin tableSize) (e : DirectoryEntry) :
    Directory tableSize :=
  ⟨Function.update dir.table i e⟩

/-- The first entry that is not in use. -/
def firstUnused (dir : Directory tableSize) : Option (Fin tableSize) :=
  (List.finRange tableSize).find? fun i => (dir.table i).inUse = 0

def add (dir : Directory tableSize) (name : List Byte) (newSector : ℤ) :
    Bool × Directory tableSize :=
  match dir.findIndex name with
  | some _ => (false, dir)
  | none =>
      match dir.firstUnused with
      | some i =>
          (true, dir.setEntry i { dir.table i with
            inUse := 1
            name := strncpy (dir.table i).name name FileNameMaxLen
            sector := Word.ofInt newSector })
      | none => (false, dir)

def remove (dir : Directory tableSize) (name : List Byte) : Bool × Directory tableSize :=
  match dir.findIndex name with
  | some i =>
      (true, dir.setEntry i { dir.table i with
        inUse := 0
        name := fun j => if j < FileNameMaxLen then 0 else (dir.table i).name j })
  | none => (false, dir)

end Directory

end Nachos
