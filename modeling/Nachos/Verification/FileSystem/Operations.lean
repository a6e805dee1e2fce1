import Nachos.Verification.Directory.Correctness
import Nachos.Verification.FileHeader.Sectors
import Nachos.Verification.OpenFile.Records

/-! # The operations of the file system

What `Create` and `Remove` do to the disk, as far as it depends on the bitmap and the
directory only. -/

namespace Nachos.FileSystem

open Library

/-- The bitmap and the directory can be read: their files hold them in the sectors
`mapBlocks` and `dirBlocks`. -/
structure Readable (fs : FileSystem) (mapBlocks dirBlocks : List (Fin NumSectors)) : Prop where
  map : fs.freeMapFile.Room mapBlocks (numWords NumSectors * 4)
  dir : fs.directoryFile.Room dirBlocks (NumDirEntries * EntrySize)

/-- The bitmap in the sectors `mapBlocks`. -/
def freeMapOn (d : Disk) (mapBlocks : List (Fin NumSectors)) : BitMap NumSectors :=
  recordAt BitMap.layout d mapBlocks

/-- The directory in the sectors `dirBlocks`. -/
def directoryOn (d : Disk) (dirBlocks : List (Fin NumSectors)) : Directory NumDirEntries :=
  recordAt Directory.layout d dirBlocks

section

variable {fs : FileSystem} {mapBlocks dirBlocks : List (Fin NumSectors)} {d d' : Disk} {env : Env}
  {name : List Byte} {initialSize : ℤ}

theorem freeMapOn_congr (h : ∀ s ∈ mapBlocks, d s = d' s) :
    freeMapOn d mapBlocks = freeMapOn d' mapBlocks :=
  recordAt_congr _ h

theorem directoryOn_congr (h : ∀ s ∈ dirBlocks, d s = d' s) :
    directoryOn d dirBlocks = directoryOn d' dirBlocks :=
  recordAt_congr _ h

theorem Readable.fetchFreeMap (r : fs.Readable mapBlocks dirBlocks) (d : Disk) (env : Env) :
    fs.fetchFreeMap d env = .ok (freeMapOn d mapBlocks) :=
  r.map.fetch BitMap.layout _ d

theorem Readable.fetchDirectory (r : fs.Readable mapBlocks dirBlocks) (d : Disk) (env : Env) :
    fs.fetchDirectory d env = .ok (directoryOn d dirBlocks) :=
  r.dir.fetch Directory.layout _ d

theorem Readable.writeFreeMap (r : fs.Readable mapBlocks dirBlocks) (freeMap : BitMap NumSectors)
    (d : Disk) (junk : ℕ → Byte) :
    ∃ d', freeMap.writeBack fs.freeMapFile d junk = .ok d' ∧ freeMapOn d' mapBlocks = freeMap ∧
      ∀ s, s ∉ mapBlocks → d' s = d s :=
  r.map.store BitMap.layout freeMap d junk

theorem Readable.writeDirectory (r : fs.Readable mapBlocks dirBlocks)
    (dir : Directory NumDirEntries) (d : Disk) (junk : ℕ → Byte) :
    ∃ d', dir.writeBack fs.directoryFile d junk = .ok d' ∧ directoryOn d' dirBlocks = dir ∧
      ∀ s, s ∉ dirBlocks → d' s = d s :=
  r.dir.store Directory.layout dir d junk

/-! ## `Create` -/

/-- The flush leaves the header, the directory and the bitmap on the disk. -/
theorem Readable.flush (r : fs.Readable mapBlocks dirBlocks)
    (hapart : ∀ s ∈ dirBlocks, s ∉ mapBlocks) (d : Disk) (env : Env) (hdr : FileHeader)
    (sector : Fin NumSectors) (dir : Directory NumDirEntries) (freeMap : BitMap NumSectors) :
    ∃ d', fs.flush d env hdr (sector : ℕ) dir freeMap = .ok d' ∧
      directoryOn d' dirBlocks = dir ∧ freeMapOn d' mapBlocks = freeMap ∧
      ∀ s, s ∉ mapBlocks → s ∉ dirBlocks →
        d' s = Function.update d sector (FileHeader.layout hdr) s := by
  obtain ⟨d₁, hdir, hdir', hframe₁⟩ :=
    r.writeDirectory dir (Function.update d sector (FileHeader.layout hdr)) (env.buffer 0)
  obtain ⟨d₂, hmap, hmap', hframe₂⟩ := r.writeFreeMap freeMap d₁ (env.buffer 1)
  refine ⟨d₂, ?_, ?_, hmap', fun s hs hs' => (hframe₂ s hs).trans (hframe₁ s hs')⟩
  · rw [FileSystem.flush, FileHeader.writeBack, Disk.writeSector_natCast, ok_bind, hdir, ok_bind,
      hmap]
  · rw [← hdir']
    exact directoryOn_congr fun s hs => hframe₂ s (hapart s hs)

/-- A successful `Create`: the entry `i`, which was not in use, gets the new file with its
header in `sector`, the first free one, and the sectors `data`, which were free, too. -/
structure Created (mapBlocks dirBlocks : List (Fin NumSectors)) (d : Disk) (name : List Byte)
    (initialSize : ℤ) (d' : Disk) (i : Fin NumDirEntries) (sector : Fin NumSectors)
    (hdr : FileHeader) (data : List (Fin NumSectors)) : Prop where
  absent : ∀ j, ¬ (directoryOn d dirBlocks).Holds name j
  unused : ((directoryOn d dirBlocks).table i).inUse = 0
  directory : directoryOn d' dirBlocks = (directoryOn d dirBlocks).setEntry i
    (Directory.newEntry ((directoryOn d dirBlocks).table i) name (sector : ℕ))
  first : (freeMapOn d mapBlocks).free.head? = some sector
  obtained : ∃ d₁, FileHeader.Obtained ((freeMapOn d mapBlocks).markBit sector) d initialSize hdr
    (freeMapOn d' mapBlocks) d₁ data ∧ ∀ s, s ∉ mapBlocks → s ∉ dirBlocks →
      d' s = Function.update d₁ sector (FileHeader.layout hdr) s

theorem Created.free {i : Fin NumDirEntries} {sector : Fin NumSectors} {hdr : FileHeader}
    {data : List (Fin NumSectors)}
    (hc : Created mapBlocks dirBlocks d name initialSize d' i sector hdr data) :
    (freeMapOn d mapBlocks).testBit sector = false :=
  BitMap.mem_free.mp (List.mem_of_mem_head? hc.first)

/-- A call that returns `FALSE` has written nothing. -/
theorem create_eq_false (h : fs.create d env name initialSize = .ok (false, d')) : d' = d := by
  rw [FileSystem.create] at h
  obtain ⟨dir, _, h⟩ := bind_eq_ok.mp h
  split at h
  · simp_all only [pure_eq_ok, Except.ok.injEq, Prod.mk.injEq, true_and]
  rw [FileSystem.createAbsent] at h
  obtain ⟨freeMap, _, h⟩ := bind_eq_ok.mp h
  dsimp only at h
  split at h
  · simp_all only [pure_eq_ok, Except.ok.injEq, Prod.mk.injEq, true_and]
  split at h
  · simp_all only [pure_eq_ok, Except.ok.injEq, Prod.mk.injEq, true_and]
  rw [FileSystem.createFile] at h
  obtain ⟨⟨success, hdr, freeMap', d₁⟩, ha, h⟩ := bind_eq_ok.mp h
  dsimp only at h
  split at h
  · obtain ⟨_, _, h⟩ := bind_eq_ok.mp h
    cases h
  · rename_i hfail
    rw [Bool.not_eq_true] at hfail
    subst hfail
    rw [← (FileHeader.allocate_eq_ok_false ha).2]
    cases h
    rfl

theorem Readable.createFile_eq_true (r : fs.Readable mapBlocks dirBlocks)
    (hapart : ∀ s ∈ dirBlocks, s ∉ mapBlocks) {sector : Fin NumSectors}
    {dir : Directory NumDirEntries} {freeMap : BitMap NumSectors}
    (h : fs.createFile d env (sector : ℕ) dir freeMap initialSize = .ok (true, d')) :
    ∃ hdr data d₁, directoryOn d' dirBlocks = dir ∧
      FileHeader.Obtained freeMap d initialSize hdr (freeMapOn d' mapBlocks) d₁ data ∧
      ∀ s, s ∉ mapBlocks → s ∉ dirBlocks →
        d' s = Function.update d₁ sector (FileHeader.layout hdr) s := by
  rw [FileSystem.createFile] at h
  obtain ⟨⟨success, hdr, freeMap', d₁⟩, ha, h⟩ := bind_eq_ok.mp h
  dsimp only at h
  split at h
  · rename_i hsuccess
    subst hsuccess
    obtain ⟨data, hdata⟩ := FileHeader.exists_obtained ha
    obtain ⟨d₂, hflush, hdir, hmap, hframe⟩ := r.flush hapart d₁ env hdr sector dir freeMap'
    rw [hflush, ok_bind, pure_eq_ok, Except.ok.injEq, Prod.mk.injEq] at h
    obtain ⟨_, rfl⟩ := h
    exact ⟨hdr, data, d₁, hdir, hmap.symm ▸ hdata, hframe⟩
  · cases h

/-- A call that returns `TRUE` has created the file. -/
theorem Readable.create_eq_true (r : fs.Readable mapBlocks dirBlocks)
    (hapart : ∀ s ∈ dirBlocks, s ∉ mapBlocks)
    (h : fs.create d env name initialSize = .ok (true, d')) :
    ∃ i sector hdr data, Created mapBlocks dirBlocks d name initialSize d' i sector hdr data := by
  rw [FileSystem.create, r.fetchDirectory, ok_bind] at h
  split at h
  · cases h
  rw [FileSystem.createAbsent, r.fetchFreeMap, ok_bind] at h
  dsimp only at h
  split at h
  · cases h
  split at h
  · cases h
  rename_i _ hfree hadd
  rw [not_not] at hadd
  obtain ⟨sector, hfirst, hfound⟩ := BitMap.find_of_ne hfree
  rw [hfound] at h hadd
  obtain ⟨i, habsent, hunused, hdir⟩ := Directory.add_eq_true hadd
  obtain ⟨hdr, data, d₁, hdir', hobtained, hframe⟩ := r.createFile_eq_true hapart h
  exact ⟨i, sector, hdr, data, habsent, hunused, hdir'.trans hdir, hfirst, d₁, hobtained, hframe⟩

/-- The name is new, and there are an entry and a sector for its file. -/
structure Vacant (mapBlocks dirBlocks : List (Fin NumSectors)) (d : Disk) (name : List Byte) :
    Prop where
  absent : ∀ j, ¬ (directoryOn d dirBlocks).Holds name j
  unused : ∃ i, ((directoryOn d dirBlocks).table i).inUse = 0
  free : (freeMapOn d mapBlocks).free ≠ []

/-- Otherwise `Create` fails before it comes to the size. -/
theorem Readable.create_of_not_vacant (r : fs.Readable mapBlocks dirBlocks) (env : Env)
    (initialSize : ℤ) (h : ¬ Vacant mapBlocks dirBlocks d name) :
    fs.create d env name initialSize = .ok (false, d) := by
  rw [FileSystem.create, r.fetchDirectory, ok_bind]
  split
  · rfl
  rw [FileSystem.createAbsent, r.fetchFreeMap, ok_bind]
  dsimp only
  split
  · rfl
  split
  · rfl
  rename_i _ hfree hadd
  obtain ⟨sector, hfirst, -⟩ := BitMap.find_of_ne hfree
  obtain ⟨i, habsent, hunused, -⟩ := Directory.add_eq_true (not_not.mp hadd)
  exact absurd ⟨habsent, ⟨i, hunused⟩, List.ne_nil_of_mem (List.mem_of_mem_head? hfirst)⟩ h

/-- `Create` hands the bitmap in which the header's sector is marked to `Allocate`. -/
theorem Readable.create_of_vacant (r : fs.Readable mapBlocks dirBlocks) (env : Env)
    (initialSize : ℤ) (h : Vacant mapBlocks dirBlocks d name) :
    ∃ (sector : Fin NumSectors) (dir : Directory NumDirEntries),
      fs.create d env name initialSize =
        fs.createFile d env (sector : ℕ) dir (freeMapOn d mapBlocks).find.2 initialSize := by
  obtain ⟨sector, rest, hf⟩ := List.exists_cons_of_ne_nil h.free
  have hfound := BitMap.find_of_free_cons hf
  have hfind : (directoryOn d dirBlocks).find name = -1 := by
    rw [Directory.find, Directory.findIndex_eq_none.mpr h.absent]
  obtain ⟨i, hi⟩ := h.unused
  refine ⟨sector, ((directoryOn d dirBlocks).add name ((sector : ℕ) : ℤ)).2, ?_⟩
  rw [FileSystem.create, r.fetchDirectory, ok_bind, if_neg (not_not.mpr hfind),
    FileSystem.createAbsent, r.fetchFreeMap, ok_bind]
  dsimp only
  rw [hfound, if_neg (show ((sector : ℕ) : ℤ) ≠ -1 by omega),
    if_neg (not_not.mpr (Directory.add_succeeds h.absent hi _))]

/-- What `Create` returns is what `Allocate` returned. -/
theorem Readable.createFile_of_allocate (r : fs.Readable mapBlocks dirBlocks)
    (hapart : ∀ s ∈ dirBlocks, s ∉ mapBlocks) (sector : Fin NumSectors)
    (dir : Directory NumDirEntries) {freeMap freeMap' : BitMap NumSectors} {success : Bool}
    {hdr : FileHeader} {d₁ : Disk}
    (h : (FileHeader.new (env.header 0)).allocate freeMap d initialSize (env.szTime 0) =
      .ok (success, hdr, freeMap', d₁)) :
    ∃ d', fs.createFile d env (sector : ℕ) dir freeMap initialSize = .ok (success, d') := by
  rw [FileSystem.createFile, h, ok_bind]
  cases success with
  | true =>
      obtain ⟨d₂, hflush, -⟩ := r.flush hapart d₁ env hdr sector dir freeMap'
      refine ⟨d₂, ?_⟩
      dsimp only
      rw [if_pos rfl, hflush, ok_bind]
      rfl
  | false => exact ⟨d₁, rfl⟩

/-- `Create` returns for every size that the format supports. -/
theorem Readable.create_total (r : fs.Readable mapBlocks dirBlocks)
    (hapart : ∀ s ∈ dirBlocks, s ∉ mapBlocks) (d : Disk) (env : Env) (name : List Byte)
    (hlo : 0 ≤ initialSize) (hhi : initialSize ≤ MaxFileSize) :
    ∃ success d', fs.create d env name initialSize = .ok (success, d') := by
  by_cases hv : Vacant mapBlocks dirBlocks d name
  · obtain ⟨sector, dir, hcreate⟩ := r.create_of_vacant env initialSize hv
    obtain ⟨⟨success, hdr, freeMap', d₁⟩, ha⟩ := FileHeader.allocate_total
      (FileHeader.new (env.header 0)) (freeMapOn d mapBlocks).find.2 d (env.szTime 0) hlo hhi
    obtain ⟨d', hfile⟩ := r.createFile_of_allocate hapart sector dir ha
    exact ⟨success, d', hcreate.trans hfile⟩
  · exact ⟨false, d, r.create_of_not_vacant env initialSize hv⟩

/-- `Create` succeeds if the name is new, there is an entry for it and there are sectors for
the header and the data. -/
theorem Readable.create_succeeds (r : fs.Readable mapBlocks dirBlocks)
    (hapart : ∀ s ∈ dirBlocks, s ∉ mapBlocks) (d : Disk) (env : Env)
    (habsent : ∀ j, ¬ (directoryOn d dirBlocks).Holds name j) {i : Fin NumDirEntries}
    (hi : ((directoryOn d dirBlocks).table i).inUse = 0) (hlo : 0 ≤ initialSize)
    (hhi : initialSize ≤ MaxFileSize)
    (hfree : FileHeader.dataSectorCount initialSize < (freeMapOn d mapBlocks).free.length) :
    ∃ d', fs.create d env name initialSize = .ok (true, d') := by
  obtain ⟨first, rest, hf⟩ := List.exists_cons_of_length_pos (Nat.zero_lt_of_lt hfree)
  have hv : Vacant mapBlocks dirBlocks d name :=
    ⟨habsent, ⟨i, hi⟩, List.ne_nil_of_length_pos (Nat.zero_lt_of_lt hfree)⟩
  obtain ⟨sector, dir, hcreate⟩ := r.create_of_vacant env initialSize hv
  obtain ⟨⟨success, hdr, freeMap', d₁⟩, ha⟩ := FileHeader.allocate_total
    (FileHeader.new (env.header 0)) (freeMapOn d mapBlocks).find.2 d (env.szTime 0) hlo hhi
  have hsuccess : success = true := by
    by_contra hfail
    rw [Bool.not_eq_true] at hfail
    subst hfail
    have hclear := (FileHeader.allocate_eq_ok_false ha).1
    rw [(FileHeader.numSectors_setSize _ hlo hhi).2, BitMap.find_of_free_cons hf,
      BitMap.numClear_eq, BitMap.free_markBit hf] at hclear
    rw [hf, List.length_cons] at hfree
    omega
  subst hsuccess
  obtain ⟨d', hfile⟩ := r.createFile_of_allocate hapart sector dir ha
  exact ⟨d', hcreate.trans hfile⟩

/-! ## `Remove` -/

theorem remove_eq_false (h : fs.remove d env name = .ok (false, d')) : d' = d := by
  rw [FileSystem.remove] at h
  obtain ⟨dir, _, h⟩ := bind_eq_ok.mp h
  dsimp only at h
  split at h
  · simp only [pure_eq_ok, Except.ok.injEq, Prod.mk.injEq, true_and] at h
    exact h.symm
  · simp only [FileSystem.removeFile, bind_eq_ok, pure_eq_ok, Except.ok.injEq, Prod.mk.injEq,
      Bool.true_eq_false, false_and, and_false, exists_false] at h

end

/-! ## Failed calls -/

/-- A call that returns `FALSE` has left the disk as it was, and a `Create` that returns
`TRUE` has filled one unused entry and changed no other. -/
theorem failed_calls_change_nothing (fs : FileSystem) (mapBlocks dirBlocks : List (Fin NumSectors))
    (r : fs.Readable mapBlocks dirBlocks) (hapart : ∀ s ∈ dirBlocks, s ∉ mapBlocks) (d : Disk)
    (env : Env) (name : List Byte) :
    (∀ initialSize : ℤ, 0 ≤ initialSize → initialSize ≤ MaxFileSize →
      ∃ success d', fs.create d env name initialSize = .ok (success, d') ∧
        (success = false → d' = d) ∧
        (success = true → ∃ dir dir' freeMap, ∃ (i : Fin NumDirEntries) (sector : Fin NumSectors),
          (∀ env', fs.fetchDirectory d env' = .ok dir) ∧
          (∀ env', fs.fetchDirectory d' env' = .ok dir') ∧
          (∀ env', fs.fetchFreeMap d env' = .ok freeMap) ∧
          (dir.table i).inUse = 0 ∧ (dir'.table i).inUse = 1 ∧
          (dir'.table i).key = fileKey name ∧ (dir'.table i).sector.toInt = (sector : ℕ) ∧
          freeMap.testBit sector = false ∧ ∀ j, j ≠ i → dir'.table j = dir.table j)) ∧
    ∀ d', fs.remove d env name = .ok (false, d') → d' = d := by
  refine ⟨fun initialSize hlo hhi => ?_, fun d' => remove_eq_false⟩
  obtain ⟨success, d', hcreate⟩ := r.create_total hapart d env name hlo hhi
  refine ⟨success, d', hcreate, ?_, ?_⟩
  · rintro rfl
    exact create_eq_false hcreate
  · rintro rfl
    obtain ⟨i, sector, hdr, data, hc⟩ := r.create_eq_true hapart hcreate
    refine ⟨_, _, _, i, sector, r.fetchDirectory d, r.fetchDirectory d', r.fetchFreeMap d,
      hc.unused, ?_, ?_, ?_, hc.free, fun j hj => ?_⟩
    · rw [hc.directory, Directory.setEntry_self]
      rfl
    · rw [hc.directory, Directory.setEntry_self, Directory.key_newEntry]
    · rw [hc.directory, Directory.setEntry_self, Directory.sector_newEntry]
    · rw [hc.directory, Directory.setEntry_of_ne _ hj]

/-! A file system that is open on the blank disk. -/

def sampleSystem : FileSystem :=
  { freeMapFile := ⟨⟨128, 1, fun _ => 0, fun _ => 0, fun _ => 0, fun i => (i : ℕ) + 2⟩, 0, 0⟩
    directoryFile := ⟨⟨200, 2, fun _ => 0, fun _ => 0, fun _ => 0, fun i => (i : ℕ) + 3⟩, 1, 0⟩ }

theorem sampleSystem_readable : sampleSystem.Readable [2] [3, 4] :=
  ⟨⟨⟨by decide, by decide, by decide⟩, by decide, by decide⟩,
    ⟨⟨by decide, by decide, by decide⟩, by decide, by decide⟩⟩

theorem sampleSystem_apart : ∀ s ∈ ([3, 4] : List (Fin NumSectors)), s ∉ [(2 : Fin NumSectors)] :=
  List.forall_mem_cons.mpr ⟨by decide, List.forall_mem_cons.mpr ⟨by decide, by simp⟩⟩

def sampleEnv : Env :=
  { szTime := fun _ => []
    header := fun _ => FileHeader.blankHeader
    words := ⟨fun _ => 0⟩
    entries := fun _ => ⟨0, 0, fun _ => 0, 0, fun _ => 0⟩
    buffer := fun _ _ => 0 }

theorem sampleSystem_vacant : Vacant [2] [3, 4] FileHeader.blankDisk [97] := by
  have hunused : ∀ j, ((directoryOn FileHeader.blankDisk [3, 4]).table j).inUse = 0 := by
    decide +kernel
  have hclear : (freeMapOn FileHeader.blankDisk [2]).testBit 0 = false := by decide +kernel
  refine ⟨?_, ⟨0, hunused 0⟩, List.ne_nil_of_mem (BitMap.mem_free.mpr hclear)⟩
  rintro j ⟨hin, _⟩
  exact hin (hunused j)

theorem sampleSystem_creates :
    ∃ d', sampleSystem.create FileHeader.blankDisk sampleEnv [97] 100 = .ok (true, d') := by
  obtain ⟨i, hi⟩ := sampleSystem_vacant.unused
  refine sampleSystem_readable.create_succeeds sampleSystem_apart _ _ sampleSystem_vacant.absent hi
    (by decide) (by decide) ?_
  have hfree : (freeMapOn FileHeader.blankDisk [2]).free = List.finRange NumSectors := by
    refine List.filter_eq_self.mpr fun s _ => ?_
    have hclear : ∀ s, (freeMapOn FileHeader.blankDisk [2]).testBit s = false := by decide +kernel
    simp [hclear s]
  rw [hfree, List.length_finRange]
  decide

/-- The first call on the blank disk makes an entry for the file. -/
theorem failed_calls_change_nothing_sample :
    ∃ d', sampleSystem.create FileHeader.blankDisk sampleEnv [97] 100 = .ok (true, d') ∧
      ∃ dir' i, sampleSystem.fetchDirectory d' sampleEnv = .ok dir' ∧
        (dir'.table i).inUse = 1 ∧ (dir'.table i).key = fileKey [97] := by
  obtain ⟨success, d', hcreate, -, hnew⟩ := (failed_calls_change_nothing sampleSystem [2] [3, 4]
    sampleSystem_readable sampleSystem_apart FileHeader.blankDisk sampleEnv [97]).1 100
    (by decide) (by decide)
  obtain ⟨d₁, htrue⟩ := sampleSystem_creates
  obtain ⟨rfl, rfl⟩ := Prod.mk.inj (Except.ok.inj (hcreate.symm.trans htrue))
  obtain ⟨dir, dir', freeMap, i, sector, -, hdir', -, -, hin, hkey, -⟩ := hnew rfl
  exact ⟨d', hcreate, dir', i, hdir' sampleEnv, hin, hkey⟩

end Nachos.FileSystem
