import Nachos.Library.Transition
import Nachos.Verification.Session.Steps

/-! # The representation invariant

Along every run of a formatted file system on files without index sectors, the free map,
the directory and the headers on the disk agree, and no call fails. -/

namespace Nachos

open Library FileSystem

/-! ## What the disk says -/

namespace FileSystem

/-- The sectors of the file of an entry: its header and the data sectors in the header. -/
def fileSectors (d : Disk) (e : DirectoryEntry) : Exec (List ℤ) := do
  let hdr ← FileHeader.fetchFrom d e.sector.toInt
  return e.sector.toInt :: hdr.directSectors

/-- The sectors that the file system and the files of the directory occupy. -/
def occupied (fs : FileSystem) (d : Disk) (dir : Directory NumDirEntries) : Exec (List ℤ) := do
  let inUse := (List.finRange NumDirEntries).filter fun i => (dir.table i).inUse ≠ 0
  let files ← inUse.mapM fun i => fileSectors d (dir.table i)
  return [FreeMapSector, DirectorySector] ++ (fs.freeMapFile.hdr.directSectors ++
    fs.directoryFile.hdr.directSectors) ++ files.flatten

/-- The bitmap and the directory can be read from the disk; the sectors occupied are
pairwise distinct, and they are the ones marked in the bitmap; no name occurs twice. -/
structure Consistent (d : Disk) (fs : FileSystem) (freeMap : BitMap NumSectors)
    (dir : Directory NumDirEntries) (sectors : List (Fin NumSectors)) : Prop where
  mounted : mount d = .ok fs
  mapFile : ∀ env, fs.fetchFreeMap d env = .ok freeMap
  dirFile : ∀ env, fs.fetchDirectory d env = .ok dir
  occupied : fs.occupied d dir = .ok (sectors.map fun s : Fin NumSectors => ((s : ℕ) : ℤ))
  nodup : sectors.Nodup
  marked : ∀ s : Fin NumSectors, freeMap.test (s : ℕ) = .ok true ↔ s ∈ sectors
  names : dir.DistinctNames

end FileSystem

namespace Session

section

variable {s s' : Session} {mapBlocks dirBlocks : List (Fin NumSectors)} {files : Files}
  {i : Fin NumDirEntries}

theorem Inv.fileSectors (inv : s.Inv mapBlocks dirBlocks files)
    (direct : s.Direct mapBlocks dirBlocks files)
    (hi : ((directoryOn s.disk dirBlocks).table i).inUse ≠ 0) :
    FileSystem.fileSectors s.disk ((directoryOn s.disk dirBlocks).table i) =
      .ok ((files.parts i).map fun s : Fin NumSectors => ((s : ℕ) : ℤ)) := by
  obtain ⟨g, hg⟩ := Option.isSome_iff_exists.mp ((inv.image.inUse i).mp hi)
  have hdisk := inv.image.onDisk i g hg
  rw [FileSystem.fileSectors, hdisk.fetchFrom, ok_bind,
    hdisk.body.direct_eq (direct.noIndex i g hg), hdisk.sector, Files.parts_of_some hg]
  rfl

theorem Inv.consistent (inv : s.Inv mapBlocks dirBlocks files)
    (direct : s.Direct mapBlocks dirBlocks files) :
    ∃ sectors, Consistent s.disk s.fs (freeMapOn s.disk mapBlocks)
      (directoryOn s.disk dirBlocks) sectors := by
  set inUse := (List.finRange NumDirEntries).filter
    fun i => ((directoryOn s.disk dirBlocks).table i).inUse ≠ 0 with hinUse
  have hmem : ∀ i, i ∈ inUse ↔ ((directoryOn s.disk dirBlocks).table i).inUse ≠ 0 := by
    simp [hinUse]
  have hfiles := mapM_eq_ok fun i hi => inv.fileSectors direct ((hmem i).mp hi)
  refine ⟨base mapBlocks dirBlocks ++ inUse.flatMap files.parts, {
    mounted := inv.image.mounted
    mapFile := inv.image.readable.fetchFreeMap s.disk
    dirFile := inv.image.readable.fetchDirectory s.disk
    occupied := ?_
    nodup := inv.image.owns.nodup_append_flatMap ((List.nodup_finRange _).filter _)
    marked := fun t => ?_
    names := inv.image.names }⟩
  · unfold occupied
    dsimp only
    rw [← hinUse, hfiles, ok_bind, direct.mapSectors, direct.dirSectors, pure_eq_ok, base]
    simp only [List.map_append, List.flatMap_def, List.map_flatten, List.map_map]
    rfl
  · rw [BitMap.test_natCast, Except.ok.injEq, inv.image.owns.used_iff, List.mem_append,
      List.mem_flatMap]
    refine or_congr_right (exists_congr fun i => ⟨fun ht => ⟨(hmem i).mpr ?_, ht⟩, And.right⟩)
    intro hunused
    rw [Files.parts_of_none (inv.image.files_eq_none hunused)] at ht
    cases ht

/-! ## Steps -/

/-- The calls of the runs considered here: files are created without an index sector and
used through live handles, at positions that an `int` can hold. -/
def Legal (s : Session) : Op → Prop
  | .create _ initialSize => 0 ≤ initialSize ∧ initialSize ≤ (NumDirect * SectorSize : ℕ)
  | .remove _ => True
  | .openFile _ => True
  | .call i call => ∃ h, s.handles[i]? = some h ∧ h.live = true ∧ call.Legal h.file.seekPosition
  | .mount => True

section

variable (direct : s.Direct mapBlocks dirBlocks files)

include direct

theorem Direct.update (i : Fin NumDirEntries) {g : Option FileImage} {d' : Disk}
    {handles : List Handle}
    (hg : ∀ g', g = some g' → ¬ g'.header.hasIndex ∧ g'.header.numSectors.toNat = FileHeader.dataSectorCount g'.header.fileLength)
    (hseek : ∀ h ∈ handles, 0 ≤ h.file.seekPosition ∧ h.file.seekPosition < 2 ^ 31) :
    Direct { s with disk := d', handles := handles } mapBlocks dirBlocks
      (Function.update files i g) where
  mapSectors := direct.mapSectors
  dirSectors := direct.dirSectors
  noIndex j g' hg' := by
    by_cases hj : j = i
    · subst hj
      rw [Function.update_self] at hg'
      exact (hg g' hg').1
    · rw [Function.update_of_ne hj] at hg'
      exact direct.noIndex j g' hg'
  sized j g' hg' := by
    by_cases hj : j = i
    · subst hj
      rw [Function.update_self] at hg'
      exact (hg g' hg').2
    · rw [Function.update_of_ne hj] at hg'
      exact direct.sized j g' hg'
  seek := hseek

theorem Direct.create {name : List Byte} {initialSize : ℤ} (hlo : 0 ≤ initialSize)
    (hhi : initialSize ≤ (NumDirect * SectorSize : ℕ)) {d' : Disk} {sector : Fin NumSectors}
    {hdr : FileHeader} {data : List (Fin NumSectors)}
    (hc : Created mapBlocks dirBlocks s.disk name initialSize d' i sector hdr data) :
    Direct { s with disk := d' } mapBlocks dirBlocks
      (Function.update files i (some ⟨sector, hdr, data⟩)) := by
  have hmax : initialSize ≤ MaxFileSize := hhi.trans (by decide)
  obtain ⟨_, ho, -⟩ := hc.obtained
  refine direct.update i ?_ direct.seek
  rintro g' ⟨⟩
  refine ⟨ho.direct hlo hhi, ?_⟩
  rw [ho.length hlo hmax, ho.count hlo hmax]

theorem Direct.remove (name : List Byte) (d' : Disk) (i : Fin NumDirEntries) :
    Direct { s with disk := d', handles := s.handles.map (Handle.afterRemove name) } mapBlocks
      dirBlocks (Function.update files i none) := by
  refine direct.update i (fun _ hg' => by cases hg') fun h' hh => ?_
  obtain ⟨h₀, hmem, rfl⟩ := List.mem_map.mp hh
  exact direct.seek h₀ hmem

theorem Direct.openFile (name : List Byte) (header : FileHeader) (sector : ℤ) :
    Direct { s with handles := s.handles ++ [⟨⟨header, sector, 0⟩, name, true⟩] } mapBlocks
      dirBlocks files := by
  refine { direct with seek := fun h' hh => ?_ }
  rcases List.mem_append.mp hh with hh | hh
  · exact direct.seek h' hh
  · rw [List.mem_singleton] at hh
    subst hh
    exact ⟨le_rfl, show (0 : ℤ) < 2 ^ 31 by decide⟩

theorem Direct.call {g : FileImage} (hg : files i = some g) {h' : FileHeader}
    (hbytes : h'.numBytes = g.header.numBytes) (hsectors : h'.numSectors = g.header.numSectors)
    (d' : Disk) (k : ℕ) {h : Handle} (hlo : 0 ≤ h.file.seekPosition)
    (hhi : h.file.seekPosition < 2 ^ 31) :
    Direct { s with disk := d', handles := s.handles.set k h } mapBlocks dirBlocks
      (Function.update files i (some ⟨g.sector, h', g.data⟩)) := by
  refine direct.update i ?_ fun h₂ hh => ?_
  · rintro g' ⟨⟩
    have hlen : h'.fileLength = g.header.fileLength := congrArg BitVec.toInt hbytes
    rw [FileHeader.hasIndex, hlen, hsectors]
    exact ⟨direct.noIndex i g hg, direct.sized i g hg⟩
  · rcases List.mem_or_eq_of_mem_set hh with hh | rfl
    · exact direct.seek h₂ hh
    · exact ⟨hlo, hhi⟩

end

/-- What one call does to the disk, the handles and the files. -/
inductive Effect (s : Session) (mapBlocks dirBlocks : List (Fin NumSectors)) (files : Files) :
    Op → Reply → Session → Files → Prop where
  | createFails (name : List Byte) (initialSize : ℤ) :
      Effect s mapBlocks dirBlocks files (.create name initialSize) (.success false) s files
  | create {name : List Byte} {initialSize : ℤ} {d' : Disk} {i : Fin NumDirEntries}
      {g : FileImage} (hlo : 0 ≤ initialSize) (hhi : initialSize ≤ (NumDirect * SectorSize : ℕ))
      (created : Created mapBlocks dirBlocks s.disk name initialSize d' i g.sector g.header g.data)
      (frame : ∀ x, x ∉ mapBlocks → x ∉ dirBlocks → x ∉ g.sectors → d' x = s.disk x) :
      Effect s mapBlocks dirBlocks files (.create name initialSize) (.success true)
        { s with disk := d' } (Function.update files i (some g))
  | removeFails {name : List Byte}
      (absent : ∀ i, ¬ (directoryOn s.disk dirBlocks).Holds name i) :
      Effect s mapBlocks dirBlocks files (.remove name) (.success false) s files
  | remove {name : List Byte} {i : Fin NumDirEntries} {d' : Disk} {e : DirectoryEntry}
      (holds : (directoryOn s.disk dirBlocks).Holds name i) (unused : e.inUse = 0)
      (dir : directoryOn d' dirBlocks = (directoryOn s.disk dirBlocks).setEntry i e)
      (frame : ∀ x, x ∉ mapBlocks → x ∉ dirBlocks → d' x = s.disk x) :
      Effect s mapBlocks dirBlocks files (.remove name) (.success true)
        { s with disk := d', handles := s.handles.map (Handle.afterRemove name) }
        (Function.update files i none)
  | openFails {name : List Byte}
      (absent : ∀ i, ¬ (directoryOn s.disk dirBlocks).Holds name i) :
      Effect s mapBlocks dirBlocks files (.openFile name) (.handle none) s files
  | openFile {name : List Byte} {i : Fin NumDirEntries} {g : FileImage}
      (holds : (directoryOn s.disk dirBlocks).Holds name i) (file : files i = some g) :
      Effect s mapBlocks dirBlocks files (.openFile name) (.handle (some s.handles.length))
        { s with handles := s.handles ++ [⟨⟨g.header, (g.sector : ℕ), 0⟩, name, true⟩] } files
  | call {k : ℕ} {call : OpenFile.Call} {h : Handle} {i : Fin NumDirEntries} {g g' : FileImage}
      {f' : OpenFile} {d' : Disk} {result : OpenFile.Result} {c' : Cursor Byte}
      (handle : s.handles[k]? = some h) (live : h.live = true)
      (on : h.On (directoryOn s.disk dirBlocks) files i g)
      (apply : call.apply ⟨bytes s.disk g, h.file.seekPosition.toNat⟩ = (result, c'))
      (items : bytes d' g' = c'.items) (pos : f'.seekPosition = c'.pos)
      (dir : directoryOn d' dirBlocks = directoryOn s.disk dirBlocks)
      (frame : ∀ x, x ∉ g.sectors → d' x = s.disk x) :
      Effect s mapBlocks dirBlocks files (.call k call) (.transfer result)
        { s with disk := d', handles := s.handles.set k { h with file := f' } }
        (Function.update files i (some g'))
  | mount : Effect s mapBlocks dirBlocks files .mount .mounted s files

/-- Every legal call returns, does what it should and keeps the invariant. -/
theorem Inv.step_legal (inv : s.Inv mapBlocks dirBlocks files)
    (direct : s.Direct mapBlocks dirBlocks files) (env : FileSystem.Env) {op : Op} (hlegal : s.Legal op) :
    ∃ reply s' files', s.step env op = .ok (reply, s') ∧
      s.Effect mapBlocks dirBlocks files op reply s' files' ∧
      s'.Inv mapBlocks dirBlocks files' ∧ s'.Direct mapBlocks dirBlocks files' := by
  cases op with
  | create name initialSize =>
      obtain ⟨hlo, hhi⟩ := hlegal
      obtain ⟨success, d', hcreate⟩ := inv.image.readable.create_total inv.image.base_apart.1
        s.disk env name hlo (hhi.trans (by decide))
      have hstep : s.step env (.create name initialSize) =
          .ok (.success success, { s with disk := d' }) := by
        rw [step, hcreate, ok_bind]
        rfl
      rcases inv.create hstep with ⟨hreply, hs⟩ | ⟨d₁, i, sector, hdr, data, hreply, hs, hc, inv',
        hframe⟩
      · rw [hs, hreply] at hstep
        exact ⟨_, s, files, hstep, .createFails .., inv, direct⟩
      · obtain rfl : d' = d₁ := congrArg Session.disk hs
        rw [hreply] at hstep
        refine ⟨_, _, _, hstep, .create (g := ⟨sector, hdr, data⟩) hlo hhi hc ?_, inv',
          direct.create hlo hhi hc⟩
        intro x hmap hdir hx
        rw [FileImage.sectors, List.mem_cons, not_or] at hx
        exact hframe x hmap hdir hx.1 hx.2
  | remove name =>
      by_cases h : ∃ i, (directoryOn s.disk dirBlocks).Holds name i
      · obtain ⟨i, hi⟩ := h
        obtain ⟨g, hg⟩ := inv.image.exists_file hi
        obtain ⟨d', e, s', hstep, rfl, he, hdir, inv', hframe⟩ := inv.remove_present hi hg
          (fun hidx => absurd hidx (direct.noIndex i g hg)) env
        exact ⟨_, _, _, hstep, .remove hi he hdir hframe, inv', direct.remove name d' i⟩
      · have habsent := not_exists.mp h
        exact ⟨_, s, files, inv.remove_absent habsent env, .removeFails habsent, inv, direct⟩
  | openFile name =>
      by_cases h : ∃ i, (directoryOn s.disk dirBlocks).Holds name i
      · obtain ⟨i, hi⟩ := h
        obtain ⟨g, hg⟩ := inv.image.exists_file hi
        obtain ⟨s', hstep, rfl, inv'⟩ := inv.openFile_present hi hg env
        exact ⟨_, _, files, hstep, .openFile hi hg, inv', direct.openFile ..⟩
      · have habsent := not_exists.mp h
        exact ⟨_, s, files, inv.openFile_absent habsent env, .openFails habsent, inv, direct⟩
  | call k call =>
      obtain ⟨h, hk, hlive, hlegal⟩ := hlegal
      obtain ⟨i, g, on⟩ := inv.live h (List.mem_of_getElem? hk) hlive
      obtain ⟨f', d', h', s', hstep, rfl, inv', hdir, hmap, hitems, hpos, hlt, hframe⟩ :=
        inv.call direct hk on env call hlegal
      exact ⟨_, _, _, hstep, .call hk hlive on rfl hitems hpos hdir hframe, inv',
        direct.call on.file hmap.1 hmap.2.1 d' k (hpos ▸ Int.natCast_nonneg _) hlt⟩
  | mount => exact ⟨_, s, files, inv.mount env, .mount, inv, direct⟩

/-! ## Runs -/

/-- The file system in use: it is formatted and then serves legal calls. -/
def system : System Session (FileSystem.Env × Op) Reply where
  init s := ∃ d env, format d env = .ok (s.fs, s.disk) ∧ s.handles = []
  step s i reply s' := s.Legal i.2 ∧ s.step i.1 i.2 = .ok (reply, s')

/-- Formatting returns, on every disk. -/
theorem exists_init (d : Disk) (env : FileSystem.Env) :
    ∃ fs d', format d env = .ok (fs, d') ∧ system.init ⟨fs, d', []⟩ := by
  obtain ⟨fs, d', _, _, hformat, _⟩ := format_image d env
  exact ⟨fs, d', hformat, d, env, hformat, rfl⟩

theorem init_inv (h : system.init s) :
    ∃ mapBlocks dirBlocks, s.Inv mapBlocks dirBlocks (fun _ => none) ∧
      s.Direct mapBlocks dirBlocks (fun _ => none) ∧
      (freeMapOn s.disk mapBlocks).free.length = 1019 := by
  obtain ⟨fs, d', handles⟩ := s
  obtain ⟨d, env, hformat, rfl : handles = []⟩ := h
  obtain ⟨fs', d₁, mapBlocks, dirBlocks, hformat', himage, hmap, hdir, hfree⟩ := format_image d env
  rw [hformat'] at hformat
  obtain ⟨rfl, rfl⟩ := Prod.mk.inj (Except.ok.inj hformat)
  exact ⟨mapBlocks, dirBlocks, ⟨himage, fun _ hh => absurd hh List.not_mem_nil⟩,
    ⟨hmap, hdir, nofun, nofun, fun _ hh => absurd hh List.not_mem_nil⟩, hfree⟩

theorem reachable_inv (h : system.Reachable s) :
    ∃ mapBlocks dirBlocks files, s.Inv mapBlocks dirBlocks files ∧
      s.Direct mapBlocks dirBlocks files := by
  refine h.invariant (I := fun s => ∃ mapBlocks dirBlocks files,
    s.Inv mapBlocks dirBlocks files ∧ s.Direct mapBlocks dirBlocks files) ?_ ?_
  · intro s hs
    obtain ⟨mapBlocks, dirBlocks, inv, direct, -⟩ := init_inv hs
    exact ⟨mapBlocks, dirBlocks, _, inv, direct⟩
  · rintro t ⟨env, op⟩ reply u ⟨mapBlocks, dirBlocks, files, inv, direct⟩ ⟨hlegal, hstep⟩
    obtain ⟨reply', u', files', hstep', -, inv', direct'⟩ := inv.step_legal direct env hlegal
    rw [hstep'] at hstep
    obtain ⟨-, rfl⟩ := Prod.mk.inj (Except.ok.inj hstep)
    exact ⟨mapBlocks, dirBlocks, files', inv', direct'⟩

/-- A session in which a file of 200 bytes has just been created. -/
theorem exists_created :
    ∃ s₀ s₁, system.init s₀ ∧
      system.step s₀ (sampleEnv, .create [97] 200) (.success true) s₁ := by
  obtain ⟨fs, d', -, hinit⟩ := exists_init FileHeader.blankDisk sampleEnv
  obtain ⟨mapBlocks, dirBlocks, inv, -, hfree⟩ := init_inv hinit
  have habsent : ∀ j, ¬ (directoryOn d' dirBlocks).Holds [97] j := fun j hj => by
    obtain ⟨g, hg⟩ := inv.image.exists_file hj
    cases hg
  obtain ⟨s₁, hstep⟩ := inv.create_succeeds sampleEnv habsent (i := 0) rfl
    (show (0 : ℤ) ≤ 200 by decide) (by decide) (by rw [hfree]; decide)
  exact ⟨_, s₁, hinit, ⟨by decide, by decide⟩, hstep⟩

/-- Formatting returns. After every run of legal calls the free map, the directory and the
headers on the disk agree, and every legal call returns. -/
theorem runs_keep_representation :
    (∀ d env, ∃ fs d', format d env = .ok (fs, d') ∧ system.init ⟨fs, d', []⟩) ∧
    ∀ s, system.Reachable s →
      (∃ fs freeMap dir sectors, Consistent s.disk fs freeMap dir sectors) ∧
      ∀ env op, s.Legal op → ∃ reply s', s.step env op = .ok (reply, s') := by
  refine ⟨exists_init, fun s hs => ?_⟩
  obtain ⟨mapBlocks, dirBlocks, files, inv, direct⟩ := reachable_inv hs
  obtain ⟨sectors, hc⟩ := inv.consistent direct
  refine ⟨⟨_, _, _, sectors, hc⟩, fun env op hlegal => ?_⟩
  obtain ⟨reply, s', _, hstep, _⟩ := inv.step_legal direct env hlegal
  exact ⟨reply, s', hstep⟩

theorem runs_keep_representation_sample :
    ∃ s₀ s₁, system.init s₀ ∧
      system.step s₀ (sampleEnv, .create [97] 200) (.success true) s₁ ∧
      ∃ fs freeMap dir sectors, Consistent s₁.disk fs freeMap dir sectors := by
  obtain ⟨s₀, s₁, hinit, hstep⟩ := exists_created
  exact ⟨s₀, s₁, hinit, hstep,
    (runs_keep_representation.2 s₁ ((System.Reachable.of_init hinit).step hstep)).1⟩

end

end Session

end Nachos
