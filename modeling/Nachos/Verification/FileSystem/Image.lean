import Nachos.Library.Ownership
import Nachos.Verification.FileSystem.Operations

/-! # Images of the file system on the disk

An image says which file each entry of the directory stands for and which sectors it
owns. The operations take images to images. -/

namespace Nachos

open Library

/-- A file on the disk: the sector of its header, the header and its other sectors. -/
structure FileImage where
  sector : Fin NumSectors
  header : FileHeader
  data : List (Fin NumSectors)

variable {e : DirectoryEntry}

namespace FileImage

def sectors (g : FileImage) : List (Fin NumSectors) := g.sector :: g.data

/-- The entry `e` leads to the file. -/
structure OnDisk (g : FileImage) (d : Disk) (e : DirectoryEntry) : Prop where
  sector : e.sector.toInt = (g.sector : ℕ)
  header : d g.sector = FileHeader.layout g.header
  body : g.header.Sectors d g.data

theorem OnDisk.congr {g : FileImage} {d d' : Disk} (h : g.OnDisk d e)
    (he : ∀ s ∈ g.sectors, d' s = d s) : g.OnDisk d' e where
  sector := h.sector
  header := (he _ List.mem_cons_self).trans h.header
  body := h.body.congr_disk fun s hs => he s (List.mem_cons_of_mem _ hs)

theorem OnDisk.fetchFrom {g : FileImage} {d : Disk} (h : g.OnDisk d e) :
    FileHeader.fetchFrom d e.sector.toInt = .ok g.header := by
  rw [FileHeader.fetchFrom, h.sector, Disk.readSector_natCast, ok_bind, h.header,
    Equiv.symm_apply_apply, pure_eq_ok]

end FileImage

/-- A header without an index sector maps the file's sectors. -/
theorem FileHeader.Sectors.maps {h : FileHeader} {d : Disk} {data : List (Fin NumSectors)}
    (hs : h.Sectors d data) (hidx : ¬ h.hasIndex) (hnodup : data.Nodup) :
    h.Maps data ∧ data.length = h.numSectors.toNat := by
  cases hs with
  | indexed hidx' => exact absurd hidx' hidx
  | direct _ hdata =>
      have hneed : h.needDirect = h.numSectors.toNat := by rw [needDirect, if_neg hidx]
      have hle : h.numSectors.toNat ≤ NumDirect := Nat.le_of_not_lt hidx
      have hlen := congrArg List.length hdata
      simp only [directSectors, hneed, List.length_map, List.length_take,
        List.length_finRange] at hlen
      have hlen' : data.length = h.numSectors.toNat := by omega
      refine ⟨⟨by omega, fun b hb => ?_, hnodup⟩, hlen'⟩
      have hget := List.getElem_of_eq hdata (i := b) (by
        simp only [directSectors, hneed, List.length_map, List.length_take, List.length_finRange]
        omega)
      simp only [directSectors, List.getElem_map, List.getElem_take, List.getElem_finRange] at hget
      exact hget

namespace FileSystem

/-- The files of the directory, entry by entry. -/
abbrev Files := Fin NumDirEntries → Option FileImage

/-- The sectors owned by each entry. -/
def Files.parts (files : Files) (i : Fin NumDirEntries) : List (Fin NumSectors) :=
  (files i).elim [] FileImage.sectors

theorem Files.parts_of_some {files : Files} {i : Fin NumDirEntries} {g : FileImage}
    (h : files i = some g) : files.parts i = g.sectors := by
  rw [parts, h]
  rfl

theorem Files.parts_of_none {files : Files} {i : Fin NumDirEntries} (h : files i = none) :
    files.parts i = [] := by
  rw [parts, h]
  rfl

theorem Files.parts_update (files : Files) (i : Fin NumDirEntries) (g : Option FileImage) :
    Files.parts (Function.update files i g) =
      Function.update files.parts i (g.elim [] FileImage.sectors) := by
  funext j
  by_cases hj : j = i
  · subst hj
    simp [parts]
  · simp [parts, Function.update_of_ne hj]

/-- The sectors that belong to no entry: the two headers and what they map. -/
def base (mapBlocks dirBlocks : List (Fin NumSectors)) : List (Fin NumSectors) :=
  [0, 1] ++ (mapBlocks ++ dirBlocks)

/-- The disk `d` holds the file system `fs` with the files `files`. -/
structure Image (fs : FileSystem) (d : Disk) (mapBlocks dirBlocks : List (Fin NumSectors))
    (files : Files) : Prop where
  readable : fs.Readable mapBlocks dirBlocks
  mounted : mount d = .ok fs
  inUse : ∀ i, ((directoryOn d dirBlocks).table i).inUse ≠ 0 ↔ (files i).isSome
  onDisk : ∀ i g, files i = some g → g.OnDisk d ((directoryOn d dirBlocks).table i)
  names : (directoryOn d dirBlocks).DistinctNames
  owns : Ownership (base mapBlocks dirBlocks) files.parts
    fun s => (freeMapOn d mapBlocks).testBit s = true

theorem openFile_new (d : Disk) (s : Fin NumSectors) :
    OpenFile.new d (s : ℕ) = .ok ⟨FileHeader.layout.symm (d s), (s : ℕ), 0⟩ := by
  rw [OpenFile.new, FileHeader.fetchFrom, Disk.readSector_natCast, ok_bind, pure_eq_ok, ok_bind,
    pure_eq_ok]

/-- The open files come from sectors 0 and 1. -/
theorem mount_eq (d : Disk) :
    mount d = .ok ⟨⟨FileHeader.layout.symm (d 0), 0, 0⟩, ⟨FileHeader.layout.symm (d 1), 1, 0⟩⟩ := by
  have h0 := openFile_new d 0
  have h1 := openFile_new d 1
  rw [mount, show FreeMapSector = (((0 : Fin NumSectors) : ℕ) : ℤ) from rfl, h0, ok_bind,
    show DirectorySector = (((1 : Fin NumSectors) : ℕ) : ℤ) from rfl, h1, ok_bind, pure_eq_ok]
  rfl

theorem mount_congr {d d' : Disk} (h0 : d' 0 = d 0) (h1 : d' 1 = d 1) : mount d' = mount d := by
  rw [mount_eq, mount_eq, h0, h1]

namespace Image

variable {fs : FileSystem} {d d' : Disk} {mapBlocks dirBlocks : List (Fin NumSectors)}
  {files : Files} {s : Fin NumSectors}

theorem zero_mem_base : (0 : Fin NumSectors) ∈ base mapBlocks dirBlocks := by simp [base]

theorem one_mem_base : (1 : Fin NumSectors) ∈ base mapBlocks dirBlocks := by simp [base]

theorem map_mem_base (h : s ∈ mapBlocks) : s ∈ base mapBlocks dirBlocks := by
  simp [base, h]

theorem dir_mem_base (h : s ∈ dirBlocks) : s ∈ base mapBlocks dirBlocks := by
  simp [base, h]

section

variable (im : Image fs d mapBlocks dirBlocks files)

include im

/-- The base sectors are pairwise different. -/
theorem base_apart :
    (∀ s ∈ dirBlocks, s ∉ mapBlocks) ∧
      (∀ s ∈ [(0 : Fin NumSectors), 1], s ∉ mapBlocks ∧ s ∉ dirBlocks) := by
  obtain ⟨_, hblocks, hleft⟩ := List.nodup_append.mp im.owns.base_nodup
  obtain ⟨_, _, hright⟩ := List.nodup_append.mp hblocks
  refine ⟨fun s hs hs' => hright s hs' s hs rfl, fun s hs => ⟨fun hs' => ?_, fun hs' => ?_⟩⟩
  · exact hleft s hs s (List.mem_append_left _ hs') rfl
  · exact hleft s hs s (List.mem_append_right _ hs') rfl

/-- The sectors of a file are not base sectors. -/
theorem notMem_base {i : Fin NumDirEntries} {g : FileImage} (hg : files i = some g)
    (hs : s ∈ g.sectors) : s ∉ base mapBlocks dirBlocks := by
  intro hb
  refine im.owns.base_disjoint i s hb ?_
  rw [Files.parts_of_some hg]
  exact hs

/-- The base sectors and the sectors of the files are marked. -/
theorem ne_of_clear (hs : (freeMapOn d mapBlocks).testBit s = false) :
    s ∉ base mapBlocks dirBlocks ∧ ∀ i g, files i = some g → s ∉ g.sectors := by
  refine ⟨fun hb => ?_, fun i g hg hmem => ?_⟩
  · rw [im.owns.used_of_base hb] at hs
    cases hs
  · rw [← Files.parts_of_some hg] at hmem
    rw [im.owns.used_of_part hmem] at hs
    cases hs

theorem files_eq_none {i : Fin NumDirEntries} (h : ((directoryOn d dirBlocks).table i).inUse = 0) :
    files i = none := by
  rw [← Option.not_isSome_iff_eq_none, ← im.inUse, not_not]
  exact h

/-- A change of the disk that leaves the base and the files alone, apart from the entry `i`
and its file. -/
theorem update {i : Fin NumDirEntries} {g : Option FileImage}
    (hdir : directoryOn d' dirBlocks = (directoryOn d dirBlocks).setEntry i e) (h0 : d' 0 = d 0)
    (h1 : d' 1 = d 1) (hothers : ∀ j g', j ≠ i → files j = some g' → ∀ s ∈ g'.sectors, d' s = d s)
    (huse : e.inUse ≠ 0 ↔ g.isSome) (hg : ∀ g', g = some g' → g'.OnDisk d' e)
    (hnames : ((directoryOn d dirBlocks).setEntry i e).DistinctNames)
    (howns : Ownership (base mapBlocks dirBlocks) (Function.update files.parts i (g.elim [] FileImage.sectors)) fun s => (freeMapOn d' mapBlocks).testBit s = true) :
    Image fs d' mapBlocks dirBlocks (Function.update files i g) where
  readable := im.readable
  mounted := (mount_congr h0 h1).trans im.mounted
  inUse j := by
    rw [hdir]
    by_cases hj : j = i
    · subst hj
      rw [Directory.setEntry_self, Function.update_self]
      exact huse
    · rw [Directory.setEntry_of_ne _ hj, Function.update_of_ne hj]
      exact im.inUse j
  onDisk j g' hg' := by
    rw [hdir]
    by_cases hj : j = i
    · subst hj
      rw [Function.update_self] at hg'
      rw [Directory.setEntry_self]
      exact hg g' hg'
    · rw [Function.update_of_ne hj] at hg'
      rw [Directory.setEntry_of_ne _ hj]
      exact (im.onDisk j g' hg').congr (hothers j g' hj hg')
  names := hdir ▸ hnames
  owns := Files.parts_update files i g ▸ howns

/-! ## `Create` -/

theorem created {name : List Byte} {initialSize : ℤ} {i : Fin NumDirEntries}
    {sector : Fin NumSectors} {hdr : FileHeader} {data : List (Fin NumSectors)}
    (c : Created mapBlocks dirBlocks d name initialSize d' i sector hdr data) :
    Image fs d' mapBlocks dirBlocks (Function.update files i (some ⟨sector, hdr, data⟩)) ∧
      ∀ s, s ∉ mapBlocks → s ∉ dirBlocks → s ≠ sector → s ∉ data → d' s = d s := by
  obtain ⟨d₁, ho, hframe⟩ := c.obtained
  have hdata : ∀ s ∈ data, (freeMapOn d mapBlocks).testBit s = false ∧ s ≠ sector := by
    intro s hs
    have := ho.free s hs
    simpa [and_comm] using this
  have hfree : ∀ s ∈ sector :: data, (freeMapOn d mapBlocks).testBit s = false :=
    List.forall_mem_cons.mpr ⟨c.free, fun s hs => (hdata s hs).1⟩
  have hkeep : ∀ s, s ∉ mapBlocks → s ∉ dirBlocks → s ≠ sector → s ∉ data → d' s = d s := by
    intro s hm hd hs hs'
    rw [hframe s hm hd, Function.update_of_ne hs, ho.frame s hs']
  have hout : ∀ s ∈ sector :: data, s ∉ mapBlocks ∧ s ∉ dirBlocks := fun s hs =>
    ⟨fun hm => (im.ne_of_clear (hfree s hs)).1 (map_mem_base hm),
      fun hd => (im.ne_of_clear (hfree s hs)).1 (dir_mem_base hd)⟩
  -- a sector that was in use is none of the new ones
  have hold : ∀ s, s ∉ mapBlocks → s ∉ dirBlocks →
      (freeMapOn d mapBlocks).testBit s = true → d' s = d s := by
    intro s hm hd hs
    refine hkeep s hm hd ?_ ?_
    · rintro rfl
      simp [c.free] at hs
    · intro hmem
      simp [(hdata s hmem).1] at hs
  refine ⟨?_, hkeep⟩
  obtain ⟨hz, ho'⟩ := List.forall_mem_cons.mp im.base_apart.2
  refine im.update c.directory (hold 0 hz.1 hz.2 (im.owns.used_of_base zero_mem_base))
    (hold 1 (ho' 1 (by simp)).1 (ho' 1 (by simp)).2 (im.owns.used_of_base one_mem_base))
    ?_ (by simp [Directory.newEntry]) ?_ (im.names.setEntry_new c.absent (Directory.key_newEntry ..))
    ?_
  · intro j g hj hg s hs
    have hb := im.notMem_base hg hs
    refine hold s (fun hm => hb (map_mem_base hm)) (fun hd => hb (dir_mem_base hd)) ?_
    exact im.owns.used_of_part (i := j) (by rwa [Files.parts_of_some hg])
  · rintro g' ⟨⟩
    refine ⟨Directory.sector_newEntry .., ?_, ho.sectors.congr_disk fun s hs => ?_⟩
    · obtain ⟨hm, hd⟩ := hout sector List.mem_cons_self
      rw [hframe sector hm hd, Function.update_self]
    · obtain ⟨hm, hd⟩ := hout s (List.mem_cons_of_mem _ hs)
      rw [hframe s hm hd, Function.update_of_ne (hdata s hs).2]
  · refine im.owns.claim (Files.parts_of_none (im.files_eq_none c.unused))
      (List.nodup_cons.mpr ⟨fun hmem => (hdata sector hmem).2 rfl, ho.nodup⟩) ?_ ?_
    · intro s hs
      simp [hfree s hs]
    · intro s
      change _ ↔ _ ∨ s ∈ sector :: data
      rw [ho.marked, BitMap.testBit_markBit, Bool.or_eq_true, decide_eq_true_eq, or_assoc,
        List.mem_cons]

end

/-! ## Looking up a name -/

section

variable {name : List Byte} {i : Fin NumDirEntries} {g : FileImage}

theorem find_absent (h : ∀ i, ¬ (directoryOn d dirBlocks).Holds name i) :
    (directoryOn d dirBlocks).find name = -1 := by
  rw [Directory.find, Directory.findIndex_eq_none.mpr h]

section

variable (im : Image fs d mapBlocks dirBlocks files)

include im

theorem find_present (h : (directoryOn d dirBlocks).Holds name i) (hg : files i = some g) :
    (directoryOn d dirBlocks).find name = (g.sector : ℕ) := by
  rw [Directory.find, Directory.findIndex_of_holds im.names h]
  exact (im.onDisk i g hg).sector

theorem exists_file (h : (directoryOn d dirBlocks).Holds name i) : ∃ g, files i = some g :=
  Option.isSome_iff_exists.mp ((im.inUse i).mp h.1)

theorem openFile_absent (h : ∀ i, ¬ (directoryOn d dirBlocks).Holds name i) (env : Env) :
    fs.openFile d env name = .ok none := by
  rw [openFile, im.readable.fetchDirectory, ok_bind]
  dsimp only
  rw [find_absent h, if_neg (by omega), pure_eq_ok]

theorem openFile_present (h : (directoryOn d dirBlocks).Holds name i) (hg : files i = some g)
    (env : Env) : fs.openFile d env name = .ok (some ⟨g.header, (g.sector : ℕ), 0⟩) := by
  rw [openFile, im.readable.fetchDirectory, ok_bind]
  dsimp only
  rw [im.find_present h hg, if_pos (by omega), openFile_new, ok_bind, pure_eq_ok,
    (im.onDisk i g hg).header, Equiv.symm_apply_apply]

/-! ## `Remove` -/

theorem remove_absent (h : ∀ i, ¬ (directoryOn d dirBlocks).Holds name i) (env : Env) :
    fs.remove d env name = .ok (false, d) := by
  rw [remove, im.readable.fetchDirectory, ok_bind]
  dsimp only
  rw [find_absent h, if_pos rfl, pure_eq_ok]

/-- `Remove` frees the sectors of the file if `Deallocate` can read its index sector. -/
theorem remove_present (h : (directoryOn d dirBlocks).Holds name i) (hg : files i = some g)
    (hlow : g.header.LowIndex d) (env : Env) :
    ∃ d' e, fs.remove d env name = .ok (true, d') ∧ e.inUse = 0 ∧
      directoryOn d' dirBlocks = (directoryOn d dirBlocks).setEntry i e ∧
      Image fs d' mapBlocks dirBlocks (Function.update files i none) ∧
      ∀ s, s ∉ mapBlocks → s ∉ dirBlocks → d' s = d s := by
  have hdisk := im.onDisk i g hg
  have hnodup : (g.sector :: g.data).Nodup := by
    have := im.owns.nodup i
    rwa [Files.parts_of_some hg] at this
  have hset : ∀ s ∈ g.data, (freeMapOn d mapBlocks).testBit s = true := by
    intro s hs
    refine im.owns.used_of_part (i := i) ?_
    rw [Files.parts_of_some hg]
    exact List.mem_cons_of_mem _ hs
  obtain ⟨e, he, hremove⟩ :=
    Directory.remove_eq (Directory.findIndex_of_holds im.names h)
  have hfetch : FileHeader.fetchFrom d (g.sector : ℕ) = .ok g.header :=
    hdisk.sector ▸ hdisk.fetchFrom
  obtain ⟨d₁, hmap, hmap', hframe₁⟩ := im.readable.writeFreeMap
    ((g.data.foldl BitMap.clearBit (freeMapOn d mapBlocks)).clearBit g.sector) d (env.buffer 0)
  obtain ⟨d₂, hdir, hdir', hframe₂⟩ := im.readable.writeDirectory
    ((directoryOn d dirBlocks).setEntry i e) d₁ (env.buffer 1)
  have hframe : ∀ s, s ∉ mapBlocks → s ∉ dirBlocks → d₂ s = d s := fun s hm hd =>
    (hframe₂ s hd).trans (hframe₁ s hm)
  have hmap₂ : freeMapOn d₂ mapBlocks =
      (g.data.foldl BitMap.clearBit (freeMapOn d mapBlocks)).clearBit g.sector := by
    rw [← hmap']
    exact freeMapOn_congr fun s hs => hframe₂ s fun hd => im.base_apart.1 s hd hs
  refine ⟨d₂, e, ?_, he, hdir', ?_, hframe⟩
  · rw [remove, im.readable.fetchDirectory, ok_bind]
    dsimp only
    rw [im.find_present h hg, if_neg (by omega), removeFile, hfetch, ok_bind,
      im.readable.fetchFreeMap, ok_bind, hdisk.body.deallocate hlow (List.nodup_cons.mp hnodup).2
      hset, ok_bind, BitMap.clear_natCast, ok_bind, hremove, hmap, ok_bind]
    simp only [hdir, ok_bind, pure_eq_ok]
  · obtain ⟨hz, ho⟩ := List.forall_mem_cons.mp im.base_apart.2
    refine im.update hdir' (hframe 0 hz.1 hz.2)
      (hframe 1 (ho 1 (by simp)).1 (ho 1 (by simp)).2) ?_ (by simp [he])
      (fun g' hg' => by cases hg') (im.names.setEntry_unused he) ?_
    · intro j g' hj hg' s hs
      have hb := im.notMem_base hg' hs
      exact hframe s (fun hm => hb (map_mem_base hm)) fun hd => hb (dir_mem_base hd)
    · refine im.owns.release fun s => ?_
      rw [Files.parts_of_some hg, hmap₂, BitMap.testBit_clearBit, BitMap.testBit_foldl_clearBit]
      simp only [Bool.and_eq_true, Bool.not_eq_true', decide_eq_false_iff_not, FileImage.sectors,
        List.mem_cons, not_or]
      exact ⟨fun h => ⟨h.1.1, h.2, h.1.2⟩, fun h => ⟨⟨h.1, h.2.2⟩, h.2.1⟩⟩

/-! ## Transfers -/

/-- A transfer through an open file changes only the sectors of that file. -/
theorem transfer (hg : files i = some g) {h' : FileHeader} (hkeep : ∀ s, s ∉ g.sectors → d' s = d s)
    (hheader : d' g.sector = FileHeader.layout h') (hbody : h'.Sectors d' g.data) :
    Image fs d' mapBlocks dirBlocks (Function.update files i (some ⟨g.sector, h', g.data⟩)) ∧
      directoryOn d' dirBlocks = directoryOn d dirBlocks := by
  have hbase : ∀ s ∈ base mapBlocks dirBlocks, d' s = d s := fun s hs =>
    hkeep s fun hmem => im.notMem_base hg hmem hs
  have hdir : directoryOn d' dirBlocks = directoryOn d dirBlocks :=
    directoryOn_congr fun s hs => hbase s (dir_mem_base hs)
  have hmap : freeMapOn d' mapBlocks = freeMapOn d mapBlocks :=
    freeMapOn_congr fun s hs => hbase s (map_mem_base hs)
  have hsame : (directoryOn d dirBlocks).setEntry i ((directoryOn d dirBlocks).table i) =
      directoryOn d dirBlocks := by
    rw [Directory.setEntry, Function.update_eq_self]
  refine ⟨im.update (hdir.trans hsame.symm) (hbase 0 zero_mem_base) (hbase 1 one_mem_base) ?_ ?_
    ?_ (hsame.symm ▸ im.names) ?_, hdir⟩
  · intro j g' hj hg' s hs
    refine hkeep s fun hmem => ?_
    rw [← Files.parts_of_some hg'] at hs
    rw [← Files.parts_of_some hg] at hmem
    exact im.owns.disjoint j i hj s hs hmem
  · rw [im.inUse, hg]
    simp
  · rintro g' ⟨⟩
    exact ⟨(im.onDisk i g hg).sector, hheader, hbody⟩
  · have hparts : Function.update files.parts i
        ((some (⟨g.sector, h', g.data⟩ : FileImage)).elim [] FileImage.sectors) = files.parts := by
      rw [Function.update_eq_self_iff, Files.parts_of_some hg]
      rfl
    rw [hparts, hmap]
    exact im.owns

end

end

end Image

end FileSystem

end Nachos
