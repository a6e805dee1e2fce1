import Nachos.Verification.FileSystem.Format
import Nachos.Verification.OpenFile.Refinement

/-! # The steps of a session

What each operation does to an image of the file system and to the handles that are
open on its files. -/

namespace Nachos

open Library FileSystem

/-- The handle is open on the file `g` of the entry `i`. -/
structure Handle.On (h : Handle) (dir : Directory NumDirEntries) (files : Files)
    (i : Fin NumDirEntries) (g : FileImage) : Prop where
  file : files i = some g
  name : dir.Holds h.name i
  hdrSector : h.file.hdrSector = (g.sector : ℕ)
  numBytes : h.file.hdr.numBytes = g.header.numBytes
  numSectors : h.file.hdr.numSectors = g.header.numSectors
  dataSectors : h.file.hdr.dataSectors = g.header.dataSectors

variable {h : Handle} {i : Fin NumDirEntries} {g : FileImage}

/-- Changes of another entry do not matter. -/
theorem Handle.On.update_of_ne {dir : Directory NumDirEntries} {files : Files}
    {j : Fin NumDirEntries} (on : h.On dir files j g) (hj : j ≠ i) (e : DirectoryEntry)
    (x : Option FileImage) : h.On (dir.setEntry i e) (Function.update files i x) j g :=
  { on with
    file := by rw [Function.update_of_ne hj]; exact on.file
    name := by
      have hname := on.name
      rw [Directory.Holds] at hname ⊢
      rwa [Directory.setEntry_of_ne _ hj] }

namespace Session

/-- The disk holds an image of the file system, and every live handle is open on one of
its files. -/
structure Inv (s : Session) (mapBlocks dirBlocks : List (Fin NumSectors)) (files : Files) :
    Prop where
  image : Image s.fs s.disk mapBlocks dirBlocks files
  live : ∀ h ∈ s.handles, h.live = true →
    ∃ i g, h.On (directoryOn s.disk dirBlocks) files i g

section

variable {s s' : Session} {mapBlocks dirBlocks : List (Fin NumSectors)} {files : Files}
  {env : FileSystem.Env} {reply : Reply} {name : List Byte}

/-! ## `Create` -/

section

variable (inv : s.Inv mapBlocks dirBlocks files)

include inv

theorem Inv.create {initialSize : ℤ}
    (hstep : s.step env (.create name initialSize) = .ok (reply, s')) :
    (reply = .success false ∧ s' = s) ∨
    ∃ d' i sector hdr data, reply = .success true ∧ s' = { s with disk := d' } ∧
      Created mapBlocks dirBlocks s.disk name initialSize d' i sector hdr data ∧
      s'.Inv mapBlocks dirBlocks (Function.update files i (some ⟨sector, hdr, data⟩)) ∧
      ∀ t, t ∉ mapBlocks → t ∉ dirBlocks → t ≠ sector → t ∉ data → d' t = s.disk t := by
  rw [step] at hstep
  obtain ⟨⟨success, d'⟩, hcreate, hstep⟩ := bind_eq_ok.mp hstep
  simp only [pure_eq_ok, Except.ok.injEq, Prod.mk.injEq] at hstep
  obtain ⟨rfl, rfl⟩ := hstep
  cases success with
  | false =>
      rw [create_eq_false hcreate]
      exact .inl ⟨rfl, rfl⟩
  | true =>
      obtain ⟨i, sector, hdr, data, hc⟩ :=
        inv.image.readable.create_eq_true inv.image.base_apart.1 hcreate
      obtain ⟨himage, hframe⟩ := inv.image.created hc
      refine .inr ⟨d', i, sector, hdr, data, rfl, rfl, hc, ⟨himage, fun h hh hlive => ?_⟩, hframe⟩
      obtain ⟨j, g, on⟩ := inv.live h hh hlive
      have hne : j ≠ i := by
        rintro rfl
        have := inv.image.files_eq_none hc.unused
        rw [on.file] at this
        cases this
      refine ⟨j, g, ?_⟩
      rw [hc.directory]
      exact on.update_of_ne hne _ _

theorem Inv.create_succeeds (env : FileSystem.Env)
    (habsent : ∀ j, ¬ (directoryOn s.disk dirBlocks).Holds name j) (hi : files i = none)
    {initialSize : ℤ} (hlo : 0 ≤ initialSize) (hhi : initialSize ≤ MaxFileSize)
    (hfree : FileHeader.dataSectorCount initialSize < (freeMapOn s.disk mapBlocks).free.length) :
    ∃ s', s.step env (.create name initialSize) = .ok (.success true, s') := by
  have hunused : ((directoryOn s.disk dirBlocks).table i).inUse = 0 := by
    by_contra huse
    rw [← ne_eq, inv.image.inUse i, hi] at huse
    cases huse
  obtain ⟨d', hcreate⟩ := inv.image.readable.create_succeeds inv.image.base_apart.1 s.disk env
    habsent hunused hlo hhi hfree
  refine ⟨{ s with disk := d' }, ?_⟩
  rw [step, hcreate, ok_bind]
  rfl

/-! ## `Remove` -/

theorem Inv.remove_absent (h : ∀ i, ¬ (directoryOn s.disk dirBlocks).Holds name i)
    (env : FileSystem.Env) : s.step env (.remove name) = .ok (.success false, s) := by
  rw [step, inv.image.remove_absent h, ok_bind]
  rfl

theorem Inv.remove_present (hi : (directoryOn s.disk dirBlocks).Holds name i)
    (hg : files i = some g) (hlow : g.header.LowIndex s.disk) (env : FileSystem.Env) :
    ∃ d' e s', s.step env (.remove name) = .ok (.success true, s') ∧
      s' = { s with disk := d', handles := s.handles.map (Handle.afterRemove name) } ∧
      e.inUse = 0 ∧ directoryOn d' dirBlocks = (directoryOn s.disk dirBlocks).setEntry i e ∧
      s'.Inv mapBlocks dirBlocks (Function.update files i none) ∧
      ∀ t, t ∉ mapBlocks → t ∉ dirBlocks → d' t = s.disk t := by
  obtain ⟨d', e, hremove, he, hdir, himage, hframe⟩ := inv.image.remove_present hi hg hlow env
  refine ⟨d', e, _, ?_, rfl, he, hdir, ⟨himage, fun h hh hlive => ?_⟩, hframe⟩
  · rw [step, hremove, ok_bind]
    rfl
  · obtain ⟨h₀, hmem, rfl⟩ := List.mem_map.mp hh
    simp only [Handle.afterRemove, Bool.and_eq_true, decide_eq_true_eq] at hlive
    obtain ⟨j, g', on⟩ := inv.live h₀ hmem hlive.1
    have hne : j ≠ i := by
      rintro rfl
      exact hlive.2 (on.name.2.symm.trans hi.2)
    refine ⟨j, g', ?_⟩
    have hon := on.update_of_ne hne e none
    rw [← hdir] at hon
    exact ⟨hon.file, hon.name, hon.hdrSector, hon.numBytes, hon.numSectors, hon.dataSectors⟩

/-! ## `Open` and starting again -/

theorem Inv.openFile_absent (h : ∀ i, ¬ (directoryOn s.disk dirBlocks).Holds name i)
    (env : FileSystem.Env) : s.step env (.openFile name) = .ok (.handle none, s) := by
  rw [step, inv.image.openFile_absent h, ok_bind]
  rfl

theorem Inv.openFile_present (hi : (directoryOn s.disk dirBlocks).Holds name i)
    (hg : files i = some g) (env : FileSystem.Env) :
    ∃ s', s.step env (.openFile name) = .ok (.handle (some s.handles.length), s') ∧
      s' = { s with handles := s.handles ++ [⟨⟨g.header, (g.sector : ℕ), 0⟩, name, true⟩] } ∧
      s'.Inv mapBlocks dirBlocks files := by
  refine ⟨_, ?_, rfl, ⟨inv.image, fun h hh hlive => ?_⟩⟩
  · rw [step, inv.image.openFile_present hi hg, ok_bind]
    rfl
  · rcases List.mem_append.mp hh with hh | hh
    · exact inv.live h hh hlive
    · rw [List.mem_singleton] at hh
      subst hh
      exact ⟨i, g, hg, hi, rfl, rfl, rfl, rfl⟩

theorem Inv.mount (env : FileSystem.Env) : s.step env .mount = .ok (.mounted, s) := by
  rw [step, inv.image.mounted, ok_bind]
  rfl

/-! ## Transfers -/

/-- A transfer through a live handle writes the sectors of its file only, and the header
it may write back differs in its dates at most. -/
theorem Inv.transfer (k : ℕ) (on : h.On (directoryOn s.disk dirBlocks) files i g) {f' : OpenFile}
    {d' : Disk} {h' : FileHeader} (hsame : OpenFile.SameFile h.file f')
    (hmap : h'.numBytes = g.header.numBytes ∧ h'.numSectors = g.header.numSectors ∧ h'.dataSectors = g.header.dataSectors)
    (hkeep : ∀ t, t ∉ g.sectors → d' t = s.disk t) (hheader : d' g.sector = FileHeader.layout h')
    (hbody : h'.Sectors d' g.data) :
    Inv { s with disk := d', handles := s.handles.set k { h with file := f' } } mapBlocks
        dirBlocks (Function.update files i (some ⟨g.sector, h', g.data⟩)) ∧
      directoryOn d' dirBlocks = directoryOn s.disk dirBlocks := by
  obtain ⟨himage, hdir⟩ := inv.image.transfer on.file hkeep hheader hbody
  obtain ⟨hbytes, hsectors, htable⟩ := hmap
  refine ⟨⟨himage, fun h₂ hh hlive => ?_⟩, hdir⟩
  rw [show directoryOn ({ s with disk := d', handles := _ } : Session).disk dirBlocks =
    directoryOn s.disk dirBlocks from hdir]
  rcases List.mem_or_eq_of_mem_set hh with hh | rfl
  · obtain ⟨j, g₂, on₂⟩ := inv.live h₂ hh hlive
    by_cases hj : j = i
    · subst hj
      have hg : g₂ = g := Option.some.inj (on₂.file.symm.trans on.file)
      subst hg
      exact ⟨j, _, Function.update_self .., on₂.name, on₂.hdrSector,
        on₂.numBytes.trans hbytes.symm, on₂.numSectors.trans hsectors.symm,
        on₂.dataSectors.trans htable.symm⟩
    · exact ⟨j, g₂, { on₂ with file := by rw [Function.update_of_ne hj]; exact on₂.file }⟩
  · exact ⟨i, _, Function.update_self .., on.name, hsame.hdrSector.trans on.hdrSector,
      (hsame.numBytes.trans on.numBytes).trans hbytes.symm,
      (hsame.numSectors.trans on.numSectors).trans hsectors.symm,
      (hsame.dataSectors.trans on.dataSectors).trans htable.symm⟩

end

/-- No file has an index sector, and the positions of the handles are those of an `int`. -/
structure Direct (s : Session) (mapBlocks dirBlocks : List (Fin NumSectors)) (files : Files) :
    Prop where
  mapSectors : s.fs.freeMapFile.hdr.directSectors =
    mapBlocks.map fun s : Fin NumSectors => ((s : ℕ) : ℤ)
  dirSectors : s.fs.directoryFile.hdr.directSectors =
    dirBlocks.map fun s : Fin NumSectors => ((s : ℕ) : ℤ)
  noIndex : ∀ i g, files i = some g → ¬ g.header.hasIndex
  sized : ∀ i g, files i = some g →
    g.header.numSectors.toNat = FileHeader.dataSectorCount g.header.fileLength
  seek : ∀ h ∈ s.handles, 0 ≤ h.file.seekPosition ∧ h.file.seekPosition < 2 ^ 31

/-- The bytes of a file. -/
def bytes (d : Disk) (g : FileImage) : List Byte :=
  contents d g.data g.header.fileLength.toNat

section

variable (inv : s.Inv mapBlocks dirBlocks files) (direct : s.Direct mapBlocks dirBlocks files)

include inv direct

theorem Inv.length_bytes (hg : files i = some g) :
    g.header.Maps g.data ∧ (bytes s.disk g).length = g.header.fileLength.toNat ∧
      g.header.fileLength.toNat ≤ 128 * g.data.length := by
  have hnodup := inv.image.owns.nodup i
  rw [Files.parts_of_some hg] at hnodup
  obtain ⟨hmaps, hlen⟩ := (inv.image.onDisk i g hg).body.maps (direct.noIndex i g hg)
    (List.nodup_cons.mp hnodup).2
  have hsized := direct.sized i g hg
  simp only [FileHeader.dataSectorCount, SectorSize] at hsized
  refine ⟨hmaps, ?_, by omega⟩
  rw [bytes, length_contents]
  omega

/-- A newly opened file represents the bytes of the file. -/
theorem Inv.represents_file (hg : files i = some g) :
    OpenFile.Represents ⟨g.header, (g.sector : ℕ), 0⟩ s.disk g.data ⟨bytes s.disk g, 0⟩ := by
  obtain ⟨hmaps, hbytes, hfits⟩ := inv.length_bytes direct hg
  have hnodup := inv.image.owns.nodup i
  rw [Files.parts_of_some hg] at hnodup
  exact {
    maps := hmaps
    length := hbytes.symm
    fits := by rw [hbytes]; exact hfits
    items := by rw [hbytes]; rfl
    pos := rfl
    pos_lt := show 0 < 2 ^ 31 by decide
    header := ⟨g.sector, rfl, (List.nodup_cons.mp hnodup).1⟩ }

/-- A live handle represents the bytes of its file. -/
theorem Inv.represents (hh : h ∈ s.handles) (on : h.On (directoryOn s.disk dirBlocks) files i g) :
    h.file.Represents s.disk g.data ⟨bytes s.disk g, h.file.seekPosition.toNat⟩ := by
  have hr := inv.represents_file direct on.file
  obtain ⟨hlo, hhi⟩ := direct.seek h hh
  have hlen : h.file.hdr.fileLength = g.header.fileLength := congrArg BitVec.toInt on.numBytes
  exact {
    maps := hr.maps.congr on.dataSectors
    length := by rw [hlen]; exact hr.length
    fits := hr.fits
    items := hr.items
    pos := (Int.toNat_of_nonneg hlo).symm
    pos_lt := by
      change h.file.seekPosition.toNat < 2 ^ 31
      omega
    header := by rw [on.hdrSector]; exact hr.header }

/-- Calls through live handles. -/
theorem Inv.call {k : ℕ} (hk : s.handles[k]? = some h)
    (on : h.On (directoryOn s.disk dirBlocks) files i g) (env : FileSystem.Env)
    (call : OpenFile.Call) (hlegal : call.Legal h.file.seekPosition) :
    ∃ f' d' h' s', s.step env (.call k call) = .ok (.transfer
          (call.apply ⟨bytes s.disk g, h.file.seekPosition.toNat⟩).1, s') ∧
      s' = { s with disk := d', handles := s.handles.set k { h with file := f' } } ∧
      s'.Inv mapBlocks dirBlocks (Function.update files i (some ⟨g.sector, h', g.data⟩)) ∧
      directoryOn d' dirBlocks = directoryOn s.disk dirBlocks ∧
      (h'.numBytes = g.header.numBytes ∧ h'.numSectors = g.header.numSectors ∧
        h'.dataSectors = g.header.dataSectors) ∧
      bytes d' ⟨g.sector, h', g.data⟩ =
        (call.apply ⟨bytes s.disk g, h.file.seekPosition.toNat⟩).2.items ∧
      f'.seekPosition = (call.apply ⟨bytes s.disk g, h.file.seekPosition.toNat⟩).2.pos ∧
      f'.seekPosition < 2 ^ 31 ∧
      ∀ t, t ∉ g.sectors → d' t = s.disk t := by
  have hh : h ∈ s.handles := List.mem_of_getElem? hk
  have hr := inv.represents direct hh on
  have hlegal' : call.Legal
      ((⟨bytes s.disk g, h.file.seekPosition.toNat⟩ : Cursor Byte).pos : ℕ) := by
    rw [← hr.pos]
    exact hlegal
  obtain ⟨f', d', hrun, hr', hsame, hframe, hhdr⟩ :=
    hr.call ⟨env.szTime 0, env.buffer 0⟩ call hlegal'
  have hdisk := inv.image.onDisk i g on.file
  have hkeep : ∀ t, t ∉ g.sectors → d' t = s.disk t := by
    intro t ht
    rw [FileImage.sectors, List.mem_cons, not_or] at ht
    refine hframe t ht.2 fun he => ht.1 ?_
    rw [on.hdrSector, Int.natCast_inj] at he
    exact Fin.ext he
  -- the header on the disk is the old one or the one that is written back
  obtain ⟨h', hheader, hmap⟩ : ∃ h', d' g.sector = FileHeader.layout h' ∧
      h'.numBytes = g.header.numBytes ∧ h'.numSectors = g.header.numSectors ∧
        h'.dataSectors = g.header.dataSectors := by
    rcases hhdr g.sector on.hdrSector.symm with hold | hnew
    · exact ⟨g.header, hold.trans hdisk.header, rfl, rfl, rfl⟩
    · exact ⟨f'.hdr, hnew, hsame.numBytes.trans on.numBytes,
        hsame.numSectors.trans on.numSectors, hsame.dataSectors.trans on.dataSectors⟩
  have hbody : h'.Sectors d' g.data := by
    have hidx : ¬ h'.hasIndex := by
      rw [FileHeader.hasIndex, hmap.2.1]
      exact direct.noIndex i g on.file
    exact (hdisk.body.congr_header hmap.2.1 hmap.2.2).of_not_hasIndex hidx d'
  obtain ⟨hinv, hdir⟩ := inv.transfer k on hsame hmap hkeep hheader hbody
  have hbytes : bytes d' ⟨g.sector, h', g.data⟩ =
      (call.apply ⟨bytes s.disk g, h.file.seekPosition.toNat⟩).2.items := by
    have hlen : h'.numBytes = f'.hdr.numBytes :=
      hmap.1.trans (on.numBytes.symm.trans hsame.numBytes.symm)
    rw [← hr'.items, ← hr'.length, FileHeader.fileLength, ← hlen]
    rfl
  have hpos : f'.seekPosition < 2 ^ 31 := by
    have := hr'.pos_lt
    rw [hr'.pos]
    exact_mod_cast this
  refine ⟨f', d', h', _, ?_, rfl, hinv, hdir, hmap, hbytes, hr'.pos, hpos, hkeep⟩
  simp only [step, hk, hrun, ok_bind, pure_eq_ok]

end

end

end Session

end Nachos
