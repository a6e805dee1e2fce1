import Nachos.Verification.Session.Invariant

/-! # What `Read` writes

`Read` writes the cached header of its handle back to the sector it came from. As long as
files are read through live handles, this is the header sector of the file. -/

namespace Nachos

open Library FileSystem

namespace OpenFile

/-- `Read` writes one sector. -/
theorem read_eq_ok {f f' : OpenFile} {d d' : Disk} {szTime : List Byte} {numBytes : ℤ}
    {result : Result} (h : f.read d szTime numBytes = .ok (result, f', d')) :
    ∃ x : Fin NumSectors, f.hdrSector = (x : ℕ) ∧ SameFile f f' ∧
      d' = Function.update d x (FileHeader.layout f'.hdr) := by
  rw [read] at h
  obtain ⟨result', _, h⟩ := bind_eq_ok.mp h
  obtain ⟨⟨f₁, d₁⟩, hfinish, h⟩ := bind_eq_ok.mp h
  obtain ⟨-, rfl, rfl⟩ : _ ∧ f₁ = f' ∧ d₁ = d' := by simpa using h
  rw [finish] at hfinish
  obtain ⟨d₂, hwrite, hfinish⟩ := bind_eq_ok.mp hfinish
  obtain ⟨rfl, rfl⟩ := Prod.mk.inj (Except.ok.inj hfinish)
  obtain ⟨x, hx, rfl⟩ := Disk.writeSector_eq_ok hwrite
  exact ⟨x, hx, ⟨rfl, rfl, rfl, rfl⟩, rfl⟩

/-- Also a `Read` of no bytes writes the header back. -/
theorem read_zero (f : OpenFile) (d : Disk) (szTime : List Byte) {x : Fin NumSectors}
    (hx : f.hdrSector = (x : ℕ)) :
    f.read d szTime 0 = .ok ((0, []), f.touch szTime 0,
      Function.update d x (FileHeader.layout (f.hdr.setAccessTime szTime))) := by
  have hread : f.readAt d 0 f.seekPosition = .ok (0, []) := by
    rw [readAt, extent, if_pos (.inl le_rfl)]
  rw [read, hread, ok_bind, finish]
  dsimp only
  rw [show (f.touch szTime 0).hdrSector = (x : ℕ) from hx, FileHeader.writeBack,
    Disk.writeSector_natCast]
  rfl

end OpenFile

namespace Session

/-- A step from `s` to `s'` that reads through the handle `h` has changed at most the header
sector of the file that `h` was opened on, which is in the directory; every sector of every
other file is as it was. -/
structure ReadSafe (s : Session) (h : Handle) (s' : Session) (dir : Directory NumDirEntries)
    (i : Fin NumDirEntries) : Prop where
  directory : ∀ env, s.fs.fetchDirectory s.disk env = .ok dir
  holds : dir.Holds h.name i
  sector : (dir.table i).sector.toInt = h.file.hdrSector
  frame : ∀ x : Fin NumSectors, ((x : ℕ) : ℤ) ≠ h.file.hdrSector → s'.disk x = s.disk x
  others : ∀ j hdr data, j ≠ i → (dir.table j).inUse ≠ 0 →
    FileHeader.fetchFrom s.disk (dir.table j).sector.toInt = .ok hdr →
    hdr.Sectors s.disk data → ∀ x : Fin NumSectors,
      ((x : ℕ) : ℤ) = (dir.table j).sector.toInt ∨ x ∈ data → s'.disk x = s.disk x

/-- Files are read through live handles only, and a file that is removed has no index
sector or one whose entries are small. -/
def Careful (s : Session) : Op → Prop
  | .create _ _ => True
  | .remove name => ∀ env file, s.fs.openFile s.disk env name = .ok (some file) →
      file.hdr.LowIndex s.disk
  | .openFile _ => True
  | .call k (.read _) => ∃ h, s.handles[k]? = some h ∧ h.live = true
  | .call _ _ => False
  | .mount => False

section

variable {s s' : Session} {mapBlocks dirBlocks : List (Fin NumSectors)} {files : Files}
  {env : FileSystem.Env} {reply : Reply}

/-- Reading through a live handle is safe and keeps the invariant. -/
theorem Inv.read (inv : s.Inv mapBlocks dirBlocks files) {k : ℕ} {h : Handle}
    (hk : s.handles[k]? = some h) (hlive : h.live = true) {numBytes : ℤ}
    (hstep : s.step env (.call k (.read numBytes)) = .ok (reply, s')) :
    (∃ dir i, s.ReadSafe h s' dir i) ∧ ∃ files', s'.Inv mapBlocks dirBlocks files' := by
  obtain ⟨i, g, on⟩ := inv.live h (List.mem_of_getElem? hk) hlive
  have hdisk := inv.image.onDisk i g on.file
  rw [step, hk] at hstep
  obtain ⟨⟨result, f', d'⟩, hread, hstep⟩ := bind_eq_ok.mp hstep
  obtain ⟨-, rfl⟩ := Prod.mk.inj (Except.ok.inj hstep)
  obtain ⟨x, hx, hsame, hd'⟩ := OpenFile.read_eq_ok hread
  obtain rfl : x = g.sector := FileHeader.sectorCast_injective (hx.symm.trans on.hdrSector)
  have hframe : ∀ y, y ≠ g.sector → d' y = s.disk y := fun y hy => by
    rw [hd', Function.update_of_ne hy]
  have hnodup := inv.image.owns.nodup i
  rw [Files.parts_of_some on.file] at hnodup
  have hnot : g.sector ∉ g.data := (List.nodup_cons.mp hnodup).1
  refine ⟨⟨directoryOn s.disk dirBlocks, i, {
    directory := inv.image.readable.fetchDirectory s.disk
    holds := on.name
    sector := hdisk.sector.trans on.hdrSector.symm
    frame := fun y hy => hframe y fun he => hy (by rw [he, on.hdrSector])
    others := ?_ }⟩, ?_⟩
  · intro j hdr data hj huse hfetch hsectors y hy
    obtain ⟨g₂, hg₂⟩ := Option.isSome_iff_exists.mp ((inv.image.inUse j).mp huse)
    have hdisk₂ := inv.image.onDisk j g₂ hg₂
    rw [hdisk₂.fetchFrom, Except.ok.injEq] at hfetch
    subst hfetch
    have hy' : y ∈ g₂.sectors := by
      rw [hsectors.unique hdisk₂.body, hdisk₂.sector] at hy
      exact List.mem_cons.mpr (hy.imp (fun he => FileHeader.sectorCast_injective he) id)
    refine hframe y fun he => ?_
    have hdisjoint := inv.image.owns.disjoint j i hj y
    rw [Files.parts_of_some hg₂, Files.parts_of_some on.file] at hdisjoint
    exact hdisjoint hy' (he ▸ List.mem_cons_self)
  · have hnum := hsame.numSectors.trans on.numSectors
    have htable := hsame.dataSectors.trans on.dataSectors
    have hbody : f'.hdr.Sectors d' g.data :=
      (hdisk.body.congr_disk fun y hy => hframe y fun he => hnot (he ▸ hy)).congr_header hnum htable
    exact ⟨_, (inv.transfer k on hsame ⟨hsame.numBytes.trans on.numBytes, hnum, htable⟩
      (fun y hy => hframe y fun he => hy (he ▸ List.mem_cons_self))
      (by rw [hd', Function.update_self]) hbody).1⟩

theorem Inv.step_careful (inv : s.Inv mapBlocks dirBlocks files) {op : Op}
    (hcareful : s.Careful op) (hstep : s.step env op = .ok (reply, s')) :
    ∃ files', s'.Inv mapBlocks dirBlocks files' := by
  cases op with
  | create name initialSize =>
      rcases inv.create hstep with ⟨-, rfl⟩ | ⟨_, _, _, _, _, -, -, -, inv', -⟩
      · exact ⟨files, inv⟩
      · exact ⟨_, inv'⟩
  | remove name =>
      by_cases h : ∃ i, (directoryOn s.disk dirBlocks).Holds name i
      · obtain ⟨i, hi⟩ := h
        obtain ⟨g, hg⟩ := inv.image.exists_file hi
        obtain ⟨_, _, s₁, hstep', -, -, -, inv', -⟩ := inv.remove_present hi hg
          (hcareful env _ (inv.image.openFile_present hi hg env)) env
        rw [hstep'] at hstep
        obtain ⟨-, rfl⟩ := Prod.mk.inj (Except.ok.inj hstep)
        exact ⟨_, inv'⟩
      · rw [inv.remove_absent (not_exists.mp h)] at hstep
        obtain ⟨-, rfl⟩ := Prod.mk.inj (Except.ok.inj hstep)
        exact ⟨files, inv⟩
  | openFile name =>
      by_cases h : ∃ i, (directoryOn s.disk dirBlocks).Holds name i
      · obtain ⟨i, hi⟩ := h
        obtain ⟨g, hg⟩ := inv.image.exists_file hi
        obtain ⟨s₁, hstep', -, inv'⟩ := inv.openFile_present hi hg env
        rw [hstep'] at hstep
        obtain ⟨-, rfl⟩ := Prod.mk.inj (Except.ok.inj hstep)
        exact ⟨_, inv'⟩
      · rw [inv.openFile_absent (not_exists.mp h)] at hstep
        obtain ⟨-, rfl⟩ := Prod.mk.inj (Except.ok.inj hstep)
        exact ⟨files, inv⟩
  | call k call =>
      cases call with
      | read numBytes =>
          obtain ⟨h, hk, hlive⟩ := hcareful
          exact (inv.read hk hlive hstep).2
      | seek | write | readAt | writeAt => exact hcareful.elim
  | mount => exact hcareful.elim

/-! ## Runs -/

/-- Any interleaving of `Create`, `Remove`, `Open` and careful `Read`s. -/
def readingSystem : System Session (FileSystem.Env × Op) Reply where
  init := system.init
  step s i reply s' := s.Careful i.2 ∧ s.step i.1 i.2 = .ok (reply, s')

/-- In every run whose steps are careful, every `Read` is safe. -/
theorem careful_reads_are_safe (h : readingSystem.Reachable s) (env : FileSystem.Env) (k : ℕ)
    (numBytes : ℤ) (reply : Reply) (s' : Session) (hcareful : s.Careful (.call k (.read numBytes)))
    (hstep : s.step env (.call k (.read numBytes)) = .ok (reply, s')) :
    ∃ h dir i, s.handles[k]? = some h ∧ s.ReadSafe h s' dir i := by
  obtain ⟨mapBlocks, dirBlocks, files, inv⟩ := h.invariant
    (I := fun s => ∃ mapBlocks dirBlocks files, s.Inv mapBlocks dirBlocks files)
    (fun s hs => by
      obtain ⟨mapBlocks, dirBlocks, inv, -⟩ := init_inv hs
      exact ⟨mapBlocks, dirBlocks, _, inv⟩)
    (fun t i r u ⟨mapBlocks, dirBlocks, files, inv⟩ ⟨hcareful, hstep⟩ =>
      ⟨mapBlocks, dirBlocks, inv.step_careful hcareful hstep⟩)
  obtain ⟨h, hk, hlive⟩ := hcareful
  obtain ⟨⟨dir, i, hsafe⟩, -⟩ := inv.read hk hlive hstep
  exact ⟨h, dir, i, hk, hsafe⟩

/-- The first file of a session. -/
theorem Inv.create_first (inv : s.Inv mapBlocks dirBlocks fun _ => none)
    (hfree : (freeMapOn s.disk mapBlocks).free.length = 1019) (env : FileSystem.Env) (name : List Byte)
    {initialSize : ℤ} (hlo : 0 ≤ initialSize) (hhi : initialSize ≤ (NumDirect * SectorSize : ℕ)) :
    ∃ d' i g, s.step env (.create name initialSize) = .ok (.success true, { s with disk := d' }) ∧
      Inv { s with disk := d' } mapBlocks dirBlocks
        (Function.update (fun _ => none) i (some g)) ∧
      (directoryOn d' dirBlocks).Holds name i ∧ g.header.fileLength = initialSize ∧
      ¬ g.header.hasIndex ∧ (freeMapOn s.disk mapBlocks).free.head? = some g.sector := by
  have hhi' : initialSize ≤ 1792 := hhi
  have habsent : ∀ j, ¬ (directoryOn s.disk dirBlocks).Holds name j := fun j hj => by
    obtain ⟨g, hg⟩ := inv.image.exists_file hj
    cases hg
  obtain ⟨s₁, hstep⟩ := inv.create_succeeds env habsent (i := 0) rfl hlo (hhi.trans (by decide)) (by
    rw [hfree]
    simp only [FileHeader.dataSectorCount, SectorSize]
    omega)
  rcases inv.create hstep with ⟨hreply, -⟩ | ⟨d', i, sector, hdr, data, -, rfl, hc, inv', -⟩
  · cases hreply
  obtain ⟨_, ho, -⟩ := hc.obtained
  refine ⟨d', i, ⟨sector, hdr, data⟩, hstep, inv', ?_, ho.length hlo (hhi.trans (by decide)),
    ho.direct hlo hhi, hc.first⟩
  rw [hc.directory, Directory.Holds, Directory.setEntry_self, Directory.key_newEntry]
  exact ⟨show (1 : Byte) ≠ 0 by decide, rfl⟩

/-- A `Read` of no bytes returns, also through a handle that is not live. -/
theorem step_read_zero {k : ℕ} {h : Handle} (hk : s.handles[k]? = some h) {x : Fin NumSectors}
    (hx : h.file.hdrSector = (x : ℕ)) (env : FileSystem.Env) :
    ∃ s', s.step env (.call k (.read 0)) = .ok (.transfer (0, []), s') ∧
      s'.disk = Function.update s.disk x
        (FileHeader.layout (h.file.hdr.setAccessTime (env.szTime 0))) := by
  have hread := OpenFile.read_zero h.file s.disk (env.szTime 0) hx
  refine ⟨{ s with
    disk := Function.update s.disk x (FileHeader.layout (h.file.hdr.setAccessTime (env.szTime 0)))
    handles := s.handles.set k { h with file := h.file.touch (env.szTime 0) 0 } }, ?_, rfl⟩
  simp only [step, hk, OpenFile.Call.run]
  rw [hread, ok_bind]
  rfl

theorem careful_reads_are_safe_sample :
    ∃ s s' h dir i, readingSystem.Reachable s ∧
      s.step sampleEnv (.call 0 (.read 0)) = .ok (.transfer (0, []), s') ∧
      s.handles[0]? = some h ∧ s.ReadSafe h s' dir i := by
  obtain ⟨fs, d₀, -, hinit⟩ := exists_init FileHeader.blankDisk sampleEnv
  obtain ⟨mapBlocks, dirBlocks, inv₀, -, hfree⟩ := init_inv hinit
  obtain ⟨d₁, i, g, hstep₁, inv₁, hholds, -⟩ := inv₀.create_first hfree sampleEnv [97]
    (show (0 : ℤ) ≤ 200 by decide) (by decide)
  obtain ⟨s₂, hstep₂, rfl, inv₂⟩ := inv₁.openFile_present hholds (Function.update_self ..) sampleEnv
  have hstart : readingSystem.Reachable _ := System.Reachable.of_init hinit
  have hcreated := hstart.step (i := (sampleEnv, Op.create [97] 200)) ⟨trivial, hstep₁⟩
  have hopened := hcreated.step (i := (sampleEnv, Op.openFile [97])) ⟨trivial, hstep₂⟩
  obtain ⟨s₃, hstep₃, -⟩ := step_read_zero (s := ⟨fs, d₁,
    [⟨⟨g.header, (g.sector : ℕ), 0⟩, [97], true⟩]⟩) (k := 0) rfl rfl sampleEnv
  obtain ⟨h, dir, j, hk, hsafe⟩ := careful_reads_are_safe hopened sampleEnv 0 0 _ s₃
    ⟨_, rfl, rfl⟩ hstep₃
  exact ⟨_, s₃, h, dir, j, hopened, hstep₃, hk, hsafe⟩

/-! ## A handle that outlives its file -/

/-- Without files the free map is the same, whatever has happened before. -/
theorem Inv.free_eq (inv : s.Inv mapBlocks dirBlocks fun _ => none)
    (inv' : s'.Inv mapBlocks dirBlocks fun _ => none) :
    (freeMapOn s'.disk mapBlocks).free = (freeMapOn s.disk mapBlocks).free :=
  BitMap.free_congr fun x =>
    (inv'.image.owns.used_iff x).trans (inv.image.owns.used_iff x).symm

/-- The file `a` is created, opened and removed, and `b` is created in its place. Then a
`Read` through the handle on `a` writes the header of `a` over the header of `b`. -/
theorem stale_read_overwrites_header :
    ∃ s₀ s₁ s₂ s₃ s₄ s₅ result dir, ∃ (i : Fin NumDirEntries) (x : Fin NumSectors),
      system.init s₀ ∧
      s₀.step sampleEnv (.create [97] 0) = .ok (.success true, s₁) ∧
      s₁.step sampleEnv (.openFile [97]) = .ok (.handle (some 0), s₂) ∧
      s₂.step sampleEnv (.remove [97]) = .ok (.success true, s₃) ∧
      s₃.step sampleEnv (.create [98] 1) = .ok (.success true, s₄) ∧
      s₄.step sampleEnv (.call 0 (.read 0)) = .ok (.transfer result, s₅) ∧
      (∀ env, s₄.fs.fetchDirectory s₄.disk env = .ok dir) ∧ dir.Holds [98] i ∧
      (dir.table i).sector.toInt = (x : ℕ) ∧ s₅.disk x ≠ s₄.disk x := by
  obtain ⟨fs, d₀, -, hinit⟩ := exists_init FileHeader.blankDisk sampleEnv
  obtain ⟨mapBlocks, dirBlocks, inv₀, -, hfree⟩ := init_inv hinit
  obtain ⟨d₁, i, g, hstep₁, inv₁, hholds, hlen, hidx, hfirst⟩ := inv₀.create_first hfree sampleEnv
    [97] (show (0 : ℤ) ≤ 0 by decide) (by decide)
  have hg : Function.update (fun _ => none) i (some g) i = some g := Function.update_self ..
  obtain ⟨s₂, hstep₂, rfl, inv₂⟩ := inv₁.openFile_present hholds hg sampleEnv
  obtain ⟨d₃, e, s₃, hstep₃, rfl, -, -, inv₃, -⟩ := inv₂.remove_present hholds hg
    (fun h => absurd h hidx) sampleEnv
  rw [Function.update_idem, Function.update_eq_self] at inv₃
  have hsame := inv₀.free_eq inv₃
  obtain ⟨d₄, j, g', hstep₄, inv₄, hholds', hlen', -, hfirst'⟩ := inv₃.create_first
    (by rw [hsame]; exact hfree) sampleEnv [98] (show (0 : ℤ) ≤ 1 by decide) (by decide)
  -- the new file has got the header sector of the old one
  have hsector : g.sector = g'.sector := by
    rw [hsame, hfirst] at hfirst'
    exact Option.some.inj hfirst'
  have hdisk := inv₄.image.onDisk j g' (Function.update_self ..)
  obtain ⟨s₅, hstep₅, hdisk₅⟩ := step_read_zero (s := ⟨fs, d₄,
    [⟨⟨g.header, (g.sector : ℕ), 0⟩, [97], false⟩]⟩) (k := 0) rfl rfl sampleEnv
  refine ⟨_, _, _, _, _, s₅, _, _, j, g'.sector, hinit, hstep₁, hstep₂, hstep₃, hstep₄, hstep₅,
    inv₄.image.readable.fetchDirectory d₄, hholds', hdisk.sector, fun he => ?_⟩
  rw [hdisk₅, hsector, Function.update_self] at he
  have hbytes := congrArg FileHeader.fileLength (FileHeader.layout.injective (he.trans hdisk.header))
  rw [hlen'] at hbytes
  exact absurd (hbytes.symm.trans hlen) (by decide)

end

end Session

end Nachos
