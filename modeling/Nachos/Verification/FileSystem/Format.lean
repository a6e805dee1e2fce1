import Nachos.Verification.FileSystem.Image

/-! # Formatting

`FileSystem(TRUE)` leaves, on any disk, a file system without files. -/

namespace Nachos.FileSystem

open Library BitMap

/-- With enough free sectors the `ASSERT` on `Allocate` holds. -/
theorem allocateOrFail_obtained (h : FileHeader) (freeMap : BitMap NumSectors) (d : Disk)
    (szTime : List Byte) {fileSize : ℤ} (hlo : 0 ≤ fileSize)
    (hhi : fileSize ≤ (NumDirect * SectorSize : ℕ))
    (hfree : FileHeader.dataSectorCount fileSize ≤ freeMap.free.length) :
    ∃ h' freeMap' data, allocateOrFail h freeMap d fileSize szTime = .ok (h', freeMap', d) ∧
      FileHeader.Obtained freeMap d fileSize h' freeMap' d data ∧
      freeMap'.free.length = freeMap.free.length - FileHeader.dataSectorCount fileSize := by
  have hhi' : fileSize ≤ 1792 := hhi
  have hmax : fileSize ≤ MaxFileSize := by
    have hM : MaxFileSize = 5888 := rfl
    omega
  obtain ⟨hn, hint⟩ := FileHeader.numSectors_setSize h hlo hmax
  have hcount : FileHeader.dataSectorCount fileSize ≤ NumDirect := by
    have hN : NumDirect = 14 := rfl
    simp only [FileHeader.dataSectorCount, SectorSize]
    omega
  have hret := FileHeader.allocate_direct h freeMap d fileSize szTime hn hcount
    (by rw [hint, numClear_eq]; omega)
  obtain ⟨data, hdata⟩ := FileHeader.exists_obtained hret
  refine ⟨_, _, data, ?_, hdata, ?_⟩
  · rw [allocateOrFail, hret]
    rfl
  · rw [findSeq_snd_free, List.length_drop]

/-- The bitmap once sectors 0 and 1 are marked. -/
def startMap (env : Env) : BitMap NumSectors := ((BitMap.new env.words).markBit 0).markBit 1

theorem startMap_testBit (env : Env) (s : Fin NumSectors) :
    (startMap env).testBit s = true ↔ s = 0 ∨ s = 1 := by
  simp only [startMap, testBit_markBit, testBit_new, Bool.false_or, Bool.or_eq_true,
    decide_eq_true_eq]

theorem startMap_free_length (env : Env) : (startMap env).free.length = 1022 := by
  have hfree : (startMap env).free =
      (List.finRange NumSectors).filter fun s => !(decide (s = 0) || decide (s = 1)) := by
    simp only [free, startMap, testBit_markBit, testBit_new, Bool.false_or]
  rw [hfree]
  decide +kernel

/-- A file of the obtained sectors has room for a record of its size. -/
theorem room_of_obtained {freeMap freeMap' : BitMap NumSectors} {d d' : Disk} {k : ℕ}
    {h : FileHeader} {data : List (Fin NumSectors)} {sector : ℤ}
    (ho : FileHeader.Obtained freeMap d k h freeMap' d' data)
    (hk : (k : ℤ) ≤ (NumDirect * SectorSize : ℕ)) :
    OpenFile.Room ⟨h, sector, 0⟩ data k := by
  have hmax : (k : ℤ) ≤ MaxFileSize := hk.trans (by decide)
  obtain ⟨hmaps, hlen⟩ := ho.sectors.maps (ho.direct (by omega) hk) ho.nodup
  refine ⟨hmaps, (ho.length (by omega) hmax).ge, ?_⟩
  have hcount := ho.count (by omega) hmax
  simp only [FileHeader.dataSectorCount, SectorSize, Int.toNat_natCast] at hcount
  omega

/-- `FileSystem(TRUE)` returns. It leaves an image without files and all but five sectors
free. -/
theorem format_image (d : Disk) (env : Env) :
    ∃ fs d' mapBlocks dirBlocks, format d env = .ok (fs, d') ∧
      Image fs d' mapBlocks dirBlocks (fun _ => none) ∧
      fs.freeMapFile.hdr.directSectors = mapBlocks.map (fun s : Fin NumSectors => ((s : ℕ) : ℤ)) ∧
      fs.directoryFile.hdr.directSectors =
        dirBlocks.map (fun s : Fin NumSectors => ((s : ℕ) : ℤ)) ∧
      (freeMapOn d' mapBlocks).free.length = 1019 := by
  obtain ⟨mapHdr, freeMap₁, mapBlocks, halloc₁, ho₁, hlen₁⟩ :=
    allocateOrFail_obtained (FileHeader.new (env.header 0)) (startMap env) d (env.szTime 0)
      (show (0 : ℤ) ≤ (FreeMapFileSize : ℕ) by decide) (by decide)
      (by rw [startMap_free_length]; decide)
  obtain ⟨dirHdr, freeMap₂, dirBlocks, halloc₂, ho₂, hlen₂⟩ :=
    allocateOrFail_obtained (FileHeader.new (env.header 1)) freeMap₁ d (env.szTime 1)
      (show (0 : ℤ) ≤ (DirectoryFileSize : ℕ) by decide) (by decide)
      (by rw [hlen₁, startMap_free_length]; decide)
  set d₁ : Disk := Function.update (Function.update d 0 (FileHeader.layout mapHdr)) 1
    (FileHeader.layout dirHdr) with hd₁
  have h0 : d₁ 0 = FileHeader.layout mapHdr := by
    rw [hd₁, Function.update_of_ne (by decide), Function.update_self]
  have h1 : d₁ 1 = FileHeader.layout dirHdr := by rw [hd₁, Function.update_self]
  have hmount : mount d₁ = .ok ⟨⟨mapHdr, 0, 0⟩, ⟨dirHdr, 1, 0⟩⟩ := by
    rw [mount_eq, h0, h1, Equiv.symm_apply_apply, Equiv.symm_apply_apply]
  have hread : Readable ⟨⟨mapHdr, 0, 0⟩, ⟨dirHdr, 1, 0⟩⟩ mapBlocks dirBlocks :=
    ⟨room_of_obtained ho₁ (by decide), room_of_obtained ho₂ (by decide)⟩
  obtain ⟨d₂, hmap, hmap', hframe₂⟩ := hread.writeFreeMap freeMap₂ d₁ (env.buffer 0)
  obtain ⟨d₃, hdir, hdir', hframe₃⟩ := hread.writeDirectory (Directory.new env.entries) d₂
    (env.buffer 1)
  have hmark₀ : (BitMap.new env.words).mark FreeMapSector = .ok ((BitMap.new env.words).markBit 0) :=
    mark_natCast _ 0
  have hmark₁ : ((BitMap.new env.words).markBit 0).mark DirectorySector = .ok (startMap env) :=
    mark_natCast _ 1
  have hwrite₀ : mapHdr.writeBack d FreeMapSector =
      .ok (Function.update d 0 (FileHeader.layout mapHdr)) :=
    Disk.writeSector_natCast d 0 _
  have hwrite₁ : dirHdr.writeBack (Function.update d 0 (FileHeader.layout mapHdr))
      DirectorySector = .ok d₁ :=
    Disk.writeSector_natCast _ 1 _
  have hused : ∀ s, freeMap₂.testBit s = true ↔ s ∈ base mapBlocks dirBlocks := by
    intro s
    rw [ho₂.marked, ho₁.marked, startMap_testBit]
    simp only [base, List.mem_append, List.mem_cons, List.not_mem_nil, or_false, or_assoc]
  have hstart : ∀ s ∈ [(0 : Fin NumSectors), 1], ∀ t ∈ mapBlocks ++ dirBlocks, s ≠ t := by
    rintro s hs t ht rfl
    have hbit : (startMap env).testBit s = true := by
      rw [startMap_testBit]
      simpa using hs
    rcases List.mem_append.mp ht with ht | ht
    · rw [ho₁.free s ht] at hbit
      cases hbit
    · have := ho₂.free s ht
      rw [(ho₁.marked s).mpr (.inl hbit)] at this
      cases this
  have happart : ∀ s ∈ mapBlocks, ∀ t ∈ dirBlocks, s ≠ t := by
    rintro s hs t ht rfl
    have := ho₂.free s ht
    rw [(ho₁.marked s).mpr (.inr hs)] at this
    cases this
  have hnodup : (base mapBlocks dirBlocks).Nodup :=
    List.nodup_append.mpr ⟨by decide, List.nodup_append.mpr ⟨ho₁.nodup, ho₂.nodup, happart⟩, hstart⟩
  have hmapIdx := ho₁.direct (by decide) (by decide)
  have hdirIdx := ho₂.direct (by decide) (by decide)
  have hkeep : freeMapOn d₃ mapBlocks = freeMap₂ := by
    rw [← hmap']
    exact freeMapOn_congr fun s hs => hframe₃ s fun hs' => happart s hs s hs' rfl
  refine ⟨⟨⟨mapHdr, 0, 0⟩, ⟨dirHdr, 1, 0⟩⟩, d₃, mapBlocks, dirBlocks, ?_,
    ⟨hread, ?_, ?_, ?_, ?_, ?_⟩, ho₁.sectors.direct_eq hmapIdx,
    ho₂.sectors.direct_eq hdirIdx, ?_⟩
  · unfold format
    dsimp only
    rw [hmark₀, ok_bind, hmark₁, ok_bind, halloc₁, ok_bind]
    dsimp only
    rw [halloc₂, ok_bind]
    dsimp only
    rw [hwrite₀, ok_bind, hwrite₁, ok_bind, hmount, ok_bind, hmap, ok_bind, hdir, ok_bind,
      pure_eq_ok]
  · rw [← hmount]
    have hkeep : ∀ s ∈ [(0 : Fin NumSectors), 1], d₃ s = d₁ s := fun s hs =>
      (hframe₃ s fun hs' => hstart s hs s (List.mem_append_right _ hs') rfl).trans
        (hframe₂ s fun hs' => hstart s hs s (List.mem_append_left _ hs') rfl)
    exact mount_congr (hkeep 0 (by simp)) (hkeep 1 (by simp))
  · intro i
    rw [hdir']
    simp [Directory.new]
  · intro i g hg
    cases hg
  · intro i j hi
    rw [hdir'] at hi
    exact absurd rfl hi
  · rw [hkeep]
    exact Ownership.empty hnodup hused
  · rw [hkeep, hlen₂, hlen₁, startMap_free_length]
    rfl

end Nachos.FileSystem
