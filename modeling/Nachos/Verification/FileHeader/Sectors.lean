import Nachos.Verification.FileHeader.Deallocation

/-! # The sectors of a file

Which sectors belong to a file by its header and, if it has one, by its index sector; that
`Allocate` gives a file the lowest free sectors; and when `Deallocate` gives them back. -/

namespace Nachos.FileHeader

open Library BitMap

/-! ## Headers and the sectors they name -/

/-- The first `m` entries of an index sector. -/
def entries (t : Fin NumIndex → Word) (m : ℕ) : List ℤ :=
  ((List.finRange NumIndex).take m).map fun i => (t i).toInt

/-- Besides the sector of the header `h`, the file consists of the sectors `data`. An entry
-1 of the index sector, left by a failed `Find`, names none. -/
inductive Sectors (h : FileHeader) (d : Disk) : List (Fin NumSectors) → Prop
  | direct {data : List (Fin NumSectors)} (hidx : ¬ h.hasIndex)
      (hdata : h.directSectors = data.map fun s : Fin NumSectors => ((s : ℕ) : ℤ)) :
      Sectors h d data
  | indexed {data : List (Fin NumSectors)} {index : Fin NumSectors}
      {behind : List (Fin NumSectors)} {t : Fin NumIndex → Word} (hidx : h.hasIndex)
      (hmax : h.needIndirect ≤ NumIndex)
      (hdata : h.directSectors = data.map fun s : Fin NumSectors => ((s : ℕ) : ℤ))
      (hindex : (h.dataSectors indexSlot).toInt = (index : ℕ)) (ht : d index = indexLayout t)
      (hbehind : (entries t h.needIndirect).filter (· ≠ -1) =
        behind.map fun s : Fin NumSectors => ((s : ℕ) : ℤ)) :
      Sectors h d (data ++ index :: behind)

/-- Every entry of the index sector is small enough to be read back from one `char`. -/
def LowIndex (h : FileHeader) (d : Disk) : Prop :=
  h.hasIndex → ∀ t, d.readSector (h.dataSectors indexSlot).toInt = .ok (indexLayout t) →
    ∀ x ∈ entries t h.needIndirect, 0 ≤ x ∧ x < 128

section

variable {h h' : FileHeader} {d d' : Disk} {data : List (Fin NumSectors)}

/-- Only the file's own sectors matter. -/
theorem Sectors.congr_disk (hs : h.Sectors d data) (he : ∀ s ∈ data, d' s = d s) :
    h.Sectors d' data := by
  cases hs with
  | direct hidx hdata => exact .direct hidx hdata
  | indexed hidx hmax hdata hindex ht hbehind =>
      exact .indexed hidx hmax hdata hindex ((he _ (by simp)).trans ht) hbehind

theorem sectorCast_injective : Function.Injective fun s : Fin NumSectors => ((s : ℕ) : ℤ) :=
  fun _ _ he => Fin.ext (Int.natCast_inj.mp he)

/-- The sectors of a file are determined by its header and the disk. -/
theorem Sectors.unique {data' : List (Fin NumSectors)} (hs : h.Sectors d data)
    (hs' : h.Sectors d data') : data = data' := by
  have hinj := List.map_injective_iff.mpr sectorCast_injective
  cases hs with
  | direct hidx hdata =>
      cases hs' with
      | direct _ hdata' => exact hinj (hdata.symm.trans hdata')
      | indexed hidx' => exact absurd hidx' hidx
  | indexed hidx hmax hdata hindex ht hbehind =>
      cases hs' with
      | direct hidx' => exact absurd hidx hidx'
      | indexed _ _ hdata' hindex' ht' hbehind' =>
          obtain rfl := sectorCast_injective (hindex.symm.trans hindex')
          obtain rfl := indexLayout.injective (ht.symm.trans ht')
          rw [hinj (hdata.symm.trans hdata'), hinj (hbehind.symm.trans hbehind')]

theorem Sectors.direct_eq (hs : h.Sectors d data) (hidx : ¬ h.hasIndex) :
    h.directSectors = data.map fun s : Fin NumSectors => ((s : ℕ) : ℤ) := by
  cases hs with
  | direct _ hdata => exact hdata
  | indexed hidx' => exact absurd hidx' hidx

theorem Sectors.of_not_hasIndex (hs : h.Sectors d data) (hidx : ¬ h.hasIndex) (d' : Disk) :
    h.Sectors d' data :=
  .direct hidx (hs.direct_eq hidx)

/-- The dates of the header do not matter. -/
theorem Sectors.congr_header (hs : h.Sectors d data) (hn : h'.numSectors = h.numSectors)
    (ht : h'.dataSectors = h.dataSectors) : h'.Sectors d data := by
  have hidx : h'.hasIndex ↔ h.hasIndex := by rw [hasIndex, hasIndex, hn]
  have hdirect : h'.directSectors = h.directSectors := by
    rw [directSectors, directSectors, needDirect, needDirect, hn, ht]
    simp only [hidx]
  have hneed : h'.needIndirect = h.needIndirect := by rw [needIndirect, needIndirect, hn]
  cases hs with
  | direct hni hdata => exact .direct (hidx.not.mpr hni) (hdirect.trans hdata)
  | indexed hi hmax hdata hindex htable hbehind =>
      exact .indexed (hidx.mpr hi) (hneed ▸ hmax) (hdirect.trans hdata) (ht ▸ hindex) htable
        (hneed ▸ hbehind)

/-! ## Deallocation -/

theorem lowBytes_eq_entries {t : Fin NumIndex → Word} {m : ℕ}
    (hlow : ∀ x ∈ entries t m, 0 ≤ x ∧ x < 128) : lowBytes t m = entries t m := by
  refine List.map_congr_left fun i hi => ?_
  obtain ⟨hlo, hhi⟩ := hlow (t i).toInt (List.mem_map_of_mem hi)
  have hnat : (t i).toInt = (t i).toNat := BitVec.toInt_eq_toNat_of_lt (by
    have := BitVec.toInt_eq_toNat_cond (t i)
    split at this <;> omega)
  rw [BitVec.toInt_setWidth, hnat]
  exact Int.bmod_eq_of_le (by omega) (by omega)

/-- `Deallocate` clears exactly the bits of the file's sectors. -/
theorem Sectors.deallocate (hs : h.Sectors d data) (hlow : h.LowIndex d)
    (hnodup : data.Nodup) {freeMap : BitMap NumSectors}
    (hset : ∀ s ∈ data, freeMap.testBit s = true) :
    h.deallocate freeMap d = .ok (data.foldl clearBit freeMap) := by
  cases hs with
  | direct hidx hdata => rw [FileHeader.deallocate_direct hidx, hdata, foldlM_release hnodup hset]
  | @indexed data index behind t hidx hmax hdata hindex ht hbehind =>
      have hread : d.readSector (h.dataSectors indexSlot).toInt = .ok (indexLayout t) := by
        rw [hindex, Disk.readSector_natCast, ht]
      have hentries := hlow hidx t hread
      have hfilter : (entries t h.needIndirect).filter (· ≠ -1) = entries t h.needIndirect := by
        refine List.filter_eq_self.mpr fun x hx => ?_
        have := (hentries x hx).1
        simp only [ne_eq, decide_not, Bool.not_eq_eq_eq_not, Bool.not_true, decide_eq_false_iff_not]
        omega
      have hperm : (data ++ (behind ++ [index])).Perm (data ++ index :: behind) :=
        List.Perm.append_left _ (List.perm_append_singleton _ _)
      have hlist : h.directSectors ++ (lowBytes t h.needIndirect ++
          [(h.dataSectors indexSlot).toInt]) =
          (data ++ (behind ++ [index])).map fun s : Fin NumSectors => ((s : ℕ) : ℤ) := by
        rw [lowBytes_eq_entries hentries, ← hfilter, hbehind, hdata, hindex]
        simp only [List.map_append, List.map_cons, List.map_nil]
      rw [FileHeader.deallocate_indexed hidx hmax _ hread, hlist,
        foldlM_release (hperm.nodup_iff.mpr hnodup) fun s hs => hset s (hperm.mem_iff.mp hs)]
      congr 1
      apply ext_testBit (k := 32)
      intro s
      simp only [testBit_foldl_clearBit, hperm.mem_iff]

end

/-! ## Allocation -/

section

variable {h : FileHeader} {freeMap : BitMap NumSectors} {d : Disk} {fileSize : ℤ}
  {szTime : List Byte} {h' : FileHeader} {freeMap' : BitMap NumSectors} {d' : Disk}

theorem findSeq_fst_bounds (k : ℕ) (freeMap : BitMap NumSectors) :
    ∀ x ∈ (findSeq k freeMap).1, -1 ≤ x ∧ x < 1024 := by
  intro x hx
  rw [findSeq_fst, List.mem_append] at hx
  rcases hx with hx | hx
  · obtain ⟨s, _, rfl⟩ := List.mem_map.mp hx
    have := sector_lt s
    omega
  · rw [List.eq_of_mem_replicate hx]
    omega

/-- The index sector holds what `Find` returned after the index sector itself. -/
theorem entries_indexTable (freeMap : BitMap NumSectors) {n : ℕ}
    (hmax : n ≤ NumDirect + NumIndex) :
    entries (indexTable freeMap n) (n - NumDirect) =
      (findSeq (n + 1) freeMap).1.drop (NumDirect + 1) := by
  apply List.ext_getElem
  · simp only [entries, List.length_map, List.length_take, List.length_finRange, List.length_drop,
      findSeq_length]
    omega
  · intro j hj hj'
    simp only [entries, List.length_map, List.length_take, List.length_finRange] at hj
    have hlen := findSeq_length (n + 1) freeMap
    simp only [entries, List.getElem_map, List.getElem_take, List.getElem_finRange,
      List.getElem_drop, indexTable, Fin.val_cast]
    have hget := List.getElem_eq_getD (l := (findSeq (n + 1) freeMap).1)
      (i := NumDirect + 1 + j) (h := by omega) 0
    rw [if_pos (show j < n - NumDirect by omega), ← hget]
    obtain ⟨hlo, hhi⟩ := findSeq_fst_bounds (n + 1) freeMap _
      (List.getElem_mem (l := (findSeq (n + 1) freeMap).1) (n := NumDirect + 1 + j) (by omega))
    exact toInt_ofInt (by omega) (by omega)

/-- What the successful calls of `Allocate` leave: the file has the lowest free sectors,
and no other sector of the disk has changed. -/
structure Obtained (freeMap : BitMap NumSectors) (d : Disk) (fileSize : ℤ) (h' : FileHeader)
    (freeMap' : BitMap NumSectors) (d' : Disk) (data : List (Fin NumSectors)) : Prop where
  numBytes : h'.numBytes = Word.ofInt fileSize
  numSectors : h'.numSectors = Word.ofInt (divRoundUp fileSize SectorSize)
  free : ∀ s ∈ data, freeMap.testBit s = false
  nodup : data.Nodup
  marked : ∀ s, freeMap'.testBit s = true ↔ freeMap.testBit s = true ∨ s ∈ data
  sectors : h'.Sectors d' data
  frame : ∀ s, s ∉ data → d' s = d s

theorem Sectors.of_directTable {n : ℕ} (hn : (h.setSize fileSize).numSectors.toNat = n)
    (hle : n ≤ NumDirect) (hfree : n ≤ freeMap.free.length) :
    (((h.setSize fileSize).setTable (h.directTable freeMap n)).setCreateTime szTime).Sectors d
      (freeMap.free.take n) := by
  have hidx : ¬ (((h.setSize fileSize).setTable
      (h.directTable freeMap n)).setCreateTime szTime).hasIndex := by
    change ¬ (h.setSize fileSize).numSectors.toNat > NumDirect
    omega
  refine .direct hidx (directSectors_eq freeMap.free ?_ (by omega) hfree ?_)
  · rw [needDirect, if_neg hidx]
    exact hn
  · intro j hj hlt hjn
    exact directTable_toInt h hjn hj hlt

theorem Sectors.of_indexedTable (h : FileHeader) (d : Disk) (szTime : List Byte) {n : ℕ}
    (hn : (h.setSize fileSize).numSectors.toNat = n) (hlt : NumDirect < n)
    (hmax : n ≤ NumDirect + NumIndex) (hfree : n ≤ freeMap.free.length)
    {s : Fin NumSectors} (hs : (indexedTable freeMap n indexSlot).toInt = (s : ℕ)) :
    (((h.setSize fileSize).setTable (indexedTable freeMap n)).setCreateTime szTime).Sectors
        (Function.update d s (indexLayout (indexTable freeMap n)))
        (freeMap.free.take (n + 1)) ∧ s ∈ freeMap.free.take (n + 1) := by
  set h' := ((h.setSize fileSize).setTable (indexedTable freeMap n)).setCreateTime szTime with hh'
  have hidx : h'.hasIndex := by
    rw [← hn] at hlt
    exact hlt
  have hlen : NumDirect < freeMap.free.length := by omega
  have hslot : s = freeMap.free[NumDirect] := by
    have he : ((s : ℕ) : ℤ) = ((freeMap.free[NumDirect] : ℕ) : ℤ) :=
      hs.symm.trans (indexedTable_toInt (by omega) (by decide) (by omega))
    rw [Int.natCast_inj] at he
    exact Fin.ext he
  have hsplit : freeMap.free.take (n + 1) = freeMap.free.take NumDirect ++
      s :: (freeMap.free.take (n + 1)).drop (NumDirect + 1) := by
    rw [hslot]
    conv_lhs => rw [← List.take_append_drop NumDirect (freeMap.free.take (n + 1))]
    rw [List.take_take, Nat.min_eq_left (by omega), List.drop_eq_getElem_cons (by
      rw [List.length_take]; omega), List.getElem_take]
  refine ⟨?_, by rw [hsplit]; simp⟩
  rw [hsplit]
  have hneed : h'.needIndirect = n - NumDirect := by
    rw [needIndirect, ← hn]
    rfl
  refine .indexed (t := indexTable freeMap n) hidx (by omega) ?_ hs (Function.update_self ..) ?_
  · refine directSectors_eq freeMap.free ?_ (by decide) (by omega) ?_
    · rw [needDirect, if_pos hidx]
    · intro j hj hlt' hjn
      exact indexedTable_toInt (by omega) hj hlt'
  · rw [hneed, entries_indexTable freeMap hmax, findSeq_fst, List.drop_append_of_le_length,
      List.filter_append, ← List.map_drop, List.filter_eq_self.mpr, List.filter_eq_nil_iff.mpr,
      List.append_nil]
    · intro x hx
      simp [List.eq_of_mem_replicate hx]
    · intro x hx
      obtain ⟨i, _, rfl⟩ := List.mem_map.mp hx
      simp only [ne_eq, decide_not, Bool.not_eq_eq_eq_not, Bool.not_true, decide_eq_false_iff_not]
      omega
    · rw [List.length_map, List.length_take]
      omega

theorem dataSectorCount_le (hhi : fileSize ≤ MaxFileSize) :
    dataSectorCount fileSize ≤ NumDirect + NumIndex := by
  have hN : NumDirect + NumIndex = 46 := rfl
  have hM : MaxFileSize = 5888 := rfl
  simp only [dataSectorCount, SectorSize]
  omega

/-- `Allocate` returns for every size that the format supports. -/
theorem allocate_total (h : FileHeader) (freeMap : BitMap NumSectors) (d : Disk)
    (szTime : List Byte) (hlo : 0 ≤ fileSize) (hhi : fileSize ≤ MaxFileSize) :
    ∃ result, h.allocate freeMap d fileSize szTime = .ok result := by
  obtain ⟨hn, hint⟩ := numSectors_setSize h hlo hhi
  have hmax := dataSectorCount_le hhi
  by_cases hclear : (freeMap.numClear : ℤ) < (h.setSize fileSize).numSectors.toInt
  · exact ⟨_, allocate_of_numClear_lt _ _ _ _ _ hclear⟩
  by_cases hdir : dataSectorCount fileSize ≤ NumDirect
  · exact ⟨_, allocate_direct _ _ _ _ _ hn hdir (not_lt.mp hclear)⟩
  have hlen : NumDirect < freeMap.free.length := by
    rw [hint, numClear_eq] at hclear
    omega
  have hret := allocate_indexed h freeMap d fileSize szTime hn (not_le.mp hdir) hmax
    (not_lt.mp hclear)
  rw [show (indexedTable freeMap (dataSectorCount fileSize) indexSlot).toInt = _ from
    indexedTable_toInt (by omega) (by decide) hlen, Disk.writeSector_natCast, ok_bind] at hret
  exact ⟨_, hret⟩

/-- The successful calls of `Allocate`, also those in which a `Find` fails. -/
theorem exists_obtained (ha : h.allocate freeMap d fileSize szTime = .ok (true, h', freeMap', d')) :
    ∃ data, Obtained freeMap d fileSize h' freeMap' d' data := by
  have hI : NumDirect + NumIndex = 46 := rfl
  have hN : NumDirect = 14 := rfl
  -- the number of sectors is small, so that its sign does not matter
  have hsign : ∀ n : ℕ, n ≤ 46 → (h.setSize fileSize).numSectors.toNat = n →
      (h.setSize fileSize).numSectors.toInt = n := by
    intro n hn he
    rw [BitVec.toInt_eq_toNat_of_lt (by omega), he]
  obtain ⟨hclear, ⟨hle, rfl, rfl, rfl⟩ | ⟨hlt, hmax, rfl, rfl, s, hs, rfl⟩⟩ :=
    allocate_eq_ok_true rfl ha
  · rw [hsign _ (by omega) rfl, numClear_eq] at hclear
    exact ⟨_, {
      numBytes := rfl
      numSectors := rfl
      free := fun s hs => mem_free.mp (List.mem_of_mem_take hs)
      nodup := freeMap.free_nodup.sublist (List.take_sublist _ _)
      marked := fun s => by simp [findSeq_snd_testBit]
      sectors := .of_directTable rfl hle (by omega)
      frame := fun _ _ => rfl }⟩
  · rw [hsign _ (by omega) rfl, numClear_eq] at hclear
    obtain ⟨hsectors, hmem⟩ := Sectors.of_indexedTable h d szTime rfl hlt hmax (by omega) hs
    exact ⟨_, {
      numBytes := rfl
      numSectors := rfl
      free := fun s hs => mem_free.mp (List.mem_of_mem_take hs)
      nodup := freeMap.free_nodup.sublist (List.take_sublist _ _)
      marked := fun s => by simp [findSeq_snd_testBit]
      sectors := hsectors
      frame := fun t ht => Function.update_of_ne (show t ≠ s from fun he => ht (he ▸ hmem)) _ _ }⟩

namespace Obtained

variable {data : List (Fin NumSectors)}

theorem length (o : Obtained freeMap d fileSize h' freeMap' d' data) (hlo : 0 ≤ fileSize)
    (hhi : fileSize ≤ MaxFileSize) : h'.fileLength = fileSize := by
  rw [fileLength, o.numBytes]
  exact fileLength_setSize h' hlo hhi

theorem count (o : Obtained freeMap d fileSize h' freeMap' d' data) (hlo : 0 ≤ fileSize)
    (hhi : fileSize ≤ MaxFileSize) : h'.numSectors.toNat = dataSectorCount fileSize := by
  rw [o.numSectors]
  exact (numSectors_setSize h' hlo hhi).1

/-- A file that fits has no index sector. -/
theorem direct (o : Obtained freeMap d fileSize h' freeMap' d' data) (hlo : 0 ≤ fileSize)
    (hhi : fileSize ≤ (NumDirect * SectorSize : ℕ)) : ¬ h'.hasIndex := by
  have hhi' : fileSize ≤ 1792 := hhi
  have hM : MaxFileSize = 5888 := rfl
  have hN : NumDirect = 14 := rfl
  have hcount := o.count hlo (by omega)
  simp only [dataSectorCount, SectorSize] at hcount
  rw [hasIndex]
  omega

end Obtained

end

end Nachos.FileHeader
