import Nachos.Verification.FileHeader.Sectors

/-! # When `Allocate` may report success

`Allocate` compares the number of clear bits with the number of data sectors and then calls
`Find` once more for the index sector of a large file. -/

namespace Nachos.FileHeader

open Library BitMap

/-! ## Recorded sector numbers -/

/-- The sector numbers in the header and, for a large file, in its index sector `t`. -/
def numbers (h : FileHeader) (t : Fin NumIndex → Word) : List ℤ :=
  if h.hasIndex then
    h.directSectors ++ (h.dataSectors indexSlot).toInt :: entries t h.needIndirect
  else h.directSectors

/-- The numbers recorded for the file are those of the sectors `data`. -/
def Records (h : FileHeader) (d : Disk) (data : List (Fin NumSectors)) : Prop :=
  ∃ t, (h.hasIndex → d.readSector (h.dataSectors indexSlot).toInt = .ok (indexLayout t)) ∧
    h.numbers t = data.map fun s : Fin NumSectors => ((s : ℕ) : ℤ)

/-- What the result of `Allocate` has to be, for a free map with enough clear bits and for
any other. -/
structure Exact (freeMap : BitMap NumSectors) (fileSize : ℤ) (success : Bool) (h' : FileHeader)
    (freeMap' : BitMap NumSectors) (d' : Disk) : Prop where
  success_iff : success = true ↔ findCount (dataSectorCount fileSize) ≤ freeMap.numClear
  recorded : success = true → ∃ data, h'.Records d' data ∧
    data.length = findCount (dataSectorCount fileSize) ∧ data.Nodup ∧
    (∀ s ∈ data, freeMap.testBit s = false) ∧
    ∀ s, freeMap'.testBit s = true ↔ freeMap.testBit s = true ∨ s ∈ data
  refused : success = false → freeMap' = freeMap

section

variable {h : FileHeader} {freeMap : BitMap NumSectors} {d : Disk} {fileSize : ℤ}
  {szTime : List Byte} {h' : FileHeader} {freeMap' : BitMap NumSectors} {d' : Disk}
  {data : List (Fin NumSectors)}

theorem length_directSectors (hle : h.needDirect ≤ NumDirect + NumFirst) :
    h.directSectors.length = h.needDirect := by
  simp only [directSectors, List.length_map, List.length_take, List.length_finRange]
  omega

theorem length_entries (t : Fin NumIndex → Word) {m : ℕ} (hm : m ≤ NumIndex) :
    (entries t m).length = m := by
  simp only [entries, List.length_map, List.length_take, List.length_finRange]
  omega

/-- A file that has as many sectors as it needs has no entry -1. -/
theorem Sectors.records (hs : h.Sectors d data)
    (hlen : data.length = findCount h.numSectors.toNat) : h.Records d data := by
  cases hs with
  | direct hidx hdata =>
      exact ⟨fun _ => 0, fun hi => absurd hi hidx, by rw [numbers, if_neg hidx, hdata]⟩
  | @indexed data index behind t hidx hmax hdata hindex ht hbehind =>
      have hgt : h.numSectors.toNat > NumDirect := hidx
      have hdirect : data.length = NumDirect := by
        rw [← List.length_map (f := fun s : Fin NumSectors => ((s : ℕ) : ℤ)), ← hdata,
          length_directSectors] <;> rw [needDirect, if_pos hidx]
        omega
      have hcount : behind.length = (entries t h.needIndirect).length := by
        rw [List.length_append, List.length_cons, hdirect, findCount, if_pos hgt] at hlen
        rw [length_entries t hmax, needIndirect]
        omega
      -- nothing is filtered out, for the numbers that remain are as many as the entries
      have hentries : entries t h.needIndirect =
          behind.map fun s : Fin NumSectors => ((s : ℕ) : ℤ) := by
        rw [← hbehind]
        refine (List.filter_sublist.eq_of_length ?_).symm
        rw [hbehind, List.length_map, hcount]
      refine ⟨t, fun _ => by rw [hindex, Disk.readSector_natCast, ht], ?_⟩
      rw [numbers, if_pos hidx, hdata, hindex, hentries]
      simp

/-- The sectors that `Allocate` obtains are the first free ones, as many as it asks for. -/
theorem Obtained.length_data (o : Obtained freeMap d fileSize h' freeMap' d' data)
    (ha : h.allocate freeMap d fileSize szTime = .ok (true, h', freeMap', d'))
    (hlo : 0 ≤ fileSize) (hhi : fileSize ≤ MaxFileSize)
    (hfree : findCount (dataSectorCount fileSize) ≤ freeMap.free.length) :
    data.length = findCount (dataSectorCount fileSize) := by
  have hmem : ∀ k, freeMap' = (findSeq k freeMap).2 → k ≤ freeMap.free.length →
      data.length = k := by
    intro k hk hle
    have hperm : data.Perm (freeMap.free.take k) := by
      refine (List.perm_ext_iff_of_nodup o.nodup
        (freeMap.free_nodup.sublist (List.take_sublist _ _))).mpr fun s => ?_
      have hmarked := o.marked s
      rw [hk, findSeq_snd_testBit] at hmarked
      have hclear : s ∈ freeMap.free.take k → freeMap.testBit s = false :=
        fun hs => mem_free.mp (List.mem_of_mem_take hs)
      have hdata := o.free s
      grind
    rw [hperm.length_eq, List.length_take, Nat.min_eq_left hle]
  obtain ⟨hn, _⟩ := numSectors_setSize h hlo hhi
  obtain ⟨_, ⟨hle, _, hmap, _⟩ | ⟨hlt, _, _, hmap, _⟩⟩ := allocate_eq_ok_true hn ha
  · rw [findCount, if_neg (by omega)] at hfree ⊢
    exact hmem _ hmap hfree
  · rw [findCount, if_pos hlt] at hfree ⊢
    exact hmem _ hmap hfree

/-- With a free sector for the index sector too, a call that succeeds is exact. -/
theorem exact_of_success
    (ha : h.allocate freeMap d fileSize szTime = .ok (true, h', freeMap', d'))
    (hlo : 0 ≤ fileSize) (hhi : fileSize ≤ MaxFileSize)
    (hfree : findCount (dataSectorCount fileSize) ≤ freeMap.numClear) :
    Exact freeMap fileSize true h' freeMap' d' := by
  obtain ⟨data, o⟩ := exists_obtained ha
  have hlen := o.length_data ha hlo hhi (freeMap.numClear_eq ▸ hfree)
  exact {
    success_iff := by simpa using hfree
    recorded := fun _ => ⟨data, o.sectors.records (by rw [o.count hlo hhi, hlen]), hlen, o.nodup,
      o.free, o.marked⟩
    refused := by simp }

end

/-- `Allocate` is exact but for a large file on a disk that has room for its data only. -/
theorem allocate_exact_iff (h : FileHeader) (freeMap : BitMap NumSectors) (d : Disk)
    (fileSize : ℤ) (szTime : List Byte) (hlo : 0 ≤ fileSize) (hhi : fileSize ≤ MaxFileSize) :
    (∃ success h' freeMap' d',
      h.allocate freeMap d fileSize szTime = .ok (success, h', freeMap', d') ∧
      Exact freeMap fileSize success h' freeMap' d') ↔
    ¬ (NumDirect < dataSectorCount fileSize ∧ freeMap.numClear = dataSectorCount fileSize) := by
  obtain ⟨_, hint⟩ := numSectors_setSize h hlo hhi
  obtain ⟨⟨success, h', freeMap', d'⟩, ha⟩ := allocate_total h freeMap d szTime hlo hhi
  have hsuccess : success = true ↔ dataSectorCount fileSize ≤ freeMap.numClear := by
    cases success with
    | true =>
        have := (allocate_eq_ok_true rfl ha).1
        simp only [true_iff]
        omega
    | false =>
        have := (allocate_eq_ok_false ha).1
        simp only [Bool.false_eq_true, false_iff]
        omega
  constructor
  · rintro ⟨_, _, _, _, ha', hexact⟩ ⟨hlt, hclear⟩
    obtain ⟨rfl, rfl, rfl, rfl⟩ : success = _ ∧ h' = _ ∧ freeMap' = _ ∧ d' = _ := by
      simpa using ha.symm.trans ha'
    have hroom := hexact.success_iff.mp (hsuccess.mpr hclear.ge)
    rw [findCount, if_pos hlt] at hroom
    omega
  · intro hroom
    refine ⟨success, h', freeMap', d', ha, ?_⟩
    cases success with
    | true =>
        refine exact_of_success ha hlo hhi ?_
        have := hsuccess.mp rfl
        rw [findCount]
        split <;> omega
    | false =>
        have hlt := (allocate_eq_ok_false ha).1
        rw [allocate_of_numClear_lt _ _ _ _ _ hlt] at ha
        simp only [Except.ok.injEq, Prod.mk.injEq] at ha
        refine ⟨?_, by simp, fun _ => ha.2.2.1.symm⟩
        have hle : dataSectorCount fileSize ≤ findCount (dataSectorCount fileSize) := by
          rw [findCount]
          split <;> omega
        simp only [Bool.false_eq_true, false_iff]
        omega

theorem allocate_exact_iff_small :
    ∃ success h' freeMap' d',
      blankHeader.allocate freshMap blankDisk 1793 [] = .ok (success, h', freeMap', d') ∧
      Exact freshMap 1793 success h' freeMap' d' :=
  (allocate_exact_iff blankHeader freshMap blankDisk 1793 [] (by decide) (by decide)).mpr (by
    rw [numClear_eq, freshMap_free, List.length_finRange]
    decide)

/-! ## A disk with room for the data only -/

/-- All sectors are taken and the last entry of the index sector is -1. -/
theorem allocate_short (h : FileHeader) (freeMap : BitMap NumSectors) (d : Disk) {fileSize : ℤ}
    (szTime : List Byte) (hlo : 0 ≤ fileSize) (hhi : fileSize ≤ MaxFileSize)
    (hlt : NumDirect < dataSectorCount fileSize)
    (hclear : freeMap.numClear = dataSectorCount fileSize) :
    ∃ h' freeMap' d' t, h.allocate freeMap d fileSize szTime = .ok (true, h', freeMap', d') ∧
      d'.readSector (h'.dataSectors indexSlot).toInt = .ok (indexLayout t) ∧
      -1 ∈ h'.numbers t := by
  obtain ⟨hn, hint⟩ := numSectors_setSize h hlo hhi
  have hmax : dataSectorCount fileSize ≤ NumDirect + NumIndex := dataSectorCount_le hhi
  have hfree : freeMap.free.length = dataSectorCount fileSize := by rw [← numClear_eq, hclear]
  have hret := allocate_indexed h freeMap d fileSize szTime hn hlt hmax (by rw [hint, hclear])
  have hslot := @indexedTable_toInt freeMap (dataSectorCount fileSize) NumDirect (by omega)
    (by decide) (by omega)
  rw [show (indexedTable freeMap (dataSectorCount fileSize) indexSlot).toInt = _ from hslot,
    Disk.writeSector_natCast, ok_bind] at hret
  set h' := ((h.setSize fileSize).setTable
    (indexedTable freeMap (dataSectorCount fileSize))).setCreateTime szTime with hh'
  have hindex : (h'.dataSectors indexSlot).toInt = _ := hslot
  refine ⟨_, _, _, indexTable freeMap (dataSectorCount fileSize), hret, ?_, ?_⟩
  · rw [hindex, Disk.readSector_natCast, Function.update_self]
  · have hidx : h'.hasIndex := hlt.trans_eq hn.symm
    have hneed : h'.needIndirect = dataSectorCount fileSize - NumDirect := by
      rw [needIndirect, ← hn]
      rfl
    rw [numbers, if_pos hidx, hneed, entries_indexTable freeMap hmax, findSeq_fst, hfree,
      List.drop_append_of_le_length (by rw [List.length_map, List.length_take]; omega)]
    simp

/-- A free map in which the last 15 bits are clear. -/
def nearlyFull : BitMap NumSectors := ⟨fun w => if w.val < 31 then 0xFFFFFFFF else 0x0001FFFF⟩

theorem nearlyFull_numClear : nearlyFull.numClear = 15 := by decide +kernel

/-- With 15 free sectors a file of 15 data sectors is accepted, which needs 16. -/
theorem allocate_nearlyFull :
    nearlyFull.numClear < findCount (dataSectorCount 1793) ∧
    ∃ h' freeMap' d' t,
      blankHeader.allocate nearlyFull blankDisk 1793 [] = .ok (true, h', freeMap', d') ∧
      d'.readSector (h'.dataSectors indexSlot).toInt = .ok (indexLayout t) ∧
      -1 ∈ h'.numbers t :=
  ⟨by rw [nearlyFull_numClear]; decide,
    allocate_short blankHeader nearlyFull blankDisk [] (by decide) (by decide) (by decide)
      (by rw [nearlyFull_numClear]; decide)⟩

end Nachos.FileHeader
