import Nachos.Verification.FileHeader.Lookup

/-! # Deallocation against allocation

`Deallocate` reads the index sector through a `char` pointer, so that of each entry
only the low byte is used, and that with its sign. -/

namespace Nachos.FileHeader

open Library BitMap

/-! ## Releasing sectors one by one -/

theorem release_natCast {freeMap : BitMap NumSectors} {i : Fin NumSectors}
    (h : freeMap.testBit i = true) : release freeMap (i : ℕ) = .ok (freeMap.clearBit i) := by
  simp [release, h]

theorem release_eq_ok {freeMap freeMap' : BitMap NumSectors} {s : ℤ}
    (h : release freeMap s = .ok freeMap') :
    ∃ i : Fin NumSectors, s = (i : ℕ) ∧ freeMap' = freeMap.clearBit i := by
  simp only [release, BitMap.test, BitMap.clear, bind_eq_ok, pure_eq_ok, Except.ok.injEq] at h
  obtain ⟨_, _, _, _, i, hi, hclear⟩ := h
  exact ⟨i, item_eq_ok hi, hclear.symm⟩

variable {items : List (Fin NumSectors)}

theorem foldlM_release {freeMap : BitMap NumSectors} (hnodup : items.Nodup)
    (hset : ∀ i ∈ items, freeMap.testBit i = true) :
    (items.map fun i : Fin NumSectors => ((i : ℕ) : ℤ)).foldlM release freeMap =
      .ok (items.foldl clearBit freeMap) := by
  induction items generalizing freeMap with
  | nil => rfl
  | cons x items ih =>
      obtain ⟨hx, hnodup⟩ := List.nodup_cons.mp hnodup
      rw [List.map_cons, List.foldlM_cons, release_natCast (hset x (by simp)), ok_bind]
      apply ih hnodup
      intro i hi
      have hne : i ≠ x := fun he => hx (he ▸ hi)
      simp [hset i (by simp [hi]), hne]

/-- A sector that is not released keeps its bit. -/
theorem foldlM_release_testBit {xs : List ℤ} {freeMap freeMap' : BitMap NumSectors}
    (h : xs.foldlM release freeMap = .ok freeMap') {s : Fin NumSectors}
    (hs : ((s : ℕ) : ℤ) ∉ xs) : freeMap'.testBit s = freeMap.testBit s := by
  induction xs generalizing freeMap with
  | nil =>
      cases h
      rfl
  | cons x xs ih =>
      rw [List.foldlM_cons, bind_eq_ok] at h
      obtain ⟨fm, hx, h⟩ := h
      obtain ⟨i, rfl, rfl⟩ := release_eq_ok hx
      simp only [List.mem_cons, not_or] at hs
      have hne : s ≠ i := fun he => hs.1 (by rw [he])
      rw [ih h hs.2]
      simp [hne]

/-! ## The entries of an index sector -/

theorem indexEntry_eq (t : Fin NumIndex → Word) (i : Fin NumIndex) :
    indexEntry (indexLayout t) i = .ok ((t i).setWidth 8).toInt := by
  have hlt : (i : ℕ) * 4 < SectorSize := by
    have := i.isLt
    simp only [NumIndex, SectorSize] at *
    omega
  have hpos : (⟨i * 4, hlt⟩ : Fin SectorSize) = finProdFinEquiv (i, (0 : Fin 4)) := by
    apply Fin.ext
    simp [finProdFinEquiv, Nat.mul_comm]
  rw [indexEntry, dif_pos hlt, hpos, indexLayout, arrayLayout_apply, wordLayout_zero]

/-- The low byte of a sector number, with its sign. -/
theorem toInt_lowByte (s : Fin NumSectors) :
    ((Word.ofInt (s : ℕ)).setWidth 8).toInt = ((s : ℕ) : ℤ).bmod 256 := by
  have := sector_lt s
  rw [BitVec.toInt_setWidth, Word.ofInt, BitVec.toNat_ofInt]
  congr 1
  omega

theorem bmod_eq_self_iff (s : Fin NumSectors) :
    ((s : ℕ) : ℤ).bmod 256 = (s : ℕ) ↔ (s : ℕ) < 128 := by
  have := sector_lt s
  constructor
  · intro h
    have hlt := Int.bmod_lt (x := ((s : ℕ) : ℤ)) (m := 256) (by decide)
    omega
  · intro h
    exact Int.bmod_eq_of_le (by omega) (by omega)

/-! ## `Deallocate` releases a list of sectors -/

/-- The sectors that a header names in its own table. -/
def directSectors (h : FileHeader) : List ℤ :=
  ((List.finRange (NumDirect + NumFirst)).take h.needDirect).map fun i => (h.dataSectors i).toInt

/-- What the low bytes of the entries of an index sector name. -/
def lowBytes (t : Fin NumIndex → Word) (m : ℕ) : List ℤ :=
  ((List.finRange NumIndex).take m).map fun i => ((t i).setWidth 8).toInt

variable {k : ℕ}

theorem range_eq_map_take_finRange {m : ℕ} (h : m ≤ k) :
    List.range m = ((List.finRange k).take m).map Fin.val := by
  rw [List.map_take, List.map_coe_finRange_eq_range, List.take_range, Nat.min_eq_left h]

theorem foldlM_indexEntry (t : Fin NumIndex → Word) (items : List (Fin NumIndex))
    (freeMap : BitMap NumSectors) :
    (items.map Fin.val).foldlM
        (fun fm i => do release fm (← indexEntry (indexLayout t) i)) freeMap =
      (items.map fun i => ((t i).setWidth 8).toInt).foldlM release freeMap := by
  rw [List.foldlM_map, List.foldlM_map]
  congr 1
  funext fm i
  rw [indexEntry_eq, ok_bind]

theorem deallocate_direct {h : FileHeader} (hidx : ¬ h.hasIndex) (freeMap : BitMap NumSectors)
    (d : Disk) : h.deallocate freeMap d = h.directSectors.foldlM release freeMap := by
  rw [deallocate, directSectors, List.foldlM_map]
  simp only [hidx, if_false, bind_pure]

theorem deallocate_indexed {h : FileHeader} (hidx : h.hasIndex)
    (hmax : h.needIndirect ≤ NumIndex) (freeMap : BitMap NumSectors) {d : Disk}
    {t : Fin NumIndex → Word}
    (hread : d.readSector (h.dataSectors indexSlot).toInt = .ok (indexLayout t)) :
    h.deallocate freeMap d =
      (h.directSectors ++ (lowBytes t h.needIndirect ++
        [(h.dataSectors indexSlot).toInt])).foldlM release freeMap := by
  rw [deallocate, directSectors, lowBytes]
  simp only [hidx, if_true, hread, ok_bind, List.foldlM_append, List.foldlM_map,
    List.foldlM_cons, List.foldlM_nil, bind_pure]
  congr 1
  funext fm
  congr 1
  rw [range_eq_map_take_finRange hmax, foldlM_indexEntry, List.foldlM_map]

/-! ## The sectors of an allocated file -/

theorem directSectors_eq {h : FileHeader} (items : List (Fin NumSectors)) {m : ℕ}
    (hneed : h.needDirect = m) (hm : m ≤ NumDirect + NumFirst) (hlen : m ≤ items.length)
    (htable : ∀ (j : ℕ) (hj : j < NumDirect + NumFirst) (hlt : j < items.length), j < m →
      (h.dataSectors ⟨j, hj⟩).toInt = (items[j] : ℕ)) :
    h.directSectors = (items.take m).map fun i : Fin NumSectors => ((i : ℕ) : ℤ) := by
  apply List.ext_getElem
  · simp only [directSectors, hneed, List.length_map, List.length_take, List.length_finRange]
    omega
  · intro j hj hj'
    simp only [directSectors, hneed, List.length_map, List.length_take,
      List.length_finRange] at hj
    simp only [directSectors, hneed, List.getElem_map, List.getElem_take, List.getElem_finRange]
    exact htable j (by omega) (by omega) (by omega)

section

variable {h : FileHeader} {freeMap : BitMap NumSectors} {d : Disk} {fileSize : ℤ}
  {szTime : List Byte} {h' : FileHeader} {freeMap' : BitMap NumSectors} {d' : Disk}

/-- Clearing the bits that `Find` has set restores the map. -/
theorem foldl_clearBit_findSeq (hperm : items.Perm (freeMap.free.take k)) :
    items.foldl clearBit (findSeq k freeMap).2 = freeMap := by
  apply ext_testBit (k := 32)
  intro j
  rw [testBit_foldl_clearBit, findSeq_snd_testBit]
  by_cases hj : j ∈ freeMap.free.take k
  · have hfree : freeMap.testBit j = false := mem_free.mp (List.mem_of_mem_take hj)
    simp [hfree, hperm.mem_iff.mpr hj]
  · have hj' : j ∉ items := fun hmem => hj (hperm.mem_iff.mp hmem)
    simp [hj, hj']

theorem foldlM_release_findSeq (hperm : items.Perm (freeMap.free.take k)) :
    (items.map fun i : Fin NumSectors => ((i : ℕ) : ℤ)).foldlM release (findSeq k freeMap).2 =
      .ok freeMap := by
  rw [foldlM_release, foldl_clearBit_findSeq hperm]
  · exact hperm.nodup_iff.mpr (freeMap.free_nodup.sublist (List.take_sublist _ _))
  · intro i hi
    rw [findSeq_snd_testBit]
    simp [hperm.mem_iff.mp hi]

theorem Allocated.deallocate_direct (a : Allocated h freeMap d fileSize szTime h' freeMap' d')
    (hle : fileSize ≤ (NumDirect * SectorSize : ℕ)) :
    h'.deallocate freeMap' d' = .ok freeMap := by
  have hle' : fileSize ≤ 1792 := hle
  have hN : NumDirect = 14 := rfl
  obtain ⟨hn, _⟩ := numSectors_setSize h a.nonneg a.le_max
  have hcount : dataSectorCount fileSize ≤ 14 := by
    simp only [dataSectorCount, SectorSize]
    omega
  have hlen := a.findCount_le
  rw [findCount, if_neg (by omega)] at hlen
  obtain ⟨_, ⟨_, rfl, rfl, _⟩ | ⟨hlt, _⟩⟩ := allocate_eq_ok_true hn a.returns
  · have hidx : ¬ (((h.setSize fileSize).setTable
        (h.directTable freeMap (dataSectorCount fileSize))).setCreateTime szTime).hasIndex := by
      change ¬ (h.setSize fileSize).numSectors.toNat > NumDirect
      omega
    rw [FileHeader.deallocate_direct hidx, directSectors_eq freeMap.free
      (m := dataSectorCount fileSize) ?_ (by omega) hlen ?_, foldlM_release_findSeq (List.Perm.refl _)]
    · rw [needDirect, if_neg hidx]
      exact hn
    · intro j hj hfree hlt
      exact directTable_toInt h hlt hj hfree
  · exact absurd hlt (by omega)

/-! ## Files with an index sector -/

/-- In an increasing list the entries below a bound come first. -/
theorem getElem_lt_iff_of_sorted {l : List (Fin k)} (hl : l.Pairwise (· < ·)) (c : ℕ) {m : ℕ}
    (hm : m < l.length) :
    (l[m] : ℕ) < c ↔ m < (l.filter fun s : Fin k => decide ((s : ℕ) < c)).length := by
  induction l generalizing m with
  | nil => simp at hm
  | cons x l ih =>
      obtain ⟨hx, hl⟩ := List.pairwise_cons.mp hl
      by_cases hxc : (x : ℕ) < c
      · rw [List.filter_cons_of_pos (by simpa using hxc)]
        cases m with
        | zero => simp [hxc]
        | succ m => simpa using ih hl (by simpa using hm)
      · have hnil : l.filter (fun s : Fin k => decide ((s : ℕ) < c)) = [] := by
          rw [List.filter_eq_nil_iff]
          intro y hy
          have := hx y hy
          simp only [decide_eq_true_eq]
          omega
        rw [List.filter_cons_of_neg (by simpa using hxc), hnil]
        cases m with
        | zero => simpa using hxc
        | succ m =>
            have := hx _ (List.getElem_mem (l := l) (n := m) (by simpa using hm))
            simp only [List.getElem_cons_succ, List.length_nil, Nat.not_lt_zero, iff_false]
            omega

/-- The sectors behind the index sector, for a file of `n` data sectors. -/
def indirect (freeMap : BitMap NumSectors) (n : ℕ) : List (Fin NumSectors) :=
  (freeMap.free.drop (NumDirect + 1)).take (n - NumDirect)

theorem take_findCount_perm {n : ℕ} (hn : NumDirect < n) (hlen : n + 1 ≤ freeMap.free.length) :
    (freeMap.free.take NumDirect ++ (indirect freeMap n ++
      [freeMap.free.get ⟨NumDirect, by omega⟩])).Perm (freeMap.free.take (n + 1)) := by
  have hsplit : freeMap.free.take (n + 1) = freeMap.free.take NumDirect ++
      (freeMap.free.get ⟨NumDirect, by omega⟩ :: indirect freeMap n) := by
    rw [show n + 1 = NumDirect + (n + 1 - NumDirect) by omega, List.take_add,
      List.drop_eq_getElem_cons (by omega), show n + 1 - NumDirect = (n - NumDirect) + 1 by omega,
      List.take_succ_cons]
    rfl
  rw [hsplit]
  exact List.Perm.append_left _ (List.perm_append_singleton _ _)

theorem lowBytes_indexTable {n : ℕ} (hn : NumDirect < n) (hmax : n ≤ NumDirect + NumIndex)
    (hlen : n + 1 ≤ freeMap.free.length) :
    lowBytes (indexTable freeMap n) (n - NumDirect) =
      (indirect freeMap n).map fun s : Fin NumSectors => ((s : ℕ) : ℤ).bmod 256 := by
  apply List.ext_getElem
  · simp only [lowBytes, indirect, List.length_map, List.length_take, List.length_drop,
      List.length_finRange]
    omega
  · intro j hj hj'
    simp only [lowBytes, List.length_map, List.length_take, List.length_finRange] at hj
    simp only [lowBytes, indirect, List.getElem_map, List.getElem_take, List.getElem_finRange,
      List.getElem_drop, indexTable]
    rw [if_pos (by simpa using by omega), ← toInt_lowByte]
    congr 3
    exact findSeq_getD freeMap 0 (by simp; omega) (by simp; omega)

section

variable (a : Allocated h freeMap d fileSize szTime h' freeMap' d')
  (hlt : (NumDirect * SectorSize : ℕ) < fileSize)

include a hlt

theorem Allocated.indexed_count :
    NumDirect < dataSectorCount fileSize ∧ dataSectorCount fileSize + 1 ≤ freeMap.free.length := by
  have hlt' : 1792 < fileSize := hlt
  have hcount : 14 < dataSectorCount fileSize := by
    simp only [dataSectorCount, SectorSize]
    omega
  have hlen := a.findCount_le
  rw [findCount, if_pos (show _ > NumDirect from hcount)] at hlen
  exact ⟨hcount, hlen⟩

/-- The list of numbers released by `Deallocate` on the header of an indexed file. -/
theorem Allocated.deallocate_indexed_eq (hfree : NumDirect < freeMap.free.length) :
    h'.deallocate freeMap' d' =
      ((freeMap.free.take NumDirect).map (fun i : Fin NumSectors => ((i : ℕ) : ℤ)) ++
        ((indirect freeMap (dataSectorCount fileSize)).map
            (fun s : Fin NumSectors => ((s : ℕ) : ℤ).bmod 256) ++
          [((freeMap.free.get ⟨NumDirect, hfree⟩ : ℕ) : ℤ)])).foldlM release
        (findSeq (dataSectorCount fileSize + 1) freeMap).2 := by
  have hN : NumDirect = 14 := rfl
  have hI : NumIndex = 32 := rfl
  obtain ⟨hn, _⟩ := numSectors_setSize h a.nonneg a.le_max
  obtain ⟨hcount, hlen⟩ := a.indexed_count hlt
  obtain ⟨_, ⟨hle, _⟩ | ⟨_, hmax, rfl, rfl, s, hs, rfl⟩⟩ := allocate_eq_ok_true hn a.returns
  · exact absurd hle (by omega)
  set h' := (((h.setSize fileSize).setTable
    (indexedTable freeMap (dataSectorCount fileSize))).setCreateTime szTime) with hh'
  have hidx : h'.hasIndex := by
    rw [← hn] at hcount
    exact hcount
  have hneed : h'.needDirect = NumDirect := by rw [needDirect, if_pos hidx]
  have hind : h'.needIndirect = dataSectorCount fileSize - NumDirect := by
    rw [needIndirect, ← hn]
    rfl
  have hslot : (h'.dataSectors indexSlot).toInt = (freeMap.free.get ⟨NumDirect, hfree⟩ : ℕ) :=
    indexedTable_toInt (by omega) (by decide) hfree
  have hread : Disk.readSector (Function.update d s
      (indexLayout (indexTable freeMap (dataSectorCount fileSize))))
      (h'.dataSectors indexSlot).toInt =
      .ok (indexLayout (indexTable freeMap (dataSectorCount fileSize))) := by
    rw [show (h'.dataSectors indexSlot).toInt = ((s : ℕ) : ℤ) from hs, Disk.readSector_natCast,
      Function.update_self]
  rw [FileHeader.deallocate_indexed hidx (by omega) _ hread, hind, hslot,
    lowBytes_indexTable (by omega) hmax hlen,
    directSectors_eq freeMap.free hneed (by simp) (by omega) ?_]
  intro j hj hfree' hlt
  exact indexedTable_toInt (by omega) hj hfree'

theorem Allocated.deallocate_indexed_of_lt
    (hlow : ∀ s ∈ indirect freeMap (dataSectorCount fileSize), (s : ℕ) < 128) :
    h'.deallocate freeMap' d' = .ok freeMap := by
  obtain ⟨hcount, hlen⟩ := a.indexed_count hlt
  have hmap : ((indirect freeMap (dataSectorCount fileSize)).map
      fun s : Fin NumSectors => ((s : ℕ) : ℤ).bmod 256) =
      (indirect freeMap (dataSectorCount fileSize)).map
        fun s : Fin NumSectors => ((s : ℕ) : ℤ) :=
    List.map_congr_left fun s hs => (bmod_eq_self_iff s).mpr (hlow s hs)
  have hperm := take_findCount_perm hcount hlen
  rw [a.deallocate_indexed_eq hlt (by omega), hmap, ← foldlM_release_findSeq hperm]
  simp only [List.map_append, List.map_cons, List.map_nil]

/-- A sector from 128 on is behind the index, but no entry is read back as it. -/
theorem Allocated.deallocate_indexed_ne {s : Fin NumSectors}
    (hs : s ∈ indirect freeMap (dataSectorCount fileSize)) (hhigh : 128 ≤ (s : ℕ)) :
    h'.deallocate freeMap' d' ≠ .ok freeMap := by
  obtain ⟨hcount, hlen⟩ := a.indexed_count hlt
  have hperm := take_findCount_perm hcount hlen
  have hnodup := hperm.nodup_iff.mpr (freeMap.free_nodup.sublist (List.take_sublist _ _))
  obtain ⟨_, hrest, hdirect⟩ := List.nodup_append.mp hnodup
  obtain ⟨_, _, hindex⟩ := List.nodup_append.mp hrest
  intro hok
  rw [a.deallocate_indexed_eq hlt (by omega)] at hok
  have hkeep := foldlM_release_testBit (s := s) hok ?_
  · rw [mem_free.mp (List.mem_of_mem_drop (List.mem_of_mem_take hs)), findSeq_snd_testBit,
      decide_eq_true (hperm.mem_iff.mp (by simp [hs]))] at hkeep
    simp at hkeep
  simp only [List.mem_append, List.mem_map, List.mem_singleton, not_or, not_exists, not_and,
    Int.natCast_inj]
  refine ⟨fun t ht he => hdirect t ht s (by simp [hs]) (Fin.ext he), fun t _ he => ?_,
    fun he => hindex s hs _ (by simp) (Fin.ext he)⟩
  have := Int.bmod_lt (x := ((t : ℕ) : ℤ)) (m := 256) (by decide)
  omega

end

/-- The sectors behind the index are below 128 when enough sectors below 128 are free. -/
theorem indirect_lt_iff {n : ℕ} (hn : NumDirect < n) (hlen : n + 1 ≤ freeMap.free.length) :
    (∀ s ∈ indirect freeMap n, (s : ℕ) < 128) ↔
      n + 1 ≤ (freeMap.free.filter fun s : Fin NumSectors => decide ((s : ℕ) < 128)).length := by
  have hsorted := freeMap.free_sorted
  rw [Nat.succ_le_iff, ← getElem_lt_iff_of_sorted hsorted 128 (show n < _ by omega)]
  constructor
  · intro hlow
    refine hlow _ (List.mem_iff_getElem.mpr ⟨n - NumDirect - 1, ?_, ?_⟩)
    · simp only [indirect, List.length_take, List.length_drop]
      omega
    · simp only [indirect, List.getElem_take, List.getElem_drop]
      congr 1
      omega
  · intro hlast s hs
    obtain ⟨j, hj, rfl⟩ := List.mem_iff_getElem.mp hs
    simp only [indirect, List.length_take, List.length_drop] at hj
    simp only [indirect, List.getElem_take, List.getElem_drop]
    rcases Nat.lt_or_ge (NumDirect + 1 + j) n with hlt | hge
    · exact (Fin.lt_def.mp (List.pairwise_iff_getElem.mp hsorted _ _ (by omega) (by omega)
        hlt)).trans hlast
    · have he : NumDirect + 1 + j = n := by omega
      simp only [he]
      exact hlast

theorem Allocated.deallocate_iff (a : Allocated h freeMap d fileSize szTime h' freeMap' d') :
    h'.deallocate freeMap' d' = .ok freeMap ↔
      fileSize ≤ (NumDirect * SectorSize : ℕ) ∨ dataSectorCount fileSize + 1 ≤
        (freeMap.free.filter fun s : Fin NumSectors => decide ((s : ℕ) < 128)).length := by
  rcases le_or_gt fileSize (NumDirect * SectorSize : ℕ) with hle | hlt
  · simp only [hle, true_or, iff_true]
    exact a.deallocate_direct hle
  · obtain ⟨hcount, hlen⟩ := a.indexed_count hlt
    rw [or_iff_right (not_le.mpr hlt), ← indirect_lt_iff hcount hlen]
    refine ⟨fun hok s hs => ?_, a.deallocate_indexed_of_lt hlt⟩
    by_contra hhigh
    exact a.deallocate_indexed_ne hlt hs (not_lt.mp hhigh) hok

end

/-! ## The whole range of sizes -/

/-- `Deallocate` undoes `Allocate` exactly for the files without an index sector and, for
the others, when the lowest sectors that are free suffice for the file and its index. -/
theorem deallocate_allocate_iff (h : FileHeader) (freeMap : BitMap NumSectors) (d : Disk)
    (fileSize : ℤ) (szTime : List Byte) (h' : FileHeader) (freeMap' : BitMap NumSectors)
    (d' : Disk) (hlo : 0 ≤ fileSize) (hhi : fileSize ≤ MaxFileSize)
    (ha : h.allocate freeMap d fileSize szTime = .ok (true, h', freeMap', d'))
    (hfind : ∀ s ∈ (findSeq (findCount (dataSectorCount fileSize)) freeMap).1, s ≠ -1) :
    h'.deallocate freeMap' d' = .ok freeMap ↔
      fileSize ≤ (NumDirect * SectorSize : ℕ) ∨ dataSectorCount fileSize + 1 ≤
        (freeMap.free.filter fun s : Fin NumSectors => decide ((s : ℕ) < 128)).length :=
  Allocated.deallocate_iff ⟨hlo, hhi, ha, hfind⟩

theorem deallocate_allocate_iff_small :
    ∃ h' freeMap' d',
      blankHeader.allocate freshMap blankDisk 1793 [] = .ok (true, h', freeMap', d') ∧
      h'.deallocate freeMap' d' = .ok freshMap := by
  obtain ⟨h', freeMap', d', a⟩ := freshMap_allocated (show (0 : ℤ) ≤ 1793 by decide) (by decide)
  refine ⟨h', freeMap', d', a.returns, (deallocate_allocate_iff _ _ _ _ _ _ _ _ a.nonneg a.le_max
    a.returns a.finds).mpr (.inr ?_)⟩
  rw [freshMap_free]
  decide +kernel

/-! A disk whose first 113 sectors are in use. -/

def lowTaken : BitMap NumSectors := (findSeq 113 freshMap).2

theorem lowTaken_free : lowTaken.free = (List.finRange NumSectors).drop 113 := by
  rw [lowTaken, findSeq_snd_free, freshMap_free]

/-- Block 14 gets sector 128, whose low byte is -128: `Test` refuses it. -/
theorem deallocate_lowTaken :
    ∃ h' freeMap' d',
      blankHeader.allocate lowTaken blankDisk 1793 [] = .ok (true, h', freeMap', d') ∧
      (∀ s ∈ (findSeq (findCount (dataSectorCount 1793)) lowTaken).1, s ≠ -1) ∧
      h'.deallocate freeMap' d' = .error .assertion := by
  have hlen : lowTaken.free.length = 911 := by
    rw [lowTaken_free, List.length_drop, List.length_finRange]
    rfl
  obtain ⟨h', freeMap', d', a⟩ := exists_allocated blankHeader lowTaken blankDisk []
    (show (0 : ℤ) ≤ 1793 by decide) (by decide) (by rw [hlen]; decide)
  have hlt : ((NumDirect * SectorSize : ℕ) : ℤ) < 1793 := by decide
  refine ⟨h', freeMap', d', a.returns, a.finds, ?_⟩
  have hindirect : indirect lowTaken (dataSectorCount 1793) = [128] := by
    rw [indirect, lowTaken_free]
    decide +kernel
  have hdirect : ((lowTaken.free.take NumDirect).map
      fun i : Fin NumSectors => ((i : ℕ) : ℤ)).foldlM release
        (findSeq (dataSectorCount 1793 + 1) lowTaken).2 = .ok
      ((lowTaken.free.take NumDirect).foldl clearBit
        (findSeq (dataSectorCount 1793 + 1) lowTaken).2) := by
    refine foldlM_release (lowTaken.free_nodup.sublist (List.take_sublist _ _)) fun i hi => ?_
    rw [findSeq_snd_testBit, decide_eq_true (List.take_subset_take_left _ (by decide) hi)]
    simp
  rw [a.deallocate_indexed_eq hlt (by rw [hlen]; decide), hindirect, List.foldlM_append, hdirect,
    ok_bind, List.map_singleton, List.singleton_append, List.foldlM_cons, release, BitMap.test,
    item_of_neg (by decide)]
  rfl

end Nachos.FileHeader
