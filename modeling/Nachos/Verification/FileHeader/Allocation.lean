import Nachos.Model.FileHeader
import Nachos.Verification.BitMap.Correctness

/-! # What `Allocate` leaves behind -/

namespace Nachos.FileHeader

open Library BitMap

/-! ## Filling a table -/

theorem fillTable_eq {k : ℕ} (table : Fin k → Word) (freeMap : BitMap NumSectors) (i n : ℕ)
    (h : i + n ≤ k) :
    fillTable table freeMap i n =
      .ok (fun j => if i ≤ j ∧ j < i + n then
          Word.ofInt ((findSeq n freeMap).1.getD (j - i) 0) else table j,
        (findSeq n freeMap).2) := by
  induction n generalizing table freeMap i with
  | zero =>
      simp only [fillTable, findSeq, Except.ok.injEq, Prod.mk.injEq, and_true]
      funext j
      rw [if_neg (by omega)]
  | succ n ih =>
      rw [fillTable, dif_pos (by omega)]
      simp only [ih _ _ _ (show i + 1 + n ≤ k by omega), findSeq, Except.ok.injEq,
        Prod.mk.injEq, and_true]
      funext j
      by_cases hj : j = ⟨i, by omega⟩
      · subst j
        rw [if_neg (by simp), Function.update_self, if_pos (by simp)]
        simp
      · have hne : (j : ℕ) ≠ i := fun he => hj (Fin.ext he)
        rw [Function.update_of_ne hj]
        by_cases hin : i ≤ j ∧ j < i + (n + 1)
        · rw [if_pos (by omega), if_pos hin, show (j : ℕ) - i = j - (i + 1) + 1 by omega]
          rfl
        · rw [if_neg (by omega), if_neg hin]

theorem fillTable_bounds {k : ℕ} (table : Fin k → Word) (freeMap : BitMap NumSectors) (i n : ℕ)
    (hi : i ≤ k) (h : k < i + n) : fillTable table freeMap i n = .error .bounds := by
  induction n generalizing table freeMap i with
  | zero => omega
  | succ n ih =>
      rw [fillTable]
      split
      · exact ih _ _ _ (by omega) (by omega)
      · rfl

/-! ## The outcomes of `Allocate` -/

variable (h : FileHeader) (freeMap : BitMap NumSectors) (d : Disk) (fileSize : ℤ)
  (szTime : List Byte) {n : ℕ}

@[simp] theorem setTable_hasIndex (t : Fin (NumDirect + NumFirst) → Word) :
    (h.setTable t).hasIndex ↔ h.hasIndex := Iff.rfl

@[simp] theorem setTable_needIndirect (t : Fin (NumDirect + NumFirst) → Word) :
    (h.setTable t).needIndirect = h.needIndirect := rfl

theorem allocate_of_numClear_lt
    (hlt : (freeMap.numClear : ℤ) < (h.setSize fileSize).numSectors.toInt) :
    h.allocate freeMap d fileSize szTime = .ok (false, h.setSize fileSize, freeMap, d) := by
  unfold allocate
  rw [if_pos hlt]
  rfl

/-- The table of a file of `n` data sectors that needs no index sector. -/
def directTable (h : FileHeader) (freeMap : BitMap NumSectors) (n : ℕ) :
    Fin (NumDirect + NumFirst) → Word :=
  fun j => if j < n then Word.ofInt ((findSeq n freeMap).1.getD j 0) else h.dataSectors j

theorem allocate_direct (hn : (h.setSize fileSize).numSectors.toNat = n) (hle : n ≤ NumDirect)
    (hge : (h.setSize fileSize).numSectors.toInt ≤ freeMap.numClear) :
    h.allocate freeMap d fileSize szTime =
      .ok (true, ((h.setSize fileSize).setTable (h.directTable freeMap n)).setCreateTime szTime,
        (findSeq n freeMap).2, d) := by
  have hidx : ¬ (h.setSize fileSize).hasIndex := by
    rw [hasIndex, hn]
    omega
  have hneed : (h.setSize fileSize).needDirect = n := by
    rw [needDirect, if_neg hidx, hn]
  have htable : h.directTable freeMap n = fun j : Fin (NumDirect + NumFirst) =>
      if 0 ≤ (j : ℕ) ∧ j < 0 + n then Word.ofInt ((findSeq n freeMap).1.getD (j - 0) 0)
      else h.dataSectors j := by
    funext j
    simp [directTable]
  unfold allocate
  rw [if_neg (not_lt.mpr hge), hneed, fillTable_eq _ _ _ _ (by simp only [NumFirst]; omega),
    ok_bind]
  dsimp only
  rw [if_neg (by simpa using hidx), htable]
  rfl

/-- The table of a file of `n` data sectors with an index sector. -/
def indexedTable (freeMap : BitMap NumSectors) (n : ℕ) : Fin (NumDirect + NumFirst) → Word :=
  fun j => Word.ofInt ((findSeq (n + 1) freeMap).1.getD j 0)

/-- The index sector of a file of `n` data sectors. -/
def indexTable (freeMap : BitMap NumSectors) (n : ℕ) : Fin NumIndex → Word :=
  fun j => if j < n - NumDirect then
    Word.ofInt ((findSeq (n + 1) freeMap).1.getD (NumDirect + 1 + j) 0) else 0

theorem findSeq_split (hn : NumDirect < n) (freeMap : BitMap NumSectors) :
    findSeq (n + 1) freeMap =
      ((findSeq NumDirect freeMap).1 ++ (findSeq NumDirect freeMap).2.find.1 ::
          (findSeq (n - NumDirect) (findSeq NumDirect freeMap).2.find.2).1,
        (findSeq (n - NumDirect) (findSeq NumDirect freeMap).2.find.2).2) := by
  have hsum : n + 1 = NumDirect + (1 + (n - NumDirect)) := by omega
  rw [hsum, findSeq_add, findSeq_add]
  simp [findSeq]

theorem indexedTable_eq (hn : NumDirect < n) (t : Fin (NumDirect + NumFirst) → Word) :
    Function.update (fun j : Fin (NumDirect + NumFirst) => if 0 ≤ (j : ℕ) ∧ j < 0 + NumDirect then
        Word.ofInt ((findSeq NumDirect freeMap).1.getD (j - 0) 0) else t j)
      indexSlot (Word.ofInt (findSeq NumDirect freeMap).2.find.1) =
    indexedTable freeMap n := by
  funext j
  have hlen := findSeq_length NumDirect freeMap
  rw [indexedTable, findSeq_split hn]
  by_cases hj : j = indexSlot
  · subst j
    rw [Function.update_self, List.getD_append_right _ _ _ _ (by rw [hlen]; exact le_rfl), hlen]
    simp [indexSlot]
  · have hlt : (j : ℕ) < NumDirect := by
      have := j.isLt
      have hne : (j : ℕ) ≠ NumDirect := fun he => hj (Fin.ext he)
      simp only [NumFirst] at this
      omega
    rw [Function.update_of_ne hj, if_pos (by omega), List.getD_append _ _ _ _ (by omega)]
    rfl

theorem allocate_indexed (hn : (h.setSize fileSize).numSectors.toNat = n) (hlt : NumDirect < n)
    (hmax : n ≤ NumDirect + NumIndex)
    (hge : (h.setSize fileSize).numSectors.toInt ≤ freeMap.numClear) :
    h.allocate freeMap d fileSize szTime = (do
      let d ← d.writeSector (indexedTable freeMap n indexSlot).toInt
        (indexLayout (indexTable freeMap n))
      return (true, ((h.setSize fileSize).setTable (indexedTable freeMap n)).setCreateTime szTime,
        (findSeq (n + 1) freeMap).2, d)) := by
  have hidx : (h.setSize fileSize).hasIndex := by
    rw [hasIndex, hn]
    exact hlt
  have hneed : (h.setSize fileSize).needDirect = NumDirect := by
    rw [needDirect, if_pos hidx]
  have hbehind : indexTable freeMap n = fun j : Fin NumIndex =>
      if 0 ≤ (j : ℕ) ∧ j < 0 + (n - NumDirect) then
        Word.ofInt ((findSeq (n - NumDirect)
          (findSeq NumDirect freeMap).2.find.2).1.getD (j - 0) 0) else 0 := by
    funext j
    have hlen := findSeq_length NumDirect freeMap
    rw [indexTable, findSeq_split hlt, List.getD_append_right _ _ _ _ (by omega), hlen,
      show NumDirect + 1 + (j : ℕ) - NumDirect = j + 1 by omega]
    simp
  unfold allocate
  rw [if_neg (not_lt.mpr hge), hneed, fillTable_eq _ _ _ _ (by simp), ok_bind]
  dsimp only
  rw [if_pos (by simpa using hidx), allocateIndex]
  dsimp only [setTable]
  rw [indexedTable_eq freeMap hlt, needIndirect]
  dsimp only
  rw [hn, fillTable_eq _ _ _ _ (by omega), ← hbehind, ok_bind]
  simp only [bind_assoc, pure_bind, findSeq_split hlt]

theorem allocate_bounds (hn : (h.setSize fileSize).numSectors.toNat = n)
    (hlt : NumDirect + NumIndex < n)
    (hge : (h.setSize fileSize).numSectors.toInt ≤ freeMap.numClear) :
    h.allocate freeMap d fileSize szTime = .error .bounds := by
  have hidx : (h.setSize fileSize).hasIndex := by
    rw [hasIndex, hn]
    omega
  have hneed : (h.setSize fileSize).needDirect = NumDirect := by
    rw [needDirect, if_pos hidx]
  unfold allocate
  rw [if_neg (not_lt.mpr hge), hneed, fillTable_eq _ _ _ _ (by simp), ok_bind]
  dsimp only
  rw [if_pos (by simpa using hidx), allocateIndex]
  dsimp only
  rw [fillTable_bounds _ _ _ _ (Nat.zero_le _) (by
    rw [setTable_needIndirect, setTable_needIndirect, needIndirect, hn]
    omega)]
  rfl

/-! ## Inversion -/

variable {h freeMap d fileSize szTime}
variable {h' : FileHeader} {freeMap' : BitMap NumSectors} {d' : Disk}

/-- An allocation is refused for lack of space, and the disk has not been touched. -/
theorem allocate_eq_ok_false
    (ha : h.allocate freeMap d fileSize szTime = .ok (false, h', freeMap', d')) :
    (freeMap.numClear : ℤ) < (h.setSize fileSize).numSectors.toInt ∧ d' = d := by
  by_cases hlt : (freeMap.numClear : ℤ) < (h.setSize fileSize).numSectors.toInt
  · rw [allocate_of_numClear_lt _ _ _ _ _ hlt] at ha
    simp only [Except.ok.injEq, Prod.mk.injEq] at ha
    exact ⟨hlt, ha.2.2.2.symm⟩
  · unfold allocate at ha
    rw [if_neg hlt] at ha
    obtain ⟨_, _, ha⟩ := bind_eq_ok.mp ha
    dsimp only at ha
    split at ha <;>
    · obtain ⟨_, _, ha⟩ := bind_eq_ok.mp ha
      simp at ha

/-- What a successful allocation has done: either all sectors are in the header, or the
ones behind the index sector are in that sector, which has been written. -/
theorem allocate_eq_ok_true (hn : (h.setSize fileSize).numSectors.toNat = n)
    (ha : h.allocate freeMap d fileSize szTime = .ok (true, h', freeMap', d')) :
    (h.setSize fileSize).numSectors.toInt ≤ freeMap.numClear ∧
    ((n ≤ NumDirect ∧
      h' = ((h.setSize fileSize).setTable (h.directTable freeMap n)).setCreateTime szTime ∧
      freeMap' = (findSeq n freeMap).2 ∧ d' = d) ∨
    (NumDirect < n ∧ n ≤ NumDirect + NumIndex ∧
      h' = ((h.setSize fileSize).setTable (indexedTable freeMap n)).setCreateTime szTime ∧
      freeMap' = (findSeq (n + 1) freeMap).2 ∧
      ∃ s : Fin NumSectors, (indexedTable freeMap n indexSlot).toInt = (s : ℕ) ∧
        d' = Function.update d s (indexLayout (indexTable freeMap n)))) := by
  by_cases hlt : (freeMap.numClear : ℤ) < (h.setSize fileSize).numSectors.toInt
  · rw [allocate_of_numClear_lt _ _ _ _ _ hlt] at ha
    simp at ha
  have hge := not_lt.mp hlt
  refine ⟨hge, ?_⟩
  by_cases hdir : n ≤ NumDirect
  · rw [allocate_direct _ _ _ _ _ hn hdir hge] at ha
    simp only [Except.ok.injEq, Prod.mk.injEq, true_and] at ha
    obtain ⟨rfl, rfl, rfl⟩ := ha
    exact .inl ⟨hdir, rfl, rfl, rfl⟩
  by_cases hmax : n ≤ NumDirect + NumIndex
  · rw [allocate_indexed _ _ _ _ _ hn (by omega) hmax hge, bind_eq_ok] at ha
    obtain ⟨d₁, hw, ha⟩ := ha
    simp only [pure_eq_ok, Except.ok.injEq, Prod.mk.injEq, true_and] at ha
    obtain ⟨rfl, rfl, rfl⟩ := ha
    obtain ⟨s, hs, rfl⟩ := Disk.writeSector_eq_ok hw
    exact .inr ⟨by omega, hmax, rfl, rfl, s, hs, rfl⟩
  · rw [allocate_bounds _ _ _ _ _ hn (by omega) hge] at ha
    cases ha

/-! ## Sizes in range -/

/-- The number of data sectors of a file of `fileSize` bytes. -/
def dataSectorCount (fileSize : ℤ) : ℕ := (fileSize.toNat + (SectorSize - 1)) / SectorSize

theorem numSectors_of_nonneg (h : FileHeader) (hlo : 0 ≤ fileSize) (hhi : fileSize < 2 ^ 31) :
    (h.setSize fileSize).numSectors.toNat = dataSectorCount fileSize ∧
      (h.setSize fileSize).numSectors.toInt = dataSectorCount fileSize := by
  obtain ⟨size, rfl⟩ := Int.eq_ofNat_of_zero_le hlo
  have hcount : dataSectorCount size = (size + 127) / 128 := by simp [dataSectorCount]
  have hword : (h.setSize size).numSectors = Word.ofInt ((size + 127) / 128 : ℕ) := by
    rw [setSize]
    dsimp only
    rw [divRoundUp_natCast]
  rw [hcount, hword]
  constructor
  · rw [Word.ofInt, BitVec.toNat_ofInt]
    omega
  · rw [toInt_ofInt (by omega) (by omega)]

theorem numSectors_setSize (h : FileHeader) (hlo : 0 ≤ fileSize) (hhi : fileSize ≤ MaxFileSize) :
    (h.setSize fileSize).numSectors.toNat = dataSectorCount fileSize ∧
      (h.setSize fileSize).numSectors.toInt = dataSectorCount fileSize := by
  have hmax : MaxFileSize = 5888 := rfl
  exact numSectors_of_nonneg h hlo (by omega)

theorem fileLength_setSize (h : FileHeader) (hlo : 0 ≤ fileSize) (hhi : fileSize ≤ MaxFileSize) :
    (h.setSize fileSize).fileLength = fileSize := by
  have hmax : MaxFileSize = 5888 := rfl
  exact toInt_ofInt (by omega) (by omega)

end Nachos.FileHeader
