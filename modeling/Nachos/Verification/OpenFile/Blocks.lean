import Nachos.Library.Blocks
import Nachos.Model.OpenFile
import Nachos.Verification.FileHeader.Lookup

/-! # The blocks of an open file

The part of a file that its header maps without the index sector is gathered from a list
of sectors; `ReadAt` and `WriteAt` gather and scatter runs of it. -/

namespace Nachos

open Library

theorem i32_mul_sectorSize {x : ℤ} {a : ℕ} (hx : x = a) (ha : a < 2 ^ 20) :
    i32 (x * SectorSize) = (128 * a : ℕ) := by
  have hS : (SectorSize : ℤ) = 128 := rfl
  rw [hx, hS, i32_of_range (by omega) (by omega)]
  omega

/-! ## Headers and lists of sectors -/

/-- The header names the sectors `blocks` for the first blocks of the file. -/
structure FileHeader.Maps (h : FileHeader) (blocks : List (Fin NumSectors)) : Prop where
  le : blocks.length ≤ NumDirect + NumFirst
  entry : ∀ (b : ℕ) (hb : b < blocks.length),
    (h.dataSectors ⟨b, hb.trans_le le⟩).toInt = (blocks[b] : ℕ)
  nodup : blocks.Nodup

namespace FileHeader.Maps

variable {h : FileHeader} {blocks : List (Fin NumSectors)}

/-- Only the table of the header matters. -/
theorem congr {h' : FileHeader} (m : h.Maps blocks) (he : h'.dataSectors = h.dataSectors) :
    h'.Maps blocks :=
  ⟨m.le, fun b hb => by rw [he]; exact m.entry b hb, m.nodup⟩

theorem byteToSector (m : h.Maps blocks) (d : Disk) {b : ℕ} (hb : b < blocks.length) :
    h.byteToSector d (i32 ((b : ℤ) * SectorSize)) = .ok ((blocks[b] : ℕ) : ℤ) := by
  have hle : blocks.length ≤ 15 := m.le
  rw [i32_mul_sectorSize rfl (by omega), byteToSector_direct h d (b := b) (by omega)
    (by omega) (by omega) (by omega)]
  exact congrArg _ (m.entry b hb)

theorem readSectors (m : h.Maps blocks) (d : Disk) {i n : ℕ} (hn : i + n ≤ blocks.length) :
    h.readSectors d i n = .ok (gather d ((blocks.drop i).take n)) := by
  induction n generalizing i with
  | zero => rfl
  | succ n ih =>
      have hnext := ih (i := i + 1) (by omega)
      push_cast at hnext
      rw [FileHeader.readSectors, m.byteToSector d (by omega), ok_bind, Disk.readSector_natCast,
        ok_bind, hnext, ok_bind, List.drop_eq_getElem_cons (show i < blocks.length by omega), List.take_succ_cons,
        gather_cons, pure_eq_ok]

theorem writeSectors (m : h.Maps blocks) (d : Disk) (buf : List Byte) {i n : ℕ}
    (hn : i + n ≤ blocks.length) :
    h.writeSectors d i buf n = .ok (scatter d ((blocks.drop i).take n) buf) := by
  induction n generalizing i d buf with
  | zero => rfl
  | succ n ih =>
      have hnext := fun d => ih d (buf.drop SectorSize) (i := i + 1) (by omega)
      push_cast at hnext
      rw [FileHeader.writeSectors, m.byteToSector d (by omega), ok_bind, Disk.writeSector_natCast,
        ok_bind, hnext, List.drop_eq_getElem_cons (show i < blocks.length by omega), List.take_succ_cons]
      rfl

end FileHeader.Maps

/-! ## Requests -/

theorem extent_eq_none {fileLength n : ℤ} {p : ℕ} (h : n ≤ 0 ∨ fileLength.toNat ≤ p) :
    extent fileLength n p = none :=
  if_pos (by omega)

/-- A request that is not refused covers `min n (len - p)` bytes from `p` on. -/
theorem extent_eq_some {len n p m : ℕ} (hn : 0 < n) (hp : p < len) (hover : p + n < 2 ^ 31)
    (hlen : len < 2 ^ 31) (hm : m = min n (len - p)) :
    extent len n p = some ⟨m, (p / 128 : ℕ), ((p + m - 1) / 128 : ℕ)⟩ := by
  have hmul : (if i32 ((p : ℤ) + n) > len then i32 ((len : ℤ) - p) else (n : ℤ)) = m := by
    rw [i32_of_range (by omega) (by omega), i32_of_range (by omega) (by omega)]
    split <;> omega
  have hlast : i32 ((p : ℤ) + m - 1) = ((p + m - 1 : ℕ) : ℤ) := by
    rw [i32_of_range (by omega) (by omega)]
    omega
  rw [extent, if_neg (by omega)]
  simp only [hmul, hlast, divRoundDown_natCast]

section

variable {p m : ℕ}

theorem numSectors_extent (hm : 0 < m) (hlt : p + m ≤ 2 ^ 31) :
    (Extent.mk m (p / 128 : ℕ) ((p + m - 1) / 128 : ℕ)).numSectors =
      ((p + m - 1) / 128 + 1 - p / 128 : ℕ) := by
  simp only [Extent.numSectors]
  rw [i32_of_range (by omega) (by omega)]
  omega

theorem start_extent (hlt : p < 2 ^ 31) :
    (Extent.mk m (p / 128 : ℕ) ((p + m - 1) / 128 : ℕ)).start p = (p % 128 : ℕ) := by
  have hS : (SectorSize : ℤ) = 128 := rfl
  simp only [Extent.start, hS]
  rw [i32_of_range (x := ((p / 128 : ℕ) : ℤ) * 128) (by omega) (by omega),
    i32_of_range (by omega) (by omega)]
  omega

end

end Nachos
