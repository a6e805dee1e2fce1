import Nachos.Verification.OpenFile.Transfer

/-! # Records kept in files

The bitmap and the directory are records that are read and written as a whole, through
the files that hold them. -/

namespace Nachos

open Library

variable {α : Type} {k : ℕ}

/-- The record in the first `k` bytes of the sectors `blocks`. -/
def recordAt (layout : α ≃ (Fin k → Byte)) (d : Disk) (blocks : List (Fin NumSectors)) : α :=
  layout.symm fun i => (gather d blocks).getD i 0

theorem recordAt_congr (layout : α ≃ (Fin k → Byte)) {d d' : Disk}
    {blocks : List (Fin NumSectors)} (h : ∀ s ∈ blocks, d s = d' s) :
    recordAt layout d blocks = recordAt layout d' blocks := by
  rw [recordAt, recordAt, gather_congr h]

namespace OpenFile

/-- The first `k` bytes of the file lie in the sectors `blocks`. -/
structure Room (f : OpenFile) (blocks : List (Fin NumSectors)) (k : ℕ) : Prop where
  maps : f.hdr.Maps blocks
  length : (k : ℤ) ≤ f.hdr.fileLength
  fits : k ≤ 128 * blocks.length

variable {f : OpenFile} {blocks : List (Fin NumSectors)}

theorem Room.lt (r : Room f blocks k) : (k : ℤ) < 2 ^ 31 :=
  r.length.trans_lt BitVec.toInt_lt

/-- Whatever the memory held before, `FetchFrom` leaves the record of the file in it. -/
theorem Room.fetch (r : Room f blocks k) (layout : α ≃ (Fin k → Byte)) (x : α) (d : Disk) :
    OpenFile.fetch layout x f d = .ok (recordAt layout d blocks) := by
  have hlength := r.length
  have hfits := r.fits
  have hgather : (gather d blocks).length = 128 * blocks.length := length_gather d blocks
  have hread : f.readAt d k 0 = _ := f.readAt_spec r.maps rfl d
    (show ((0 : ℕ) : ℤ) + (k : ℤ) < 2 ^ 31 by simpa using r.lt)
    (.inl (by rw [Nat.cast_zero]; omega))
  rw [OpenFile.fetch, hread, ok_bind, pure_eq_ok, recordAt]
  congr 2
  funext i
  have hi := i.isLt
  rw [Int.toNat_natCast, List.drop_zero, contents, List.take_take, List.getD_eq_getElem?_getD,
    List.getElem?_take, if_pos (by omega), List.getD_eq_getElem?_getD,
    List.getElem?_eq_getElem (by omega)]
  rfl

/-- `WriteBack` leaves the record in the file and every other sector as it was. -/
theorem Room.store (r : Room f blocks k) (layout : α ≃ (Fin k → Byte)) (x : α) (d : Disk)
    (junk : ℕ → Byte) :
    ∃ d', OpenFile.store layout x f d junk = .ok d' ∧ recordAt layout d' blocks = x ∧
      ∀ s, s ∉ blocks → d' s = d s := by
  have hlength := r.length
  have hfits := r.fits
  have hgather : (gather d blocks).length = 128 * blocks.length := length_gather d blocks
  have hbytes : (List.ofFn (layout x)).length = k := List.length_ofFn
  obtain ⟨d', hwrite, hcontents, hframe⟩ := f.writeAt_spec r.maps rfl d junk
    (show ((0 : ℕ) : ℤ) + (k : ℤ) < 2 ^ 31 by simpa using r.lt)
    (.inl (by rw [Nat.cast_zero]; omega))
    (show (k : ℤ) ≤ (List.ofFn (layout x)).length by rw [hbytes])
  refine ⟨d', ?_, ?_, hframe⟩
  · rw [OpenFile.store]
    rw [Nat.cast_zero] at hwrite
    rw [hwrite, ok_bind, pure_eq_ok]
  · rw [recordAt, Equiv.symm_apply_eq]
    funext i
    have hi := i.isLt
    have hget := congrArg (fun l => l[(i : ℕ)]?) hcontents
    simp only [contents, Int.toNat_natCast] at hget
    rw [List.getElem?_take, if_pos (by omega), getElem?_overwrite_of_mem (Nat.zero_le _)
      (by rw [List.length_take, hbytes]; omega)
      (by rw [List.length_take]; omega)] at hget
    rw [List.getD_eq_getElem?_getD, hget, List.getElem?_take, if_pos (by omega), Nat.sub_zero,
      List.getElem?_ofFn, dif_pos hi]
    rfl

end OpenFile

end Nachos
