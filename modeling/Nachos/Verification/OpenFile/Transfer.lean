import Nachos.Verification.OpenFile.Blocks

/-! # Transfers

What `ReadAt` returns and what `WriteAt` leaves, in terms of the bytes of the file. -/

namespace Nachos

open Library

/-- The bytes of a file of `len` bytes that lies in the sectors `blocks`. -/
def contents (d : Disk) (blocks : List (Fin NumSectors)) (len : ℕ) : List Byte :=
  (gather d blocks).take len

theorem contents_congr {d d' : Disk} {blocks : List (Fin NumSectors)} (len : ℕ)
    (h : ∀ s ∈ blocks, d s = d' s) : contents d blocks len = contents d' blocks len := by
  rw [contents, contents, gather_congr h]

theorem length_contents (d : Disk) (blocks : List (Fin NumSectors)) (len : ℕ) :
    (contents d blocks len).length = min len (128 * blocks.length) := by
  rw [contents, List.length_take, length_gather]

/-! ## Buffers -/

theorem newChars_natCast (n : ℕ) (junk : ℕ → Byte) :
    newChars n junk = .ok ((List.range n).map junk) := by
  rw [newChars, if_neg (by omega), Int.toNat_natCast]

variable {buf : List Byte}

theorem bcopyFrom_natCast {start n : ℕ} (h : start + n ≤ buf.length) :
    bcopyFrom buf start n = .ok ((buf.drop start).take n) :=
  if_pos (by omega)

theorem bcopyTo_natCast {data : List Byte} {start : ℕ} (h : start + data.length ≤ buf.length) :
    bcopyTo buf start data = .ok (overwrite buf start data) :=
  if_pos (by omega)

namespace OpenFile

section

variable {f : OpenFile} {blocks : List (Fin NumSectors)} {len : ℕ} {p a b : ℕ}

/-! ## Reading -/

/-- `ReadAt` returns the bytes of the file from `p` on, as many as there are. -/
theorem readAt_spec (m : f.hdr.Maps blocks) (hlen : f.hdr.fileLength.toNat = len) (d : Disk)
    {numBytes : ℤ} (hover : p + numBytes < 2 ^ 31)
    (hcover : p + numBytes ≤ 128 * blocks.length ∨ len ≤ 128 * blocks.length) :
    f.readAt d numBytes p = .ok ((min numBytes.toNat (len - p) : ℕ),
      ((contents d blocks len).drop p).take numBytes.toNat) := by
  have hle : blocks.length ≤ 15 := m.le
  have hlt : f.hdr.fileLength < 2 ^ 31 := BitVec.toInt_lt
  by_cases hnone : numBytes ≤ 0 ∨ len ≤ p
  · rw [readAt, extent_eq_none (by omega)]
    rcases hnone with hn | hp
    · rw [Int.toNat_of_nonpos hn]
      simp
    · have hlength := length_contents d blocks len
      rw [List.drop_eq_nil_of_le (by omega), Nat.sub_eq_zero_of_le hp]
      simp
  · obtain ⟨n, rfl⟩ := Int.eq_ofNat_of_zero_le (show 0 ≤ numBytes by omega)
    obtain ⟨k, hk⟩ : ∃ k, k = min n (len - p) := ⟨_, rfl⟩
    have hS : (SectorSize : ℤ) = 128 := rfl
    have hbuf := m.readSectors d (i := p / 128) (n := (p + k - 1) / 128 + 1 - p / 128) (by omega)
    have hlength : (gather d ((blocks.drop (p / 128)).take
        ((p + k - 1) / 128 + 1 - p / 128))).length = 128 * ((p + k - 1) / 128 + 1 - p / 128) := by
      rw [length_gather, List.length_take, List.length_drop, Nat.min_eq_left (by omega)]
    rw [readAt, show f.hdr.fileLength = len by omega, extent_eq_some (by omega) (by omega) (by omega) (by omega) hk]
    simp only [numSectors_extent (p := p) (m := k) (by omega) (by omega), start_extent (p := p)
      (m := k) (by omega), Int.toNat_natCast, hbuf, ok_bind, hS]
    rw [if_neg (by rw [i32_of_range (by omega) (by omega)]; omega),
      bcopyFrom_natCast (by rw [hlength]; omega), ok_bind, pure_eq_ok, ← hk]
    congr 2
    rw [gather_take, gather_drop, contents]
    apply List.ext_getElem?
    intro j
    simp only [List.getElem?_take, List.getElem?_drop, SectorSize]
    by_cases hj : j < k
    · rw [if_pos hj, if_pos (by omega), if_pos (by omega), if_pos (by omega)]
      congr 1
      omega
    · rw [if_neg hj]
      split
      · rw [if_neg (by omega)]
      · rfl

/-! ## Writing -/

/-- Read block `b` into a buffer that starts at block `a`. -/
theorem readInto_spec (m : f.hdr.Maps blocks) (hlen : f.hdr.fileLength.toNat = len) (d : Disk)
    (hab : a ≤ b) (hb : b < blocks.length) (hbuf : 128 * (b - a) + 128 ≤ buf.length) :
    ∃ buf', f.readInto d buf (128 * (b - a) : ℕ) (128 * b : ℕ) = .ok buf' ∧
      buf'.length = buf.length ∧
      (∀ j, 128 * b ≤ j → j < 128 * b + 128 → j < len →
        buf'[j - 128 * a]? = (gather d blocks)[j]?) ∧
      ∀ j, 128 * a ≤ j → j < 128 * b ∨ 128 * b + 128 ≤ j →
        buf'[j - 128 * a]? = buf[j - 128 * a]? := by
  have hle : blocks.length ≤ 15 := m.le
  have hS : (SectorSize : ℤ) = 128 := rfl
  have hread : f.readAt d SectorSize (128 * b : ℕ) = _ :=
    f.readAt_spec m hlen d (by omega) (by omega)
  have hdata : (((contents d blocks len).drop (128 * b)).take 128).length =
      min 128 (len - 128 * b) := by
    rw [List.length_take, List.length_drop, length_contents]
    omega
  rw [readInto, hread, ok_bind, Int.toNat_natCast, bcopyTo_natCast (by rw [hdata]; omega)]
  refine ⟨_, rfl, length_overwrite _ _ _, fun j hlo hhi hj => ?_, fun j hlo hout => ?_⟩
  · rw [getElem?_overwrite_of_mem (by omega) (by rw [hdata]; omega) (by omega),
      List.getElem?_take, if_pos (by omega), List.getElem?_drop, contents, List.getElem?_take,
      if_pos (by omega)]
    congr 1
    omega
  · rcases hout with hlt | hge
    · exact getElem?_overwrite_of_lt _ (by omega)
    · exact getElem?_overwrite_of_ge (by rw [hdata]; omega)

theorem readFirst_spec (m : f.hdr.Maps blocks) (hlen : f.hdr.fileLength.toNat = len) (d : Disk)
    (k b : ℤ) (ha : a = p / 128) (hlt : a < blocks.length) (hbuf : 128 ≤ buf.length) :
    ∃ buf', f.readFirst d ⟨k, a, b⟩ p buf = .ok buf' ∧ buf'.length = buf.length ∧
      (p ≠ 128 * a → ∀ j, 128 * a ≤ j → j < 128 * a + 128 → j < len →
        buf'[j - 128 * a]? = (gather d blocks)[j]?) := by
  have hle : blocks.length ≤ 15 := m.le
  simp only [readFirst, i32_mul_sectorSize (show (a : ℤ) = a from rfl) (by omega)]
  by_cases haligned : p = 128 * a
  · exact ⟨buf, if_neg (not_not.mpr (by rw [← haligned])), rfl, fun h => absurd haligned h⟩
  · obtain ⟨buf', hread, hlength, hsame, _⟩ :=
      f.readInto_spec m hlen d (le_refl a) hlt (show 128 * (a - a) + 128 ≤ buf.length by omega)
    rw [Nat.sub_self] at hread
    exact ⟨buf', (if_pos (by omega)).trans hread, hlength, fun _ => hsame⟩

theorem readLast_eq {k : ℕ} (hab : a ≤ b) (hb : b < 2 ^ 16) (hpk : p + k < 2 ^ 31) (d : Disk)
    (buf : List Byte) :
    f.readLast d ⟨k, a, b⟩ p buf =
      if p + k ≠ 128 * (b + 1) ∧ (a ≠ b ∨ p = 128 * a) then
        f.readInto d buf (128 * (b - a) : ℕ) (128 * b : ℕ)
      else .ok buf := by
  simp only [readLast, i32_mul_sectorSize (show (a : ℤ) = a from rfl) (by omega),
    i32_mul_sectorSize (show (b : ℤ) = b from rfl) (by omega),
    i32_mul_sectorSize (show (b : ℤ) - a = (b - a : ℕ) by omega) (by omega),
    i32_mul_sectorSize (show (b : ℤ) + 1 = (b + 1 : ℕ) by omega) (by omega),
    i32_of_range (show -2 ^ 31 ≤ (p : ℤ) + k by omega) (by omega)]
  congr 1
  rw [← Int.natCast_add]
  simp only [ne_eq, Int.natCast_inj]

/-- After both reads the buffer holds what the file holds around the request. -/
theorem readEdges_spec (m : f.hdr.Maps blocks) (hlen : f.hdr.fileLength.toNat = len) (d : Disk)
    {k : ℕ} (hk : 0 < k) (hend : p + k ≤ 128 * blocks.length) (ha : a = p / 128)
    (hb : b = (p + k - 1) / 128) (hbuf : buf.length = 128 * (b + 1 - a)) :
    ∃ buf₁ buf₂, f.readFirst d ⟨k, a, b⟩ p buf = .ok buf₁ ∧
      f.readLast d ⟨k, a, b⟩ p buf₁ = .ok buf₂ ∧ buf₂.length = buf.length ∧
      ∀ j, 128 * a ≤ j → j < 128 * a + buf.length → j < len → j < p ∨ p + k ≤ j →
        buf₂[j - 128 * a]? = (gather d blocks)[j]? := by
  have hle : blocks.length ≤ 15 := m.le
  obtain ⟨buf₁, hread₁, hlen₁, hsame₁⟩ :=
    f.readFirst_spec m hlen d k b ha (by omega) (show 128 ≤ buf.length by omega)
  by_cases hsecond : p + k ≠ 128 * (b + 1) ∧ (a ≠ b ∨ p = 128 * a)
  · obtain ⟨buf₂, hread₂, hlen₂, hsame₂, hkeep₂⟩ := f.readInto_spec m hlen d
      (show a ≤ b by omega) (by omega) (show 128 * (b - a) + 128 ≤ buf₁.length by omega)
    refine ⟨buf₁, buf₂, hread₁, ?_, hlen₂.trans hlen₁, ?_⟩
    · rw [readLast_eq (by omega) (by omega) (by omega), if_pos hsecond, hread₂]
    intro j hlo hhi hj hout
    by_cases hblock : 128 * b ≤ j
    · exact hsame₂ j hblock (by omega) hj
    · rw [hkeep₂ j hlo (by omega)]
      exact hsame₁ (by omega) j hlo (by omega) hj
  · refine ⟨buf₁, buf₁, hread₁, ?_, hlen₁, ?_⟩
    · rw [readLast_eq (by omega) (by omega) (by omega), if_neg hsecond]
    intro j hlo hhi hj hout
    -- either nothing stands behind the request, or one sector holds all of it
    exact hsame₁ (by omega) j hlo (by omega) hj

/-- `WriteAt` writes the sectors of the request from a buffer that holds what the file
holds around the request. -/
theorem writeAt_eq (m : f.hdr.Maps blocks) (hlen : f.hdr.fileLength.toNat = len) (d : Disk)
    (junk : ℕ → Byte) {src : List Byte} {n k : ℕ} (hk : 0 < k) (hend : p + k ≤ 128 * blocks.length)
    (ha : a = p / 128) (hb : b = (p + k - 1) / 128)
    (hext : extent f.hdr.fileLength n p = some ⟨k, a, b⟩) (hsrc : k ≤ src.length) :
    ∃ buf : List Byte, buf.length = 128 * (b + 1 - a) ∧
      (∀ j, 128 * a ≤ j → j < 128 * a + buf.length → j < len → j < p ∨ p + k ≤ j →
        buf[j - 128 * a]? = (gather d blocks)[j]?) ∧
      f.writeAt d junk src n p = .ok (k, scatter d ((blocks.drop a).take (b + 1 - a))
        (overwrite buf (p % 128) (src.take k))) := by
  have hle : blocks.length ≤ 15 := m.le
  have hcount : b + 1 - a < 2 ^ 20 := by omega
  have hslice : a + (b + 1 - a) ≤ blocks.length := by omega
  have hfit : p % 128 + k ≤ 128 * (b + 1 - a) := by omega
  obtain ⟨buf₁, buf₂, hread₁, hread₂, hlength, hsame⟩ := f.readEdges_spec m hlen d hk hend ha hb
    (show ((List.range (128 * (b + 1 - a))).map junk).length = 128 * (b + 1 - a) by simp)
  simp only [List.length_map, List.length_range] at hlength hsame
  refine ⟨buf₂, hlength, fun j hlo hhi => hsame j hlo (by omega), ?_⟩
  have hcopy : bcopyFrom src 0 k = .ok (src.take k) := by
    rw [← Nat.cast_zero, bcopyFrom_natCast (by omega), List.drop_zero]
  have hput : (p % 128) + (src.take k).length ≤ buf₂.length := by
    rw [List.length_take]
    omega
  have hnew : newChars (i32 (((b + 1 - a : ℕ) : ℤ) * SectorSize)) junk =
      .ok ((List.range (128 * (b + 1 - a))).map junk) := by
    rw [i32_mul_sectorSize rfl hcount, newChars_natCast]
  have hnum := numSectors_extent (p := p) (m := k) hk (by omega)
  have hstart := start_extent (p := p) (m := k) (by omega)
  rw [← ha, ← hb] at hnum hstart
  rw [writeAt, hext]
  dsimp only
  rw [hnum, hstart, hnew, ok_bind, hread₁, ok_bind, hread₂, ok_bind, hcopy, ok_bind,
    bcopyTo_natCast hput, ok_bind, Int.toNat_natCast, m.writeSectors d _ hslice, ok_bind,
    pure_eq_ok]

/-- `WriteAt` replaces the bytes of the file from `p` on, as many as there are, and changes
no sector but those of the file. -/
theorem writeAt_spec (m : f.hdr.Maps blocks) (hlen : f.hdr.fileLength.toNat = len) (d : Disk)
    (junk : ℕ → Byte) {src : List Byte} {numBytes : ℤ} (hover : p + numBytes < 2 ^ 31)
    (hcover : p + numBytes ≤ 128 * blocks.length ∨ len ≤ 128 * blocks.length)
    (hsrc : numBytes ≤ src.length) :
    ∃ d', f.writeAt d junk src numBytes p = .ok ((min numBytes.toNat (len - p) : ℕ), d') ∧
      contents d' blocks len = overwrite (contents d blocks len) p (src.take numBytes.toNat) ∧
      ∀ s, s ∉ blocks → d' s = d s := by
  have hlt : f.hdr.fileLength < 2 ^ 31 := BitVec.toInt_lt
  by_cases hnone : numBytes ≤ 0 ∨ len ≤ p
  · have hzero : min numBytes.toNat (len - p) = 0 := by omega
    refine ⟨d, ?_, ?_, fun _ _ => rfl⟩
    · rw [writeAt, extent_eq_none (by omega), hzero]
      rfl
    · rcases hnone with hn | hp
      · rw [Int.toNat_of_nonpos hn, List.take_zero, overwrite_nil]
      · have hlength := length_contents d blocks len
        exact (overwrite_of_length_le _ (by omega)).symm
  · obtain ⟨n, rfl⟩ := Int.eq_ofNat_of_zero_le (show 0 ≤ numBytes by omega)
    obtain ⟨k, hk⟩ : ∃ k, k = min n (len - p) := ⟨_, rfl⟩
    have hext := extent_eq_some (show 0 < n by omega) (show p < len by omega) (by omega)
      (by omega) hk
    rw [show (len : ℤ) = f.hdr.fileLength by omega] at hext
    obtain ⟨buf, hbuf, hsame, hwrite⟩ := f.writeAt_eq m hlen d junk (show 0 < k by omega)
      (show p + k ≤ 128 * blocks.length by omega) rfl rfl hext (show k ≤ src.length by omega)
    have hslice : p / 128 + ((p + k - 1) / 128 + 1 - p / 128) ≤ blocks.length := by omega
    rw [Int.toNat_natCast, ← hk]
    refine ⟨_, hwrite, ?_, fun s hs => scatter_of_notMem d _ fun hmem =>
      hs (List.mem_of_mem_drop (List.mem_of_mem_take hmem))⟩
    have hcopied : (src.take k).length = k := by
      rw [List.length_take]
      omega
    have hwanted : (src.take n).length = n := by
      rw [List.length_take]
      omega
    rw [contents, contents, gather_scatter_slice d m.nodup hslice (by rw [length_overwrite, hbuf])]
    change (overwrite _ (128 * (p / 128)) _).take len = _
    apply take_overwrite_of_agree
    · intro j hlo hhi hj _
      rw [hwanted] at hhi
      rw [length_overwrite]
      refine ⟨by omega, by omega, ?_⟩
      rw [getElem?_overwrite_of_mem (by omega) (by rw [hcopied]; omega) (by omega),
        List.getElem?_take, List.getElem?_take, if_pos (by omega), if_pos (by omega)]
      congr 1
      omega
    · intro j hlo hhi hj hout
      rw [hwanted] at hout
      rw [length_overwrite] at hhi
      rw [← hsame j hlo hhi hj (by omega)]
      rcases hout with hlt | hge
      · exact getElem?_overwrite_of_lt _ (by omega)
      · exact getElem?_overwrite_of_ge (by rw [hcopied]; omega)

end

end OpenFile

end Nachos
