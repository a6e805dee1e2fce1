import Nachos.Verification.OpenFile.Requests

/-! # Requests are clamped to the file

Which requests `ReadAt` and `WriteAt` cut down to the bytes that the file has, given that its
blocks can be read and written. -/

namespace Nachos

open Library Logged

/-- The number of blocks of a file. -/
def blockCount (fileLength : ℤ) : ℤ := (fileLength + 127) / 128

/-- The accesses that a call may make that transfers `r` bytes. -/
def Access.Allowed (fileLength r : ℤ) : Access → Prop
  | block i => 0 ≤ i ∧ i < blockCount fileLength
  | buffer size start length => 0 ≤ start ∧ 0 ≤ length ∧ start + length ≤ size
  | caller start length => 0 ≤ start ∧ 0 ≤ length ∧ start + length ≤ r

/-- The call returns how many bytes it has transferred, no more than the file has from
`position` on, and makes allowed accesses only. -/
def Clamped {α : Type} (fileLength numBytes position : ℤ)
    (call : Logged Fault Access (ℤ × α)) : Prop :=
  ∃ r a, call.result = .ok (r, a) ∧ 0 ≤ r ∧ r ≤ max 0 (min numBytes (fileLength - position)) ∧
    ∀ e ∈ call.events, e.Allowed fileLength r

/-- There is nothing to transfer, or the request starts in the file, its end does not
overflow and the size of the buffer for its sectors does not either. -/
def Handled (fileLength numBytes position : ℤ) : Prop :=
  numBytes ≤ 0 ∨ fileLength ≤ position ∨
    0 ≤ position ∧ position + numBytes < 2 ^ 31 ∧
      ¬ (position < 128 ∧ 2 ^ 31 - 128 < position + numBytes ∧ 2 ^ 31 - 128 < fileLength)

variable {α : Type} {fileLength numBytes position : ℤ} {buf : List Byte}

theorem clamped_iff {call : Logged Fault Access (ℤ × α)} :
    Clamped fileLength numBytes position call ↔
      ∃ r, 0 ≤ r ∧ r ≤ max 0 (min numBytes (fileLength - position)) ∧
        Returns (Access.Allowed fileLength r) (fun x => x.1 = r) call := by
  constructor
  · rintro ⟨r, a, hret, hlo, hhi, hall⟩
    exact ⟨r, hlo, hhi, ⟨_, hret, rfl⟩, hall⟩
  · rintro ⟨r, hlo, hhi, ⟨⟨_, a⟩, hret, rfl⟩, hall⟩
    exact ⟨_, a, hret, hlo, hhi, hall⟩

/-! ## Requests that are not handled -/

theorem divRoundDown_of_nonneg {x : ℤ} (h : 0 ≤ x) : divRoundDown x SectorSize = x / 128 :=
  Int.tdiv_eq_ediv_of_nonneg h

theorem divRoundDown_of_neg {x : ℤ} (h : x < 0) :
    divRoundDown x SectorSize = -(-x / 128) := by
  rw [divRoundDown, ← neg_neg x, Int.neg_tdiv, Int.tdiv_eq_ediv_of_nonneg (by omega), neg_neg]
  rfl

/-- What both calls need of an extent: room for the sectors, a start in the first of them and
a first sector that is one of the file. -/
structure Extent.Fits (e : Extent) (fileLength numBytes position : ℤ) : Prop where
  size : 0 ≤ e.bufferSize
  start : 0 ≤ e.start position
  first : 0 < e.numSectors → 0 ≤ e.firstSector
  transfer : e.numBytes ≤ max 0 (min numBytes (fileLength - position))

section

variable {e : Extent} (hL : 0 ≤ fileLength) (hL' : fileLength < 2 ^ 31)
  (hn' : numBytes < 2 ^ 31) (hp : -2 ^ 31 ≤ position)
  (he : extent fileLength numBytes position = some e)

include he in
theorem extent_inv : 0 < numBytes ∧ position < fileLength ∧
    e.numBytes = (if i32 (position + numBytes) > fileLength then i32 (fileLength - position)
      else numBytes) ∧
    e.firstSector = divRoundDown position SectorSize ∧
    e.lastSector = divRoundDown (i32 (position + e.numBytes - 1)) SectorSize := by
  rw [extent] at he
  split at he
  · cases he
  · rename_i hok
    cases he
    refine ⟨by omega, by omega, rfl, rfl, rfl⟩

include hL hL' hn' hp he in
/-- The first sector of a request from before the file is sector 0, and then the request
starts in front of it, or one before the file. -/
theorem Extent.Fits.nonneg (h : e.Fits fileLength numBytes position) : 0 ≤ position := by
  have hS : (SectorSize : ℤ) = 128 := rfl
  obtain ⟨hn, hlt, hbytes, hfirst, hlast⟩ := extent_inv he
  by_contra hneg
  have hneg := not_le.mp hneg
  have hm : e.numBytes = min numBytes (fileLength - position) := by
    rw [hbytes, i32_of_range (by omega) (by omega)]
    split
    · rw [i32_of_range (by omega) (by omega)]
      omega
    · omega
  rw [i32_of_range (by omega) (by omega)] at hlast
  rw [divRoundDown_of_neg hneg] at hfirst
  have hle : e.firstSector ≤ e.lastSector ∧ e.lastSector < 2 ^ 24 := by
    by_cases hend : 0 ≤ position + e.numBytes - 1
    · rw [divRoundDown_of_nonneg hend] at hlast
      omega
    · rw [divRoundDown_of_neg (by omega)] at hlast
      omega
  have hcount : e.numSectors = 1 + e.lastSector - e.firstSector := by
    rw [Extent.numSectors, i32_of_range (by omega) (by omega)]
  have hzero := h.first (by omega)
  have hstart := h.start
  have hmul : i32 (e.firstSector * 128) = e.firstSector * 128 :=
    i32_of_range (by omega) (by omega)
  rw [Extent.start, hS, hmul, i32_of_range (by omega) (by omega)] at hstart
  omega

include hL' hn' he in
/-- A request whose end overflows is not cut. -/
theorem Extent.Fits.lt (h : e.Fits fileLength numBytes position) (hpos : 0 ≤ position) :
    position + numBytes < 2 ^ 31 := by
  obtain ⟨hn, hlt, hbytes, -, -⟩ := extent_inv he
  by_contra hge
  have hwrap := i32_of_ge (not_lt.mp hge) (by omega)
  rw [hwrap, if_neg (by omega)] at hbytes
  have := h.transfer
  omega

include hL hL' hn' hp he in
theorem Extent.Fits.handled (h : e.Fits fileLength numBytes position) :
    Handled fileLength numBytes position := by
  have hS : (SectorSize : ℤ) = 128 := rfl
  have hpos := h.nonneg hL hL' hn' hp he
  have hsum := h.lt hL' hn' he hpos
  refine .inr (.inr ⟨hpos, hsum, ?_⟩)
  rintro ⟨hsmall, hend, hlong⟩
  obtain ⟨hn, hlt, hbytes, hfirst, hlast⟩ := extent_inv he
  rw [i32_of_range (by omega) (by omega), i32_of_range (by omega) (by omega)] at hbytes
  have hm : 2 ^ 31 - 128 < position + e.numBytes ∧ position + e.numBytes < 2 ^ 31 := by
    rw [hbytes]
    split <;> omega
  rw [i32_of_range (by omega) (by omega), divRoundDown_of_nonneg (by omega)] at hlast
  rw [divRoundDown_of_nonneg hpos] at hfirst
  -- the sectors are all of the first 2^24, and the size of their buffer wraps around
  have hcount : e.numSectors = 2 ^ 24 := by
    rw [Extent.numSectors, i32_of_range (by omega) (by omega)]
    omega
  have hsize := h.size
  rw [Extent.bufferSize, hcount, hS, i32_of_ge (by omega) (by omega)] at hsize
  omega

end

namespace BlockFile

variable {σ : Type} {io : BlockFile σ} {s : σ} {e : Extent} {P : Access → Prop} {i : ℤ} {n : ℕ}

theorem block_of_readSectors {Q : List Byte → Prop} (hn : 0 < n)
    (h : Returns P Q (io.readSectors s e i n)) : P (.block i) := by
  obtain ⟨n, rfl⟩ := Nat.exists_eq_add_of_lt hn
  rw [zero_add, readSectors] at h
  exact (returns_log.mp (returns_bind.mp h)).1

theorem block_of_writeSectors {Q : σ → Prop} (hn : 0 < n)
    (h : Returns P Q (io.writeSectors e s i buf n)) : P (.block i) := by
  obtain ⟨n, rfl⟩ := Nat.exists_eq_add_of_lt hn
  rw [zero_add, writeSectors] at h
  exact (returns_log.mp (returns_bind.mp (returns_log.mp (returns_bind.mp h)).2)).1

theorem fits_of_readAt {r : ℤ} (hr : r ≤ max 0 (min numBytes (fileLength - position)))
    (he : extent fileLength numBytes position = some e)
    (h : Returns (Access.Allowed fileLength r) (fun x => x.1 = r)
      (io.readAt s fileLength numBytes position)) : e.Fits fileLength numBytes position := by
  rw [readAt, he] at h
  dsimp only at h
  split at h
  · simp at h
  rename_i hsize
  rw [returns_bind] at h
  obtain ⟨buf, _, hrest⟩ := h.1
  simp only [returns_bind, returns_log, returns_lift, returns_pure] at hrest
  obtain ⟨hbuf, -, data, -, rfl⟩ := hrest
  refine ⟨not_lt.mp hsize, hbuf.1, fun hpos => ?_, hr⟩
  exact (block_of_readSectors (by omega) h).1

theorem fits_of_writeAt {r : ℤ} {junk : ℕ → Byte} {src : List Byte}
    (hr : r ≤ max 0 (min numBytes (fileLength - position)))
    (he : extent fileLength numBytes position = some e)
    (h : Returns (Access.Allowed fileLength r) (fun x => x.1 = r)
      (io.writeAt s fileLength junk src numBytes position)) :
    e.Fits fileLength numBytes position := by
  rw [writeAt, he] at h
  dsimp only at h
  simp only [returns_bind, returns_lift] at h
  obtain ⟨buf, hnew, h⟩ := h
  have hsize : 0 ≤ e.bufferSize := by
    rw [newChars] at hnew
    split at hnew
    · cases hnew
    · omega
  obtain ⟨buf₁, -, h⟩ := h.1
  obtain ⟨buf₂, -, h⟩ := h.1
  simp only [returns_log] at h
  obtain ⟨-, data, -, hbuf, buf₃, -, h⟩ := h
  refine ⟨hsize, hbuf.1, fun hpos => (block_of_writeSectors (by omega) h).1, ?_⟩
  obtain ⟨_, -, hlast⟩ := h.1
  rw [returns_pure] at hlast
  exact hlast.trans_le hr

/-! ## Requests that are handled -/

/-- The first `count` blocks can be read and written in the states where `I` holds. -/
structure Serves (io : BlockFile σ) (I : σ → Prop) (count : ℤ) : Prop where
  read : ∀ s i, I s → 0 ≤ i → i < count → ∃ data, io.read s i = .ok data
  write : ∀ s i data, I s → 0 ≤ i → i < count → ∃ s', io.write s i data = .ok s' ∧ I s'

variable {I : σ → Prop} {r : ℤ}

theorem Serves.readSectors (hio : io.Serves I (blockCount fileLength)) (hs : I s)
    (hsize : e.bufferSize < 2 ^ 31) (hfirst : 0 ≤ e.firstSector) (hi : e.firstSector ≤ i)
    (hroom : (i - e.firstSector + n) * 128 ≤ e.bufferSize)
    (hcount : i + n ≤ blockCount fileLength) :
    Returns (Access.Allowed fileLength r) (fun buf => buf.length = 128 * n)
      (io.readSectors s e i n) := by
  have hS : (SectorSize : ℤ) = 128 := rfl
  induction n generalizing i with
  | zero => simp [BlockFile.readSectors]
  | succ n ih =>
      obtain ⟨data, hread⟩ := hio.read s i hs (by omega) (by omega)
      have hrest := ih (i := i + 1) (by omega) (by push_cast at hroom; omega)
        (by push_cast at hcount; omega)
      have hoffset : i32 ((i - e.firstSector) * 128) = (i - e.firstSector) * 128 :=
        i32_of_range (by omega) (by omega)
      simp only [BlockFile.readSectors, returns_bind, returns_log, returns_lift, hread,
        Except.ok.injEq, exists_eq_left', returns_pure, hoffset, hS]
      refine ⟨⟨by omega, by omega⟩, ⟨by omega, by omega, by omega⟩,
        hrest.mono (fun _ => id) fun buf hbuf => ?_⟩
      rw [List.length_append, List.length_ofFn, hbuf]
      simp only [SectorSize]
      omega

theorem Serves.writeSectors (hio : io.Serves I (blockCount fileLength)) (hs : I s)
    (hsize : e.bufferSize < 2 ^ 31) (hfirst : 0 ≤ e.firstSector) (hi : e.firstSector ≤ i)
    (hroom : (i - e.firstSector + n) * 128 ≤ e.bufferSize) (hcount : i + n ≤ blockCount fileLength) :
    Returns (Access.Allowed fileLength r) I (io.writeSectors e s i buf n) := by
  have hS : (SectorSize : ℤ) = 128 := rfl
  induction n generalizing i s buf with
  | zero => simpa [BlockFile.writeSectors] using hs
  | succ n ih =>
      obtain ⟨s', hwrite, hs'⟩ := hio.write s i (Sector.ofList buf) hs (by omega) (by omega)
      have hrest : Returns (Access.Allowed fileLength r) I
          (io.writeSectors e s' (i + 1) (buf.drop SectorSize) n) :=
        ih hs' (by omega) (by push_cast at hroom; omega) (by push_cast at hcount; omega)
      have hoffset : i32 ((i - e.firstSector) * 128) = (i - e.firstSector) * 128 :=
        i32_of_range (by omega) (by omega)
      simp only [BlockFile.writeSectors, returns_bind, returns_log, returns_lift, hwrite,
        Except.ok.injEq, exists_eq_left', hoffset, hS]
      exact ⟨⟨by omega, by omega, by omega⟩, ⟨by omega, by omega⟩, hrest⟩

end BlockFile

/-- The extent of a request for blocks of the file, with a buffer that has room for them. -/
structure Extent.Sound (e : Extent) (fileLength position : ℤ) : Prop where
  size : e.bufferSize = e.numSectors * 128
  small : e.bufferSize < 2 ^ 31
  count : 0 < e.numSectors
  last : e.lastSector = e.firstSector + e.numSectors - 1
  first : 0 ≤ e.firstSector
  end_le : e.firstSector + e.numSectors ≤ blockCount fileLength
  bytes : 0 ≤ e.numBytes
  start : 0 ≤ e.start position
  room : e.start position + e.numBytes ≤ e.bufferSize

theorem exists_sound (hL' : fileLength < 2 ^ 31) (hn : 0 < numBytes) (hlt : position < fileLength)
    (h : Handled fileLength numBytes position) :
    ∃ e, extent fileLength numBytes position = some e ∧ e.Sound fileLength position ∧
      e.numBytes = min numBytes (fileLength - position) := by
  obtain hle | hle | ⟨hpos, hsum, hroom⟩ := h
  · omega
  · omega
  have hS : (SectorSize : ℤ) = 128 := rfl
  obtain ⟨p, rfl⟩ := Int.eq_ofNat_of_zero_le hpos
  obtain ⟨n, rfl⟩ := Int.eq_ofNat_of_zero_le hn.le
  obtain ⟨len, rfl⟩ := Int.eq_ofNat_of_zero_le (hpos.trans hlt.le)
  obtain ⟨m, hm⟩ : ∃ m, m = min n (len - p) := ⟨_, rfl⟩
  have hcount := numSectors_extent (p := p) (m := m) (by omega) (by omega)
  have hsize : i32 (((p + m - 1) / 128 + 1 - p / 128 : ℕ) * 128) =
      ((p + m - 1) / 128 + 1 - p / 128 : ℕ) * 128 := i32_of_range (by omega) (by omega)
  have hstart := start_extent (p := p) (m := m) (by omega)
  refine ⟨_, extent_eq_some (by omega) (by omega) (by omega) (by omega) hm, ?_, by
    simp only [hm]; omega⟩
  constructor <;>
    simp only [Extent.bufferSize, hcount, hstart, hS, hsize, blockCount] <;> omega

/-- A request for one block of the file. -/
theorem exists_sound_block (hL' : fileLength < 2 ^ 31) {b : ℤ} (hb : 0 ≤ b)
    (hlt : b * 128 < fileLength) :
    ∃ e, extent fileLength SectorSize (b * 128) = some e ∧ e.Sound fileLength (b * 128) ∧
      e.numBytes ≤ 128 := by
  have hS : (SectorSize : ℤ) = 128 := rfl
  obtain ⟨m, hm, hpos, hle, hend⟩ : ∃ m, (if i32 (b * 128 + 128) > fileLength then
      i32 (fileLength - b * 128) else 128) = m ∧ 0 < m ∧ m ≤ 128 ∧ b * 128 + m - 1 < 2 ^ 31 := by
    refine ⟨_, rfl, ?_⟩
    rw [i32_of_range (x := fileLength - b * 128) (by omega) (by omega)]
    by_cases hover : b * 128 + 128 < 2 ^ 31
    · rw [i32_of_range (by omega) hover]
      split <;> omega
    · rw [i32_of_ge (by omega) (by omega), if_neg (by omega)]
      omega
  have hfirst : divRoundDown (b * 128) SectorSize = b := by
    rw [divRoundDown_of_nonneg (by omega)]
    omega
  have hlast : divRoundDown (i32 (b * 128 + m - 1)) SectorSize = b := by
    rw [i32_of_range (by omega) (by omega), divRoundDown_of_nonneg (by omega)]
    omega
  have hmul : i32 (b * 128) = b * 128 := i32_of_range (by omega) (by omega)
  refine ⟨⟨m, b, b⟩, ?_, ?_, hle⟩
  · rw [extent, if_neg (by omega)]
    simp only [hS] at hm hfirst hlast ⊢
    simp only [hm, hfirst, hlast]
  · have hcount : (Extent.mk m b b).numSectors = 1 := by
      simp only [Extent.numSectors]
      rw [i32_of_range (by omega) (by omega)]
      omega
    have hstart : (Extent.mk m b b).start (b * 128) = 0 := by
      simp only [Extent.start, hS, hmul, sub_self]
      rfl
    have hsize : (Extent.mk m b b).bufferSize = 128 := by
      rw [Extent.bufferSize, hcount]
      rfl
    constructor <;> simp only [hcount, hstart, hsize, blockCount] <;> omega

namespace BlockFile

variable {σ : Type} {io : BlockFile σ} {s : σ} {e : Extent} {I : σ → Prop} {r : ℤ}

theorem Serves.readAt (hio : io.Serves I (blockCount fileLength)) (hs : I s)
    (he : extent fileLength numBytes position = some e) (hsound : e.Sound fileLength position) :
    Returns (Access.Allowed fileLength e.numBytes)
      (fun x => x.1 = e.numBytes ∧ (x.2.length : ℤ) = e.numBytes)
      (io.readAt s fileLength numBytes position) := by
  obtain ⟨hsize, hsmall, hcount, -, hfirst, hend, hbytes, hstart, hroom⟩ := hsound
  have hread := hio.readSectors (e := e) (r := e.numBytes) hs hsmall (i := e.firstSector)
    (n := e.numSectors.toNat) hfirst le_rfl (by omega) (by omega)
  rw [BlockFile.readAt, he]
  dsimp only
  rw [if_neg (by omega)]
  simp only [returns_bind, returns_log, returns_lift, returns_pure]
  refine hread.mono (fun _ => id) fun buf hbuf => ?_
  refine ⟨⟨hstart, hbytes, hroom⟩, ⟨le_rfl, hbytes, by omega⟩, _, if_pos ⟨hstart, hbytes, ?_⟩,
    trivial, ?_⟩
  · rw [List.length_take, List.length_drop]
    omega
  · omega

/-- Block `b` is read into a buffer of `e` that has room for it. -/
theorem Serves.readInto (hio : io.Serves I (blockCount fileLength)) (hs : I s)
    (hL' : fileLength < 2 ^ 31) {b start : ℤ} (hb : 0 ≤ b) (hlt : b * 128 < fileLength)
    (hbuf : (buf.length : ℤ) = e.bufferSize) (hstart : 0 ≤ start)
    (hroom : start + 128 ≤ e.bufferSize) :
    Returns (Access.Allowed fileLength r) (fun buf' => buf'.length = buf.length)
      (io.readInto s fileLength e buf start (b * 128)) := by
  obtain ⟨inner, hinner, hsound, hle⟩ := exists_sound_block hL' hb hlt
  have hread := hio.readAt hs hinner hsound
  have hbytes := hsound.bytes
  simp only [BlockFile.readInto, returns_bind, returns_relabel, returns_lift]
  refine hread.mono ?_ ?_
  · rintro (i | ⟨size', start', length⟩ | ⟨start', length⟩) h
    · exact h
    · exact h
    · obtain ⟨hlo, hlen, hhi⟩ := h
      exact ⟨by omega, hlen, by omega⟩
  · rintro ⟨_, data⟩ ⟨-, hdata⟩
    dsimp only at hdata ⊢
    exact ⟨_, if_pos ⟨hstart, by omega⟩, length_overwrite _ _ _⟩

theorem Serves.writeAt (hio : io.Serves I (blockCount fileLength)) (hs : I s)
    (hL' : fileLength < 2 ^ 31) (he : extent fileLength numBytes position = some e)
    (hsound : e.Sound fileLength position) (junk : ℕ → Byte) {src : List Byte}
    (hsrc : e.numBytes ≤ src.length) :
    Returns (Access.Allowed fileLength e.numBytes) (fun x => x.1 = e.numBytes)
      (io.writeAt s fileLength junk src numBytes position) := by
  have hS : (SectorSize : ℤ) = 128 := rfl
  obtain ⟨hsize, hsmall, hcount, hlast, hfirst, hend, hbytes, hstart, hroom⟩ := hsound
  have hblock : ∀ b, b < blockCount fileLength → b * 128 < fileLength := by
    intro b hb
    rw [blockCount] at hb
    omega
  have hmul : ∀ b, 0 ≤ b → b < blockCount fileLength → i32 (b * 128) = b * 128 := by
    intro b hlo hhi
    have := hblock b hhi
    exact i32_of_range (by omega) (by omega)
  have hreadFirst : ∀ buf : List Byte, (buf.length : ℤ) = e.bufferSize →
      Returns (Access.Allowed fileLength e.numBytes) (fun buf' => buf'.length = buf.length)
        (io.readFirst s fileLength e position buf) := by
    intro buf hbuf
    rw [BlockFile.readFirst]
    split
    · rw [hS, hmul _ hfirst (by omega)]
      exact hio.readInto hs hL' hfirst (hblock _ (by omega)) hbuf le_rfl (by omega)
    · exact returns_pure.mpr rfl
  have hreadLast : ∀ buf : List Byte, (buf.length : ℤ) = e.bufferSize →
      Returns (Access.Allowed fileLength e.numBytes) (fun buf' => buf'.length = buf.length)
        (io.readLast s fileLength e position buf) := by
    intro buf hbuf
    rw [BlockFile.readLast]
    split
    · rw [hS, hmul e.lastSector (by omega) (by omega),
        i32_of_range (x := (e.lastSector - e.firstSector) * 128) (by omega) (by omega)]
      exact hio.readInto hs hL' (by omega) (hblock _ (by omega)) hbuf (by omega) (by omega)
    · exact returns_pure.mpr rfl
  rw [BlockFile.writeAt, he]
  dsimp only
  simp only [returns_bind, returns_lift, returns_log, returns_pure]
  refine ⟨_, if_neg (by omega), ?_⟩
  have hnew : ((((List.range e.bufferSize.toNat).map junk).length : ℕ) : ℤ) = e.bufferSize := by
    rw [List.length_map, List.length_range]
    omega
  refine (hreadFirst _ hnew).mono (fun _ => id) fun buf hbuf => ?_
  refine (hreadLast buf (by omega)).mono (fun _ => id) fun buf' hbuf' => ?_
  refine ⟨⟨le_rfl, hbytes, by omega⟩, _, if_pos ⟨le_rfl, hbytes, by omega⟩,
    ⟨hstart, hbytes, hroom⟩, _, if_pos ⟨hstart, ?_⟩, ?_⟩
  · exact (hio.writeSectors (r := e.numBytes) hs hsmall hfirst le_rfl (by omega) (by omega)).mono
      (fun _ => id) fun _ _ => trivial
  · rw [List.length_take, List.length_drop]
    omega

end BlockFile

/-! ## Both calls -/

/-- A request is clamped exactly if it is one of those above, by either call, for every file
length and every way to read and write the blocks of the file. -/
theorem requests_clamped_iff {σ : Type} (io : BlockFile σ) (I : σ → Prop) (s : σ) (hs : I s)
    (fileLength numBytes position : ℤ) (hio : io.Serves I (blockCount fileLength))
    (hL : 0 ≤ fileLength ∧ fileLength < 2 ^ 31) (hn : -2 ^ 31 ≤ numBytes ∧ numBytes < 2 ^ 31)
    (hp : -2 ^ 31 ≤ position ∧ position < 2 ^ 31) (junk : ℕ → Byte) (src : List Byte)
    (hsrc : numBytes ≤ src.length) :
    (Clamped fileLength numBytes position (io.readAt s fileLength numBytes position) ↔
      Handled fileLength numBytes position) ∧
    (Clamped fileLength numBytes position (io.writeAt s fileLength junk src numBytes position) ↔
      Handled fileLength numBytes position) := by
  by_cases hnone : numBytes ≤ 0 ∨ position ≥ fileLength
  · have he : extent fileLength numBytes position = none := if_pos hnone
    have hhandled : Handled fileLength numBytes position := hnone.imp_right .inl
    refine ⟨iff_of_true ?_ hhandled, iff_of_true ?_ hhandled⟩
    · rw [BlockFile.readAt, he]
      exact ⟨0, [], rfl, le_rfl, le_max_left _ _, by rintro e ⟨⟩⟩
    · rw [BlockFile.writeAt, he]
      exact ⟨0, s, rfl, le_rfl, le_max_left _ _, by rintro e ⟨⟩⟩
  obtain ⟨hpos, hlt⟩ := not_or.mp hnone
  have hpos := not_le.mp hpos
  have hlt := not_le.mp hlt
  obtain ⟨e, he⟩ : ∃ e, extent fileLength numBytes position = some e := ⟨_, if_neg hnone⟩
  have hgood : Handled fileLength numBytes position →
      e.Sound fileLength position ∧ e.numBytes = min numBytes (fileLength - position) := by
    intro h
    obtain ⟨e', he', hsound, hbytes⟩ := exists_sound hL.2 hpos hlt h
    cases he.symm.trans he'
    exact ⟨hsound, hbytes⟩
  refine ⟨⟨fun h => ?_, fun h => ?_⟩, ⟨fun h => ?_, fun h => ?_⟩⟩
  · obtain ⟨r, -, hr, h⟩ := clamped_iff.mp h
    exact (BlockFile.fits_of_readAt hr he h).handled hL.1 hL.2 hn.2 hp.1 he
  · obtain ⟨hsound, hbytes⟩ := hgood h
    exact clamped_iff.mpr ⟨e.numBytes, hsound.bytes, by omega,
      (hio.readAt hs he hsound).mono (fun _ => id) fun _ => And.left⟩
  · obtain ⟨r, -, hr, h⟩ := clamped_iff.mp h
    exact (BlockFile.fits_of_writeAt hr he h).handled hL.1 hL.2 hn.2 hp.1 he
  · obtain ⟨hsound, hbytes⟩ := hgood h
    exact clamped_iff.mpr ⟨e.numBytes, hsound.bytes, by omega,
      hio.writeAt hs hL.2 he hsound junk (by omega)⟩

/-- The blocks of a file whose header maps them all. -/
theorem FileHeader.Maps.serves {h : FileHeader} {blocks : List (Fin NumSectors)}
    (m : h.Maps blocks) : h.blockFile.Serves (fun _ => True) blocks.length where
  read d i _ hlo hhi := by
    obtain ⟨b, rfl⟩ := Int.eq_ofNat_of_zero_le hlo
    have hb : b < blocks.length := by omega
    exact ⟨d blocks[b], by
      simp only [FileHeader.blockFile, m.byteToSector d hb, ok_bind, Disk.readSector_natCast]⟩
  write d i data _ hlo hhi := by
    obtain ⟨b, rfl⟩ := Int.eq_ofNat_of_zero_le hlo
    have hb : b < blocks.length := by omega
    exact ⟨Function.update d blocks[b] data, by
      simp only [FileHeader.blockFile, m.byteToSector d hb, ok_bind, Disk.writeSector_natCast],
      trivial⟩

/-! A file of ten bytes in sector 5. -/

def tenBytes : FileHeader := ⟨10, 1, fun _ => 0, fun _ => 0, fun _ => 0, fun _ => 5⟩

theorem tenBytes_maps : tenBytes.Maps [5] := ⟨by decide, by decide, by decide⟩

/-- Twenty bytes from position 4 on are six. -/
theorem requests_clamped_iff_tenBytes :
    Handled 10 20 4 ∧ Clamped 10 20 4 (tenBytes.blockFile.readAt FileHeader.blankDisk 10 20 4) ∧
    Clamped 10 20 4 (tenBytes.blockFile.writeAt FileHeader.blankDisk 10 (fun _ => 0)
      (List.replicate 20 7) 20 4) := by
  have hhandled : Handled 10 20 4 := .inr (.inr ⟨by decide, by decide, by decide⟩)
  obtain ⟨hread, hwrite⟩ := requests_clamped_iff tenBytes.blockFile (fun _ => True)
    FileHeader.blankDisk trivial 10 20 4 tenBytes_maps.serves (by decide) (by decide) (by decide)
    (fun _ => 0) (List.replicate 20 7) (by decide)
  exact ⟨hhandled, hread.mpr hhandled, hwrite.mpr hhandled⟩

/-- Five bytes from position -1 on: both calls access byte -1 of the sector buffer. If the end
of the request overflows, the size of the buffer is negative. -/
theorem requests_not_clamped :
    (¬ Clamped 10 5 (-1) (tenBytes.blockFile.readAt FileHeader.blankDisk 10 5 (-1)) ∧
      .buffer 128 (-1) 5 ∈ (tenBytes.blockFile.readAt FileHeader.blankDisk 10 5 (-1)).events) ∧
    (¬ Clamped 10 5 (-1) (tenBytes.blockFile.writeAt FileHeader.blankDisk 10 (fun _ => 0)
        [1, 2, 3, 4, 5] 5 (-1)) ∧
      .buffer 128 (-1) 5 ∈ (tenBytes.blockFile.writeAt FileHeader.blankDisk 10 (fun _ => 0)
        [1, 2, 3, 4, 5] 5 (-1)).events) ∧
    (tenBytes.blockFile.readAt FileHeader.blankDisk 10 (2 ^ 31 - 1) 1).result =
      .error .badAlloc := by
  have hread : (tenBytes.blockFile.readAt FileHeader.blankDisk 10 5 (-1)).events =
      [.block 0, .buffer 128 0 128, .buffer 128 (-1) 5, .caller 0 5] := by rfl
  have hwrite : (tenBytes.blockFile.writeAt FileHeader.blankDisk 10 (fun _ => 0)
      [1, 2, 3, 4, 5] 5 (-1)).events =
      [.block 0, .buffer 128 0 128, .buffer 128 0 10, .buffer 128 0 10, .caller 0 5,
        .buffer 128 (-1) 5] := by decide +kernel
  have hbad : ∀ r, ¬ Access.Allowed 10 r (.buffer 128 (-1) 5) := fun r h => by
    have := h.1
    omega
  rw [hread, hwrite]
  refine ⟨⟨?_, by decide⟩, ⟨?_, by decide⟩, by rfl⟩
  · rintro ⟨r, a, -, -, -, hall⟩
    exact hbad r (hall _ (by rw [hread]; decide))
  · rintro ⟨r, a, -, -, -, hall⟩
    exact hbad r (hall _ (by rw [hwrite]; decide))

end Nachos
