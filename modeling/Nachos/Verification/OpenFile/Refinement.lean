import Nachos.Verification.OpenFile.Transfer

/-! # An open file is an array of bytes with a cursor -/

namespace Nachos.OpenFile

open Library

/-! ## The abstract file -/

/-- The number of bytes that a transfer moves: none if it asks for none or starts behind the
end, and otherwise as many as there are. -/
def transferred (length : ℕ) (numBytes position : ℤ) : ℤ :=
  if numBytes ≤ 0 ∨ position ≥ length then 0 else min numBytes (length - position)

/-- What a call returns and leaves, on an array with a cursor. -/
def Call.apply (c : Cursor Byte) : Call → Result × Cursor Byte
  | seek position => ((0, []), { c with pos := position.toNat })
  | read numBytes =>
      let n := transferred c.items.length numBytes c.pos
      ((n, (c.items.drop c.pos).take n.toNat), { c with pos := c.pos + n.toNat })
  | write src numBytes =>
      let n := transferred c.items.length numBytes c.pos
      ((n, []), ⟨overwrite c.items c.pos (src.take n.toNat), c.pos + n.toNat⟩)
  | readAt numBytes position =>
      let n := transferred c.items.length numBytes position
      ((n, (c.items.drop position.toNat).take n.toNat), c)
  | writeAt src numBytes position =>
      let n := transferred c.items.length numBytes position
      ((n, []), { c with items := overwrite c.items position.toNat (src.take n.toNat) })

/-- Positions are not negative, `position + numBytes` is an `int` and the caller's buffer
holds the bytes to be written. -/
def Call.Legal (seekPosition : ℤ) : Call → Prop
  | seek position => 0 ≤ position ∧ position < 2 ^ 31
  | read numBytes => seekPosition + numBytes < 2 ^ 31
  | write src numBytes => seekPosition + numBytes < 2 ^ 31 ∧ numBytes ≤ src.length
  | readAt numBytes position => 0 ≤ position ∧ position + numBytes < 2 ^ 31
  | writeAt src numBytes position =>
      0 ≤ position ∧ position + numBytes < 2 ^ 31 ∧ numBytes ≤ src.length

def applyAll (c : Cursor Byte) : List Call → List Result × Cursor Byte
  | [] => ([], c)
  | call :: calls =>
      let (result, c) := call.apply c
      let (results, c) := applyAll c calls
      (result :: results, c)

def LegalAll (c : Cursor Byte) : List Call → Prop
  | [] => True
  | call :: calls => call.Legal c.pos ∧ LegalAll (call.apply c).2 calls

theorem transferred_eq (length : ℕ) (numBytes : ℤ) (p : ℕ) :
    transferred length numBytes p = (min numBytes.toNat (length - p) : ℕ) := by
  unfold transferred
  split <;> omega

variable {p : ℕ}

theorem take_transferred {xs : List Byte} {length : ℕ} (numBytes : ℤ) (h : xs.length ≤ length - p) :
    xs.take (transferred length numBytes p).toNat = xs.take numBytes.toNat := by
  rw [transferred_eq, Int.toNat_natCast, ← List.take_take,
    List.take_of_length_le (l := xs) h]

/-- Of the data of a write only what fits matters. -/
theorem overwrite_transferred (xs src : List Byte) (numBytes : ℤ) (p : ℕ) :
    overwrite xs p (src.take (transferred xs.length numBytes p).toNat) =
      overwrite xs p (src.take numBytes.toNat) := by
  rw [← overwrite_take xs p (src.take numBytes.toNat), List.take_take, transferred_eq,
    Int.toNat_natCast, Nat.min_comm]

/-! ## Files that represent a cursor -/

/-- The open file `f` lies in the sectors `blocks`, apart from its header, and stands for
the array and cursor `c`. -/
structure Represents (f : OpenFile) (d : Disk) (blocks : List (Fin NumSectors))
    (c : Cursor Byte) : Prop where
  maps : f.hdr.Maps blocks
  length : f.hdr.fileLength.toNat = c.items.length
  fits : c.items.length ≤ 128 * blocks.length
  items : contents d blocks c.items.length = c.items
  pos : f.seekPosition = c.pos
  pos_lt : c.pos < 2 ^ 31
  header : ∃ s : Fin NumSectors, f.hdrSector = (s : ℕ) ∧ s ∉ blocks

/-- The two copies of a header differ in their dates at most. -/
structure SameFile (f f' : OpenFile) : Prop where
  numBytes : f'.hdr.numBytes = f.hdr.numBytes
  numSectors : f'.hdr.numSectors = f.hdr.numSectors
  dataSectors : f'.hdr.dataSectors = f.hdr.dataSectors
  hdrSector : f'.hdrSector = f.hdrSector

theorem SameFile.trans {f₁ f₂ f₃ : OpenFile} (h : SameFile f₁ f₂) (h' : SameFile f₂ f₃) :
    SameFile f₁ f₃ :=
  ⟨h'.numBytes.trans h.numBytes, h'.numSectors.trans h.numSectors,
    h'.dataSectors.trans h.dataSectors, h'.hdrSector.trans h.hdrSector⟩

namespace Represents

variable {f : OpenFile} {d : Disk} {blocks : List (Fin NumSectors)} {c : Cursor Byte} {numBytes : ℤ}

theorem readAt (r : Represents f d blocks c) (hover : p + numBytes < 2 ^ 31) :
    f.readAt d numBytes p = .ok (transferred c.items.length numBytes p,
      (c.items.drop p).take (transferred c.items.length numBytes p).toNat) := by
  rw [f.readAt_spec r.maps r.length d hover (.inr r.fits), r.items,
    take_transferred _ (by rw [List.length_drop]), transferred_eq]

theorem writeAt (r : Represents f d blocks c) (junk : ℕ → Byte) {src : List Byte}
    (hover : p + numBytes < 2 ^ 31) (hsrc : numBytes ≤ src.length) :
    ∃ d', f.writeAt d junk src numBytes p =
        .ok (transferred c.items.length numBytes p, d') ∧
      Represents f d' blocks ⟨overwrite c.items p
        (src.take (transferred c.items.length numBytes p).toNat), c.pos⟩ ∧
      ∀ s, s ∉ blocks → d' s = d s := by
  obtain ⟨d', hwrite, hitems, hframe⟩ :=
    f.writeAt_spec r.maps r.length d junk hover (.inr r.fits) hsrc
  rw [← transferred_eq] at hwrite
  refine ⟨d', hwrite, ?_, hframe⟩
  exact {
    maps := r.maps
    length := by rw [length_overwrite]; exact r.length
    fits := by rw [length_overwrite]; exact r.fits
    items := by rw [length_overwrite, hitems, r.items, overwrite_transferred]
    pos := r.pos
    pos_lt := r.pos_lt
    header := r.header }

/-- After the transfer only the position, the date and the header sector change. -/
theorem finish (r : Represents f d blocks c) (szTime : List Byte) {n : ℤ} (hlo : 0 ≤ n)
    (hhi : c.pos + n < 2 ^ 31) :
    ∃ d', f.finish d szTime n = .ok (f.touch szTime n, d') ∧
      Represents (f.touch szTime n) d' blocks ⟨c.items, c.pos + n.toNat⟩ ∧
      (∀ s : Fin NumSectors, ((s : ℕ) : ℤ) ≠ f.hdrSector → d' s = d s) ∧
      ∀ s : Fin NumSectors, ((s : ℕ) : ℤ) = f.hdrSector →
        d' s = FileHeader.layout (f.touch szTime n).hdr := by
  obtain ⟨t, ht, hmem⟩ := r.header
  refine ⟨Function.update d t (FileHeader.layout (f.touch szTime n).hdr), ?_, ?_, ?_, ?_⟩
  · simp only [OpenFile.finish, FileHeader.writeBack]
    rw [show (f.touch szTime n).hdrSector = (t : ℕ) from ht, Disk.writeSector_natCast, ok_bind,
      pure_eq_ok]
  · have hpos : i32 (f.seekPosition + n) = (c.pos + n.toNat : ℕ) := by
      rw [r.pos, i32_of_range (by omega) (by omega)]
      omega
    have hframe : ∀ s ∈ blocks,
        d s = Function.update d t (FileHeader.layout (f.touch szTime n).hdr) s :=
      fun s hs => (Function.update_of_ne (show s ≠ t from fun he => hmem (he ▸ hs)) _ _).symm
    exact {
      maps := r.maps.congr rfl
      length := r.length
      fits := r.fits
      items := (contents_congr _ hframe).symm.trans r.items
      pos := hpos
      pos_lt := show c.pos + n.toNat < 2 ^ 31 by omega
      header := r.header }
  · intro s hs
    exact Function.update_of_ne (fun he => hs (by rw [he, ht])) _ _
  · intro s hs
    rw [ht, Int.natCast_inj] at hs
    rw [Fin.ext hs, Function.update_self]

/-! ## Calls -/

theorem transferred_bounds (length : ℕ) (hp : p < 2 ^ 31) (hover : p + numBytes < 2 ^ 31) :
    0 ≤ transferred length numBytes p ∧ p + transferred length numBytes p < 2 ^ 31 := by
  rw [transferred_eq]
  omega

/-- A call returns what it returns on the array and leaves a file that represents the
array it leaves; no sector outside of the file and its header changes. -/
theorem call (r : Represents f d blocks c) (env : Env) (call : Call) (hlegal : call.Legal c.pos) :
    ∃ f' d', call.run env f d = .ok ((call.apply c).1, f', d') ∧
      Represents f' d' blocks (call.apply c).2 ∧ SameFile f f' ∧
      (∀ s : Fin NumSectors, s ∉ blocks → ((s : ℕ) : ℤ) ≠ f.hdrSector → d' s = d s) ∧
      ∀ s : Fin NumSectors, ((s : ℕ) : ℤ) = f.hdrSector →
        d' s = d s ∨ d' s = FileHeader.layout f'.hdr := by
  have hsame : SameFile f f := ⟨rfl, rfl, rfl, rfl⟩
  have hheader : ∀ s : Fin NumSectors, ((s : ℕ) : ℤ) = f.hdrSector → s ∉ blocks := by
    obtain ⟨t, ht, hmem⟩ := r.header
    intro s hs
    rw [ht, Int.natCast_inj] at hs
    rwa [Fin.ext hs]
  cases call with
  | seek position =>
      obtain ⟨hlo, hhi⟩ := hlegal
      refine ⟨f.seek position, d, rfl, ?_, ⟨rfl, rfl, rfl, rfl⟩, fun _ _ _ => rfl,
        fun _ _ => .inl rfl⟩
      exact { r with
        pos := (Int.toNat_of_nonneg hlo).symm
        pos_lt := by simp only [Call.apply]; omega }
  | read numBytes =>
      obtain ⟨hlo, hhi⟩ := transferred_bounds c.items.length r.pos_lt hlegal
      obtain ⟨d', hfinish, hr, hframe, hhdr⟩ := r.finish env.szTime hlo hhi
      refine ⟨_, d', ?_, hr, ⟨rfl, rfl, rfl, rfl⟩, fun s _ hs => hframe s hs,
        fun s hs => .inr (hhdr s hs)⟩
      rw [Call.run, OpenFile.read, r.pos, r.readAt hlegal, ok_bind, hfinish]
      rfl
  | write src numBytes =>
      obtain ⟨hover, hsrc⟩ := hlegal
      obtain ⟨hlo, hhi⟩ := transferred_bounds c.items.length r.pos_lt hover
      obtain ⟨d₁, hwrite, hr₁, hframe₁⟩ := r.writeAt env.junk hover hsrc
      obtain ⟨d₂, hfinish, hr₂, hframe₂, hhdr⟩ := hr₁.finish env.szTime hlo hhi
      refine ⟨_, d₂, ?_, hr₂, ⟨rfl, rfl, rfl, rfl⟩, fun s hs hs' => ?_,
        fun s hs => .inr (hhdr s hs)⟩
      · rw [Call.run, OpenFile.write, r.pos, hwrite, ok_bind]
        simp only [hfinish, ok_bind, pure_eq_ok, Call.apply]
      · rw [hframe₂ s hs', hframe₁ s hs]
  | readAt numBytes position =>
      obtain ⟨hlo, hover⟩ := hlegal
      obtain ⟨p, rfl⟩ := Int.eq_ofNat_of_zero_le hlo
      refine ⟨f, d, ?_, r, hsame, fun _ _ _ => rfl, fun _ _ => .inl rfl⟩
      rw [Call.run, r.readAt hover]
      rfl
  | writeAt src numBytes position =>
      obtain ⟨hlo, hover, hsrc⟩ := hlegal
      obtain ⟨p, rfl⟩ := Int.eq_ofNat_of_zero_le hlo
      obtain ⟨d', hwrite, hr, hframe⟩ := r.writeAt env.junk hover hsrc
      refine ⟨f, d', ?_, hr, hsame, fun s hs _ => hframe s hs,
        fun s hs => .inl (hframe s (hheader s hs))⟩
      rw [Call.run, hwrite]
      rfl

/-- Sequences of calls, by induction on the sequence. -/
theorem runAll (r : Represents f d blocks c) {calls : List (Env × Call)}
    (hlegal : LegalAll c (calls.map Prod.snd)) :
    ∃ f' d', f.runAll d calls = .ok ((applyAll c (calls.map Prod.snd)).1, f', d') ∧
      Represents f' d' blocks (applyAll c (calls.map Prod.snd)).2 ∧ SameFile f f' ∧
      ∀ s : Fin NumSectors, s ∉ blocks → ((s : ℕ) : ℤ) ≠ f.hdrSector → d' s = d s := by
  induction calls generalizing f d c with
  | nil => exact ⟨f, d, rfl, r, ⟨rfl, rfl, rfl, rfl⟩, fun _ _ _ => rfl⟩
  | cons head calls ih =>
      obtain ⟨env, call⟩ := head
      obtain ⟨hcall, hrest⟩ := hlegal
      obtain ⟨f₁, d₁, hrun₁, r₁, hsame₁, hframe₁, _⟩ := r.call env call hcall
      obtain ⟨f₂, d₂, hrun₂, r₂, hsame₂, hframe₂⟩ := ih r₁ hrest
      refine ⟨f₂, d₂, ?_, r₂, hsame₁.trans hsame₂, fun s hs hs' => ?_⟩
      · rw [OpenFile.runAll, hrun₁, ok_bind]
        simp only [hrun₂, ok_bind, pure_eq_ok, List.map_cons, applyAll]
      · rw [hframe₂ s hs (by rw [hsame₁.hdrSector]; exact hs'), hframe₁ s hs hs']

end Represents

/-! ## Headers that map the blocks of the file -/

/-- Lookup takes the block starts below the end of the file to different valid sectors, none
of which holds the header or the index block, if lookup ever reads one. -/
structure Mapped (f : OpenFile) (d : Disk) : Prop where
  header : ∃ s : Fin NumSectors, f.hdrSector = (s : ℕ)
  valid : ∀ b : ℕ, (b * SectorSize : ℕ) < f.hdr.fileLength →
    ∃ s : Fin NumSectors, f.hdr.byteToSector d (b * SectorSize : ℕ) = .ok ((s : ℕ) : ℤ)
  injective : ∀ b b' : ℕ, (b * SectorSize : ℕ) < f.hdr.fileLength →
    (b' * SectorSize : ℕ) < f.hdr.fileLength →
    f.hdr.byteToSector d (b * SectorSize : ℕ) = f.hdr.byteToSector d (b' * SectorSize : ℕ) →
    b = b'
  not_header : ∀ b : ℕ, (b * SectorSize : ℕ) < f.hdr.fileLength →
    f.hdr.byteToSector d (b * SectorSize : ℕ) ≠ .ok f.hdrSector
  not_index : (∃ b : ℕ, NumDirect * SectorSize < b * SectorSize ∧
      (b * SectorSize : ℕ) < f.hdr.fileLength) →
    ∀ b : ℕ, (b * SectorSize : ℕ) < f.hdr.fileLength →
    f.hdr.byteToSector d (b * SectorSize : ℕ) ≠ .ok (f.hdr.dataSectors FileHeader.indexSlot).toInt

/-- The byte at `p`, in the sector to which lookup takes the start of its block. -/
def byteAt (f : OpenFile) (d : Disk) (p : ℕ) : Byte :=
  match f.hdr.byteToSector d (p / SectorSize * SectorSize : ℕ) with
  | .ok s => (d.readSector s).toOption.elim 0 fun data =>
      data ⟨p % SectorSize, Nat.mod_lt _ (by decide)⟩
  | .error _ => 0

/-- The file and its position as an array with a cursor. -/
def view (f : OpenFile) (d : Disk) : Cursor Byte :=
  ⟨(List.range f.hdr.fileLength.toNat).map (f.byteAt d), f.seekPosition.toNat⟩

section

variable {f : OpenFile} {d : Disk} {blocks : List (Fin NumSectors)} {c : Cursor Byte}

theorem Represents.byteToSector (r : Represents f d blocks c) {b : ℕ} (hb : b < blocks.length) :
    f.hdr.byteToSector d (b * SectorSize : ℕ) = .ok ((blocks[b] : ℕ) : ℤ) := by
  have hle : blocks.length ≤ 15 := r.maps.le
  have := r.maps.byteToSector d hb
  rwa [i32_mul_sectorSize rfl (by omega), Nat.mul_comm] at this

theorem byteAt_eq {s : Fin NumSectors}
    (h : f.hdr.byteToSector d (p / SectorSize * SectorSize : ℕ) = .ok ((s : ℕ) : ℤ)) :
    f.byteAt d p = d s ⟨p % 128, Nat.mod_lt p (by decide)⟩ := by
  rw [OpenFile.byteAt, h]
  simp only [Disk.readSector_natCast]
  rfl

theorem getElem?_contents {len : ℕ} (hp : p < len) (hb : p / 128 < blocks.length) :
    (contents d blocks len)[p]? =
      some (d blocks[p / 128] ⟨p % 128, Nat.mod_lt p (by decide)⟩) := by
  have hget := getElem?_gather d hb (Nat.mod_lt p (by decide : 0 < 128))
  rw [Nat.div_add_mod] at hget
  rw [contents, List.getElem?_take_of_lt hp, hget]

theorem Represents.byteAt (r : Represents f d blocks c) (hp : p < c.items.length) :
    f.byteAt d p = c.items[p] := by
  have hfits := r.fits
  have hb : p / 128 < blocks.length := by omega
  have hget := getElem?_contents (d := d) hp hb
  rw [r.items, List.getElem?_eq_getElem hp, Option.some.injEq] at hget
  rw [hget, byteAt_eq (r.byteToSector hb)]

/-- A file represents one array only: the one it is viewed as. -/
theorem Represents.view_eq (r : Represents f d blocks c) : f.view d = c := by
  obtain ⟨items, pos⟩ := c
  rw [view, r.length, r.pos, Int.toNat_natCast, Cursor.mk.injEq, and_iff_left rfl]
  apply List.ext_getElem
  · simp
  · intro p hp hp'
    rw [List.getElem_map, List.getElem_range]
    exact r.byteAt hp'

theorem Represents.mapped (r : Represents f d blocks c) : Mapped f d := by
  have hlength := r.length
  have hfits := r.fits
  have hle : blocks.length ≤ 15 := r.maps.le
  have hlt : ∀ b : ℕ, ((b * SectorSize : ℕ) : ℤ) < f.hdr.fileLength → b < blocks.length := by
    intro b hb
    simp only [SectorSize] at hb
    omega
  obtain ⟨t, ht, hmem⟩ := r.header
  refine ⟨⟨t, ht⟩, fun b hb => ⟨_, r.byteToSector (hlt b hb)⟩, fun b b' hb hb' he => ?_,
    fun b hb he => ?_, fun ⟨b, hb, hb'⟩ => ?_⟩
  · rw [r.byteToSector (hlt b hb), r.byteToSector (hlt b' hb'), Except.ok.injEq,
      Int.natCast_inj] at he
    exact (List.Nodup.getElem_inj_iff r.maps.nodup).mp (Fin.ext he)
  · rw [r.byteToSector (hlt b hb), ht, Except.ok.injEq, Int.natCast_inj] at he
    exact hmem (Fin.ext he ▸ List.getElem_mem _)
  · have hb15 := hlt b hb'
    have hb14 : NumDirect < b := Nat.lt_of_mul_lt_mul_right hb
    have hN : NumDirect = 14 := rfl
    omega

/-- Lookup reads no index block: the block start in front of it already leads there. -/
theorem Mapped.fileLength_le (m : Mapped f d) : f.hdr.fileLength ≤ 1920 := by
  by_contra hgt
  have hS : SectorSize = 128 := rfl
  have hN : NumDirect = 14 := rfl
  exact m.not_index ⟨15, by decide, by omega⟩ 14 (by omega)
    (FileHeader.byteToSector_direct f.hdr d (by decide) le_rfl (by decide) (by decide))

theorem Mapped.represents (m : Mapped f d) (hlo : 0 ≤ f.seekPosition)
    (hhi : f.seekPosition < 2 ^ 31) :
    ∃ blocks, Represents f d blocks (f.view d) ∧ ∀ s ∈ blocks, ∃ b : ℕ,
      (b * SectorSize : ℕ) < f.hdr.fileLength ∧
      f.hdr.byteToSector d (b * SectorSize : ℕ) = .ok ((s : ℕ) : ℤ) := by
  have hmax := m.fileLength_le
  obtain ⟨n, hn⟩ : ∃ n, n = (f.hdr.fileLength.toNat + 127) / 128 := ⟨_, rfl⟩
  have hstart : ∀ b : Fin n, ((b * SectorSize : ℕ) : ℤ) < f.hdr.fileLength := by
    intro b
    have := b.isLt
    simp only [SectorSize]
    omega
  choose sector hsector using fun b : Fin n => m.valid b (hstart b)
  have hinj : Function.Injective sector := fun b b' he =>
    Fin.ext (m.injective b b' (hstart b) (hstart b') (by rw [hsector, hsector, he]))
  have hmaps : f.hdr.Maps (List.ofFn sector) := by
    have hn15 : n ≤ 15 := by omega
    refine ⟨by rw [List.length_ofFn]; exact hn15, fun b hb => ?_, List.nodup_ofFn.mpr hinj⟩
    rw [List.length_ofFn] at hb
    have hlookup := hsector ⟨b, hb⟩
    rw [FileHeader.byteToSector_direct f.hdr d (b := b) (by omega) (by simp; omega)
      (by simp; omega) (by simp; omega), Except.ok.injEq] at hlookup
    simpa using hlookup
  obtain ⟨t, ht⟩ := m.header
  have hitems : (f.view d).items.length = f.hdr.fileLength.toNat := by simp [view]
  refine ⟨List.ofFn sector, ⟨hmaps, hitems.symm, ?_, ?_, ?_, ?_, t, ht, ?_⟩, ?_⟩
  · rw [hitems, List.length_ofFn]
    omega
  · apply List.ext_getElem?
    intro p
    rw [hitems]
    by_cases hp : p < f.hdr.fileLength.toNat
    · have hb : p / 128 < n := by omega
      rw [getElem?_contents hp (by rw [List.length_ofFn]; exact hb), view,
        List.getElem?_map, List.getElem?_range hp, Option.map_some,
        byteAt_eq (hsector ⟨p / 128, hb⟩), List.getElem_ofFn]
    · rw [List.getElem?_eq_none (by rw [length_contents]; omega),
        List.getElem?_eq_none (by rw [hitems]; omega)]
  · exact (Int.toNat_of_nonneg hlo).symm
  · simp only [view]
    omega
  · intro hmem
    obtain ⟨b, rfl⟩ := (List.mem_ofFn' _ _).mp hmem
    exact m.not_header b (hstart b) (by rw [hsector, ht])
  · intro s hs
    obtain ⟨b, rfl⟩ := (List.mem_ofFn' _ _).mp hs
    exact ⟨b, hstart b, hsector b⟩

end

/-! ## Writing in chunks -/

/-- One `Write` for each of the chunks. -/
def writes (chunks : List (Env × List Byte)) : List (Env × Call) :=
  chunks.map fun chunk => (chunk.1, .write chunk.2 chunk.2.length)

/-- All of the bytes of the chunks. -/
def whole (chunks : List (Env × List Byte)) : List Byte := (chunks.map Prod.snd).flatten

theorem apply_write (c : Cursor Byte) (src : List Byte) :
    (Call.write src src.length).apply c =
      ((((c.room src.length : ℕ) : ℤ), []), c.write src) := by
  have hn : transferred c.items.length src.length c.pos = (c.room src.length : ℕ) := by
    rw [transferred_eq, Int.toNat_natCast, Cursor.room]
  have hover := overwrite_transferred c.items src src.length c.pos
  rw [hn, Int.toNat_natCast, Int.toNat_natCast, List.take_length] at hover
  simp only [Call.apply, hn, Int.toNat_natCast, hover, Cursor.write]

theorem applyAll_writes (c : Cursor Byte) (chunks : List (Env × List Byte)) :
    (applyAll c ((writes chunks).map Prod.snd)).2 = c.write (whole chunks) ∧
      ((applyAll c ((writes chunks).map Prod.snd)).1.map Prod.fst).sum =
        (c.room (whole chunks).length : ℕ) := by
  induction chunks generalizing c with
  | nil => simp [writes, whole, applyAll, Cursor.write, Cursor.room]
  | cons chunk chunks ih =>
      obtain ⟨hcursor, hsum⟩ := ih (c.write chunk.2)
      have hwhole : whole (chunk :: chunks) = chunk.2 ++ whole chunks := rfl
      simp only [writes, List.map_cons, applyAll, apply_write, List.sum_cons] at hcursor hsum ⊢
      rw [hcursor, hsum, Cursor.write_write, hwhole, ← Nat.cast_add, Cursor.room_add_room]
      exact ⟨rfl, rfl⟩

theorem legalAll_writes {c : Cursor Byte} {chunks : List (Env × List Byte)}
    (h : c.pos + (whole chunks).length < 2 ^ 31) :
    LegalAll c ((writes chunks).map Prod.snd) := by
  induction chunks generalizing c with
  | nil => trivial
  | cons chunk chunks ih =>
      have hwhole : whole (chunk :: chunks) = chunk.2 ++ whole chunks := rfl
      rw [hwhole, List.length_append] at h
      refine ⟨⟨by omega, le_rfl⟩, ?_⟩
      rw [apply_write]
      refine ih ?_
      simp only [Cursor.write, Cursor.room]
      omega

/-! ## The refinement -/

/-- Every sequence of calls on a file whose blocks are mapped returns what it returns on
the array of the bytes of the file, and leaves the array it leaves. Writing in chunks is
writing at once. -/
theorem runAll_refines_cursor (f : OpenFile) (d : Disk) (hm : Mapped f d)
    (hlo : 0 ≤ f.seekPosition) (hhi : f.seekPosition < 2 ^ 31) :
    (∀ calls : List (Env × Call), LegalAll (f.view d) (calls.map Prod.snd) →
      ∃ f' d', f.runAll d calls = .ok ((applyAll (f.view d) (calls.map Prod.snd)).1, f', d') ∧
        Mapped f' d' ∧ f'.view d' = (applyAll (f.view d) (calls.map Prod.snd)).2 ∧
        ∀ s : Fin NumSectors, ((s : ℕ) : ℤ) ≠ f.hdrSector →
          (∀ b : ℕ, (b * SectorSize : ℕ) < f.hdr.fileLength →
            f.hdr.byteToSector d (b * SectorSize : ℕ) ≠ .ok ((s : ℕ) : ℤ)) → d' s = d s) ∧
    ∀ (chunks : List (Env × List Byte)) (env : Env),
      f.seekPosition + (whole chunks).length < 2 ^ 31 →
      ∃ results f₁ d₁ result f₂ d₂, f.runAll d (writes chunks) = .ok (results, f₁, d₁) ∧
        f.write d env.szTime env.junk (whole chunks) (whole chunks).length =
          .ok (result, f₂, d₂) ∧
        f₁.view d₁ = f₂.view d₂ ∧ (results.map Prod.fst).sum = result := by
  obtain ⟨blocks, r, hblocks⟩ := hm.represents hlo hhi
  refine ⟨fun calls hlegal => ?_, fun chunks env htotal => ?_⟩
  · obtain ⟨f', d', hrun, r', _, hframe⟩ := r.runAll hlegal
    refine ⟨f', d', hrun, r'.mapped, r'.view_eq, fun s hs hs' => hframe s (fun hmem => ?_) hs⟩
    obtain ⟨b, hb, hlookup⟩ := hblocks s hmem
    exact hs' b hb hlookup
  · have hpos : (f.view d).pos + (whole chunks).length < 2 ^ 31 := by
      simp only [view]
      omega
    obtain ⟨f₁, d₁, hrun₁, r₁, _⟩ := r.runAll (legalAll_writes hpos)
    obtain ⟨f₂, d₂, hrun₂, r₂, _⟩ := r.call env
      (.write (whole chunks) (whole chunks).length) ⟨by omega, le_rfl⟩
    obtain ⟨hcursor, hsum⟩ := applyAll_writes (f.view d) chunks
    rw [apply_write] at hrun₂ r₂
    obtain ⟨⟨result, f₃, d₃⟩, hwrite, hret⟩ := bind_eq_ok.mp hrun₂
    simp only [pure_eq_ok, Except.ok.injEq, Prod.mk.injEq, and_true] at hret
    obtain ⟨rfl, rfl, rfl⟩ := hret
    refine ⟨_, f₁, d₁, _, f₃, d₃, hrun₁, hwrite, ?_, hsum⟩
    rw [r₁.view_eq, r₂.view_eq, hcursor]

/-! A file of 200 bytes in sectors 5 and 6, with its header in sector 4. -/

def sampleFile : OpenFile :=
  { hdr := ⟨200, 2, fun _ => 0, fun _ => 0, fun _ => 0, fun i => (i : ℕ) + 5⟩
    hdrSector := 4
    seekPosition := 0 }

theorem sampleFile_represents :
    Represents sampleFile FileHeader.blankDisk [5, 6] ⟨List.replicate 200 0, 0⟩ where
  maps := ⟨by decide, by decide, by decide⟩
  length := rfl
  fits := by rw [List.length_replicate]; decide
  items := by decide +kernel
  pos := rfl
  pos_lt := by decide
  header := ⟨4, rfl, by decide⟩

/-- A write over the border of the two sectors, and one that is cut by the end. -/
def sampleCalls : List (Env × Call) :=
  [(⟨[], fun _ => 1⟩, .writeAt [7, 8, 9] 3 126), (⟨[], fun _ => 2⟩, .readAt 100 125),
    (⟨[], fun _ => 3⟩, .seek 198), (⟨[], fun _ => 4⟩, .write [3, 4, 5] 3)]

theorem runAll_refines_cursor_sample :
    Mapped sampleFile FileHeader.blankDisk ∧
    ∃ f' d', sampleFile.runAll FileHeader.blankDisk sampleCalls =
      .ok ([(3, []), (75, [0, 7, 8, 9] ++ List.replicate 71 0), (0, []), (2, [])], f', d') := by
  have hm := sampleFile_represents.mapped
  have hview := sampleFile_represents.view_eq
  have hlegal : LegalAll (sampleFile.view FileHeader.blankDisk) (sampleCalls.map Prod.snd) := by
    exact ⟨⟨by decide, by decide, by decide⟩, ⟨by decide, by decide⟩, ⟨by decide, by decide⟩,
      ⟨by decide, by decide⟩, trivial⟩
  obtain ⟨f', d', hrun, _⟩ := (runAll_refines_cursor sampleFile FileHeader.blankDisk hm
    (by decide) (by decide)).1 sampleCalls hlegal
  have hresults : (applyAll ⟨List.replicate 200 0, 0⟩ (sampleCalls.map Prod.snd)).1 =
      [(3, []), (75, [0, 7, 8, 9] ++ List.replicate 71 0), (0, []), (2, [])] := by
    decide +kernel
  rw [hview, hresults] at hrun
  exact ⟨hm, f', d', hrun⟩

end Nachos.OpenFile
