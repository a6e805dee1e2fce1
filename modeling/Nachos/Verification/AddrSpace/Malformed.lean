import Nachos.Verification.AddrSpace.Image

/-! # Headers that no compiler emits

Only the number of pages is checked. A segment may still start before the first page, reach
behind the last one or lie anywhere in the file. -/

namespace Nachos

open Library

namespace Segment

variable (seg : Segment)

/-- The virtual address of byte `i`. -/
def va (i : ℕ) : ℤ := i32 (seg.virtualAddr.toInt + i)

/-- The position of byte `i` in the file. -/
def pos (i : ℕ) : ℤ := i32 (seg.inFileAddr.toInt + i)

/-- How many bytes of the segment are looked up: the position of the last of these bytes may
be negative, which `Lseek` refuses. -/
def started : ℤ :=
  if seg.inFileAddr.toInt < 0 then 1 else min seg.size.toInt (2 ^ 31 - seg.inFileAddr.toInt + 1)

/-- All bytes of the segment have a position. -/
def Finishes : Prop :=
  0 < seg.size.toInt → 0 ≤ seg.inFileAddr.toInt ∧ seg.inFileAddr.toInt + seg.size.toInt ≤ 2 ^ 31

/-- The bytes that are looked up lie in the pages or, rounded towards zero, just in front of
the first page. In the latter case there is a frame in front of the one of the first page, or
the file has no byte for the segment. -/
def Fits (numPages : ℕ) (free : List (Fin NumPhysPages)) (executable : List Byte) : Prop :=
  0 < seg.size.toInt →
    0 < numPages ∧ -128 < seg.virtualAddr.toInt ∧
      seg.virtualAddr.toInt + seg.started ≤ numPages * 128 ∧
      (seg.virtualAddr.toInt < 0 → 0 ≤ seg.inFileAddr.toInt →
        seg.inFileAddr.toInt < executable.length → free.head? ≠ some 0)

end Segment

namespace AddrSpace

variable {build : Build} {m m' : Machine} {executable : List Byte} {uninit noffH : NoffHeader}
  {space : AddrSpace} {seg : Segment} {frames : List (Fin NumPhysPages)}

/-! ## One byte -/

/-- Byte `i` has an entry in the page table, and it is copied into the memory. -/
def ByteFits (frames : List (Fin NumPhysPages)) (executable : List Byte) (seg : Segment) (i : ℕ) :
    Prop :=
  0 < frames.length ∧ -128 < seg.va i ∧ seg.va i < frames.length * 128 ∧
    (seg.va i < 0 → 0 ≤ seg.pos i → seg.pos i < executable.length → frames.head? ≠ some 0)

theorem entryAt_pages {va : ℤ} (hlo : -128 < va) (hhi : va < frames.length * 128)
    (hlen : 0 < frames.length) :
    ∃ (e : TranslationEntry) (f : Fin NumPhysPages) (o : ℤ),
      Machine.entryAt (pages 0 frames) (va.tdiv PageSize) = .ok e ∧
      i32 (i32 (e.physicalPage.toInt * PageSize) + va.tmod PageSize) = (f : ℕ) * 128 + o ∧
      (0 ≤ va → 0 ≤ o ∧ o < 128) ∧ (va < 0 → frames.head? = some f ∧ -128 < o ∧ o < 0) := by
  by_cases hneg : va < 0
  · obtain ⟨f, rest, rfl⟩ := List.exists_cons_of_length_pos hlen
    have hdiv : va.tdiv PageSize = (0 : ℕ) := by
      rw [← neg_neg va, Int.neg_tdiv, Int.tdiv_eq_ediv_of_nonneg (by omega)]
      have hP : ((PageSize : ℕ) : ℤ) = 128 := rfl
      rw [hP]
      omega
    have hmod : va.tmod PageSize = va := by
      rw [Int.tmod_def, hdiv, Nat.cast_zero, mul_zero, sub_zero]
    have hframe : (pageEntry 0 f).physicalPage.toInt = (f : ℕ) := by
      have hf : (f : ℕ) < 32 := f.isLt
      rw [BitVec.toInt_eq_toNat_of_lt (by rw [toNat_physicalPage]; omega), toNat_physicalPage]
    refine ⟨pageEntry 0 f, f, va, ?_, ?_, by omega, fun _ => ⟨rfl, hlo, hneg⟩⟩
    · rw [hdiv]
      exact Machine.entryAt_natCast rfl
    · have hf : (f : ℕ) < 32 := f.isLt
      have hP : ((PageSize : ℕ) : ℤ) = 128 := rfl
      rw [hframe, hmod, hP, i32_of_range (x := ((f : ℕ) : ℤ) * 128) (by omega) (by omega),
        i32_of_range (by omega) (by omega)]
  · obtain ⟨a, rfl⟩ := Int.eq_ofNat_of_zero_le (not_lt.mp hneg)
    have hk : a / 128 < frames.length := by omega
    have hget : (pages 0 frames)[a / 128]? = some (pageEntry (a / 128) frames[a / 128]) := by
      rw [getElem?_pages, List.getElem?_eq_getElem hk, Nat.zero_add]
      rfl
    have he := Machine.entryAt_natCast hget
    rw [show ((a / 128 : ℕ) : ℤ) = (a : ℤ).tdiv PageSize from Int.ofNat_tdiv _ _] at he
    obtain ⟨f, -, hp⟩ := physicalAddress_eq he
    refine ⟨_, f, (a % 128 : ℕ), he, ?_, fun _ => by omega, by omega⟩
    rw [hp]
    push_cast
    rfl

theorem entryAt_pages_of_not {va : ℤ}
    (h : ¬ (0 < frames.length ∧ -128 < va ∧ va < frames.length * 128)) :
    Machine.entryAt (pages 0 frames) (va.tdiv PageSize) = .error .bounds := by
  have hP : ((PageSize : ℕ) : ℤ) = 128 := rfl
  rw [Machine.entryAt, dif_neg]
  rw [length_pages, hP]
  rintro ⟨hlo, hhi⟩
  by_cases hneg : va < 0
  · rw [← neg_neg va, Int.neg_tdiv, Int.tdiv_eq_ediv_of_nonneg (by omega)] at hlo hhi
    omega
  · rw [Int.tdiv_eq_ediv_of_nonneg (by omega)] at hlo hhi
    omega

/-- One byte is read from the file and stored, if the file has it. -/
theorem readAt_one (m : Machine) (executable : List Byte) (p : ℤ) {position : ℤ} (hpos : 0 ≤ position) :
    if position < executable.length → 0 ≤ p ∧ p < MemorySize then
      ∃ m', m.readAt executable p 1 position = .ok m'
    else m.readAt executable p 1 position = .error .bounds := by
  rw [Machine.readAt, assert_of_true hpos, ok_bind]
  by_cases hfile : position < executable.length
  · obtain ⟨b, hb⟩ : ∃ b, (executable.drop position.toNat).take 1 = [b] := by
      rw [List.drop_eq_getElem_cons (show position.toNat < executable.length by omega)]
      exact ⟨_, rfl⟩
    rw [hb]
    split
    · rename_i h
      obtain ⟨hlo, hhi⟩ := h hfile
      exact Machine.storeBytes_total m _ hlo (by rw [List.length_singleton]; omega)
    · rename_i h
      have hout : ¬ (0 ≤ p ∧ p < MemorySize) := fun hin => h fun _ => hin
      rw [Machine.storeBytes, Machine.store, dif_neg hout]
      rfl
  · rw [if_pos fun h => absurd h hfile, List.drop_eq_nil_of_le (by omega)]
    exact ⟨m, rfl⟩

theorem copyBytes_of_not_byteFits {n j : ℕ} (h : ¬ ByteFits frames executable seg j) :
    copyBytes (pages 0 frames) executable seg (n + 1) j m = .error .bounds := by
  rw [copyBytes]
  by_cases hin : 0 < frames.length ∧ -128 < seg.va j ∧ seg.va j < frames.length * 128
  · obtain ⟨e, f, o, he, hp, -, hneg⟩ := entryAt_pages hin.2.1 hin.2.2 hin.1
    have hbad : seg.va j < 0 ∧ 0 ≤ seg.pos j ∧ seg.pos j < executable.length ∧
        frames.head? = some 0 := by
      by_contra hgood
      refine h ⟨hin.1, hin.2.1, hin.2.2, fun hva hlo hhi hhead => hgood ⟨hva, hlo, hhi, hhead⟩⟩
    obtain ⟨hva, hlo, hhi, hhead⟩ := hbad
    obtain ⟨hf, hlo', hhi'⟩ := hneg hva
    obtain rfl : f = 0 := Option.some.inj (hf.symm.trans hhead)
    have hread := readAt_one m executable (((0 : Fin NumPhysPages) : ℕ) * 128 + o) hlo
    rw [if_neg fun hstore => absurd (hstore hhi).1 (by
      change ¬ 0 ≤ (0 : ℤ) * 128 + o
      omega)] at hread
    rw [Segment.va] at he hp
    rw [Segment.pos] at hread
    rw [he, ok_bind]
    dsimp only
    rw [hp, hread]
    rfl
  · have he := entryAt_pages_of_not hin
    rw [Segment.va] at he
    rw [he]
    rfl

theorem copyBytes_of_byteFits {n j : ℕ} (h : ByteFits frames executable seg j) :
    if 0 ≤ seg.pos j then
      ∃ m₁, copyBytes (pages 0 frames) executable seg (n + 1) j m =
        copyBytes (pages 0 frames) executable seg n (j + 1) m₁
    else copyBytes (pages 0 frames) executable seg (n + 1) j m = .error .assertion := by
  obtain ⟨hlen, hlo, hhi, hhead⟩ := h
  obtain ⟨e, f, o, he, hp, hnonneg, hneg⟩ := entryAt_pages hlo hhi hlen
  rw [Segment.va] at he hp
  rw [copyBytes, he, ok_bind]
  dsimp only
  rw [hp]
  split
  · rename_i hpos
    have hread := readAt_one m executable (((f : ℕ) : ℤ) * 128 + o) hpos
    have hin : seg.pos j < executable.length → 0 ≤ ((f : ℕ) : ℤ) * 128 + o ∧
        ((f : ℕ) : ℤ) * 128 + o < MemorySize := by
      intro hfile
      have hf : (f : ℕ) < 32 := f.isLt
      have hM : ((MemorySize : ℕ) : ℤ) = 4096 := rfl
      rw [hM]
      by_cases hva : seg.va j < 0
      · obtain ⟨hfirst, hlo', hhi'⟩ := hneg hva
        have hne : (f : ℕ) ≠ 0 := fun hzero =>
          hhead hva hpos hfile (hfirst.trans (congrArg some (Fin.ext hzero)))
        omega
      · obtain ⟨hlo', hhi'⟩ := hnonneg (not_lt.mp hva)
        omega
    rw [if_pos hin] at hread
    obtain ⟨m₁, hread⟩ := hread
    rw [Segment.pos] at hread
    exact ⟨m₁, by rw [hread, ok_bind]⟩
  · rename_i hpos
    rw [Segment.pos] at hpos
    rw [Machine.readAt, assert_of_false (by omega)]
    rfl

/-! ## A whole segment -/

/-- How the loop ends: with its last byte, or with the first byte that does not fit or that
has no position. -/
theorem copyBytes_cases (frames : List (Fin NumPhysPages)) (executable : List Byte)
    (seg : Segment) (n j : ℕ) (m : Machine) :
    (∃ m', copyBytes (pages 0 frames) executable seg n j m = .ok m' ∧
      ∀ i, j ≤ i → i < j + n → ByteFits frames executable seg i ∧ 0 ≤ seg.pos i) ∨
    ∃ i, j ≤ i ∧ i < j + n ∧
      (∀ i', j ≤ i' → i' < i → ByteFits frames executable seg i' ∧ 0 ≤ seg.pos i') ∧
      (¬ ByteFits frames executable seg i ∧
          copyBytes (pages 0 frames) executable seg n j m = .error .bounds ∨
        ByteFits frames executable seg i ∧ seg.pos i < 0 ∧
          copyBytes (pages 0 frames) executable seg n j m = .error .assertion) := by
  induction n generalizing j m with
  | zero => exact .inl ⟨m, rfl, by omega⟩
  | succ n ih =>
      by_cases hfits : ByteFits frames executable seg j
      · have hstep := copyBytes_of_byteFits (n := n) (m := m) hfits
        split at hstep
        · rename_i hpos
          obtain ⟨m₁, hstep⟩ := hstep
          rw [hstep]
          have hall : ∀ k, (∀ i', j + 1 ≤ i' → i' < k → ByteFits frames executable seg i' ∧
              0 ≤ seg.pos i') → ∀ i', j ≤ i' → i' < k → ByteFits frames executable seg i' ∧
              0 ≤ seg.pos i' := by
            intro k hrest i' hlo hhi
            rcases hlo.eq_or_lt with rfl | hlt
            · exact ⟨hfits, hpos⟩
            · exact hrest i' hlt hhi
          rcases ih (j + 1) m₁ with ⟨m', hret, hrest⟩ | ⟨i, hlo, hhi, hrest, hend⟩
          · exact .inl ⟨m', hret, hall _ fun i' h h' => hrest i' h (by omega)⟩
          · exact .inr ⟨i, by omega, by omega, hall i hrest, hend⟩
        · rename_i hpos
          exact .inr ⟨j, le_rfl, by omega, by omega, .inr ⟨hfits, by omega, hstep⟩⟩
      · exact .inr ⟨j, le_rfl, by omega, by omega, .inl ⟨hfits, copyBytes_of_not_byteFits hfits⟩⟩

theorem pos_of_lt {i : ℕ} (hfile : 0 ≤ seg.inFileAddr.toInt)
    (h : seg.inFileAddr.toInt + i < 2 ^ 31) : seg.pos i = seg.inFileAddr.toInt + i :=
  i32_of_range (by omega) h

theorem pos_zero : seg.pos 0 = seg.inFileAddr.toInt := by
  rw [Segment.pos, Nat.cast_zero, add_zero, i32_of_range (BitVec.le_toInt _) BitVec.toInt_lt]

/-- The bytes that are looked up are the first `started` ones. -/
theorem lt_started_iff {i : ℕ} (hi : (i : ℤ) < seg.size.toInt) :
    (∀ i' < i, 0 ≤ seg.pos i') ↔ (i : ℤ) < seg.started := by
  have hlt : seg.inFileAddr.toInt < 2 ^ 31 := BitVec.toInt_lt
  rw [Segment.started]
  by_cases hneg : seg.inFileAddr.toInt < 0
  · rw [if_pos hneg]
    constructor
    · intro h
      by_contra hge
      have := h 0 (by omega)
      rw [pos_zero] at this
      omega
    · intro h i' hi'
      omega
  · rw [if_neg hneg]
    constructor
    · intro h
      by_contra hge
      obtain ⟨k, hk⟩ := Int.eq_ofNat_of_zero_le (show 0 ≤ 2 ^ 31 - seg.inFileAddr.toInt by omega)
      have := h k (by omega)
      rw [Segment.pos, ← hk, i32_of_ge (by omega) (by omega)] at this
      omega
    · intro h i' hi'
      rw [pos_of_lt (by omega) (by omega)]
      omega

theorem finishes_iff (hpos : 0 < seg.size.toInt) :
    seg.Finishes ↔ ∀ i : ℕ, (i : ℤ) < seg.size.toInt → 0 ≤ seg.pos i := by
  have hsize : seg.size.toInt < 2 ^ 31 := BitVec.toInt_lt
  constructor
  · intro h i hi
    obtain ⟨hlo, hhi⟩ := h hpos
    rw [pos_of_lt hlo (by omega)]
    omega
  · intro h _
    obtain ⟨k, hk⟩ := Int.eq_ofNat_of_zero_le (show 0 ≤ seg.size.toInt - 1 by omega)
    have hlast := (lt_started_iff (i := k) (by omega)).mp fun i' hi' => h i' (by omega)
    have hfirst := h 0 (by omega)
    have hend := h k (by omega)
    rw [pos_zero] at hfirst
    rw [Segment.started, if_neg (by omega)] at hlast
    refine ⟨hfirst, ?_⟩
    by_contra hgt
    rw [Segment.pos, i32_of_ge (by omega) (by omega)] at hend
    omega

/-- Byte by byte. -/
theorem fits_iff (hframes : frames.length ≤ NumPhysPages) (hpos : 0 < seg.size.toInt) :
    seg.Fits frames.length frames executable ↔
      ∀ i : ℕ, (i : ℤ) < seg.size.toInt → (∀ i' < i, 0 ≤ seg.pos i') →
        ByteFits frames executable seg i := by
  have hN : NumPhysPages = 32 := rfl
  have hstarted : 1 ≤ seg.started ∧ seg.started ≤ seg.size.toInt := by
    have hlt : seg.inFileAddr.toInt < 2 ^ 31 := BitVec.toInt_lt
    rw [Segment.started]
    split <;> omega
  constructor
  · intro h i hi hreached
    obtain ⟨hlen, hlo, hhi, hhead⟩ := h hpos
    have hlt := (lt_started_iff hi).mp hreached
    have hva : seg.va i = seg.virtualAddr.toInt + i := i32_of_range (by omega) (by omega)
    refine ⟨hlen, by omega, by omega, fun hneg hpos' hfile => ?_⟩
    by_cases hfirst : 0 ≤ seg.inFileAddr.toInt
    · refine hhead (by omega) hfirst ?_
      by_cases hover : seg.inFileAddr.toInt + i < 2 ^ 31
      · rw [pos_of_lt hfirst hover] at hfile
        omega
      · have hfl : seg.inFileAddr.toInt < 2 ^ 31 := BitVec.toInt_lt
        rw [Segment.pos, i32_of_ge (by omega) (by omega)] at hpos'
        omega
    · obtain rfl : i = 0 := by
        rw [Segment.started, if_pos (by omega)] at hlt
        omega
      rw [pos_zero] at hpos'
      omega
  · intro h _
    have hfirst := h 0 (by omega) (by omega)
    obtain ⟨hlen, hlo, hhi, hhead⟩ := hfirst
    have hva : seg.va 0 = seg.virtualAddr.toInt := by
      rw [Segment.va, Nat.cast_zero, add_zero, i32_of_range (BitVec.le_toInt _) BitVec.toInt_lt]
    rw [hva] at hlo hhi hhead
    rw [pos_zero] at hhead
    refine ⟨hlen, hlo, ?_, hhead⟩
    by_contra hgt
    -- the first byte behind the pages is looked up
    obtain ⟨k, hk⟩ := Int.eq_ofNat_of_zero_le
      (show 0 ≤ (frames.length : ℤ) * 128 - seg.virtualAddr.toInt by omega)
    have hbehind := h k (by omega) ((lt_started_iff (by omega)).mpr (by omega))
    have := hbehind.2.2.1
    rw [Segment.va, ← hk, i32_of_range (by omega) (by omega)] at this
    omega

/-- A segment is loaded without leaving the page table or the memory exactly if it fits, and
then completely exactly if all its bytes have a position. -/
theorem loadSegment_safe (seg : Segment) (executable : List Byte) (hbuild : build.multiThread = true)
    (hframes : frames.length ≤ NumPhysPages) (m : Machine) :
    (loadSegment build (pages 0 frames) executable seg m ≠ .error .bounds ↔
      seg.Fits frames.length frames executable) ∧
    (seg.Fits frames.length frames executable →
      ((∃ m', loadSegment build (pages 0 frames) executable seg m = .ok m') ↔ seg.Finishes)) := by
  by_cases hpos : 0 < seg.size.toInt
  · have hsize : (seg.size.toNat : ℤ) = seg.size.toInt :=
      (BitVec.toInt_eq_toNat_of_lt (by rw [BitVec.toInt_eq_toNat_cond] at hpos; omega)).symm
    rw [loadSegment, if_pos hpos, if_pos hbuild, fits_iff hframes hpos, finishes_iff hpos]
    rcases copyBytes_cases frames executable seg seg.size.toNat 0 m with
      ⟨m', hret, hall⟩ | ⟨i, -, hi, hbefore, ⟨hbad, hret⟩ | ⟨hfits, hneg, hret⟩⟩
    · rw [hret]
      refine ⟨iff_of_true (by rintro ⟨⟩) fun i hi _ => (hall i (by omega) (by omega)).1,
        fun _ => iff_of_true ⟨m', rfl⟩ fun i hi => (hall i (by omega) (by omega)).2⟩
    · have hnot : ¬ ∀ i : ℕ, (i : ℤ) < seg.size.toInt → (∀ i' < i, 0 ≤ seg.pos i') →
          ByteFits frames executable seg i := fun h =>
        hbad (h i (by omega) fun i' hi' => (hbefore i' (by omega) hi').2)
      rw [hret]
      exact ⟨iff_of_false (fun h => h rfl) hnot, fun h => absurd h hnot⟩
    · rw [hret]
      refine ⟨iff_of_true (by rintro ⟨⟩) fun k hk hreached => ?_,
        fun _ => iff_of_false (by rintro ⟨_, ⟨⟩⟩) fun h => ?_⟩
      · rcases lt_trichotomy k i with hlt | rfl | hgt
        · exact (hbefore k (by omega) hlt).1
        · exact hfits
        · have := hreached i hgt
          omega
      · have := h i (by omega)
        omega
  · rw [loadSegment_of_nonpos (by omega)]
    exact ⟨iff_of_true (by rintro ⟨⟩) fun h => absurd h hpos,
      fun _ => iff_of_true ⟨m, rfl⟩ fun h => absurd h hpos⟩

/-! ## The constructor -/

theorem allocPages_ne_bounds (n i : ℕ) (m : Machine) : allocPages n i m ≠ .error .bounds := by
  induction n generalizing i m with
  | zero => rintro ⟨⟩
  | succ n ih =>
      rw [allocPages]
      refine bind_ne_error ?_ fun r _ => bind_ne_error (ih (i + 1) r.2) ?_
      · rw [Machine.find]
        by_cases hfound : m.bitMap.find.1 ≠ -1
        · rw [assert_of_true hfound]
          rintro ⟨⟩
        · rw [assert_of_false hfound]
          rintro ⟨⟩
      · rintro ⟨rest, m₂⟩ _ ⟨⟩

/-- The constructor stops at an assertion or makes accesses inside of the page table and the
memory only, exactly if the segments fit once the header passes its checks; the second segment
matters only if the loop over the first one comes to its end. -/
theorem new_inside_iff (build : Build) (m : Machine) (executable : List Byte)
    (uninit : NoffHeader) (hbuild : build.multiThread = true) :
    new build m executable uninit ≠ .error .bounds ↔
      ∀ noffH, NoffHeader.readFrom executable uninit = noffH → noffH.noffMagic = NOFFMAGIC →
        noffH.numPages ≤ NumPhysPages → noffH.numPages ≤ m.bitMap.free.length →
        noffH.code.Fits noffH.numPages m.bitMap.free executable ∧
        (noffH.code.Finishes →
          noffH.initData.Fits noffH.numPages m.bitMap.free executable) := by
  obtain ⟨noffH, hH⟩ : ∃ noffH, NoffHeader.readFrom executable uninit = noffH := ⟨_, rfl⟩
  rw [hH, forall_eq']
  by_cases hmagic : noffH.noffMagic = NOFFMAGIC
  swap
  · refine iff_of_true ?_ fun h => absurd h hmagic
    rw [new]
    dsimp only
    rw [hH, assert_of_false hmagic]
    rintro ⟨⟩
  by_cases hle : noffH.numPages ≤ NumPhysPages
  swap
  · refine iff_of_true ?_ fun _ h => absurd h hle
    rw [new]
    dsimp only
    rw [hH, assert_of_true hmagic, ok_bind, assert_of_false hle]
    rintro ⟨⟩
  by_cases hfree : noffH.numPages ≤ m.bitMap.free.length
  swap
  · refine iff_of_true ?_ fun _ _ h => absurd h hfree
    rw [new]
    dsimp only
    rw [hH, assert_of_true hmagic, ok_bind, assert_of_true hle, ok_bind]
    refine bind_ne_error (allocPages_ne_bounds _ _ _) fun r hr => ?_
    exact absurd (le_of_allocPages hr) hfree
  have hlen : (m.bitMap.free.take noffH.numPages).length = noffH.numPages := by
    rw [List.length_take]
    omega
  -- the first frame of the table is the first free one
  have hfits : ∀ seg : Segment, seg.Fits noffH.numPages m.bitMap.free executable ↔
      seg.Fits (m.bitMap.free.take noffH.numPages).length (m.bitMap.free.take noffH.numPages)
        executable := by
    intro seg
    rw [hlen, Segment.Fits, Segment.Fits]
    refine forall_congr' fun _ => and_congr_right fun hpages => ?_
    rw [List.head?_take, if_neg (by omega)]
  have hsafe := fun (seg : Segment) (m₀ : Machine) =>
    loadSegment_safe seg executable hbuild (by rw [hlen]; exact hle) m₀
  simp only [hmagic, hle, hfree, forall_const, hfits]
  rw [new_eq hH hmagic hle hfree]
  dsimp only
  obtain ⟨hcode, hend⟩ := hsafe noffH.code (cleared m noffH.numPages)
  cases hload : loadSegment build (pages 0 (m.bitMap.free.take noffH.numPages)) executable
      noffH.code (cleared m noffH.numPages) with
  | error fault =>
      rw [hload] at hcode hend
      rw [error_bind]
      constructor
      · intro hne
        have hfit := hcode.mp fun h => hne (by cases h; rfl)
        refine ⟨hfit, fun hfin => ?_⟩
        obtain ⟨_, ⟨⟩⟩ := (hend hfit).mpr hfin
      · rintro ⟨hfit, -⟩ h
        exact hcode.mpr hfit (by cases h; rfl)
  | ok m₁ =>
      rw [hload] at hcode hend
      have hfit := hcode.mp (by rintro ⟨⟩)
      have hfin := (hend hfit).mp ⟨m₁, rfl⟩
      obtain ⟨hdata, -⟩ := hsafe noffH.initData m₁
      rw [ok_bind]
      simp only [hfit, hfin, true_and, forall_const, ← hdata]
      constructor
      · intro hne h
        exact hne (by rw [h]; rfl)
      · intro hne
        refine bind_ne_error hne ?_
        rintro m₂ _ ⟨⟩

theorem new_inside_iff_program :
    new defaultBuild freshMachine (program [1]) (programHeader []) ≠ .error .bounds := by
  refine (new_inside_iff defaultBuild freshMachine (program [1]) (programHeader []) rfl).mpr ?_
  rintro noffH hH - - -
  rw [program_readFrom] at hH
  subst hH
  exact ⟨fun _ => ⟨by decide, by decide, by decide, fun h => absurd h (by decide)⟩,
    fun _ h => absurd h (by decide)⟩

/-- One byte of code, behind the end of the memory. -/
def farHeader : NoffHeader := ⟨NOFFMAGIC, ⟨4096, 40, 1⟩, ⟨0, 0, 0⟩, ⟨0, 0, 0⟩⟩

def farProgram : List Byte := List.ofFn (NoffHeader.layout farHeader) ++ [1]

/-- The header passes the checks, and the page table of nine pages is accessed at 32. -/
theorem far_program_out_of_bounds :
    new defaultBuild freshMachine farProgram (programHeader []) = .error .bounds ∧
      farHeader.numPages = 9 ∧ (farHeader.code.va 0).tdiv PageSize = 32 := by
  have hpages : farHeader.numPages = 9 := by decide
  refine ⟨?_, hpages, by decide⟩
  have hlen : (freshMachine.bitMap.free.take farHeader.numPages).length = 9 := by
    rw [freshMachine_free, hpages]
    decide
  rw [farProgram, new_eq (NoffHeader.readFrom_append farHeader [1] _) rfl (by rw [hpages]; decide)
    (by rw [freshMachine_free, List.length_finRange, hpages]; decide)]
  dsimp only
  rw [loadSegment, if_pos (by decide), if_pos (by decide)]
  change (do
    let m₁ ← copyBytes _ _ farHeader.code (0 + 1) 0 _
    _) = _
  rw [copyBytes_of_not_byteFits]
  · rfl
  · rintro ⟨-, -, hlt, -⟩
    rw [hlen] at hlt
    exact absurd hlt (by decide)

end AddrSpace

end Nachos
