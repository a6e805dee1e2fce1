import Nachos.Verification.AddrSpace.Isolation

/-! # The image of a program

With `MULTI_THREAD` the segments are copied byte by byte through the page table, while the
rest of the image is what the frames hold: only the start of physical memory is cleared. -/

namespace Nachos

open Library

namespace Segment

/-- The segment has a byte at the virtual address `a`. -/
def Covers (seg : Segment) (a : ℕ) : Prop :=
  seg.virtualAddr.toInt ≤ a ∧ a < seg.virtualAddr.toInt + seg.size.toInt

instance (seg : Segment) (a : ℕ) : Decidable (seg.Covers a) :=
  inferInstanceAs (Decidable (_ ∧ _))

/-- The byte of the file for the virtual address `a`, if the file is long enough. -/
def fileByte (seg : Segment) (executable : List Byte) (a : ℕ) : Option Byte :=
  executable[(seg.inFileAddr.toInt + (a - seg.virtualAddr.toInt)).toNat]?

/-- The segment lies inside of the first `size` addresses. -/
def Inside (seg : Segment) (size : ℕ) : Prop :=
  0 < seg.size.toInt → 0 ≤ seg.virtualAddr.toInt ∧ seg.virtualAddr.toInt + seg.size.toInt ≤ size

end Segment

/-- The physical address of the byte `a % PageSize` of a frame. -/
def frameAddr (f : Fin NumPhysPages) (a : ℕ) : Fin MemorySize :=
  ⟨f * 128 + a % 128, by
    have hM : MemorySize = 4096 := rfl
    have hf : (f : ℕ) < 32 := f.isLt
    omega⟩

/-- The byte that the page table of an address space gives for a virtual address. -/
def Machine.byteOf (m : Machine) (space : AddrSpace) (a : ℕ) : Option Byte := do
  let e ← ((m.heap.cell space.pageTable).getD [])[a / PageSize]?
  let p := e.physicalPage.toNat * PageSize + a % PageSize
  if h : p < MemorySize then some (m.mainMemory ⟨p, h⟩) else none

namespace AddrSpace

variable {build : Build} {m m' : Machine} {executable : List Byte} {uninit noffH : NoffHeader}
  {space : AddrSpace} {seg : Segment} {frames : List (Fin NumPhysPages)} {f : Fin NumPhysPages}
  {a : ℕ}

/-! ## One segment -/

/-- Different virtual addresses have different physical ones. -/
theorem eq_of_frameAddr {g : Fin NumPhysPages} {b : ℕ} (hnodup : frames.Nodup)
    (hf : frames[a / 128]? = some f) (hg : frames[b / 128]? = some g)
    (h : (f : ℕ) * 128 + a % 128 = g * 128 + b % 128) : a = b := by
  obtain rfl : f = g := Fin.ext (by omega)
  obtain ⟨ha, hfa⟩ := List.getElem?_eq_some_iff.mp hf
  obtain ⟨hb, hfb⟩ := List.getElem?_eq_some_iff.mp hg
  have hpage : a / 128 = b / 128 := (hnodup.getElem_inj_iff).mp (hfa.trans hfb.symm)
  omega

theorem overlay_take_one (mem : Fin MemorySize → Byte) (x : Fin MemorySize) (rest : List Byte)
    (y : Fin MemorySize) :
    Machine.overlay mem (x : ℕ) (rest.take 1) y = if y = x then rest[0]?.getD (mem y) else mem y := by
  by_cases heq : y = x
  · subst heq
    rw [if_pos rfl, Machine.overlay, if_pos le_rfl]
    cases rest with
    | nil => rfl
    | cons b rest => simp
  · rw [if_neg heq]
    have hne : (y : ℕ) ≠ x := fun h => heq (Fin.ext h)
    have hlen := List.length_take_le 1 rest
    by_cases hle : (x : ℕ) ≤ y
    · exact Machine.overlay_of_le (by omega)
    · exact if_neg (by omega)

/-- The loop copies the bytes `j`, …, `j + n - 1` of the segment. -/
theorem copyBytes_byte {n j : ℕ} (hnodup : frames.Nodup) (hva : 0 ≤ seg.virtualAddr.toInt)
    (hfile : 0 ≤ seg.inFileAddr.toInt) (hend : seg.virtualAddr.toInt + (j + n) ≤ 4096)
    (h : copyBytes (pages 0 frames) executable seg n j m = .ok m')
    (hf : frames[a / 128]? = some f) :
    m'.mainMemory (frameAddr f a) =
      if seg.virtualAddr.toInt + j ≤ a ∧ a < seg.virtualAddr.toInt + (j + n) then
        (seg.fileByte executable a).getD (m.mainMemory (frameAddr f a))
      else m.mainMemory (frameAddr f a) := by
  induction n generalizing j m with
  | zero =>
      cases h
      rw [if_neg (by push_cast; omega)]
  | succ n ih =>
      have hlt : seg.inFileAddr.toInt < 2 ^ 31 := BitVec.toInt_lt
      obtain ⟨x, hx⟩ := Int.eq_ofNat_of_zero_le (show 0 ≤ seg.virtualAddr.toInt + j by omega)
      rw [copyBytes, hx, i32_of_range (by omega) (by omega)] at h
      obtain ⟨e, he, h⟩ := bind_eq_ok.mp h
      obtain ⟨g, hg, hp⟩ := physicalAddress_eq he
      dsimp only at h
      rw [hp] at h
      obtain ⟨m₁, hread, h⟩ := bind_eq_ok.mp h
      obtain ⟨hpos, rfl⟩ := Machine.readAt_eq_ok hread
      -- a position that overflows would be negative
      have hposition : i32 (seg.inFileAddr.toInt + j) = seg.inFileAddr.toInt + j := by
        by_cases hover : seg.inFileAddr.toInt + j < 2 ^ 31
        · exact i32_of_range (by omega) hover
        · rw [i32, Int.bmod_def] at hpos
          split at hpos <;> omega
      rw [hposition] at h
      have hbyte := overlay_take_one m.mainMemory (frameAddr g x)
        (executable.drop (seg.inFileAddr.toInt + j).toNat) (frameAddr f a)
      rw [List.getElem?_drop, add_zero] at hbyte
      rw [ih (j := j + 1) (by push_cast at hend ⊢; omega) h]
      dsimp only
      rw [show ((g : ℕ) * 128 + x % 128 : ℕ) = ((frameAddr g x : Fin MemorySize) : ℕ) from rfl,
        hbyte]
      by_cases heq : a = x
      · subst heq
        obtain rfl : f = g := Option.some.inj (hf.symm.trans hg)
        rw [if_neg (by omega), if_pos rfl, if_pos (by push_cast; omega), Segment.fileByte]
        congr 3
        omega
      · have hne : frameAddr f a ≠ frameAddr g x := fun he =>
          heq (eq_of_frameAddr hnodup hf hg (congrArg Fin.val he))
        rw [if_neg hne]
        exact if_congr (by push_cast; omega) rfl rfl

theorem loadSegment_of_nonpos {table : List TranslationEntry} (h : seg.size.toInt ≤ 0) :
    loadSegment build table executable seg m = .ok m := by
  rw [loadSegment, if_neg (by omega)]

theorem loadSegment_byte (hbuild : build.multiThread = true) (hnodup : frames.Nodup)
    (hinside : seg.Inside 4096)
    (h : loadSegment build (pages 0 frames) executable seg m = .ok m')
    (hf : frames[a / 128]? = some f) :
    m'.mainMemory (frameAddr f a) = if seg.Covers a then
      (seg.fileByte executable a).getD (m.mainMemory (frameAddr f a))
    else m.mainMemory (frameAddr f a) := by
  by_cases hpos : 0 < seg.size.toInt
  · obtain ⟨hva, hend⟩ := hinside hpos
    have hsize : (seg.size.toNat : ℤ) = seg.size.toInt :=
      (BitVec.toInt_eq_toNat_of_lt (by rw [BitVec.toInt_eq_toNat_cond] at hpos; omega)).symm
    rw [loadSegment, if_pos hpos, if_pos hbuild] at h
    have hfile : 0 ≤ seg.inFileAddr.toInt := by
      obtain ⟨n, hn⟩ : ∃ n, seg.size.toNat = n + 1 := ⟨seg.size.toNat - 1, by omega⟩
      rw [hn, copyBytes] at h
      obtain ⟨_, _, h⟩ := bind_eq_ok.mp h
      obtain ⟨_, hread, _⟩ := bind_eq_ok.mp h
      obtain ⟨hfirst, -⟩ := Machine.readAt_eq_ok hread
      rwa [Nat.cast_zero, add_zero, i32_of_range (BitVec.le_toInt _) BitVec.toInt_lt] at hfirst
    rw [copyBytes_byte hnodup hva hfile (by push_cast at hend ⊢; omega) h hf]
    refine if_congr ?_ rfl rfl
    rw [Segment.Covers]
    push_cast
    omega
  · rw [loadSegment_of_nonpos (by omega)] at h
    cases h
    rw [if_neg]
    rintro ⟨hlo, hhi⟩
    omega

/-! ## The image -/

/-- Every byte of the address space is the one of the segment that covers it, as far as the
file has it, and 0 outside of the segments. -/
def ImageLoaded (h : NoffHeader) (executable : List Byte) (space : AddrSpace) (m : Machine) :
    Prop :=
  ∀ a < space.numPages * PageSize, ∃ x, m.byteOf space a = some x ∧
    (h.code.Covers a → ∀ b, h.code.fileByte executable a = some b → x = b) ∧
    (h.initData.Covers a → ∀ b, h.initData.fileByte executable a = some b → x = b) ∧
    (¬ h.code.Covers a → ¬ h.initData.Covers a → x = 0)

/-- The frames that the next `numPages` pages get hold zeroes outside of the segments, or they
are among the first `numPages` frames. -/
def BlankFrames (h : NoffHeader) (m : Machine) : Prop :=
  ∀ a < h.numPages * PageSize, ¬ h.code.Covers a → ¬ h.initData.Covers a →
    ∀ f, m.bitMap.free[a / 128]? = some f → (f : ℕ) < h.numPages ∨ m.mainMemory (frameAddr f a) = 0

theorem byteOf_eq (hnew : new build m executable uninit = .ok (space, m'))
    (hH : NoffHeader.readFrom executable uninit = noffH) (ha : a < noffH.numPages * PageSize)
    (hf : m.bitMap.free[a / 128]? = some f) :
    m'.byteOf space a = some (m'.mainMemory (frameAddr f a)) := by
  have hP : PageSize = 128 := rfl
  obtain ⟨-, -, rfl, -⟩ := new_eq_ok hnew hH
  have hentry : (pages 0 (m.bitMap.free.take noffH.numPages))[a / PageSize]? =
      some (pageEntry (a / 128) f) := by
    rw [hP] at ha
    rw [hP, getElem?_pages, List.getElem?_take_of_lt (by omega), hf, zero_add]
    rfl
  rw [Machine.byteOf, (new_allocated hnew hH).heap, Heap.cell_alloc_self, Option.getD_some, hentry]
  simp only [Option.bind_eq_bind, Option.bind_some, toNat_physicalPage]
  exact dif_pos (frameAddr f a).isLt

theorem mainMemory_of_new (hbuild : build.multiThread = true)
    (hnew : new build m executable uninit = .ok (space, m'))
    (hH : NoffHeader.readFrom executable uninit = noffH)
    (hcode : noffH.code.Inside (noffH.numPages * PageSize))
    (hdata : noffH.initData.Inside (noffH.numPages * PageSize))
    (ha : a < noffH.numPages * PageSize) (hf : m.bitMap.free[a / 128]? = some f) :
    ∃ old, old = (if (f : ℕ) < noffH.numPages then 0 else m.mainMemory (frameAddr f a)) ∧
      m'.mainMemory (frameAddr f a) =
        if noffH.initData.Covers a then
          (noffH.initData.fileByte executable a).getD
            (if noffH.code.Covers a then (noffH.code.fileByte executable a).getD old else old)
        else if noffH.code.Covers a then (noffH.code.fileByte executable a).getD old else old := by
  have hP : PageSize = 128 := rfl
  have hN : NumPhysPages = 32 := rfl
  obtain ⟨hle, hfree, -, m₁, hloadCode, hloadData⟩ := new_eq_ok hnew hH
  have hnodup : (m.bitMap.free.take noffH.numPages).Nodup :=
    m.bitMap.free_nodup.sublist (List.take_sublist _ _)
  have hf' : (m.bitMap.free.take noffH.numPages)[a / 128]? = some f := by
    rw [List.getElem?_take_of_lt (by rw [hP] at ha; omega), hf]
  have hwiden : ∀ seg : Segment, seg.Inside (noffH.numPages * PageSize) → seg.Inside 4096 := by
    intro seg h hpos
    obtain ⟨hlo, hhi⟩ := h hpos
    rw [hP] at hhi
    push_cast at hhi ⊢
    exact ⟨hlo, by omega⟩
  refine ⟨_, rfl, ?_⟩
  have hcleared : (cleared m noffH.numPages).mainMemory (frameAddr f a) =
      if (f : ℕ) < noffH.numPages then 0 else m.mainMemory (frameAddr f a) := by
    unfold cleared Machine.bzero
    dsimp only
    refine if_congr ?_ rfl rfl
    simp only [frameAddr, hP]
    omega
  rw [loadSegment_byte hbuild hnodup (hwiden _ hdata) hloadData hf',
    loadSegment_byte hbuild hnodup (hwiden _ hcode) hloadCode hf', hcleared]

/-- The constructor returns if its assertions hold, and it has then loaded the image exactly
if the frames held zeroes where it was needed or are among those that are cleared. -/
theorem image_loaded_iff (build : Build) (m : Machine) (executable : List Byte)
    (uninit noffH : NoffHeader) (hbuild : build.multiThread = true)
    (hH : NoffHeader.readFrom executable uninit = noffH)
    (hcode : noffH.code.Inside (noffH.numPages * PageSize))
    (hdata : noffH.initData.Inside (noffH.numPages * PageSize))
    (hapart : ∀ a, ¬ (noffH.code.Covers a ∧ noffH.initData.Covers a)) :
    (noffH.noffMagic = NOFFMAGIC → noffH.numPages ≤ NumPhysPages →
      noffH.numPages ≤ m.bitMap.free.length →
      (∀ seg, seg = noffH.code ∨ seg = noffH.initData → 0 < seg.size.toInt →
        0 ≤ seg.inFileAddr.toInt ∧ seg.inFileAddr.toInt + seg.size.toInt < 2 ^ 31) →
      ∃ space m', new build m executable uninit = .ok (space, m')) ∧
    ∀ space m', new build m executable uninit = .ok (space, m') →
      (ImageLoaded noffH executable space m' ↔ BlankFrames noffH m) := by
  have hP : PageSize = 128 := rfl
  constructor
  · intro hmagic hle hfree hfile
    have hlen : (m.bitMap.free.take noffH.numPages).length = noffH.numPages := by
      rw [List.length_take]
      omega
    have hload : ∀ seg m₀, seg = noffH.code ∨ seg = noffH.initData →
        seg.Inside (noffH.numPages * PageSize) →
        ∃ m₁, loadSegment build (pages 0 (m.bitMap.free.take noffH.numPages)) executable seg m₀ =
          .ok m₁ := by
      intro seg m₀ hseg hinside
      by_cases hpos : 0 < seg.size.toInt
      · obtain ⟨hlo, hhi⟩ := hinside hpos
        obtain ⟨hfrom, hto⟩ := hfile seg hseg hpos
        have hnat : ∀ w : Word, 0 ≤ w.toInt → (w.toNat : ℤ) = w.toInt := fun w hw =>
          (BitVec.toInt_eq_toNat_of_lt (by rw [BitVec.toInt_eq_toNat_cond] at hw; omega)).symm
        have hva := hnat _ hlo
        have hin := hnat _ hfrom
        have hsize := hnat _ hpos.le
        rw [hP] at hhi
        exact loadSegment_total build executable seg m₀ (by rw [hlen]; exact hle) (by omega)
          fun _ => ⟨by rw [hlen]; omega, by omega⟩
      · exact ⟨m₀, loadSegment_of_nonpos (by omega)⟩
    obtain ⟨m₁, h₁⟩ := hload noffH.code (cleared m noffH.numPages) (.inl rfl) hcode
    obtain ⟨m₂, h₂⟩ := hload noffH.initData m₁ (.inr rfl) hdata
    refine ⟨⟨m.heap.next, noffH.numPages⟩, m₂, ?_⟩
    rw [new_eq hH hmagic hle hfree]
    dsimp only
    rw [h₁, ok_bind, h₂, ok_bind, pure_eq_ok]
  · intro space m' hnew
    obtain ⟨-, hfree, hspace, -⟩ := new_eq_ok hnew hH
    have hpages : space.numPages = noffH.numPages := by rw [hspace]
    have hframe : ∀ a < noffH.numPages * PageSize, ∃ f, m.bitMap.free[a / 128]? = some f := by
      intro a ha
      rw [hP] at ha
      exact ⟨_, List.getElem?_eq_getElem (by omega)⟩
    constructor
    · intro himage a ha hnotCode hnotData f hf
      obtain ⟨x, hx, -, -, hzero⟩ := himage a (by rw [hpages]; exact ha)
      obtain ⟨old, hold, hmem⟩ := mainMemory_of_new hbuild hnew hH hcode hdata ha hf
      rw [byteOf_eq hnew hH ha hf, hmem, if_neg hnotData, if_neg hnotCode,
        Option.some.injEq] at hx
      have hzero := hzero hnotCode hnotData
      by_cases hlt : (f : ℕ) < noffH.numPages
      · exact .inl hlt
      · rw [if_neg hlt] at hold
        exact .inr (by rw [← hold, hx, hzero])
    · intro hblank a ha
      rw [hpages] at ha
      obtain ⟨f, hf⟩ := hframe a ha
      obtain ⟨old, hold, hmem⟩ := mainMemory_of_new hbuild hnew hH hcode hdata ha hf
      refine ⟨_, byteOf_eq hnew hH ha hf, fun hcov b hb => ?_, fun hcov b hb => ?_,
        fun hnotCode hnotData => ?_⟩
      · rw [hmem, if_neg fun h => hapart a ⟨hcov, h⟩, if_pos hcov, hb, Option.getD_some]
      · rw [hmem, if_pos hcov, hb, Option.getD_some]
      · rw [hmem, if_neg hnotData, if_neg hnotCode, hold]
        rcases hblank a ha hnotCode hnotData f hf with hlt | hzero
        · exact if_pos hlt
        · rw [hzero]
          exact ite_self _

theorem image_loaded_iff_program :
    ∃ space m', new defaultBuild freshMachine (program [1]) (programHeader []) = .ok (space, m') ∧
      ImageLoaded (programHeader [1]) (program [1]) space m' := by
  have hpages : (programHeader [1]).numPages = 9 := by decide
  obtain ⟨htotal, himage⟩ := image_loaded_iff defaultBuild freshMachine (program [1])
    (programHeader []) (programHeader [1]) rfl (program_readFrom _ _) (fun _ => by decide)
    (fun h => absurd h (by decide)) (fun a h => by
      have hsize : (programHeader [1]).initData.size.toInt = 0 := by decide
      obtain ⟨-, hlo, hhi⟩ := h
      omega)
  obtain ⟨space, m', hnew⟩ := htotal rfl (by decide)
    (by rw [freshMachine_free, List.length_finRange, hpages]; decide) (by
      rintro seg (rfl | rfl) hpos
      · decide
      · exact absurd hpos (by decide))
  exact ⟨space, m', hnew, (himage space m' hnew).mpr fun _ _ _ _ _ _ => .inr rfl⟩

/-- A machine whose first frames are in use and whose memory has been used before. -/
def usedMachine : Machine :=
  { freshMachine with
    mainMemory := fun _ => 7
    bitMap := (freshMachine.bitMap.findSeq 9).2 }

theorem usedMachine_free : usedMachine.bitMap.free = (List.finRange NumPhysPages).drop 9 := by
  rw [usedMachine, BitMap.findSeq_snd_free, freshMachine_free]

/-- The first byte of a program without segments is the one that the frame held before. -/
theorem used_frame_not_cleared :
    ∃ space m', new defaultBuild usedMachine (program []) (programHeader []) = .ok (space, m') ∧
      ¬ ImageLoaded (programHeader []) (program []) space m' := by
  have hH := program_readFrom [] (programHeader [])
  have hpages : (programHeader []).numPages = 8 := by decide
  have hnone : ∀ a, ¬ (programHeader []).code.Covers a ∧ ¬ (programHeader []).initData.Covers a := by
    have hcode : (programHeader []).code.size.toInt = 0 := by decide
    have hdata : (programHeader []).initData.size.toInt = 0 := by decide
    refine fun a => ⟨?_, ?_⟩ <;>
    · rintro ⟨hlo, hhi⟩
      omega
  obtain ⟨space, m', hnew⟩ := new_program (m := usedMachine) [] (by decide)
    (by rw [usedMachine_free, hpages]; decide) (programHeader [])
  have hf : usedMachine.bitMap.free[0 / 128]? = some 9 := by
    rw [usedMachine_free]
    decide
  obtain ⟨old, hold, hmem⟩ := mainMemory_of_new rfl hnew hH (fun h => absurd h (by decide))
    (fun h => absurd h (by decide)) (a := 0) (by rw [hpages]; decide) hf
  rw [if_neg (hnone 0).2, if_neg (hnone 0).1] at hmem
  refine ⟨space, m', hnew, fun himage => ?_⟩
  obtain ⟨-, -, hspace, -⟩ := new_eq_ok hnew hH
  obtain ⟨x, hx, -, -, hzero⟩ := himage 0 (by rw [hspace, hpages]; decide)
  rw [byteOf_eq hnew hH (by rw [hpages]; decide) hf, hmem, Option.some.injEq] at hx
  rw [hzero (hnone 0).1 (hnone 0).2, hold, hpages] at hx
  exact absurd hx (by decide)

end AddrSpace

end Nachos
