import Nachos.Verification.AddrSpace.Loading

/-! # Loading a program next to others

The constructor clears the start of physical memory instead of its own frames, so that
another program is left alone only if it has the right bytes there already. -/

namespace Nachos

open Library

/-! ## Executables -/

/-- The byte of a segment at a virtual address. -/
def Segment.byteAt (seg : Segment) (executable : List Byte) (a : ℕ) : Option Byte :=
  if seg.virtualAddr.toNat ≤ a ∧ a < seg.virtualAddr.toNat + seg.size.toNat then
    executable[seg.inFileAddr.toNat + (a - seg.virtualAddr.toNat)]?
  else none

namespace NoffHeader

/-- The byte of a program at a virtual address. -/
def image (h : NoffHeader) (executable : List Byte) (a : ℕ) : Byte :=
  (h.initData.byteAt executable a).getD ((h.code.byteAt executable a).getD 0)

/-- The segments lie in the file, follow one another from address 0 on and fit into memory
together with the stack. -/
structure WellFormed (h : NoffHeader) (executable : List Byte) : Prop where
  magic : h.noffMagic = NOFFMAGIC
  code : h.code.size ≠ 0 → h.code.virtualAddr = 0 ∧
    h.code.inFileAddr.toNat + h.code.size.toNat ≤ executable.length
  initData : h.initData.size ≠ 0 → h.initData.virtualAddr = h.code.size ∧
    h.initData.inFileAddr.toNat + h.initData.size.toNat ≤ executable.length
  size : h.code.size.toNat + h.initData.size.toNat + h.uninitData.size.toNat + UserStackSize ≤
    MemorySize
  length : executable.length < 2 ^ 31

variable {h : NoffHeader} {executable : List Byte}

/-- What is written at the start of a file is what is read from it. -/
theorem readFrom_append (h : NoffHeader) (rest : List Byte) (uninit : NoffHeader) :
    readFrom (List.ofFn (layout h) ++ rest) uninit = h := by
  have hread : (fun i : Fin (10 * 4) => (List.ofFn (layout h) ++ rest).getD i (layout uninit i)) =
      layout h := by
    funext i
    have hi : (i : ℕ) < (List.ofFn (layout h)).length := by
      rw [List.length_ofFn]
      exact i.isLt
    rw [List.getD_append _ _ _ _ hi, List.getD_eq_getElem _ _ hi, List.getElem_ofFn]
  rw [readFrom, hread, Equiv.symm_apply_apply]

theorem WellFormed.numPages (wf : h.WellFormed executable) :
    h.numPages ≤ NumPhysPages ∧ h.code.size.toNat + h.initData.size.toNat ≤ h.numPages * 128 := by
  have hsize := wf.size
  have hM : MemorySize = 4096 := rfl
  have hS : UserStackSize = 1024 := rfl
  have hN : NumPhysPages = 32 := rfl
  have heq : h.size = h.code.size.toNat + h.initData.size.toNat + h.uninitData.size.toNat + 1024 := by
    rw [NoffHeader.size, BitVec.toNat_add, BitVec.toNat_add, BitVec.toNat_add, BitVec.toNat_ofNat]
    omega
  rw [NoffHeader.numPages, show PageSize = 128 from rfl]
  split <;> omega

/-- No segment reaches behind the last page. -/
theorem WellFormed.byteAt_eq_none (wf : h.WellFormed executable) {a : ℕ}
    (ha : h.numPages * 128 ≤ a) :
    h.code.byteAt executable a = none ∧ h.initData.byteAt executable a = none := by
  obtain ⟨-, hfit⟩ := wf.numPages
  have hzero : (0 : Word).toNat = 0 := rfl
  refine ⟨if_neg fun hcode => ?_, if_neg fun hdata => ?_⟩
  · by_cases hne : h.code.size = 0
    · rw [hne] at hcode
      omega
    · rw [(wf.code hne).1] at hcode
      omega
  · by_cases hne : h.initData.size = 0
    · rw [hne] at hdata
      omega
    · rw [(wf.initData hne).1] at hdata
      omega

end NoffHeader

namespace AddrSpace

variable {build : Build} {m m' : Machine} {executable : List Byte} {uninit noffH : NoffHeader}
  {space : AddrSpace} {seg : Segment} {table : List TranslationEntry}

/-! ## The memory after loading -/

theorem loadSegment_of_zero (h : seg.size = 0) :
    loadSegment build table executable seg m = .ok m := by
  rw [loadSegment, if_neg (by rw [h]; decide)]

theorem loadSegment_of_ne (hne : seg.size ≠ 0) (hsize : seg.size.toNat < 2 ^ 31) :
    loadSegment build table executable seg m =
      if build.multiThread then copyBytes table executable seg seg.size.toNat 0 m
      else m.readAt executable seg.virtualAddr.toInt seg.size.toNat seg.inFileAddr.toInt := by
  have hpos : 0 < seg.size.toNat := by
    by_contra hle
    exact hne (BitVec.eq_of_toNat_eq (by simp; omega))
  rw [loadSegment, BitVec.toInt_eq_toNat_of_lt (by omega), if_pos (by omega)]

/-- Without `MULTI_THREAD` a segment is copied to where its virtual address says. -/
theorem loadSegment_flat (hbuild : build.multiThread = false) (hsize : seg.size.toNat < 2 ^ 31)
    (hseg : seg.size ≠ 0 → seg.virtualAddr.toNat < 2 ^ 31 ∧ seg.inFileAddr.toNat < 2 ^ 31)
    (h : loadSegment build table executable seg m = .ok m') (a : Fin MemorySize) :
    m'.mainMemory a = (seg.byteAt executable a).getD (m.mainMemory a) := by
  by_cases hzero : seg.size = 0
  · rw [loadSegment_of_zero hzero] at h
    cases h
    rw [Segment.byteAt, hzero, if_neg (by simp), Option.getD_none]
  · obtain ⟨hva, hfile⟩ := hseg hzero
    rw [loadSegment_of_ne hzero hsize, if_neg (by simp [hbuild])] at h
    obtain ⟨-, rfl⟩ := Machine.readAt_eq_ok h
    rw [BitVec.toInt_eq_toNat_of_lt (x := seg.virtualAddr) (by omega),
      BitVec.toInt_eq_toNat_of_lt (x := seg.inFileAddr) (by omega), Int.toNat_natCast]
    simp only [Machine.overlay, Segment.byteAt, Nat.cast_le]
    by_cases hle : seg.virtualAddr.toNat ≤ (a : ℕ)
    · rw [if_pos hle, show (((a : ℕ) : ℤ) - (seg.virtualAddr.toNat : ℤ)).toNat =
        (a : ℕ) - seg.virtualAddr.toNat by omega, List.getD_eq_getElem?_getD]
      by_cases hlt : (a : ℕ) < seg.virtualAddr.toNat + seg.size.toNat
      · rw [if_pos ⟨hle, hlt⟩, List.getElem?_take_of_lt (by omega), List.getElem?_drop]
      · rw [if_neg (by omega), List.getElem?_eq_none]
        have := List.length_take_le seg.size.toNat (executable.drop seg.inFileAddr.toNat)
        omega
    · rw [if_neg hle, if_neg (by omega), Option.getD_none]

/-- With `MULTI_THREAD` it is copied to the frames of the table. -/
theorem loadSegment_frame {frames : List (Fin NumPhysPages)} (hbuild : build.multiThread = true)
    (hsize : seg.size.toNat < 2 ^ 31)
    (hseg : seg.size ≠ 0 → seg.virtualAddr.toNat + seg.size.toNat < 2 ^ 31)
    (h : loadSegment build (pages 0 frames) executable seg m = .ok m') {a : Fin MemorySize}
    (ha : ∀ f ∈ frames, (a : ℕ) / PageSize ≠ f) : m'.mainMemory a = m.mainMemory a := by
  by_cases hzero : seg.size = 0
  · rw [loadSegment_of_zero hzero] at h
    cases h
    rfl
  · rw [loadSegment_of_ne hzero hsize, if_pos hbuild] at h
    exact copyBytes_frame (by have := hseg hzero; omega) h ha

theorem loadSegment_total (build : Build) (executable : List Byte) (seg : Segment)
    {frames : List (Fin NumPhysPages)} (m : Machine)
    (hframes : frames.length ≤ NumPhysPages) (hsize : seg.size.toNat < 2 ^ 31)
    (hseg : seg.size ≠ 0 →
      seg.virtualAddr.toNat + seg.size.toNat ≤ frames.length * 128 ∧
      seg.inFileAddr.toNat + seg.size.toNat < 2 ^ 31) :
    ∃ m', loadSegment build (pages 0 frames) executable seg m = .ok m' := by
  have hN : NumPhysPages = 32 := rfl
  have hM : MemorySize = 4096 := rfl
  by_cases hzero : seg.size = 0
  · exact ⟨m, loadSegment_of_zero hzero⟩
  · obtain ⟨hva, hfile⟩ := hseg hzero
    rw [loadSegment_of_ne hzero hsize]
    split
    · exact copyBytes_total m hframes (by omega) (by omega)
    · rw [BitVec.toInt_eq_toNat_of_lt (x := seg.virtualAddr) (by omega),
        BitVec.toInt_eq_toNat_of_lt (x := seg.inFileAddr) (by omega)]
      exact Machine.readAt_total m executable (by omega) (by omega) (by omega)

/-- A well-formed program is loaded if there are enough frames. -/
theorem new_total (build : Build) (hH : NoffHeader.readFrom executable uninit = noffH)
    (wf : noffH.WellFormed executable) (hfree : noffH.numPages ≤ m.bitMap.free.length) :
    ∃ space m', new build m executable uninit = .ok (space, m') := by
  have hsize := wf.size
  have hM : MemorySize = 4096 := rfl
  have hzero : (0 : Word).toNat = 0 := rfl
  obtain ⟨hle, hfit⟩ := wf.numPages
  have hlen : (m.bitMap.free.take noffH.numPages).length = noffH.numPages := by
    rw [List.length_take]
    omega
  have hlength := wf.length
  obtain ⟨m₁, hcode⟩ := loadSegment_total build executable noffH.code
    (cleared m noffH.numPages) (by rw [hlen]; exact hle) (by omega) fun hne => by
      obtain ⟨hva, hin⟩ := wf.code hne
      rw [hlen, hva, hzero]
      omega
  obtain ⟨m₂, hdata⟩ := loadSegment_total build executable noffH.initData m₁
    (by rw [hlen]; exact hle) (by omega) fun hne => by
      obtain ⟨hva, hin⟩ := wf.initData hne
      rw [hlen, hva]
      omega
  refine ⟨⟨m.heap.next, noffH.numPages⟩, m₂, ?_⟩
  rw [new_eq hH wf.magic hle hfree]
  dsimp only
  rw [hcode, ok_bind, hdata, ok_bind, pure_eq_ok]

/-- The bytes outside of the new frames: the start of the memory has been cleared and, without
`MULTI_THREAD`, overwritten with the program. -/
theorem new_memory (h : new build m executable uninit = .ok (space, m'))
    (hH : NoffHeader.readFrom executable uninit = noffH) (wf : noffH.WellFormed executable)
    {a : Fin MemorySize} (ha : ∀ f ∈ m.bitMap.free, (a : ℕ) / PageSize ≠ f) :
    m'.mainMemory a = if (a : ℕ) < noffH.numPages * PageSize then
      if build.multiThread then 0 else noffH.image executable a else m.mainMemory a := by
  have hsize := wf.size
  have hM : MemorySize = 4096 := rfl
  have hzero : (0 : Word).toNat = 0 := rfl
  have hlength := wf.length
  obtain ⟨-, -, -, m₁, hcode, hdata⟩ := new_eq_ok h hH
  have hcleared : (cleared m noffH.numPages).mainMemory a =
      if (a : ℕ) < noffH.numPages * PageSize then 0 else m.mainMemory a := by
    unfold cleared Machine.bzero
    dsimp only
  cases hbuild : build.multiThread with
  | true =>
      have ha' : ∀ f ∈ m.bitMap.free.take noffH.numPages, (a : ℕ) / PageSize ≠ f :=
        fun f hf => ha f (List.mem_of_mem_take hf)
      rw [loadSegment_frame hbuild (by omega) (fun hne => ?_) hdata ha',
        loadSegment_frame hbuild (by omega) (fun hne => ?_) hcode ha', hcleared]
      · simp only [if_true]
      · rw [(wf.code hne).1, hzero]
        omega
      · rw [(wf.initData hne).1]
        omega
  | false =>
      rw [loadSegment_flat hbuild (by omega) (fun hne => ?_) hdata,
        loadSegment_flat hbuild (by omega) (fun hne => ?_) hcode, hcleared]
      · by_cases hlt : (a : ℕ) < noffH.numPages * PageSize
        · rw [if_pos hlt, if_pos hlt, if_neg Bool.false_ne_true, NoffHeader.image]
        · obtain ⟨hcode', hdata'⟩ := wf.byteAt_eq_none (not_lt.mp hlt)
          rw [hcode', hdata', if_neg hlt, if_neg hlt]
          rfl
      · obtain ⟨hva, hin⟩ := wf.code hne
        rw [hva, hzero]
        omega
      · obtain ⟨hva, hin⟩ := wf.initData hne
        rw [hva]
        omega

/-! ## Other programs -/

/-- The bytes in the frames of the address spaces are as before. -/
def Undisturbed (live : List AddrSpace) (m m' : Machine) : Prop :=
  ∀ sp ∈ live, ∀ f ∈ m.frames sp, ∀ a : Fin MemorySize, (a : ℕ) / PageSize = f →
    m'.mainMemory a = m.mainMemory a

/-- Loading a well-formed program leaves the others alone exactly if their frames hold, as
far as they lie in the first `size` bytes of memory, zeroes or, without `MULTI_THREAD`, the
bytes of the new program at these addresses. -/
theorem new_undisturbed_iff (build : Build) (m m' : Machine) (executable : List Byte)
    (uninit : NoffHeader) (space : AddrSpace) (live : List AddrSpace)
    (hlive : ∀ sp ∈ live, ∀ f ∈ m.frames sp, m.Marked f)
    (wf : (NoffHeader.readFrom executable uninit).WellFormed executable)
    (h : new build m executable uninit = .ok (space, m')) :
    Undisturbed live m m' ↔
      ∀ sp ∈ live, ∀ f ∈ m.frames sp, ∀ a : Fin MemorySize, (a : ℕ) / PageSize = f →
        (a : ℕ) < (NoffHeader.readFrom executable uninit).numPages * PageSize →
        m.mainMemory a = if build.multiThread then 0
          else (NoffHeader.readFrom executable uninit).image executable a := by
  refine forall₂_congr fun sp hsp => forall₂_congr fun f hf => forall₂_congr fun a ha => ?_
  -- a frame in use is not one of the new frames
  have hold : ∀ g ∈ m.bitMap.free, (a : ℕ) / PageSize ≠ g := by
    rintro g hg he
    obtain ⟨hlt, hmarked⟩ := hlive sp hsp f hf
    obtain rfl : g = ⟨f, hlt⟩ := Fin.ext (he.symm.trans ha)
    rw [BitMap.mem_free.mp hg] at hmarked
    cases hmarked
  rw [new_memory h rfl wf hold]
  by_cases hlt : (a : ℕ) < (NoffHeader.readFrom executable uninit).numPages * PageSize
  · rw [if_pos hlt]
    exact ⟨fun he _ => he.symm, fun he => (he hlt).symm⟩
  · rw [if_neg hlt]
    exact iff_of_true rfl fun hlt' => absurd hlt' hlt

/-! ## Two programs -/

/-- The build of the `Makefile`. -/
def defaultBuild : Build := ⟨true, true, true⟩

def freshMachine : Machine :=
  Machine.new defaultBuild (fun _ => pageEntry 0 0) ⟨fun _ => 0⟩ 0

def programHeader (code : List Byte) : NoffHeader :=
  ⟨NOFFMAGIC, ⟨0, 40, BitVec.ofNat 32 code.length⟩, ⟨0, 0, 0⟩, ⟨0, 0, 0⟩⟩

/-- An executable with nothing but code. -/
def program (code : List Byte) : List Byte :=
  List.ofFn (NoffHeader.layout (programHeader code)) ++ code

variable {code : List Byte}

theorem program_readFrom (code : List Byte) (uninit : NoffHeader) :
    NoffHeader.readFrom (program code) uninit = programHeader code :=
  NoffHeader.readFrom_append ..

theorem length_program (code : List Byte) : (program code).length = 40 + code.length := by
  rw [program, List.length_append, List.length_ofFn]

theorem programHeader_wellFormed (h : code.length ≤ 3072) :
    (programHeader code).WellFormed (program code) where
  magic := rfl
  code _ := by
    refine ⟨rfl, ?_⟩
    rw [length_program, programHeader, BitVec.toNat_ofNat]
    exact Nat.add_le_add_left (Nat.mod_le _ _) _
  initData hne := absurd rfl hne
  size := by
    have hle := Nat.mod_le code.length (2 ^ 32)
    have hS : UserStackSize = 1024 := rfl
    have hM : MemorySize = 4096 := rfl
    have hzero : (0 : Word).toNat = 0 := rfl
    rw [programHeader, BitVec.toNat_ofNat, hzero]
    omega
  length := by
    rw [length_program]
    omega

theorem new_program (code : List Byte) (h : code.length ≤ 3072)
    (hfree : (programHeader code).numPages ≤ m.bitMap.free.length) (uninit : NoffHeader) :
    ∃ space m', new defaultBuild m (program code) uninit = .ok (space, m') :=
  new_total defaultBuild (program_readFrom code uninit) (programHeader_wellFormed h) hfree

theorem freshMachine_free : freshMachine.bitMap.free = List.finRange NumPhysPages :=
  BitMap.free_new _

theorem programHeader_size (h : code.length ≤ 3072) :
    (programHeader code).size = code.length + 1024 := by
  rw [NoffHeader.size]
  simp only [programHeader, BitVec.toNat_add, BitVec.toNat_ofNat]
  rw [show UserStackSize = 1024 from rfl, show (0 : Word).toNat = 0 from rfl]
  omega

theorem programHeader_numPages (h : code.length ≤ 128) : (programHeader code).numPages ≤ 9 := by
  rw [NoffHeader.numPages, programHeader_size (by omega), show PageSize = 128 from rfl]
  split <;> omega

/-- Two small programs fit into the memory, and the first one holds its frames. -/
theorem freshMachine_new (uninit : NoffHeader) (code code' : List Byte) (h : code.length ≤ 128)
    (h' : code'.length ≤ 128) :
    ∃ space₁ m₁ space₂ m₂,
      new defaultBuild freshMachine (program code) uninit = .ok (space₁, m₁) ∧
      (∀ f ∈ m₁.frames space₁, m₁.Marked f) ∧
      new defaultBuild m₁ (program code') uninit = .ok (space₂, m₂) := by
  have hpages := programHeader_numPages h
  have hpages' := programHeader_numPages h'
  have hlen : freshMachine.bitMap.free.length = 32 := by
    rw [freshMachine_free, List.length_finRange]
  obtain ⟨space₁, m₁, h₁⟩ :=
    new_program (m := freshMachine) _ (h.trans (by decide)) (by rw [hlen]; omega) uninit
  have hH := program_readFrom code uninit
  obtain ⟨space₂, m₂, h₂⟩ := new_program (m := m₁) _ (h'.trans (by decide)) (by
    rw [new_free h₁ hH, List.length_drop, hlen]
    omega) uninit
  refine ⟨space₁, m₁, space₂, m₂, h₁, fun f hf => ?_, h₂⟩
  rw [new_frames h₁ hH] at hf
  exact (new_marked h₁ hH f).mpr (.inr hf)

/-- Next to a program without code another one is loaded. -/
theorem new_undisturbed_iff_sample :
    ∃ space₁ m₁ space₂ m₂,
      new defaultBuild freshMachine (program []) (programHeader []) = .ok (space₁, m₁) ∧
      new defaultBuild m₁ (program [1]) (programHeader []) = .ok (space₂, m₂) ∧
      Undisturbed [space₁] m₁ m₂ := by
  obtain ⟨space₁, m₁, space₂, m₂, h₁, hmarked, h₂⟩ :=
    freshMachine_new (programHeader []) [] [1] (by decide) (by decide)
  have hzero : ∀ a, m₁.mainMemory a = 0 := by
    intro a
    obtain ⟨-, -, -, m₀, hcode, hdata⟩ := new_eq_ok h₁ (program_readFrom _ _)
    rw [loadSegment_of_zero rfl] at hcode hdata
    cases hcode
    cases hdata
    exact ite_self _
  refine ⟨space₁, m₁, space₂, m₂, h₁, h₂,
    (new_undisturbed_iff defaultBuild m₁ m₂ _ _ space₂ [space₁] ?_ ?_ h₂).mpr ?_⟩
  · exact List.forall_mem_singleton.mpr hmarked
  · rw [program_readFrom]
    exact programHeader_wellFormed (by decide)
  · exact fun _ _ _ _ a _ _ => hzero a

theorem freshMachine_firstByte {b : Byte}
    (h : new defaultBuild freshMachine (program [b]) (programHeader []) = .ok (space, m')) :
    m'.mainMemory 0 = b := by
  obtain ⟨-, -, -, m₁, hcode, hdata⟩ := new_eq_ok h (program_readFrom _ _)
  rw [loadSegment_of_zero rfl] at hdata
  cases hdata
  rw [loadSegment_of_ne (by simp [programHeader]) (by simp [programHeader]),
    if_pos (by decide)] at hcode
  have hpages : (programHeader [b]).numPages = 8 + 1 := by
    rw [NoffHeader.numPages, programHeader_size (by simp), List.length_singleton]
    decide
  obtain ⟨frames, hframes⟩ : ∃ frames,
      freshMachine.bitMap.free.take (programHeader [b]).numPages = 0 :: frames :=
    ⟨_, by rw [freshMachine_free, hpages, List.finRange_succ, List.take_succ_cons]⟩
  rw [hframes] at hcode
  generalize cleared freshMachine (programHeader [b]).numPages = c at hcode
  have hentry : Machine.entryAt (pages 0 (0 :: frames)) 0 = .ok (pageEntry 0 0) :=
    Machine.entryAt_natCast (k := 0) rfl
  change copyBytes _ _ ⟨0, 40, 1⟩ 1 0 c = _ at hcode
  rw [copyBytes] at hcode
  obtain ⟨e, he, hcode⟩ := bind_eq_ok.mp hcode
  obtain rfl := Except.ok.inj (hentry.symm.trans he)
  obtain ⟨m₁, hread, hcode⟩ := bind_eq_ok.mp hcode
  cases hcode
  obtain ⟨-, rfl⟩ := Machine.readAt_eq_ok hread
  have hbyte : ((program [b]).drop 40).take 1 = [b] := by
    rw [program, List.drop_left' (List.length_ofFn ..)]
    rfl
  change Machine.overlay c.mainMemory 0 (((program [b]).drop 40).take 1) 0 = b
  rw [hbyte]
  rfl

/-- The second of two programs clears the memory of the first one. -/
theorem second_program_clears_first :
    ∃ space₁ m₁ space₂ m₂,
      new defaultBuild freshMachine (program [1]) (programHeader []) = .ok (space₁, m₁) ∧
      (∀ f ∈ m₁.frames space₁, m₁.Marked f) ∧
      (programHeader [1]).WellFormed (program [1]) ∧
      new defaultBuild m₁ (program [1]) (programHeader []) = .ok (space₂, m₂) ∧
      ¬ Undisturbed [space₁] m₁ m₂ := by
  obtain ⟨space₁, m₁, space₂, m₂, h₁, hmarked, h₂⟩ :=
    freshMachine_new (programHeader []) [1] [1] (by decide) (by decide)
  have hH := program_readFrom [1] (programHeader [])
  have wf := programHeader_wellFormed (show [(1 : Byte)].length ≤ 3072 by decide)
  have hframe : 0 ∈ m₁.frames space₁ := by
    rw [new_frames h₁ hH, freshMachine_free]
    decide
  have hcleared : m₂.mainMemory 0 = 0 := by
    rw [new_memory h₂ hH wf, if_pos (by decide), if_pos (by decide)]
    intro f hf he
    obtain ⟨hlt, hbit⟩ := hmarked 0 hframe
    obtain rfl : f = ⟨0, hlt⟩ := Fin.ext he.symm
    rw [BitMap.mem_free.mp hf] at hbit
    cases hbit
  refine ⟨space₁, m₁, space₂, m₂, h₁, hmarked, wf, h₂, fun hsame => ?_⟩
  have hloaded := hsame space₁ (List.mem_singleton_self _) 0 hframe 0 rfl
  rw [hcleared, freshMachine_firstByte h₁] at hloaded
  exact absurd hloaded (by decide)

end AddrSpace

end Nachos
