import Nachos.Verification.AddrSpace.Isolation
import Nachos.Verification.Coff.Loading

/-! # The image of a program

What a NOFF file has to hold of the program in a COFF file, and for which files `coff2noff`
writes it. -/

namespace Nachos.Coff

open Library

variable {uninit : NoffHeader} {coff noff : List Byte} {st st' : State} {s : ScnHdr} {seg : Segment}
  {done secs : List ScnHdr}

/-! ## Specification -/

/-- The bytes of the section are in the file. Positions and lengths in files are `int`s. -/
structure InFile (coff : List Byte) (s : ScnHdr) : Prop where
  pointer : 0 ≤ s.scnptr.toInt
  size : 0 ≤ s.size.toInt
  stop : s.scnptr.toNat + s.size.toNat ≤ coff.length

/-- The NOFF file holds the bytes of the section where the segment says. -/
structure Holds (coff noff : List Byte) (seg : Segment) (s : ScnHdr) : Prop where
  virtualAddr : seg.virtualAddr = s.paddr
  size : seg.size = s.size
  inFile : InFile coff s
  inFileAddr : 0 ≤ seg.inFileAddr.toInt
  bytes : (noff.drop seg.inFileAddr.toNat).take s.size.toNat =
    (coff.drop s.scnptr.toNat).take s.size.toNat

/-- The section is not empty and has the given name. -/
def Text (s : ScnHdr) : Bool := decide (s.size ≠ 0 ∧ s.kind = .text)

def Init (s : ScnHdr) : Bool := decide (s.size ≠ 0 ∧ (s.kind = .data ∨ s.kind = .rdata))

/-- The NOFF file has the header `h` and describes the program in the COFF file. -/
structure Image (coff noff : List Byte) (h : NoffHeader) : Prop where
  header : ∀ u, NoffHeader.readFrom noff u = h
  magic : h.noffMagic = NOFFMAGIC
  code : ∀ s ∈ sections coff, Text s = true → Holds coff noff h.code s
  initData : ∀ s ∈ sections coff, Init s = true → Holds coff noff h.initData s
  uninitData : ∀ x : ℤ, (h.uninitData.virtualAddr.toNat ≤ x ∧
      x < h.uninitData.virtualAddr.toNat + h.uninitData.size.toNat) ↔
    ∃ s ∈ sections coff, Uninit s = true ∧ s.paddr.toNat ≤ x ∧ x < s.paddr.toNat + s.size.toNat

/-- The files that are considered: sections of the known names whose ranges do not overlap,
with at most one `.text`. -/
structure WellFormed (coff : List Byte) : Prop where
  names : ∀ s ∈ sections coff, s.kind ≠ .unknown
  disjoint : ((sections coff).filter fun s => decide (s.size ≠ 0)).Pairwise
    fun s t => Apart (range s) (range t)
  text : ((sections coff).filter Text).length ≤ 1

/-- The state before the loop. -/
def before (uninit : NoffHeader) (coff : List Byte) : State :=
  initialState uninit (filehdrSize + aouthdrSize + scnhdrSize * numSections coff)

/-- Without its uninitialized data the file would be accepted. -/
def Loadable (uninit : NoffHeader) (coff : List Byte) : Prop :=
  checkHeaders coff = .ok () ∧ ∃ st,
    loadSections coff ((sections coff).filter fun s => !Uninit s) (before uninit coff) = .ok st

/-- The section is to be copied. -/
def Bytes (s : ScnHdr) : Bool := Text s || Init s

/-- The code and the initialized data of the file. -/
def copiedSections (coff : List Byte) : List ScnHdr := (sections coff).filter Bytes

/-- The uninitialized data of the file. -/
def uninitSections (coff : List Byte) : List ScnHdr := (sections coff).filter Uninit

/-- The sections have positions and lengths that are not negative, also if they are put one
behind the other, from `start` on. -/
def Fits (start : ℤ) : List ScnHdr → Prop
  | [] => True
  | s :: rest => 0 ≤ s.scnptr.toInt ∧ 0 ≤ s.size.toInt ∧ start < 2 ^ 31 ∧
      Fits (start + s.size.toNat) rest

/-- The second section starts where the first one ends. -/
structure Adjacent (s t : ScnHdr) : Prop where
  start : t.paddr.toNat = s.paddr.toNat + s.size.toNat
  stop : t.paddr.toNat + t.size.toNat ≤ 2 ^ 32
  size : s.size.toNat + t.size.toNat < 2 ^ 32

/-- The only peculiarity of the file is a `.bss` that starts where its `.sbss` ends. -/
def Peculiar (uninit : NoffHeader) (coff : List Byte) : Prop :=
  Loadable uninit coff ∧ Fits 40 (copiedSections coff) ∧
    ∃ s t, s.kind = .sbss ∧ t.kind = .bss ∧ Adjacent s t ∧
      (uninitSections coff = [s, t] ∨ uninitSections coff = [t, s])

/-- What is expected of the conversion of a file. -/
def Correct (uninit : NoffHeader) (coff : List Byte) : Prop :=
  (∀ noff, coff2noff uninit coff = .ok noff → ∃ h, Image coff noff h) ∧
    (Peculiar uninit coff → ∃ noff, coff2noff uninit coff = .ok noff)

/-! ## One turn of the loop -/

theorem text_iff : Text s = true ↔ s.size ≠ 0 ∧ s.kind = .text := decide_eq_true_iff

theorem init_iff : Init s = true ↔ s.size ≠ 0 ∧ (s.kind = .data ∨ s.kind = .rdata) :=
  decide_eq_true_iff

theorem text_eq_false (h : s.size = 0 ∨ s.kind ≠ .text) : Text s = false :=
  decide_eq_false fun ht => h.elim ht.1 fun hk => hk ht.2

theorem init_eq_false (h : s.size = 0 ∨ s.kind ≠ .data ∧ s.kind ≠ .rdata) : Init s = false :=
  decide_eq_false fun hi => h.elim hi.1 fun hk => hi.2.elim hk.1 hk.2

/-- A section is code, initialized data, or nothing that is copied. -/
inductive Turn (coff : List Byte) (s : ScnHdr) (st st' : State) : Prop where
  | skip (seg : Segment) (htext : Text s = false) (hinit : Init s = false)
      (h : st' = st.setUninit seg)
  | text {seg st₁} (htext : Text s = true) (hinit : Init s = false)
      (hcopy : copySection coff s st = .ok (seg, st₁))
      (h : st' = { st₁ with noffH := { st₁.noffH with code := seg } })
  | init {seg st₁} (htext : Text s = false) (hinit : Init s = true)
      (hnone : st.noffH.initData.size = 0) (hcopy : copySection coff s st = .ok (seg, st₁))
      (h : st' = { st₁ with noffH := { st₁.noffH with initData := seg } })

theorem turn (h : loadSection coff st s = .ok st') : Turn coff s st st' := by
  by_cases hzero : s.size = 0
  · rw [loadSection, if_pos hzero] at h
    exact .skip st.noffH.uninitData (text_eq_false (.inl hzero)) (init_eq_false (.inl hzero))
      (Except.ok.inj h).symm
  have huninit : s.kind = .bss ∨ s.kind = .sbss → Turn coff s st st' := by
    intro hkind
    rw [loadSection_uninit (uninit_iff.mpr ⟨hzero, hkind⟩)] at h
    cases hmerge : mergeSection st.noffH.uninitData s with
    | error e =>
        rw [hmerge] at h
        cases h
    | ok seg =>
        rw [hmerge] at h
        refine .skip seg (text_eq_false (.inr ?_)) (init_eq_false (.inr ⟨?_, ?_⟩))
          (Except.ok.inj h).symm
        all_goals
          rcases hkind with hkind | hkind <;> simp [hkind]
  have hdata : s.kind = .data ∨ s.kind = .rdata →
      (if st.noffH.initData.size ≠ 0 then .error .bothData else do
        let r ← copySection coff s st
        return { r.2 with noffH := { r.2.noffH with initData := r.1 } }) = Except.ok st' →
      Turn coff s st st' := by
    intro hkind h
    have htext : Text s = false := by
      refine text_eq_false (.inr ?_)
      rcases hkind with hkind | hkind <;> simp [hkind]
    split at h
    · cases h
    · rename_i hnone
      obtain ⟨⟨seg, st₁⟩, hcopy, h⟩ := bind_eq_ok.mp h
      exact .init htext (init_iff.mpr ⟨hzero, hkind⟩) (not_not.mp hnone) hcopy (Except.ok.inj h).symm
  rw [loadSection, if_neg hzero] at h
  cases hkind : s.kind with
  | text =>
      rw [hkind] at h
      obtain ⟨⟨seg, st₁⟩, hcopy, h⟩ := bind_eq_ok.mp h
      exact .text (text_iff.mpr ⟨hzero, hkind⟩) (init_eq_false (.inr (by simp [hkind]))) hcopy
        (Except.ok.inj h).symm
  | data =>
      rw [hkind] at h
      exact hdata (.inl hkind) h
  | rdata =>
      rw [hkind] at h
      exact hdata (.inr hkind) h
  | bss => exact huninit (.inl hkind)
  | sbss => exact huninit (.inr hkind)
  | unknown =>
      rw [hkind] at h
      cases h

/-- What is recorded of a copied section, whatever its header says. -/
theorem copySection_records (h : copySection coff s st = .ok (seg, st')) :
    seg = ⟨s.paddr, st.inNoffFile, s.size⟩ ∧ st'.noffH = st.noffH ∧
      st'.inNoffFile = st.inNoffFile + s.size := by
  unfold copySection at h
  obtain ⟨⟨buffer, position⟩, -, h⟩ := bind_eq_ok.mp h
  obtain ⟨rfl, rfl⟩ := Prod.mk.inj (Except.ok.inj h)
  exact ⟨rfl, rfl, rfl⟩

/-! ## Copied sections -/

theorem copySection_output (hsize : 0 ≤ s.size.toInt) (hptr : 0 ≤ s.scnptr.toInt)
    (h : copySection coff s st = .ok (seg, st')) :
    InFile coff s ∧ st'.output = st.output ++ (coff.drop s.scnptr.toNat).take s.size.toNat := by
  have hsize' := toInt_of_nonneg hsize
  unfold copySection at h
  rw [if_neg (not_lt.mpr hptr)] at h
  obtain ⟨⟨buffer, position⟩, hread, h⟩ := bind_eq_ok.mp h
  obtain ⟨rfl, rfl⟩ := Prod.mk.inj (Except.ok.inj h)
  unfold read at hread
  rw [if_neg (by omega)] at hread
  split at hread
  · rename_i hfits
    obtain ⟨rfl, rfl⟩ := Prod.mk.inj (Except.ok.inj hread)
    rw [hsize'] at hfits
    refine ⟨⟨hptr, hsize, by omega⟩, ?_⟩
    rw [hsize', Int.toNat_natCast]
  · cases hread

theorem Holds.append (h : Holds coff noff seg s) (more : List Byte) :
    Holds coff (noff ++ more) seg s := by
  refine ⟨h.virtualAddr, h.size, h.inFile, h.inFileAddr, ?_⟩
  have hlen := congrArg List.length h.bytes
  simp only [List.length_take, List.length_drop] at hlen
  have hin := h.inFile.stop
  rw [← h.bytes]
  rcases Nat.eq_zero_or_pos s.size.toNat with hzero | hpos
  · simp [hzero]
  · rw [List.drop_append_of_le_length (by omega), List.take_append_of_le_length]
    rw [List.length_drop]
    omega

/-- What the loop has copied, behind any header. -/
structure Copied (coff : List Byte) (done : List ScnHdr) (st : State) : Prop where
  magic : st.noffH.noffMagic = NOFFMAGIC
  place : st.inNoffFile = Word.ofInt (40 + st.output.length)
  length : (st.output.length : ℤ) = total ((done.filter Bytes).map range)
  code : ∀ s ∈ done, Text s = true → ∀ front : List Byte, front.length = 40 →
    Holds coff (front ++ st.output) st.noffH.code s
  initData : ∀ s ∈ done, Init s = true → ∀ front : List Byte, front.length = 40 →
    Holds coff (front ++ st.output) st.noffH.initData s
  noData : st.noffH.initData.size = 0 → ∀ s ∈ done, Init s = false

theorem ofInt_add (x : ℤ) (w : Word) : Word.ofInt x + w = Word.ofInt (x + w.toNat) := by
  rw [Word.ofInt, Word.ofInt, BitVec.ofInt_add, BitVec.ofInt_natCast, BitVec.ofNat_toNat,
    BitVec.setWidth_eq]

theorem toInt_ofInt_nonneg_iff {x : ℤ} (hlo : 0 ≤ x) (hhi : x < 2 ^ 32) :
    0 ≤ (Word.ofInt x).toInt ↔ x < 2 ^ 31 := by
  rw [Word.ofInt, BitVec.toInt_ofInt, Int.bmod_def]
  split <;> omega

theorem Copied.copy (hc : Copied coff done st) (hsize : 0 ≤ s.size.toInt)
    (hptr : 0 ≤ s.scnptr.toInt) (hplace : (40 : ℤ) + st.output.length < 2 ^ 31)
    (h : copySection coff s st = .ok (seg, st')) :
    st'.noffH = st.noffH ∧ st'.inNoffFile = Word.ofInt (40 + st'.output.length) ∧
      seg.size = s.size ∧ (st'.output.length : ℤ) = st.output.length + s.size.toNat ∧
      (∃ chunk, st'.output = st.output ++ chunk) ∧
      ∀ front : List Byte, front.length = 40 → Holds coff (front ++ st'.output) seg s := by
  obtain ⟨rfl, hnoff, hnext⟩ := copySection_records h
  obtain ⟨hin, hout⟩ := copySection_output hsize hptr h
  have hstop := hin.stop
  have hchunk : ((coff.drop s.scnptr.toNat).take s.size.toNat).length = s.size.toNat := by
    rw [List.length_take, List.length_drop]
    omega
  have hlength : (st'.output.length : ℤ) = st.output.length + s.size.toNat := by
    rw [hout, List.length_append, hchunk]
    push_cast
    rfl
  have hat : st.inNoffFile.toInt = 40 + st.output.length := by
    rw [hc.place]
    exact toInt_ofInt (by omega) hplace
  refine ⟨hnoff, ?_, rfl, hlength, ⟨_, hout⟩, fun front hfront => ⟨rfl, rfl, hin, ?_, ?_⟩⟩
  · rw [hnext, hc.place, ofInt_add, hlength, add_assoc]
  · rw [hat]
    omega
  · have hnat : st.inNoffFile.toNat = (front ++ st.output).length := by
      have hpos := toInt_of_nonneg (x := st.inNoffFile) (by rw [hat]; omega)
      rw [List.length_append, hfront]
      omega
    rw [hout, ← List.append_assoc, hnat, List.drop_left, List.take_take, Nat.min_self]

/-- A list with at most one element of some kind has none before or after one. -/
theorem forall_of_filter_le_one {p : ScnHdr → Bool} {rest : List ScnHdr} {a : ScnHdr}
    (h : ((done ++ a :: rest).filter p).length ≤ 1) (ha : p a = true) :
    ∀ x ∈ done ++ rest, p x = false := by
  intro x hx
  by_contra hpx
  have hx' : x ∈ (done ++ rest).filter p := List.mem_filter.mpr ⟨hx, by simpa using hpx⟩
  have hpos := List.length_pos_of_mem hx'
  rw [List.filter_append, List.length_append] at hpos
  rw [List.filter_append, List.filter_cons_of_pos ha, List.length_append, List.length_cons] at h
  omega

/-- What is appended does not matter for what is there already. -/
theorem Holds.grow {out out' : List Byte} (hout : ∃ chunk, out' = out ++ chunk)
    (h : ∀ front : List Byte, front.length = 40 → Holds coff (front ++ out) seg s) :
    ∀ front : List Byte, front.length = 40 → Holds coff (front ++ out') seg s := by
  obtain ⟨chunk, rfl⟩ := hout
  intro front hfront
  rw [← List.append_assoc]
  exact (h front hfront).append chunk

theorem Copied.step {rest : List ScnHdr} (htexts : ((done ++ s :: rest).filter Text).length ≤ 1)
    (hfits : Text s = true ∨ Init s = true →
      0 ≤ s.scnptr.toInt ∧ 0 ≤ s.size.toInt ∧ (40 : ℤ) + st.output.length < 2 ^ 31)
    (hc : Copied coff done st) (h : loadSection coff st s = .ok st') :
    Copied coff (done ++ [s]) st' := by
  have hone : ∀ out : List Byte, (out.length : ℤ) = st.output.length + s.size.toNat →
      Bytes s = true → (out.length : ℤ) = total (((done ++ [s]).filter Bytes).map range) := by
    intro out hout hs
    rw [hout, hc.length, List.filter_append, List.filter_cons_of_pos hs]
    simp [total, range]
  cases turn h with
  | skip seg htext hinit h =>
      subst h
      refine ⟨hc.magic, hc.place, ?_, ?_, ?_, fun hd => ?_⟩
      · rw [List.filter_append, List.filter_cons_of_neg (by simp [Bytes, htext, hinit]), List.filter_nil,
          List.append_nil]
        exact hc.length
      all_goals
        simp only [List.forall_mem_append, List.forall_mem_singleton, htext, hinit,
          Bool.false_eq_true, false_imp_iff, and_true]
      · exact hc.code
      · exact hc.initData
      · exact hc.noData hd
  | text htext hinit hcopy h =>
      subst h
      obtain ⟨hptr, hsize, hplace⟩ := hfits (.inl htext)
      have hnone := forall_of_filter_le_one htexts htext
      obtain ⟨hnoff, hplace', -, hlength, hout, hhold⟩ := hc.copy hsize hptr hplace hcopy
      refine ⟨?_, hplace', hone _ hlength (by simp [Bytes, htext]), ?_, ?_, fun hd => ?_⟩
      · rw [hnoff]
        exact hc.magic
      all_goals simp only [List.forall_mem_append, List.forall_mem_singleton]
      · refine ⟨fun t ht ht' => ?_, fun _ => hhold⟩
        rw [hnone t (List.mem_append_left _ ht)] at ht'
        cases ht'
      · refine ⟨fun t ht hi => ?_, fun hi => absurd hi (by simp [hinit])⟩
        rw [hnoff]
        exact Holds.grow hout (hc.initData t ht hi)
      · rw [hnoff] at hd
        exact ⟨hc.noData hd, hinit⟩
  | init htext hinit hnone hcopy h =>
      subst h
      obtain ⟨hptr, hsize, hplace⟩ := hfits (.inr hinit)
      obtain ⟨hnoff, hplace', hsame, hlength, hout, hhold⟩ := hc.copy hsize hptr hplace hcopy
      refine ⟨?_, hplace', hone _ hlength (by simp [Bytes, hinit]), ?_, ?_, fun hd => ?_⟩
      · rw [hnoff]
        exact hc.magic
      all_goals simp only [List.forall_mem_append, List.forall_mem_singleton]
      · refine ⟨fun t ht hi => ?_, fun hi => absurd hi (by simp [htext])⟩
        rw [hnoff]
        exact Holds.grow hout (hc.code t ht hi)
      · exact ⟨fun t ht hi => absurd hi (by simp [hc.noData hnone t ht]), fun _ => hhold⟩
      · exact absurd (hsame.symm.trans hd) (init_iff.mp hinit).1

theorem Fits.append {start : ℤ} {l l' : List ScnHdr} (h : Fits start (l ++ l')) :
    Fits (start + total (l.map range)) l' := by
  induction l generalizing start with
  | nil => simpa using h
  | cons s l ih =>
      rw [List.map_cons, total_cons, ← add_assoc]
      exact ih h.2.2.2

/-- The loop copies the code and the initialized data. -/
theorem WellFormed.copied (w : WellFormed coff) (hfits : Fits 40 (copiedSections coff))
    (h : loadSections coff (sections coff) (before uninit coff) = .ok st) :
    Copied coff (sections coff) st := by
  refine foldlM_invariant (I := Copied coff) ?_ h ⟨rfl, rfl, rfl, by simp, by simp, by simp⟩
  intro done s rest st st' hall hc hload
  have htexts := w.text
  rw [hall] at htexts
  refine hc.step htexts (fun hs => ?_) hload
  have hmem : Bytes s = true := by simpa [Bytes] using hs
  rw [copiedSections, hall, List.filter_append, List.filter_cons_of_pos hmem] at hfits
  obtain ⟨hptr, hsize, hplace, -⟩ := hfits.append
  rw [← hc.length] at hplace
  exact ⟨hptr, hsize, hplace⟩

/-! ## Sections that do not fit -/

theorem Turn.code_eq (h : Turn coff s st st') (hs : Text s = false) :
    st'.noffH.code = st.noffH.code := by
  cases h with
  | skip _ _ _ h =>
      subst h
      rfl
  | text htext => simp [hs] at htext
  | init _ _ _ hcopy h =>
      subst h
      rw [(copySection_records hcopy).2.1]

theorem Turn.initData_eq (h : Turn coff s st st') (hs : st.noffH.initData.size ≠ 0) :
    st'.noffH.initData = st.noffH.initData := by
  cases h with
  | skip _ _ _ h =>
      subst h
      rfl
  | text _ _ hcopy h =>
      subst h
      rw [(copySection_records hcopy).2.1]
  | init _ _ hnone => exact absurd hnone hs

theorem loadSections_cons (h : loadSections coff (s :: secs) st = .ok st') :
    ∃ st₁, Turn coff s st st₁ ∧ loadSections coff secs st₁ = .ok st' := by
  rw [loadSections, List.foldlM_cons] at h
  obtain ⟨st₁, hs, hrest⟩ := bind_eq_ok.mp h
  exact ⟨st₁, turn hs, hrest⟩

/-- The code that is recorded last stays. -/
theorem loadSections_code (hsecs : ∀ s ∈ secs, Text s = false)
    (h : loadSections coff secs st = .ok st') : st'.noffH.code = st.noffH.code := by
  induction secs generalizing st with
  | nil =>
      rw [← Except.ok.inj h]
  | cons s secs ih =>
      obtain ⟨st₁, hturn, hrest⟩ := loadSections_cons h
      rw [ih (fun t ht => hsecs t (List.mem_cons_of_mem s ht)) hrest,
        hturn.code_eq (hsecs s List.mem_cons_self)]

/-- So does initialized data that is not empty. -/
theorem loadSections_initData (hs : st.noffH.initData.size ≠ 0)
    (h : loadSections coff secs st = .ok st') : st'.noffH.initData = st.noffH.initData := by
  induction secs generalizing st with
  | nil =>
      rw [← Except.ok.inj h]
  | cons s secs ih =>
      obtain ⟨st₁, hturn, hrest⟩ := loadSections_cons h
      have hsame := hturn.initData_eq hs
      rw [ih (hsame ▸ hs) hrest, hsame]

/-- If the file is accepted and all sections are held, then they fit. -/
theorem fits_of_holds {start : ℤ} (hlo : 0 ≤ start) (hhi : start < 2 ^ 32)
    (hplace : st.inNoffFile = Word.ofInt start) (htexts : (secs.filter Text).length ≤ 1)
    (h : loadSections coff secs st = .ok st')
    (hcode : ∀ s ∈ secs, Text s = true → Holds coff noff st'.noffH.code s)
    (hdata : ∀ s ∈ secs, Init s = true → Holds coff noff st'.noffH.initData s) :
    Fits start (secs.filter Bytes) := by
  induction secs generalizing st start with
  | nil => trivial
  | cons s secs ih =>
      obtain ⟨st₁, hturn, hrest⟩ := loadSections_cons h
      have htexts' : (secs.filter Text).length ≤ 1 :=
        ((List.sublist_cons_self s secs).filter Text).length_le.trans htexts
      -- the section is copied to `start`
      have hcopied : ∀ {seg : Segment}, Bytes s = true → Holds coff noff seg s →
          seg.inFileAddr = st.inNoffFile → st₁.inNoffFile = st.inNoffFile + s.size →
          Fits start ((s :: secs).filter Bytes) := by
        intro seg hs hhold haddr hnext
        have hsize := toInt_of_nonneg hhold.inFile.size
        have hlt := BitVec.toInt_lt (x := s.size)
        have hstart : start < 2 ^ 31 := by
          rw [← toInt_ofInt_nonneg_iff hlo hhi, ← hplace, ← haddr]
          exact hhold.inFileAddr
        rw [List.filter_cons_of_pos hs]
        refine ⟨hhold.inFile.pointer, hhold.inFile.size, hstart, ?_⟩
        exact ih (by omega) (by omega) (by rw [hnext, hplace, ofInt_add]) htexts' hrest
          (fun t ht => hcode t (List.mem_cons_of_mem s ht))
          (fun t ht => hdata t (List.mem_cons_of_mem s ht))
      cases hturn with
      | skip seg htext hinit h =>
          subst h
          rw [List.filter_cons_of_neg (by simp [Bytes, htext, hinit])]
          have hplace' : (st.setUninit seg).inNoffFile = Word.ofInt start := hplace
          exact ih hlo hhi hplace' htexts' hrest (fun t ht => hcode t (List.mem_cons_of_mem s ht))
            (fun t ht => hdata t (List.mem_cons_of_mem s ht))
      | text htext hinit hcopy h =>
          subst h
          obtain ⟨rfl, -, hnext⟩ := copySection_records hcopy
          have hnone : ∀ t ∈ [] ++ secs, Text t = false := forall_of_filter_le_one htexts htext
          have hlast := loadSections_code hnone hrest
          refine hcopied (by simp [Bytes, htext]) (hcode s List.mem_cons_self htext) ?_ hnext
          rw [hlast]
      | init htext hinit hnone hcopy h =>
          subst h
          obtain ⟨rfl, -, hnext⟩ := copySection_records hcopy
          have hlast := loadSections_initData (init_iff.mp hinit).1 hrest
          refine hcopied (by simp [Bytes, hinit]) (hdata s List.mem_cons_self hinit) ?_ hnext
          rw [hlast]

/-! ## Acceptance -/

theorem size_ne_zero (coff : List Byte) : ∀ s ∈ uninitSections coff, s.size ≠ 0 := by
  intro s hs
  exact (uninit_iff.mp (List.mem_filter.mp hs).2).1

theorem WellFormed.uninit_apart (w : WellFormed coff) :
    ((uninitSections coff).map range).Pairwise Apart := by
  have hfilter : uninitSections coff =
      ((sections coff).filter fun s => decide (s.size ≠ 0)).filter Uninit := by
    rw [uninitSections, List.filter_filter]
    refine List.filter_congr fun s _ => ?_
    rw [Bool.eq_iff_iff, Bool.and_eq_true, decide_eq_true_iff, uninit_iff]
    exact ⟨fun h => ⟨h, h.1⟩, fun h => h.1⟩
  rw [List.pairwise_map, hfilter]
  exact w.disjoint.filter _

theorem coff2noff_eq_ok : coff2noff uninit coff = .ok noff ↔
    checkHeaders coff = .ok () ∧ ∃ st seg,
      loadSections coff ((sections coff).filter fun s => !Uninit s) (before uninit coff) = .ok st ∧
      (uninitSections coff).foldlM mergeSection (before uninit coff).noffH.uninitData = .ok seg ∧
      loadSections coff (sections coff) (before uninit coff) = .ok (st.setUninit seg) ∧
      noff = List.ofFn (NoffHeader.layout (st.setUninit seg).noffH) ++ st.output := by
  unfold coff2noff
  simp only [bind_eq_ok, pure_eq_ok, Except.ok.injEq]
  constructor
  · rintro ⟨_, hcheck, st', hload, rfl⟩
    obtain ⟨st, seg, hrest, hmerge, rfl⟩ := loadSections_eq_ok.mp hload
    exact ⟨hcheck, st, seg, hrest, hmerge, hload, rfl⟩
  · rintro ⟨hcheck, st, seg, hrest, hmerge, hload, rfl⟩
    exact ⟨(), hcheck, _, hload, rfl⟩

/-- No test of the loop applies to the sections. -/
def Accepted (secs : List ScnHdr) : Prop := Spread 0 0 secs

/-- The sections lie in a range that begins with the first one and is as long as all of them
together, and that length is a word. -/
def Filled : List ScnHdr → Prop
  | [] => True
  | first :: rest => total ((first :: rest).map range) < 2 ^ 32 ∧
      ∀ i ∈ (first :: rest).map range, first.paddr.toNat ≤ i.1 ∧
        i.1 + i.2 ≤ first.paddr.toNat + total ((first :: rest).map range)

/-- A `.sbss` and directly behind it a `.bss`. -/
def SbssThenBss (secs : List ScnHdr) : Prop :=
  ∃ s t, secs = [s, t] ∧ s.kind = .sbss ∧ t.kind = .bss ∧ Adjacent s t

/-- The start of an empty range does not matter. -/
theorem accepted_iff (first : Word) : Spread first 0 secs ↔ Accepted secs := by
  cases secs with
  | nil => exact Iff.rfl
  | cons s secs => simp only [Accepted, Spread, if_true]

/-- The file is accepted exactly if its parts are. -/
theorem coff2noff_ok_iff : (∃ noff, coff2noff uninit coff = .ok noff) ↔
    Loadable uninit coff ∧ Accepted (uninitSections coff) := by
  rw [← accepted_iff (before uninit coff).noffH.uninitData.virtualAddr,
    show (0 : Word) = (before uninit coff).noffH.uninitData.size from rfl, ← mergeSections_iff]
  constructor
  · rintro ⟨noff, hnoff⟩
    obtain ⟨hcheck, st, seg, hrest, hmerge, -⟩ := coff2noff_eq_ok.mp hnoff
    exact ⟨⟨hcheck, st, hrest⟩, seg, hmerge⟩
  · rintro ⟨⟨hcheck, st, hrest⟩, seg, hmerge⟩
    have hall := loadSections_eq_ok.mpr ⟨st, seg, hrest, hmerge, rfl⟩
    exact ⟨_, coff2noff_eq_ok.mpr ⟨hcheck, st, seg, hrest, hmerge, hall, rfl⟩⟩

/-! ## Uninitialized data -/

/-- The recorded range is the union of the sections. -/
def Recorded (coff : List Byte) (seg : Segment) : Prop :=
  ∀ x : ℤ, (seg.virtualAddr.toNat ≤ x ∧ x < seg.virtualAddr.toNat + seg.size.toNat) ↔
    ∃ s ∈ sections coff, Uninit s = true ∧ s.paddr.toNat ≤ x ∧ x < s.paddr.toNat + s.size.toNat

theorem recorded_iff : Recorded coff seg ↔
    cover ((uninitSections coff).map range) =
      Finset.Ico (seg.virtualAddr.toNat : ℤ) (seg.virtualAddr.toNat + seg.size.toNat) := by
  rw [Finset.ext_iff]
  refine forall_congr' fun x => ?_
  have hmem : x ∈ cover ((uninitSections coff).map range) ↔ ∃ s ∈ sections coff,
      Uninit s = true ∧ s.paddr.toNat ≤ x ∧ x < s.paddr.toNat + s.size.toNat := by
    rw [mem_cover]
    constructor
    · rintro ⟨i, hi, hx⟩
      obtain ⟨s, hs, rfl⟩ := List.mem_map.mp hi
      obtain ⟨hmem, hu⟩ := List.mem_filter.mp hs
      exact ⟨s, hmem, hu, hx⟩
    · rintro ⟨s, hmem, hu, hx⟩
      exact ⟨range s, List.mem_map_of_mem (List.mem_filter.mpr ⟨hmem, hu⟩), hx⟩
  rw [hmem, Finset.mem_Ico]
  exact iff_comm

theorem range_pos (coff : List Byte) : ∀ i ∈ (uninitSections coff).map range, 0 < i.2 := by
  intro i hi
  obtain ⟨s, hs, rfl⟩ := List.mem_map.mp hi
  exact Int.natCast_pos.mpr (toNat_pos (size_ne_zero coff s hs))

/-- The recorded range is the union of the sections exactly if these fill it. -/
theorem WellFormed.recorded_iff_filled (w : WellFormed coff)
    (hmerge : (uninitSections coff).foldlM mergeSection (before uninit coff).noffH.uninitData =
      .ok seg) :
    Recorded coff seg ↔ Filled (uninitSections coff) := by
  have hpos := range_pos coff
  have hcard := card_cover (fun i hi => (hpos i hi).le) w.uninit_apart
  have hcover := cover_eq_Ico_iff hpos w.uninit_apart
  have hne := size_ne_zero coff
  rw [recorded_iff]
  cases hsecs : uninitSections coff with
  | nil =>
      rw [hsecs] at hmerge
      obtain rfl := Except.ok.inj hmerge
      simp [Filled, cover, before, initialState]
  | cons first rest =>
      rw [hsecs] at hmerge hcard hcover hne
      -- the recorded size is a word, and so must be the sum
      have hword : cover ((first :: rest).map range) =
          Finset.Ico (seg.virtualAddr.toNat : ℤ) (seg.virtualAddr.toNat + seg.size.toNat) →
          total ((first :: rest).map range) < 2 ^ 32 := by
        intro heq
        have hlt := seg.size.isLt
        rw [heq, Int.card_Ico] at hcard
        omega
      rw [Filled]
      constructor
      · intro heq
        have hsum := hword heq
        obtain ⟨haddr, hsize⟩ := mergeAll_eq hne hsum rfl hmerge
        rw [hsize, haddr] at heq
        exact ⟨hsum, (hcover _).mp heq⟩
      · rintro ⟨hsum, hin⟩
        obtain ⟨haddr, hsize⟩ := mergeAll_eq hne hsum rfl hmerge
        rw [hsize, haddr]
        exact (hcover _).mpr hin

/-! ## Which files are converted correctly -/

/-- The NOFF file is the image of the program exactly if the copied sections fit and the
uninitialized data fills its range. -/
theorem WellFormed.image_iff (w : WellFormed coff) (h : coff2noff uninit coff = .ok noff) :
    (∃ header, Image coff noff header) ↔
      Fits 40 (copiedSections coff) ∧ Filled (uninitSections coff) := by
  obtain ⟨-, st, seg, -, hmerge, hall, rfl⟩ := coff2noff_eq_ok.mp h
  rw [← w.recorded_iff_filled hmerge]
  have hread := NoffHeader.readFrom_append (st.setUninit seg).noffH st.output
  have hfront : (List.ofFn (NoffHeader.layout (st.setUninit seg).noffH)).length = 40 :=
    List.length_ofFn
  constructor
  · rintro ⟨header, himage⟩
    obtain rfl := (hread header).symm.trans (himage.header header)
    exact ⟨fits_of_holds (by decide) (by decide) rfl w.text hall himage.code himage.initData,
      himage.uninitData⟩
  · rintro ⟨hfits, hrecorded⟩
    have hc := w.copied hfits hall
    exact ⟨_, hread, hc.magic, fun s hs ht => hc.code s hs ht _ hfront,
      fun s hs hi => hc.initData s hs hi _ hfront, hrecorded⟩

theorem toNat_add_of_lt {x y : Word} (h : x.toNat + y.toNat < 2 ^ 32) :
    (x + y).toNat = x.toNat + y.toNat := by
  rw [BitVec.toNat_add]
  exact Nat.mod_eq_of_lt h

/-- A `.sbss` with the `.bss` directly behind it is refused. -/
theorem SbssThenBss.not_accepted (h : SbssThenBss (uninitSections coff)) :
    ¬ Accepted (uninitSections coff) := by
  obtain ⟨s, t, hsecs, -, -, hadj⟩ := h
  have hs := size_ne_zero coff s (by rw [hsecs]; simp)
  rw [hsecs]
  simp only [Accepted, Spread, if_true, if_neg hs]
  rintro ⟨hstop, -⟩
  refine hstop (BitVec.eq_of_toNat_eq ?_)
  have hlt := t.paddr.isLt
  rw [toNat_add_of_lt (by rw [← hadj.start]; exact hlt), hadj.start]

/-- In the other order it is accepted. -/
theorem accepted_of_adjacent {s t : ScnHdr} (hadj : Adjacent s t)
    (hsecs : uninitSections coff = [t, s]) : Accepted (uninitSections coff) := by
  have ht := size_ne_zero coff t (by rw [hsecs]; simp)
  have hs := toNat_pos (size_ne_zero coff s (by rw [hsecs]; simp))
  rw [hsecs]
  simp only [Accepted, Spread, if_true, if_neg ht, and_true]
  intro heq
  have hnat := congrArg BitVec.toNat heq
  have hstart := hadj.start
  have hsize := hadj.size
  have hlt := s.paddr.isLt
  rw [BitVec.toNat_add] at hnat
  omega

/-- A file is converted correctly unless it is accepted although a section to be copied does
not fit or the uninitialized data does not fill the range that is recorded for it, or it is
refused just because of a `.sbss` and directly behind it a `.bss`. -/
theorem coff2noff_correct_iff (uninit : NoffHeader) (coff : List Byte) (w : WellFormed coff) :
    Correct uninit coff ↔ (Loadable uninit coff →
      (Accepted (uninitSections coff) →
        Fits 40 (copiedSections coff) ∧ Filled (uninitSections coff)) ∧
      (Fits 40 (copiedSections coff) → ¬ SbssThenBss (uninitSections coff))) := by
  constructor
  · rintro ⟨himage, haccept⟩ hload
    constructor
    · intro haccepted
      obtain ⟨noff, hnoff⟩ := coff2noff_ok_iff.mpr ⟨hload, haccepted⟩
      exact (w.image_iff hnoff).mp (himage noff hnoff)
    · intro hfits hpair
      obtain ⟨s, t, hsecs, hs, ht, hadj⟩ := id hpair
      have hok := haccept ⟨hload, hfits, s, t, hs, ht, hadj, .inl hsecs⟩
      exact hpair.not_accepted (coff2noff_ok_iff.mp hok).2
  · intro hcond
    constructor
    · intro noff hnoff
      obtain ⟨hload, haccepted⟩ := coff2noff_ok_iff.mp ⟨noff, hnoff⟩
      exact (w.image_iff hnoff).mpr ((hcond hload).1 haccepted)
    · rintro ⟨hload, hfits, s, t, hs, ht, hadj, hsecs | hsecs⟩
      · exact absurd ⟨s, t, hsecs, hs, ht, hadj⟩ ((hcond hload).2 hfits)
      · exact coff2noff_ok_iff.mpr ⟨hload, accepted_of_adjacent hadj hsecs⟩

/-! ## Examples -/

def wordBytes (w : Word) : List Byte := List.ofFn (wordLayout w)

/-- A file with the given sections and, behind their headers, the given bytes. -/
def coffFile (secs : List ScnHdr) (bytes : List Byte) : List Byte :=
  [0x62, 0x01, BitVec.ofNat 8 secs.length, 0] ++ List.replicate 16 0 ++
    ([0x07, 0x01] ++ List.replicate 54 0) ++
    secs.flatMap (fun s => s.name ++ wordBytes s.paddr ++ wordBytes s.paddr ++ wordBytes s.size ++
      wordBytes s.scnptr ++ List.replicate 16 0) ++ bytes

def noHeader : NoffHeader := ⟨0, ⟨0, 0, 0⟩, ⟨0, 0, 0⟩, ⟨0, 0, 0⟩⟩

/-- Four bytes of code and 16 bytes of uninitialized data. -/
def plainSections : List ScnHdr :=
  [⟨ascii ".text" ++ [0, 0, 0], 0, 4, 156⟩, ⟨ascii ".bss" ++ [0, 0, 0, 0], 4, 16, 0⟩]

def plainFile : List Byte := coffFile plainSections [0xde, 0xad, 0xbe, 0xef]

theorem plainFile_sections : sections plainFile = plainSections := by decide +kernel

theorem plainFile_wellFormed : WellFormed plainFile := by
  constructor <;> rw [plainFile_sections]
  · decide
  · refine List.pairwise_pair.mpr (apart_of_le ?_)
    decide
  · decide

theorem coff2noff_correct_iff_plainFile :
    (∃ noff, coff2noff noHeader plainFile = .ok noff) ∧ Correct noHeader plainFile := by
  have hcopied : copiedSections plainFile = [⟨ascii ".text" ++ [0, 0, 0], 0, 4, 156⟩] := by
    rw [copiedSections, plainFile_sections]
    decide
  have huninit : uninitSections plainFile = [⟨ascii ".bss" ++ [0, 0, 0, 0], 4, 16, 0⟩] := by
    rw [uninitSections, plainFile_sections]
    decide
  refine ⟨?_, (coff2noff_correct_iff noHeader plainFile plainFile_wellFormed).mpr fun _ => ?_⟩
  · have hok : (coff2noff noHeader plainFile).toOption.isSome = true := by decide +kernel
    cases h : coff2noff noHeader plainFile with
    | error e => simp [h, Except.toOption] at hok
    | ok noff => exact ⟨noff, rfl⟩
  · rw [hcopied, huninit]
    refine ⟨fun _ => ⟨⟨by decide, by decide, by decide, trivial⟩, by decide, by decide⟩, fun _ => ?_⟩
    rintro ⟨s, t, h, -⟩
    simp at h

/-- A `.bss` that starts where the `.sbss` ends. -/
def contiguousSections : List ScnHdr :=
  [⟨ascii ".sbss" ++ [0, 0, 0], 0, 16, 0⟩, ⟨ascii ".bss" ++ [0, 0, 0, 0], 16, 32, 0⟩]

def contiguousFile : List Byte := coffFile contiguousSections []

theorem contiguousFile_sections : sections contiguousFile = contiguousSections := by decide +kernel

/-- The file is as it should be and is refused. -/
theorem contiguousFile_refused :
    WellFormed contiguousFile ∧ Peculiar noHeader contiguousFile ∧
      coff2noff noHeader contiguousFile = .error .bothBss := by
  have hcopied : copiedSections contiguousFile = [] := by
    rw [copiedSections, contiguousFile_sections]
    decide
  have huninit : uninitSections contiguousFile = contiguousSections := by
    rw [uninitSections, contiguousFile_sections]
    decide
  refine ⟨?_, ⟨⟨by decide +kernel, before noHeader contiguousFile, ?_⟩, ?_, _, _, ?_, ?_, ?_,
    .inl huninit⟩, ?_⟩
  · constructor <;> rw [contiguousFile_sections]
    · decide
    · refine List.pairwise_pair.mpr (apart_of_le ?_)
      decide
    · decide
  · rw [contiguousFile_sections]
    rfl
  · rw [hcopied]
    trivial
  · decide
  · decide
  · exact ⟨by decide, by decide, by decide⟩
  · have herr : (match coff2noff noHeader contiguousFile with
        | .error e => some e
        | .ok _ => none) = some .bothBss := by decide +kernel
    cases h : coff2noff noHeader contiguousFile with
    | error e => simpa [h] using herr
    | ok noff => simp [h] at herr

end Nachos.Coff
