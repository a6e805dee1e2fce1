import Nachos.Model.Coff
import Nachos.Library.Cover

/-! # The loop of `coff2noff`

The `.bss` and `.sbss` sections change only the description of the uninitialized data, and
the others do not look at it. The loop can therefore be taken apart. -/

namespace Nachos.Coff

open Library

variable {coff : List Byte} {st st' : State} {s : ScnHdr} {secs : List ScnHdr}

theorem toInt_of_nonneg {x : Word} (h : 0 ≤ x.toInt) : x.toInt = x.toNat := by
  have hlt := x.isLt
  have hcond := BitVec.toInt_eq_toNat_cond x
  split at hcond <;> omega

/-! ## Independent parts -/

/-- The section is not empty and consists of uninitialized data. -/
def Uninit (s : ScnHdr) : Bool := decide (s.size ≠ 0 ∧ (s.kind = .bss ∨ s.kind = .sbss))

theorem uninit_iff : Uninit s = true ↔ s.size ≠ 0 ∧ (s.kind = .bss ∨ s.kind = .sbss) := by
  simp [Uninit]

def State.setUninit (st : State) (seg : Segment) : State :=
  { st with noffH := { st.noffH with uninitData := seg } }

theorem loadSection_uninit (h : Uninit s = true) (coff : List Byte) (st : State) :
    loadSection coff st s =
      (mergeSection st.noffH.uninitData s).map fun seg => st.setUninit seg := by
  obtain ⟨hsize, hkind⟩ := uninit_iff.mp h
  unfold loadSection
  rw [if_neg hsize]
  rcases hkind with hkind | hkind <;>
  · rw [hkind]
    cases mergeSection st.noffH.uninitData s <;> rfl

theorem copySection_setUninit (coff : List Byte) (s : ScnHdr) (st : State) (seg : Segment) :
    copySection coff s (st.setUninit seg) =
      (copySection coff s st).map fun r => (r.1, r.2.setUninit seg) := by
  unfold copySection
  simp only [State.setUninit]
  cases read coff (if s.scnptr.toInt < 0 then st.position else s.scnptr.toNat) s.size.toInt with
  | error e => rfl
  | ok r => rfl

theorem loadSection_setUninit (h : Uninit s = false) (coff : List Byte) (st : State)
    (seg : Segment) :
    loadSection coff (st.setUninit seg) s =
      (loadSection coff st s).map fun st => st.setUninit seg := by
  by_cases hsize : s.size = 0
  · rw [loadSection, loadSection, if_pos hsize, if_pos hsize]
    rfl
  have hother : ¬ (s.kind = .bss ∨ s.kind = .sbss) := fun hk =>
    absurd (uninit_iff.mpr ⟨hsize, hk⟩) (by simp [h])
  -- the branch of the initialized data
  have hdata : (if (st.setUninit seg).noffH.initData.size ≠ 0 then .error .bothData else do
        let r ← copySection coff s (st.setUninit seg)
        return { r.2 with noffH := { r.2.noffH with initData := r.1 } }) =
      Except.map (fun st : State => st.setUninit seg)
        (if st.noffH.initData.size ≠ 0 then .error .bothData else do
          let r ← copySection coff s st
          return { r.2 with noffH := { r.2.noffH with initData := r.1 } }) := by
    rw [copySection_setUninit]
    by_cases hempty : st.noffH.initData.size ≠ 0
    · rw [if_pos hempty, if_pos (show (st.setUninit seg).noffH.initData.size ≠ 0 from hempty)]
      rfl
    · rw [if_neg hempty, if_neg (show ¬ (st.setUninit seg).noffH.initData.size ≠ 0 from hempty)]
      cases copySection coff s st <;> rfl
  rw [loadSection, loadSection, if_neg hsize, if_neg hsize]
  cases hkind : s.kind with
  | text =>
      simp only [copySection_setUninit]
      cases copySection coff s st <;> rfl
  | data => exact hdata
  | rdata => exact hdata
  | bss => exact absurd (.inl hkind) hother
  | sbss => exact absurd (.inr hkind) hother
  | unknown => rfl

theorem loadSections_setUninit (h : ∀ s ∈ secs, Uninit s = false) (coff : List Byte) (st : State)
    (seg : Segment) :
    loadSections coff secs (st.setUninit seg) =
      (loadSections coff secs st).map fun st => st.setUninit seg := by
  unfold loadSections
  induction secs generalizing st with
  | nil => rfl
  | cons s secs ih =>
      rw [List.foldlM_cons, List.foldlM_cons, loadSection_setUninit (h s List.mem_cons_self)]
      cases loadSection coff st s with
      | error e => rfl
      | ok st => exact ih (fun s hs => h s (List.mem_cons_of_mem _ hs)) st

/-- The loop is two loops. -/
theorem loadSections_eq_ok :
    loadSections coff secs st = .ok st' ↔ ∃ st₁ seg,
      loadSections coff (secs.filter fun s => !Uninit s) st = .ok st₁ ∧
      (secs.filter Uninit).foldlM mergeSection st.noffH.uninitData = .ok seg ∧
      st' = st₁.setUninit seg := by
  induction secs generalizing st with
  | nil =>
      constructor
      · intro h
        obtain rfl := Except.ok.inj h
        exact ⟨st, _, rfl, rfl, rfl⟩
      · rintro ⟨_, _, h₁, h₂, rfl⟩
        rw [← Except.ok.inj h₁, ← Except.ok.inj h₂]
        rfl
  | cons s secs ih =>
      have hcons : loadSections coff (s :: secs) st =
          loadSection coff st s >>= loadSections coff secs := List.foldlM_cons
      rw [hcons]
      cases hs : Uninit s with
      | true =>
          have hnone : ∀ t ∈ secs.filter (fun s => !Uninit s), Uninit t = false := by
            intro t ht
            simpa using (List.mem_filter.mp ht).2
          rw [loadSection_uninit hs, List.filter_cons_of_neg (by simp [hs]),
            List.filter_cons_of_pos hs, List.foldlM_cons]
          cases hm : mergeSection st.noffH.uninitData s with
          | error e => simp [Except.map]
          | ok seg =>
              change loadSections coff secs (st.setUninit seg) = .ok st' ↔ _
              rw [ih, loadSections_setUninit hnone]
              cases loadSections coff (secs.filter fun s => !Uninit s) st with
              | error e => simp [Except.map]
              | ok st₁ =>
                  simp only [Except.map, Except.ok.injEq, ok_bind]
                  constructor
                  · rintro ⟨_, seg', rfl, hseg, rfl⟩
                    exact ⟨st₁, seg', rfl, hseg, rfl⟩
                  · rintro ⟨_, seg', rfl, hseg, rfl⟩
                    exact ⟨_, seg', rfl, hseg, rfl⟩
      | false =>
          rw [List.filter_cons_of_pos (by simp [hs]), List.filter_cons_of_neg (by simp [hs])]
          have hcons' : loadSections coff (s :: secs.filter fun s => !Uninit s) st =
              loadSection coff st s >>= loadSections coff (secs.filter fun s => !Uninit s) :=
            List.foldlM_cons
          rw [hcons']
          cases hl : loadSection coff st s with
          | error e => simp
          | ok st₀ =>
              have huninit : st₀.noffH.uninitData = st.noffH.uninitData := by
                have hset := loadSection_setUninit hs coff st st.noffH.uninitData
                rw [hl] at hset
                have hself : st.setUninit st.noffH.uninitData = st := rfl
                rw [hself, hl] at hset
                rw [Except.ok.inj hset]
                rfl
              rw [ok_bind, ok_bind, ih, huninit]

/-! ## Uninitialized data -/

/-- Where a section goes. Addresses are numbers of 32 bits without a sign. -/
def range (s : ScnHdr) : ℤ × ℤ := (s.paddr.toNat, s.size.toNat)

/-- No section starts where the range ends that is recorded for the sections before it. This
range starts at `first` and has `size` bytes; an empty one is replaced. -/
def Spread (first size : Word) : List ScnHdr → Prop
  | [] => True
  | s :: rest =>
      if size = 0 then Spread s.paddr s.size rest
      else s.paddr ≠ first + size ∧ Spread first (size + s.size) rest

theorem mergeSections_iff {seg : Segment} :
    (∃ seg', secs.foldlM mergeSection seg = .ok seg') ↔ Spread seg.virtualAddr seg.size secs := by
  induction secs generalizing seg with
  | nil => exact ⟨fun _ => trivial, fun _ => ⟨seg, rfl⟩⟩
  | cons s secs ih =>
      rw [List.foldlM_cons, mergeSection, Spread]
      by_cases hzero : seg.size = 0
      · rw [if_neg (not_not.mpr hzero), if_pos hzero, ok_bind]
        exact ih
      · rw [if_pos hzero, if_neg hzero]
        by_cases hstop : s.paddr = seg.virtualAddr + seg.size
        · rw [if_pos hstop, error_bind]
          exact ⟨fun ⟨_, h⟩ => (nomatch h), fun h => absurd hstop h.1⟩
        · rw [if_neg hstop, ok_bind, ih]
          exact ⟨fun h => ⟨hstop, h⟩, And.right⟩

theorem toNat_pos {x : Word} (h : x ≠ 0) : 0 < x.toNat := by
  refine Nat.pos_of_ne_zero fun hzero => h ?_
  exact BitVec.eq_of_toNat_eq hzero

/-- As long as their sum is a word, the sizes are added up. -/
theorem mergeSections_eq (seg : Segment) {seg' : Segment} (hsize : seg.size ≠ 0)
    (hsum : seg.size.toNat + total (secs.map range) < 2 ^ 32) (hsecs : ∀ s ∈ secs, s.size ≠ 0)
    (h : secs.foldlM mergeSection seg = .ok seg') :
    seg'.virtualAddr = seg.virtualAddr ∧
      (seg'.size.toNat : ℤ) = seg.size.toNat + total (secs.map range) := by
  induction secs generalizing seg with
  | nil =>
      rw [← Except.ok.inj h]
      simp
  | cons s secs ih =>
      rw [List.foldlM_cons, mergeSection, if_pos hsize] at h
      rw [List.map_cons, total_cons, range] at hsum
      dsimp only at hsum
      have hnonneg : 0 ≤ total (secs.map range) := by
        refine List.sum_nonneg fun n hn => ?_
        simp only [List.map_map, List.mem_map, Function.comp_apply, range] at hn
        obtain ⟨t, -, rfl⟩ := hn
        exact Int.natCast_nonneg _
      have hadd : (seg.size + s.size).toNat = seg.size.toNat + s.size.toNat := by
        rw [BitVec.toNat_add]
        omega
      split at h
      · cases h
      · have hpos := toNat_pos hsize
        obtain ⟨haddr, hrest⟩ := ih { seg with size := seg.size + s.size }
          (fun he => by rw [show seg.size + s.size = 0 from he] at hadd; simp at hadd; omega)
          (by dsimp only; omega) (fun t ht => hsecs t (List.mem_cons_of_mem s ht)) h
        refine ⟨haddr, ?_⟩
        rw [hrest, List.map_cons, total_cons, range]
        dsimp only
        omega

/-- The header describes the uninitialized data as one range. -/
theorem mergeAll_eq {first : ScnHdr} (hsecs : ∀ s ∈ first :: secs, s.size ≠ 0)
    (hsum : total ((first :: secs).map range) < 2 ^ 32) {seg seg' : Segment} (hzero : seg.size = 0)
    (h : (first :: secs).foldlM mergeSection seg = .ok seg') :
    seg'.virtualAddr = first.paddr ∧
      (seg'.size.toNat : ℤ) = total ((first :: secs).map range) := by
  rw [List.foldlM_cons, mergeSection, if_neg (not_not.mpr hzero), ok_bind] at h
  rw [List.map_cons, total_cons] at hsum ⊢
  exact mergeSections_eq { seg with virtualAddr := first.paddr, size := first.size }
    (hsecs first List.mem_cons_self) hsum (fun s hs => hsecs s (List.mem_cons_of_mem first hs)) h

end Nachos.Coff
