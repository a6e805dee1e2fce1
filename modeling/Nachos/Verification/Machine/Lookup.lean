import Nachos.Verification.Machine.Translation

/-! # What `Translate` does

The outcomes of `Translate`, with either kind of table, as a relation: the address is
misaligned or behind the page table, there is no entry for it, or there is one that is used. -/

namespace Nachos.Machine

open Library

variable {m m' : Machine} {addr : Word} {size : ℤ} {writing : Bool} {p i : ℕ}
  {t : List TranslationEntry} {e : TranslationEntry} {result : Translation}

/-! ## The search in the TLB -/

theorem scan_none_inv {q : TranslationEntry → Bool} {n k : ℕ} (h : scan q n t k = .ok none) :
    n ≤ t.length ∧ ∀ j < n, ∀ e, t[j]? = some e → q e = false := by
  induction t generalizing n k with
  | nil =>
      cases n with
      | zero => simp
      | succ n => cases h
  | cons a t ih =>
      cases n with
      | zero => simp
      | succ n =>
          rw [scan] at h
          split at h
          · cases h
          · rename_i hq
            obtain ⟨hlen, hall⟩ := ih h
            refine ⟨by simpa using hlen, fun j hj e he => ?_⟩
            cases j with
            | zero =>
                obtain rfl : a = e := by simpa using he
                simpa using hq
            | succ j => exact hall j (by omega) e (by simpa using he)

theorem scan_some_inv {q : TranslationEntry → Bool} {n k : ℕ} (h : scan q n t k = .ok (some i)) :
    ∃ j < n, i = k + j ∧ (∃ e, t[j]? = some e ∧ q e = true) ∧
      ∀ j' < j, ∀ e, t[j']? = some e → q e = false := by
  induction t generalizing n k with
  | nil =>
      cases n with
      | zero => cases h
      | succ n => cases h
  | cons a t ih =>
      cases n with
      | zero => cases h
      | succ n =>
          rw [scan] at h
          split at h
          · rename_i hq
            cases h
            exact ⟨0, by omega, rfl, ⟨a, rfl, hq⟩, by simp⟩
          · rename_i hq
            obtain ⟨j, hj, rfl, hfound, hbefore⟩ := ih h
            refine ⟨j + 1, by omega, by omega, by simpa using hfound, fun j' hj' e he => ?_⟩
            cases j' with
            | zero =>
                obtain rfl : a = e := by simpa using he
                simpa using hq
            | succ j' => exact hbefore j' (by omega) e (by simpa using he)

/-! ## Entries -/

/-- The entry `e`, at `i` in the table `t` at `p`, is the one for the address. -/
inductive Slot (m : Machine) (addr : Word) (p : ℕ) (t : List TranslationEntry) (i : ℕ)
    (e : TranslationEntry) : Prop where
  | page (htlb : m.tlb = none) (hp : m.pageTable = some p) (hcell : m.heap.cell p = some t)
      (hlt : pageOf addr < m.pageTableSize) (hi : i = pageOf addr) (he : t[i]? = some e)
      (hv : e.valid = true)
  | tlb (htlb : m.tlb = some p) (hp : m.pageTable = none) (hcell : m.heap.cell p = some t)
      (hi : i < TLBSize) (he : t[i]? = some e) (hv : e.valid = true)
      (hpage : e.virtualPage.toNat = pageOf addr)
      (hfirst : ∀ j < i, ∀ e', t[j]? = some e' → e'.valid = true →
        e'.virtualPage.toNat ≠ pageOf addr)

/-- The table `t` at `p` has no valid entry for the address. -/
inductive Miss (m : Machine) (addr : Word) (p : ℕ) (t : List TranslationEntry) : Prop where
  | page {e : TranslationEntry} (htlb : m.tlb = none) (hp : m.pageTable = some p)
      (hcell : m.heap.cell p = some t) (hlt : pageOf addr < m.pageTableSize)
      (he : t[pageOf addr]? = some e) (hv : e.valid = false)
  | tlb (htlb : m.tlb = some p) (hp : m.pageTable = none) (hcell : m.heap.cell p = some t)
      (hlen : TLBSize ≤ t.length)
      (hall : ∀ j < TLBSize, ∀ e, t[j]? = some e → e.valid = true →
        e.virtualPage.toNat ≠ pageOf addr)

theorem Slot.cell (h : Slot m addr p t i e) : m.heap.cell p = some t := by
  cases h with
  | page _ _ hcell | tlb _ _ hcell => exact hcell

theorem Slot.get (h : Slot m addr p t i e) : t[i]? = some e := by
  cases h with
  | page _ _ _ _ _ he | tlb _ _ _ _ he => exact he

theorem Slot.valid (h : Slot m addr p t i e) : e.valid = true := by
  cases h with
  | page _ _ _ _ _ _ hv | tlb _ _ _ _ _ hv => exact hv

theorem Miss.cell (h : Miss m addr p t) : m.heap.cell p = some t := by
  cases h with
  | page _ _ hcell | tlb _ _ hcell => exact hcell

/-- A hit in the TLB is counted. -/
def counted (m : Machine) (e : TranslationEntry) : TranslationEntry :=
  if m.tlb.isSome then { e with hitRate := e.hitRate + 1 } else e

/-- What the end of `Translate` makes of an entry. -/
inductive Used (e : TranslationEntry) (offset : ℕ) (size : ℤ) (writing : Bool) :
    Translation → TranslationEntry → Prop where
  | readOnly (hro : (e.readOnly && writing) = true) :
      Used e offset size writing (.exception .readOnlyException) e
  | badFrame (hro : (e.readOnly && writing) = false) (hf : NumPhysPages ≤ e.physicalPage.toNat) :
      Used e offset size writing (.exception .busErrorException) e
  | frame (hro : (e.readOnly && writing) = false) (hf : e.physicalPage.toNat < NumPhysPages)
      (hle : (e.physicalPage.toNat * PageSize + offset : ℕ) + size ≤ MemorySize) :
      Used e offset size writing (.physAddr (e.physicalPage.toNat * PageSize + offset))
        { e with use := true, dirty := e.dirty || writing }

theorem useEntry_eq_ok {offset : ℕ} {e' : TranslationEntry} :
    useEntry e offset size writing = .ok (result, e') ↔ Used e offset size writing result e' := by
  rw [useEntry]
  constructor
  · intro h
    split at h
    · rename_i hro
      cases h
      exact .readOnly hro
    · rename_i hro
      have hro : (e.readOnly && writing) = false := by simpa using hro
      split at h
      · rename_i hf
        cases h
        exact .badFrame hro hf
      · rename_i hf
        obtain ⟨u, hassert, h⟩ := bind_eq_ok.mp h
        cases h
        exact .frame hro (not_le.mp hf) (of_assert hassert)
  · intro h
    cases h with
    | readOnly hro => rw [if_pos hro]
    | badFrame hro hf => rw [if_neg (by simp [hro]), if_pos hf]
    | frame hro hf hle =>
        rw [if_neg (by simp [hro]), if_neg (not_le.mpr hf)]
        dsimp only
        rw [assert_of_true hle]
        rfl

/-! ## `Translate` -/

inductive Translated (m : Machine) (addr : Word) (size : ℤ) (writing : Bool) :
    Translation → Machine → Prop where
  | unaligned (h : misaligned addr size = true) :
      Translated m addr size writing (.exception .addressErrorException) m
  | outside {p : ℕ} (halign : misaligned addr size = false) (htlb : m.tlb = none)
      (hp : m.pageTable = some p) (hge : m.pageTableSize ≤ pageOf addr) :
      Translated m addr size writing (.exception .addressErrorException) m
  | miss {p : ℕ} {t : List TranslationEntry} (halign : misaligned addr size = false) (h : Miss m addr p t) :
      Translated m addr size writing (.exception .pageFaultException) m
  | entry {p i : ℕ} {t : List TranslationEntry} {e e' : TranslationEntry} {result : Translation}
      (halign : misaligned addr size = false) (h : Slot m addr p t i e)
      (huse : Used (m.counted e) (offsetOf addr) size writing result e') :
      Translated m addr size writing result (m.setTable p (t.set i e'))

theorem entryAt_natCast_eq_ok {k : ℕ} (h : entryAt t k = .ok e) : t[k]? = some e := by
  obtain ⟨j, hj, he⟩ := entryAt_eq_ok h
  rw [Int.ofNat_inj.mp hj]
  exact he

theorem table_eq_ok (h : m.table p = .ok t) : m.heap.cell p = some t := by
  unfold table at h
  split at h
  · rename_i t' hcell
    cases h
    exact hcell
  · cases h

theorem translateLinear_eq_ok (halign : misaligned addr size = false) (htlb : m.tlb = none)
    (hp : m.pageTable = some p) :
    m.translateLinear p addr size writing = .ok (result, m') →
      Translated m addr size writing result m' := by
  intro h
  rw [translateLinear] at h
  split at h
  · rename_i hge
    cases h
    exact .outside halign htlb hp hge
  · rename_i hlt
    obtain ⟨t, htable, h⟩ := bind_eq_ok.mp h
    obtain ⟨e, hentry, h⟩ := bind_eq_ok.mp h
    have hcell := table_eq_ok htable
    have he := entryAt_natCast_eq_ok hentry
    split at h
    · rename_i hv
      obtain ⟨⟨result', e'⟩, huse, h⟩ := bind_eq_ok.mp h
      cases h
      refine .entry halign (.page htlb hp hcell (not_le.mp hlt) rfl he hv) ?_
      rw [counted, htlb]
      exact useEntry_eq_ok.mp huse
    · rename_i hv
      cases h
      exact .miss halign (.page htlb hp hcell (not_le.mp hlt) he (by simpa using hv))

theorem translateTlb_eq_ok (halign : misaligned addr size = false) (htlb : m.tlb = some p)
    (hp : m.pageTable = none) :
    m.translateTlb p addr size writing = .ok (result, m') →
      Translated m addr size writing result m' := by
  intro h
  rw [translateTlb] at h
  obtain ⟨t, htable, h⟩ := bind_eq_ok.mp h
  have hcell := table_eq_ok htable
  obtain ⟨r, hscan, h⟩ := bind_eq_ok.mp h
  cases r with
  | none =>
      cases h
      obtain ⟨hlen, hall⟩ := scan_none_inv hscan
      refine .miss halign (.tlb htlb hp hcell hlen fun j hj e he hv hpage => ?_)
      simpa [hv, hpage] using hall j hj e he
  | some i =>
      dsimp only at h
      obtain ⟨e, hentry, h⟩ := bind_eq_ok.mp h
      obtain ⟨⟨result', e'⟩, huse, h⟩ := bind_eq_ok.mp h
      cases h
      have he := entryAt_natCast_eq_ok hentry
      obtain ⟨j, hj, rfl, ⟨e₀, he₀, hmatch⟩, hbefore⟩ := scan_some_inv hscan
      rw [Nat.zero_add] at he
      obtain rfl := Option.some.inj (he.symm.trans he₀)
      simp only [Bool.and_eq_true, beq_iff_eq] at hmatch
      rw [Nat.zero_add]
      refine .entry halign (.tlb htlb hp hcell hj he hmatch.1 hmatch.2
        fun j' hj' e' he' hv hpage => ?_) ?_
      · simpa [hv, hpage] using hbefore j' hj' e' he'
      · rw [counted, htlb]
        exact useEntry_eq_ok.mp huse

theorem translate_of_slot (halign : misaligned addr size = false) (h : Slot m addr p t i e)
    {e' : TranslationEntry} (huse : Used (m.counted e) (offsetOf addr) size writing result e') :
    m.translate addr size writing = .ok (result, m.setTable p (t.set i e')) := by
  have huse := useEntry_eq_ok.mpr huse
  rw [translate, if_neg (by simp [halign])]
  cases h with
  | page htlb hp hcell hlt hi he hv =>
      subst hi
      rw [counted, htlb] at huse
      have huse : useEntry e (offsetOf addr) size writing = .ok (result, e') := huse
      rw [htlb, hp]
      dsimp only
      rw [translateLinear, if_neg (not_le.mpr hlt), table_of_cell hcell, ok_bind,
        entryAt_natCast he, ok_bind, if_pos hv, huse]
      rfl
  | tlb htlb hp hcell hi he hv hpage hfirst =>
      have hscan := scan_eq_some (n := TLBSize) (i := 0)
        (p := fun e => e.valid && e.virtualPage.toNat == pageOf addr) he (by simp [hv, hpage]) hi
        fun k hk e' he' => by
          by_cases hv' : e'.valid = true
          · simp [hfirst k hk e' he' hv']
          · simp [hv']
      rw [Nat.zero_add] at hscan
      rw [counted, htlb] at huse
      have huse : useEntry { e with hitRate := e.hitRate + 1 } (offsetOf addr) size writing =
        .ok (result, e') := huse
      rw [htlb, hp]
      dsimp only
      rw [translateTlb, table_of_cell hcell, ok_bind, hscan, ok_bind]
      dsimp only
      rw [entryAt_natCast he, ok_bind, huse]
      rfl

theorem translate_of_miss (halign : misaligned addr size = false) (h : Miss m addr p t) :
    m.translate addr size writing = .ok (.exception .pageFaultException, m) := by
  rw [translate, if_neg (by simp [halign])]
  cases h with
  | page htlb hp hcell hlt he hv =>
      rw [htlb, hp]
      dsimp only
      rw [translateLinear, if_neg (not_le.mpr hlt), table_of_cell hcell, ok_bind,
        entryAt_natCast he, ok_bind, if_neg (by simp [hv])]
      rfl
  | tlb htlb hp hcell hlen hall =>
      have hscan : scan (fun e => e.valid && e.virtualPage.toNat == pageOf addr) TLBSize t 0 =
          .ok none := by
        refine scan_eq_none hlen fun k hk e' he' => ?_
        by_cases hv : e'.valid = true
        · simp [hall k hk e' he' hv]
        · simp [hv]
      rw [htlb, hp]
      dsimp only
      rw [translateTlb, table_of_cell hcell, ok_bind, hscan]
      rfl

/-- Everything that `Translate` can do. -/
theorem translate_eq_ok :
    m.translate addr size writing = .ok (result, m') ↔
      Translated m addr size writing result m' := by
  constructor
  · intro h
    rw [translate] at h
    split at h
    · rename_i halign
      cases h
      exact .unaligned halign
    · rename_i halign
      have halign : misaligned addr size = false := by simpa using halign
      cases htlb : m.tlb with
      | none =>
          cases hp : m.pageTable with
          | none =>
              rw [htlb, hp] at h
              cases h
          | some p =>
              rw [htlb, hp] at h
              exact translateLinear_eq_ok halign htlb hp h
      | some p =>
          cases hp : m.pageTable with
          | none =>
              rw [htlb, hp] at h
              exact translateTlb_eq_ok halign htlb hp h
          | some q =>
              rw [htlb, hp] at h
              cases h
  · intro h
    cases h with
    | unaligned h => rw [translate, if_pos h]
    | outside halign htlb hp hge =>
        rw [translate, if_neg (by simp [halign]), htlb, hp]
        dsimp only
        rw [translateLinear, if_pos hge]
    | miss halign h => exact translate_of_miss halign h
    | entry halign h huse => exact translate_of_slot halign h huse

/-! ## What does not change -/

theorem Translated.mainMemory (h : Translated m addr size writing result m') :
    m'.mainMemory = m.mainMemory := by
  cases h <;> rfl

theorem Translated.miss_inv (h : Translated m addr size writing (.exception .pageFaultException) m') :
    m' = m ∧ misaligned addr size = false ∧ ∃ p t, Miss m addr p t := by
  cases h with
  | miss halign h => exact ⟨rfl, halign, _, _, h⟩
  | entry _ _ huse => cases huse

/-- A valid address is in one frame. -/
theorem offset_add_size_le (halign : misaligned addr size = false)
    (hsize : size = 1 ∨ size = 2 ∨ size = 4) : offsetOf addr + size ≤ 128 := by
  obtain ⟨n, rfl, hn⟩ : ∃ n : ℕ, size = n ∧ (n = 1 ∨ n = 2 ∨ n = 4) := by
    rcases hsize with rfl | rfl | rfl
    · exact ⟨1, rfl, by decide⟩
    · exact ⟨2, rfl, by decide⟩
    · exact ⟨4, rfl, by decide⟩
  have hle := offset_add_le (a := ⟨addr, n, none, 0, hn⟩) halign
  dsimp only at hle
  omega

/-- The assertion at the end of `Translate` does not fire. -/
theorem Used.of_frame (halign : misaligned addr size = false)
    (hsize : size = 1 ∨ size = 2 ∨ size = 4) (hro : (e.readOnly && writing) = false)
    (hf : e.physicalPage.toNat < NumPhysPages) :
    Used e (offsetOf addr) size writing
      (.physAddr (e.physicalPage.toNat * PageSize + offsetOf addr))
      { e with use := true, dirty := e.dirty || writing } := by
  have hle := offset_add_size_le halign hsize
  refine .frame hro hf ?_
  have hN : NumPhysPages = 32 := rfl
  have hP : PageSize = 128 := rfl
  have hM : (MemorySize : ℤ) = 4096 := rfl
  rw [hP, hM]
  omega

end Nachos.Machine
