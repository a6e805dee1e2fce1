import Nachos.Verification.Machine.Accesses

/-! # Virtual memory with a page table

With a page table whose valid entries have different frames, virtual memory is an array of
bytes, and words are stored with their least significant byte first. -/

namespace Nachos.Machine

open Library

variable {build : Build} {m m' : Machine} {addr value : Word} {size : ℕ} {writing : Bool} {p i : ℕ}
  {t : List TranslationEntry} {e : TranslationEntry} {a : ℕ}

/-! ## Bytes of physical memory -/

/-- The number with the given bytes, the least significant one first. -/
def leNat : List Byte → ℕ
  | [] => 0
  | b :: bytes => b.toNat + 256 * leNat bytes

theorem leNat_lt (bytes : List Byte) : leNat bytes < 256 ^ bytes.length := by
  induction bytes with
  | nil => simp [leNat]
  | cons b bytes ih =>
      have hb := b.isLt
      rw [leNat, List.length_cons, pow_succ]
      omega

def byteAt (m : Machine) (a : ℕ) : Byte :=
  if h : a < MemorySize then m.mainMemory ⟨a, h⟩ else 0

/-- The `n` bytes from `a` on. -/
def bytesAt (m : Machine) (a : ℕ) : ℕ → List Byte
  | 0 => []
  | n + 1 => m.byteAt a :: m.bytesAt (a + 1) n

theorem length_bytesAt (m : Machine) (a n : ℕ) : (m.bytesAt a n).length = n := by
  induction n generalizing a with
  | zero => rfl
  | succ n ih => rw [bytesAt, List.length_cons, ih]

theorem load_natCast (h : a < MemorySize) : m.load a = .ok (m.byteAt a) := by
  rw [load, dif_pos (by omega), byteAt, dif_pos h]
  rfl

theorem toNat_shiftLeft_or (high : Word) (low : Byte) (h : high.toNat < 2 ^ 24) :
    (high <<< 8 ||| low.setWidth 32).toNat = low.toNat + 256 * high.toNat := by
  have hlow := low.isLt
  have hshift : (high <<< 8).toNat = high.toNat <<< 8 := by
    rw [BitVec.toNat_shiftLeft, Nat.shiftLeft_eq, Nat.mod_eq_of_lt (by omega)]
  have hset : (low.setWidth 32).toNat = low.toNat := by
    rw [BitVec.toNat_setWidth, Nat.mod_eq_of_lt (by omega)]
  rw [BitVec.toNat_or, hshift, hset, ← Nat.shiftLeft_add_eq_or_of_lt hlow, Nat.shiftLeft_eq]
  omega

theorem loadBytes_natCast {n : ℕ} (hn : n ≤ 4) (h : a + n ≤ MemorySize) :
    ∃ w, m.loadBytes a n = .ok w ∧ w.toNat = leNat (m.bytesAt a n) := by
  induction n generalizing a with
  | zero => exact ⟨0, rfl, rfl⟩
  | succ n ih =>
      obtain ⟨high, hhigh, hvalue⟩ := ih (a := a + 1) (by omega) (by omega)
      have hlt := leNat_lt (m.bytesAt (a + 1) n)
      rw [length_bytesAt, ← hvalue] at hlt
      have hpow : 256 ^ n ≤ 256 ^ 3 := Nat.pow_le_pow_right (by decide) (by omega)
      refine ⟨high <<< 8 ||| (m.byteAt a).setWidth 32, ?_, ?_⟩
      · rw [loadBytes, load_natCast (by omega), ok_bind,
          show (a : ℤ) + 1 = ((a + 1 : ℕ) : ℤ) by omega, hhigh]
        rfl
      · rw [toNat_shiftLeft_or high _ (by omega), hvalue, bytesAt, leNat]

/-- What `ReadMem` makes of the bytes at an address. -/
def valueOf (bytes : List Byte) : Word :=
  if bytes.length = 1 then (bytes.headD 0).signExtend 32 else BitVec.ofNat 32 (leNat bytes)

theorem fetch_natCast (hsize : size = 1 ∨ size = 2 ∨ size = 4) (h : a + size ≤ MemorySize) :
    m.fetch a size = .ok (valueOf (m.bytesAt a size)) := by
  rw [fetch, valueOf, length_bytesAt]
  rcases hsize with rfl | hsize
  · rw [if_pos Nat.cast_one, if_pos rfl, load_natCast (by omega)]
    rfl
  · have hne : size ≠ 1 := by omega
    obtain ⟨w, hw, hvalue⟩ := loadBytes_natCast (m := m) (n := size) (a := a) (by omega) h
    rw [if_neg (by exact_mod_cast hne), if_neg hne, Int.toNat_natCast, hw, ← hvalue]
    simp

/-! ## Stored bytes -/

theorem byteAt_overlay_of_not (mem : Fin MemorySize → Byte) {b : ℕ} {bytes : List Byte}
    (h : b < a ∨ a + bytes.length ≤ b) :
    byteAt { m with mainMemory := overlay mem a bytes } b =
      byteAt { m with mainMemory := mem } b := by
  unfold byteAt
  split
  · rcases h with h | h
    · exact if_neg (by simp only; omega)
    · exact overlay_of_le (by simp only; omega)
  · rfl

theorem byteAt_overlay (mem : Fin MemorySize → Byte) {bytes : List Byte} (hi : i < bytes.length)
    (h : a + bytes.length ≤ MemorySize) :
    byteAt { m with mainMemory := overlay mem a bytes } (a + i) = bytes.get ⟨i, hi⟩ := by
  rw [byteAt, dif_pos (by omega)]
  change overlay mem a bytes _ = _
  rw [overlay, if_pos (by simp only; omega),
    show (((a + i : ℕ) : ℤ) - (a : ℤ)).toNat = i by omega, List.getD_eq_getElem _ _ hi]
  rfl

theorem bytesAt_congr {m m' : Machine} {n : ℕ} (h : ∀ j < n, m'.byteAt (a + j) = m.byteAt (a + j)) :
    m'.bytesAt a n = m.bytesAt a n := by
  induction n generalizing a with
  | zero => rfl
  | succ n ih =>
      rw [bytesAt, bytesAt, ih fun j hj => by
        rw [show a + 1 + j = a + (j + 1) by omega]
        exact h (j + 1) (by omega)]
      congr 1
      exact h 0 (by omega)

theorem bytesAt_overlay (mem : Fin MemorySize → Byte) (bytes : List Byte)
    (h : a + bytes.length ≤ MemorySize) :
    bytesAt { m with mainMemory := overlay mem a bytes } a bytes.length = bytes := by
  have hall : ∀ k ≤ bytes.length, bytesAt { m with mainMemory := overlay mem a bytes }
      (a + (bytes.length - k)) k = bytes.drop (bytes.length - k) := by
    intro k
    induction k with
    | zero => simp [bytesAt]
    | succ k ih =>
        intro hk
        have hlt : bytes.length - (k + 1) < bytes.length := by omega
        rw [bytesAt, byteAt_overlay mem hlt h, List.drop_eq_getElem_cons hlt,
          show a + (bytes.length - (k + 1)) + 1 = a + (bytes.length - k) by omega, ih (by omega),
          show bytes.length - (k + 1) + 1 = bytes.length - k by omega]
        rfl
  simpa using hall bytes.length le_rfl

theorem leNat_lowBytes (hsize : size = 1 ∨ size = 2 ∨ size = 4) (value : Word) :
    leNat (lowBytes value size) = value.toNat % 256 ^ size := by
  have hlt := value.isLt
  rcases hsize with rfl | rfl | rfl
  · simp [lowBytes, leNat, List.range_succ, BitVec.extractLsb'_toNat]
  · simp only [lowBytes, leNat, List.range_succ, List.range_zero, List.nil_append, List.map_cons,
      List.map_nil, List.cons_append, BitVec.extractLsb'_toNat, Nat.shiftRight_eq_div_pow]
    omega
  · simp only [lowBytes, leNat, List.range_succ, List.range_zero, List.nil_append, List.map_cons,
      List.map_nil, List.cons_append, BitVec.extractLsb'_toNat, Nat.shiftRight_eq_div_pow]
    omega

/-- The low bytes of a value as a word: a single byte is signed. -/
def extended (value : Word) (size : ℕ) : Word :=
  if size = 1 then (value.setWidth 8).signExtend 32 else BitVec.ofNat 32 (value.toNat % 256 ^ size)

theorem valueOf_lowBytes (hsize : size = 1 ∨ size = 2 ∨ size = 4) (value : Word) :
    valueOf (lowBytes value size) = extended value size := by
  rw [valueOf, extended, length_lowBytes, leNat_lowBytes hsize]
  split
  · rename_i h
    subst h
    exact congrArg (BitVec.signExtend 32) rfl
  · rfl

/-! ## The page table -/

/-- A page table with an entry for each page, the valid ones with different frames that exist. -/
structure Paged (m : Machine) (p : ℕ) (t : List TranslationEntry) : Prop where
  tlb : m.tlb = none
  pageTable : m.pageTable = some p
  cell : m.heap.cell p = some t
  length : m.pageTableSize ≤ t.length
  frames : ∀ i < m.pageTableSize, ∀ e, t[i]? = some e → e.valid = true →
    e.physicalPage.toNat < NumPhysPages
  injective : ∀ i < m.pageTableSize, ∀ j < m.pageTableSize, ∀ e e', t[i]? = some e →
    t[j]? = some e' → e.valid = true → e'.valid = true →
    e.physicalPage.toNat = e'.physicalPage.toNat → i = j

theorem misaligned_eq_false_iff (hsize : size = 1 ∨ size = 2 ∨ size = 4) (addr : Word) :
    misaligned addr size = false ↔ addr.toNat % size = 0 := by
  have htwo : addr &&& 1#32 = 0#32 ↔ addr.toNat % 2 = 0 := by
    rw [← BitVec.toNat_inj, BitVec.toNat_and, show (1#32).toNat = 1 from rfl,
      show (0#32).toNat = 0 from rfl, Nat.and_one_is_mod]
  have hfour : addr &&& 3#32 = 0#32 ↔ addr.toNat % 4 = 0 := by
    rw [← BitVec.toNat_inj, BitVec.toNat_and, show (3#32).toNat = 2 ^ 2 - 1 from rfl,
      show (0#32).toNat = 0 from rfl, Nat.and_two_pow_sub_one_eq_mod]
  rcases hsize with rfl | rfl | rfl
  · simp [misaligned, Nat.mod_one]
  · simp [misaligned, htwo]
  · simp [misaligned, hfour]

theorem natCast_size (hsize : size = 1 ∨ size = 2 ∨ size = 4) :
    (size : ℤ) = 1 ∨ (size : ℤ) = 2 ∨ (size : ℤ) = 4 := by omega

/-- The entry of a page that can be read and, if need be, written. -/
structure Accessible (m : Machine) (t : List TranslationEntry) (addr : Word) (size : ℕ)
    (writing : Bool) (e : TranslationEntry) : Prop where
  aligned : addr.toNat % size = 0
  lt : pageOf addr < m.pageTableSize
  get : t[pageOf addr]? = some e
  valid : e.valid = true
  writable : (e.readOnly && writing) = false

/-- Where the byte at an address is. -/
def physical (e : TranslationEntry) (addr : Word) : ℕ :=
  e.physicalPage.toNat * PageSize + offsetOf addr

/-- The machine after the entry of the page has been used. -/
def usedPage (m : Machine) (p : ℕ) (t : List TranslationEntry) (addr : Word)
    (e : TranslationEntry) (writing : Bool) : Machine :=
  m.setTable p (t.set (pageOf addr) { e with use := true, dirty := e.dirty || writing })

namespace Paged

theorem counted_eq (h : Paged m p t) (e : TranslationEntry) : m.counted e = e := by
  rw [counted, h.tlb]
  rfl

theorem translate_eq (h : Paged m p t) (hsize : size = 1 ∨ size = 2 ∨ size = 4)
    (ha : Accessible m t addr size writing e) :
    m.translate addr size writing =
      .ok (.physAddr (physical e addr), m.usedPage p t addr e writing) := by
  have halign := (misaligned_eq_false_iff hsize addr).mpr ha.aligned
  have hslot : Slot m addr p t (pageOf addr) e :=
    .page h.tlb h.pageTable h.cell ha.lt rfl ha.get ha.valid
  have huse := Used.of_frame halign (natCast_size hsize) ha.writable
    (h.frames _ ha.lt e ha.get ha.valid)
  rw [← h.counted_eq e] at huse
  rw [translate_of_slot halign hslot huse, h.counted_eq]
  rfl

theorem translate_total (h : Paged m p t) (hsize : size = 1 ∨ size = 2 ∨ size = 4) (addr : Word)
    (writing : Bool) : ∃ r, m.translate addr size writing = .ok r := by
  by_cases halign : misaligned addr size = false
  · by_cases hlt : pageOf addr < m.pageTableSize
    · have hlen := h.length
      have hget : t[pageOf addr]? = some (t.get ⟨pageOf addr, by omega⟩) :=
        List.getElem?_eq_getElem (by omega)
      generalize t.get ⟨pageOf addr, by omega⟩ = e at hget
      by_cases hv : e.valid = true
      · have hslot : Slot m addr p t (pageOf addr) e :=
          .page h.tlb h.pageTable h.cell hlt rfl hget hv
        by_cases hro : (e.readOnly && writing) = true
        · have huse : Used (m.counted e) (offsetOf addr) size writing _ _ := .readOnly (by
            rw [h.counted_eq]
            exact hro)
          exact ⟨_, translate_of_slot halign hslot huse⟩
        · exact ⟨_, h.translate_eq hsize ⟨(misaligned_eq_false_iff hsize addr).mp halign, hlt, hget,
            hv, by simpa using hro⟩⟩
      · exact ⟨_, translate_of_miss halign
          (.page h.tlb h.pageTable h.cell hlt hget (by simpa using hv))⟩
    · exact ⟨_, translate_eq_ok.mpr (.outside halign h.tlb h.pageTable (not_lt.mp hlt))⟩
  · exact ⟨_, translate_eq_ok.mpr (.unaligned (by simpa using halign))⟩

/-- A translation that has succeeded. -/
theorem accessible (h : Paged m p t) (hsize : size = 1 ∨ size = 2 ∨ size = 4)
    (htranslate : m.translate addr size writing = .ok (.physAddr a, m')) :
    ∃ e, Accessible m t addr size writing e ∧ a = physical e addr ∧
      m' = m.usedPage p t addr e writing := by
  have htranslated := translate_eq_ok.mp htranslate
  cases htranslated with
  | entry halign hslot huse =>
      cases hslot with
      | tlb htlb =>
          rw [h.tlb] at htlb
          cases htlb
      | page _ hp hcell hlt hi he hv =>
          cases h.pageTable.symm.trans hp
          cases h.cell.symm.trans hcell
          subst hi
          rw [h.counted_eq] at huse
          cases huse with
          | frame hro =>
              exact ⟨_, ⟨(misaligned_eq_false_iff hsize addr).mp halign, hlt, he, hv, hro⟩, rfl, rfl⟩

theorem physical_add_le (h : Paged m p t) (hsize : size = 1 ∨ size = 2 ∨ size = 4)
    (ha : Accessible m t addr size writing e) : physical e addr + size ≤ MemorySize := by
  have hle := offset_add_size_le ((misaligned_eq_false_iff hsize addr).mpr ha.aligned)
    (natCast_size hsize)
  have hf := h.frames _ ha.lt e ha.get ha.valid
  have hN : NumPhysPages = 32 := rfl
  have hP : PageSize = 128 := rfl
  have hM : MemorySize = 4096 := rfl
  rw [physical, hP, hM]
  omega

theorem readMem_eq (h : Paged m p t) (hsize : size = 1 ∨ size = 2 ∨ size = 4)
    (ha : Accessible m t addr size false e) (build : Build) (uninit : ℤ) :
    m.readMem build addr size uninit =
      .ok (some (valueOf (m.bytesAt (physical e addr) size)), m.usedPage p t addr e false) := by
  have hsame : (m.usedPage p t addr e false).fetch (physical e addr) size =
      .ok (valueOf (m.bytesAt (physical e addr) size)) := by
    rw [fetch_natCast hsize (h.physical_add_le hsize ha)]
    exact congrArg (fun bytes => Except.ok (valueOf bytes)) (bytesAt_congr fun _ _ => rfl)
  rw [Machine.readMem_eq (natCast_size hsize), resolve, resolveTo, h.translate_eq hsize ha, ok_bind]
  dsimp only
  rw [pure_eq_ok, ok_bind]
  dsimp only
  rw [hsame]
  rfl

/-- The memory after bytes have been written at an address. -/
def written (m : Machine) (p : ℕ) (t : List TranslationEntry) (addr : Word) (e : TranslationEntry)
    (bytes : List Byte) : Machine :=
  { m.usedPage p t addr e true with mainMemory := overlay m.mainMemory (physical e addr) bytes }

theorem writeMem_eq (h : Paged m p t) (hsize : size = 1 ∨ size = 2 ∨ size = 4)
    (ha : Accessible m t addr size true e) (build : Build) (value : Word) (uninit : ℤ) :
    m.writeMem build addr size value uninit =
      .ok (true, written m p t addr e (lowBytes value size)) := by
  have hle := h.physical_add_le hsize ha
  obtain ⟨m₁, hm₁⟩ := storeBytes_total (m.usedPage p t addr e true) (lowBytes value size)
    (Int.natCast_nonneg (physical e addr)) (by rw [length_lowBytes]; omega)
  rw [Machine.writeMem_eq (natCast_size hsize), resolve, resolveTo, h.translate_eq hsize ha, ok_bind]
  dsimp only
  rw [pure_eq_ok, ok_bind]
  dsimp only
  rw [Int.toNat_natCast, hm₁, storeBytes_eq_ok hm₁]
  rfl

/-- What is known of an entry after another one has been used. -/
theorem getElem?_set (he : t[pageOf addr]? = some e) {j : ℕ} {e₁ : TranslationEntry}
    (h : (t.set (pageOf addr) { e with use := true, dirty := e.dirty || writing })[j]? = some e₁) :
    ∃ e₀, t[j]? = some e₀ ∧ e₁.valid = e₀.valid ∧ e₁.physicalPage = e₀.physicalPage ∧
      e₁.readOnly = e₀.readOnly := by
  obtain ⟨hlt, -⟩ := List.getElem?_eq_some_iff.mp he
  by_cases hj : j = pageOf addr
  · subst hj
    rw [List.getElem?_set_self hlt] at h
    cases h
    exact ⟨e, he, rfl, rfl, rfl⟩
  · rw [List.getElem?_set_ne (Ne.symm hj)] at h
    exact ⟨e₁, h, rfl, rfl, rfl⟩

/-- The page table is still one after a write. -/
theorem paged_written (h : Paged m p t) (he : t[pageOf addr]? = some e) (bytes : List Byte) :
    Paged (written m p t addr e bytes) p
      (t.set (pageOf addr) { e with use := true, dirty := e.dirty || true }) where
  tlb := h.tlb
  pageTable := h.pageTable
  cell := Heap.cell_modify_self _ h.cell _
  length := by
    rw [List.length_set]
    exact h.length
  frames j hj e₁ he₁ hv := by
    obtain ⟨e₀, he₀, hv₀, hf₀, -⟩ := getElem?_set he he₁
    rw [hf₀]
    exact h.frames j hj e₀ he₀ (hv₀ ▸ hv)
  injective j hj k hk e₁ e₂ he₁ he₂ hv₁ hv₂ heq := by
    obtain ⟨e₀, he₀, hv₀, hf₀, -⟩ := getElem?_set he he₁
    obtain ⟨e₀', he₀', hv₀', hf₀', -⟩ := getElem?_set he he₂
    rw [hf₀, hf₀'] at heq
    exact h.injective j hj k hk e₀ e₀' he₀ he₀' (hv₀ ▸ hv₁) (hv₀' ▸ hv₂) heq

/-- What was accessible is so after a write, with its frame. -/
theorem accessible_written (he : t[pageOf addr]? = some e) (bytes : List Byte) {addr' : Word}
    {size' : ℕ} {e' : TranslationEntry} (ha : Accessible m t addr' size' false e') :
    ∃ e₁, Accessible (written m p t addr e bytes)
        (t.set (pageOf addr) { e with use := true, dirty := e.dirty || true }) addr' size' false e₁ ∧
      physical e₁ addr' = physical e' addr' := by
  obtain ⟨hlt, -⟩ := List.getElem?_eq_some_iff.mp he
  by_cases hj : pageOf addr' = pageOf addr
  · have heq : e' = e := by
      have hget := ha.get
      rw [hj, he] at hget
      exact (Option.some.inj hget).symm
    subst heq
    refine ⟨{ e' with use := true, dirty := e'.dirty || true }, ⟨ha.aligned, ha.lt, ?_, ha.valid,
      by simp⟩, rfl⟩
    rw [hj, List.getElem?_set_self hlt]
  · refine ⟨e', ⟨ha.aligned, ha.lt, ?_, ha.valid, ha.writable⟩, rfl⟩
    rw [List.getElem?_set_ne (Ne.symm hj)]
    exact ha.get

/-- Ranges that do not overlap in virtual memory do not overlap in physical memory. -/
theorem disjoint_physical (h : Paged m p t) (hsize : size = 1 ∨ size = 2 ∨ size = 4)
    (ha : Accessible m t addr size writing e) {addr' : Word} {size' : ℕ} {e' : TranslationEntry}
    (hsize' : size' = 1 ∨ size' = 2 ∨ size' = 4) (ha' : Accessible m t addr' size' false e')
    (hdisjoint : addr'.toNat + size' ≤ addr.toNat ∨ addr.toNat + size ≤ addr'.toNat) :
    physical e' addr' + size' ≤ physical e addr ∨ physical e addr + size ≤ physical e' addr' := by
  have hle := offset_add_size_le ((misaligned_eq_false_iff hsize addr).mpr ha.aligned)
    (natCast_size hsize)
  have hle' := offset_add_size_le ((misaligned_eq_false_iff hsize' addr').mpr ha'.aligned)
    (natCast_size hsize')
  have hP : PageSize = 128 := rfl
  have hpage : addr.toNat = 128 * pageOf addr + offsetOf addr := (Nat.div_add_mod _ _).symm
  have hpage' : addr'.toNat = 128 * pageOf addr' + offsetOf addr' := (Nat.div_add_mod _ _).symm
  rw [physical, physical, hP]
  by_cases hsame : pageOf addr = pageOf addr'
  · have heq : e = e' := by
      have hget := ha.get
      rw [hsame, ha'.get] at hget
      exact (Option.some.inj hget).symm
    rw [heq]
    omega
  · have hne : e.physicalPage.toNat ≠ e'.physicalPage.toNat := fun heq =>
      hsame (h.injective _ ha.lt _ ha'.lt e e' ha.get ha'.get ha.valid ha'.valid heq)
    omega

end Paged

/-! ## The result -/

/-- When `Translate` succeeds, and what it changes. -/
def TranslatesPages (m : Machine) (p : ℕ) (t : List TranslationEntry) : Prop :=
  ∀ (addr : Word) (size : ℕ) (writing : Bool), size = 1 ∨ size = 2 ∨ size = 4 →
    (∃ r, m.translate addr size writing = .ok r) ∧
    ((∃ a m', m.translate addr size writing = .ok (.physAddr a, m')) ↔
      addr.toNat % size = 0 ∧ pageOf addr < m.pageTableSize ∧ ∃ e, t[pageOf addr]? = some e ∧
        e.valid = true ∧ ¬ (e.readOnly = true ∧ writing = true)) ∧
    ∀ a m', m.translate addr size writing = .ok (.physAddr a, m') → ∃ e use dirty,
      t[pageOf addr]? = some e ∧
      m' = m.setTable p (t.set (pageOf addr) { e with use := use, dirty := dirty })

/-- A write is read back, and no other read changes. -/
def KeepsWrites (build : Build) (m : Machine) : Prop :=
  ∀ (addr : Word) (size : ℕ) (value : Word) (uninit : ℤ), size = 1 ∨ size = 2 ∨ size = 4 →
    (∃ a m', m.translate addr size true = .ok (.physAddr a, m')) →
    ∃ m₁, m.writeMem build addr size value uninit = .ok (true, m₁) ∧
      (∀ uninit', ∃ m₂, m₁.readMem build addr size uninit' =
        .ok (some (extended value size), m₂)) ∧
      ∀ (addr' : Word) (size' : ℕ) (uninit' : ℤ), size' = 1 ∨ size' = 2 ∨ size' = 4 →
        addr'.toNat + size' ≤ addr.toNat ∨ addr.toNat + size ≤ addr'.toNat →
        (∃ a m', m.translate addr' size' false = .ok (.physAddr a, m')) →
        ∃ w m₂ m₃, m.readMem build addr' size' uninit' = .ok (some w, m₂) ∧
          m₁.readMem build addr' size' uninit' = .ok (some w, m₃)

/-- A read of several bytes is made up of reads of one byte each. -/
def ReadsBytes (build : Build) (m : Machine) : Prop :=
  ∀ (addr : Word) (size : ℕ) (uninit : ℤ), size = 2 ∨ size = 4 →
    (∃ a m', m.translate addr size false = .ok (.physAddr a, m')) →
    ∃ (w : Word) (m₁ : Machine) (b : ℕ → Word),
      m.readMem build addr size uninit = .ok (some w, m₁) ∧
      (∀ j < size, ∃ m₂, m.readMem build (addr + BitVec.ofNat 32 j) 1 uninit =
        .ok (some (b j), m₂)) ∧
      w.toNat = ∑ j ∈ Finset.range size, (b j).toNat % 256 * 256 ^ j

theorem Paged.translatesPages (h : Paged m p t) : TranslatesPages m p t := by
  intro addr size writing hsize
  refine ⟨h.translate_total hsize addr writing, ⟨?_, ?_⟩, ?_⟩
  · rintro ⟨a, m', htranslate⟩
    obtain ⟨e, ha, -, -⟩ := h.accessible hsize htranslate
    refine ⟨ha.aligned, ha.lt, e, ha.get, ha.valid, fun hro => ?_⟩
    have hw := ha.writable
    rw [hro.1, hro.2] at hw
    cases hw
  · rintro ⟨halign, hlt, e, he, hv, hro⟩
    exact ⟨_, _, h.translate_eq hsize ⟨halign, hlt, he, hv, by simpa using hro⟩⟩
  · intro a m' htranslate
    obtain ⟨e, ha, -, rfl⟩ := h.accessible hsize htranslate
    exact ⟨e, _, _, ha.get, rfl⟩

theorem Paged.keepsWrites (h : Paged m p t) (build : Build) : KeepsWrites build m := by
  rintro addr size value uninit hsize ⟨a, m', htranslate⟩
  obtain ⟨e, ha, -, -⟩ := h.accessible hsize htranslate
  have hlen := length_lowBytes value size
  have hle := h.physical_add_le hsize ha
  have hpaged := h.paged_written ha.get (lowBytes value size)
  refine ⟨_, h.writeMem_eq hsize ha build value uninit, fun uninit' => ?_, ?_⟩
  · -- the page is readable as well
    have hread : Accessible m t addr size false e := ⟨ha.aligned, ha.lt, ha.get, ha.valid, by simp⟩
    obtain ⟨e₁, ha₁, hphys⟩ := Paged.accessible_written (p := p) ha.get (lowBytes value size) hread
    have hbytes : (Paged.written m p t addr e (lowBytes value size)).bytesAt (physical e addr) size =
        lowBytes value size := by
      have hstored := bytesAt_overlay (m := m.usedPage p t addr e true) m.mainMemory
        (a := physical e addr) (lowBytes value size) (by rw [hlen]; exact hle)
      rw [hlen] at hstored
      exact hstored
    have hback := hpaged.readMem_eq hsize ha₁ build uninit'
    rw [hphys, hbytes, valueOf_lowBytes hsize] at hback
    exact ⟨_, hback⟩
  · rintro addr' size' uninit' hsize' hdisjoint ⟨b, m'', htranslate'⟩
    obtain ⟨e', ha', -, -⟩ := h.accessible hsize' htranslate'
    obtain ⟨e₁, ha₁, hphys⟩ := Paged.accessible_written (p := p) ha.get (lowBytes value size) ha'
    have hapart := h.disjoint_physical hsize ha hsize' ha' hdisjoint
    have hbytes : (Paged.written m p t addr e (lowBytes value size)).bytesAt
        (physical e' addr') size' = m.bytesAt (physical e' addr') size' :=
      bytesAt_congr fun j hj => byteAt_overlay_of_not (m := m.usedPage p t addr e true) m.mainMemory
        (by rw [hlen]; omega)
    have hafter := hpaged.readMem_eq hsize' ha₁ build uninit'
    rw [hphys, hbytes] at hafter
    exact ⟨_, _, _, h.readMem_eq hsize' ha' build uninit', hafter⟩

theorem leNat_bytesAt (m : Machine) (a n : ℕ) :
    leNat (m.bytesAt a n) = ∑ j ∈ Finset.range n, (m.byteAt (a + j)).toNat * 256 ^ j := by
  induction n generalizing a with
  | zero => rfl
  | succ n ih =>
      rw [bytesAt, leNat, ih, Finset.sum_range_succ', Finset.mul_sum, add_comm]
      congr 1
      · refine Finset.sum_congr rfl fun j _ => ?_
        rw [show a + 1 + j = a + (j + 1) by omega, pow_succ]
        ring
      · simp

theorem toNat_signExtend_mod (b : Byte) : (b.signExtend 32 : Word).toNat % 256 = b.toNat := by
  revert b
  decide

theorem Paged.readsBytes (h : Paged m p t) (build : Build) : ReadsBytes build m := by
  rintro addr size uninit hsize ⟨a, m', htranslate⟩
  have hsize' : size = 1 ∨ size = 2 ∨ size = 4 := .inr hsize
  obtain ⟨e, ha, -, -⟩ := h.accessible hsize' htranslate
  have hle := offset_add_size_le ((misaligned_eq_false_iff hsize' addr).mpr ha.aligned)
    (natCast_size hsize')
  refine ⟨_, _, fun j => (m.byteAt (physical e addr + j)).signExtend 32,
    h.readMem_eq hsize' ha build uninit, fun j hj => ?_, ?_⟩
  · -- the byte is in the same page
    have hpage : addr.toNat = 128 * pageOf addr + offsetOf addr := (Nat.div_add_mod _ _).symm
    have hlt := pageOf_lt addr
    have hnat : (addr + BitVec.ofNat 32 j).toNat = addr.toNat + j := by
      rw [BitVec.toNat_add, BitVec.toNat_ofNat, Nat.mod_eq_of_lt (b := 2 ^ 32) (by omega),
        Nat.mod_eq_of_lt (by omega)]
    have hP : PageSize = 128 := rfl
    have hpage' : pageOf (addr + BitVec.ofNat 32 j) = pageOf addr := by
      rw [pageOf, hnat, hP]
      omega
    have hoffset : offsetOf (addr + BitVec.ofNat 32 j) = offsetOf addr + j := by
      rw [offsetOf, hnat, hP]
      omega
    have ha' : Accessible m t (addr + BitVec.ofNat 32 j) 1 false e :=
      ⟨Nat.mod_one _, by rw [hpage']; exact ha.lt, by rw [hpage']; exact ha.get, ha.valid, by simp⟩
    have hbyte := h.readMem_eq (.inl rfl) ha' build uninit
    rw [physical, hoffset, ← Nat.add_assoc] at hbyte
    exact ⟨_, hbyte⟩
  · have hlt := leNat_lt (m.bytesAt (physical e addr) size)
    rw [length_bytesAt] at hlt
    have hpow : 256 ^ size ≤ 256 ^ 4 := Nat.pow_le_pow_right (by decide) (by omega)
    rw [valueOf, length_bytesAt, if_neg (by omega), BitVec.toNat_ofNat,
      Nat.mod_eq_of_lt (by omega), leNat_bytesAt]
    exact Finset.sum_congr rfl fun j _ => by rw [toNat_signExtend_mod]

/-- With a page table, virtual memory is an array of bytes, the least significant first. -/
theorem linear_memory (m : Machine) (p : ℕ) (t : List TranslationEntry) (h : Paged m p t)
    (build : Build) : TranslatesPages m p t ∧ KeepsWrites build m ∧ ReadsBytes build m :=
  ⟨h.translatesPages, h.keepsWrites build, h.readsBytes build⟩

/-- A machine with two pages, which are in each other's frames. -/
def swappedPages : Machine :=
  { withoutPage with
    pageTableSize := 2
    heap := Heap.empty.alloc
      [⟨0, 1, true, false, false, false, 0⟩, ⟨1, 0, true, true, false, false, 0⟩] }

theorem linear_memory_swappedPages :
    ∃ t, Paged swappedPages 0 t ∧ TranslatesPages swappedPages 0 t ∧
      KeepsWrites ⟨false, true, true⟩ swappedPages ∧ ReadsBytes ⟨false, true, true⟩ swappedPages := by
  have hpaged : Paged swappedPages 0
      [⟨0, 1, true, false, false, false, 0⟩, ⟨1, 0, true, true, false, false, 0⟩] := by
    refine ⟨rfl, rfl, rfl, le_rfl, fun i hi e he _ => ?_, fun i hi j hj e e' he he' _ _ heq => ?_⟩
    · have hi : i < 2 := hi
      interval_cases i <;> cases he <;> decide
    · have hi : i < 2 := hi
      have hj : j < 2 := hj
      interval_cases i <;> interval_cases j <;> cases he <;> cases he' <;>
        first | rfl | exact absurd heq (by decide)
  exact ⟨_, hpaged, linear_memory swappedPages 0 _ hpaged ⟨false, true, true⟩⟩

end Nachos.Machine
