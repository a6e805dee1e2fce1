import Nachos.Verification.Process.Frames

/-! # Address translation and context switches -/

namespace Nachos

open Library

variable {φ γ ι : Type}

namespace Machine

variable {m m' m'' : Machine}

/-- The frame of a page, if the entry is valid. -/
def mapping (m : Machine) (space : AddrSpace) (i : ℕ) : Option Word := do
  let t ← m.heap.cell space.pageTable
  let e ← t[i]?
  if e.valid then some e.physicalPage else none

/-- The page table of the space has a valid entry for every page. -/
def Maps (m : Machine) (space : AddrSpace) : Prop :=
  ∃ t, m.heap.cell space.pageTable = some t ∧ t.length = space.numPages ∧ ∀ e ∈ t, e.valid = true

theorem Maps.isSome {space : AddrSpace} (h : m.Maps space) {i : ℕ} (hi : i < space.numPages) :
    m.mapping space i ≠ none := by
  obtain ⟨t, hcell, hlength, hvalid⟩ := h
  have hget : t[i]? = some t[i] := List.getElem?_eq_getElem (hlength ▸ hi)
  rw [mapping, hcell]
  change (t[i]?.bind fun e => if e.valid then some e.physicalPage else none) ≠ none
  rw [hget, Option.bind_some, if_pos (hvalid _ (List.getElem_mem _))]
  simp

/-! ## `SaveState` -/

/-- The table after `SaveState`. -/
def flushed (t : List TranslationEntry) : List TranslationEntry :=
  (t.take TLBSize).map (fun e => { e with valid := false }) ++ t.drop TLBSize

theorem length_flushed (t : List TranslationEntry) : (flushed t).length = t.length := by
  rw [flushed, List.length_append, List.length_map, ← List.length_append, List.take_append_drop]

theorem getElem?_flushed (t : List TranslationEntry) (i : ℕ) :
    (flushed t)[i]? = if i < TLBSize then t[i]?.map fun e => { e with valid := false }
      else t[i]? := by
  rw [flushed, List.getElem?_append, List.length_map, List.length_take]
  by_cases hi : i < TLBSize
  · rw [if_pos hi]
    by_cases hlt : i < t.length
    · rw [if_pos (by omega), List.getElem?_map, List.getElem?_take_of_lt hi]
    · rw [if_neg (by omega), List.getElem?_drop, List.getElem?_eq_none (by omega),
        List.getElem?_eq_none (by omega)]
      rfl
  · rw [if_neg hi, if_neg (by omega), List.getElem?_drop]
    by_cases hlt : TLBSize ≤ t.length
    · congr 1
      omega
    · rw [List.getElem?_eq_none (by omega), List.getElem?_eq_none (by omega)]

theorem saveState_eq_ok : AddrSpace.saveState m = .ok m' ↔
    ∃ p t, m.tlb = some p ∧ m.heap.cell p = some t ∧ TLBSize ≤ t.length ∧
      m' = m.setTable p (flushed t) := by
  have hS : TLBSize = 4 := rfl
  constructor
  · intro h
    unfold AddrSpace.saveState at h
    split at h
    · cases h
    · rename_i p hp
      obtain ⟨t, ht, h⟩ := bind_eq_ok.mp h
      obtain ⟨e, he, h⟩ := bind_eq_ok.mp h
      obtain ⟨k, hk, hget⟩ := entryAt_eq_ok he
      have hlt := (List.getElem?_eq_some_iff.mp hget).1
      exact ⟨p, t, hp, table_eq_ok ht, by omega, (Except.ok.inj h).symm⟩
  · rintro ⟨p, t, hp, ht, hlength, rfl⟩
    have hlast : 3 < t.length := by omega
    have he : entryAt t (TLBSize - 1) = .ok t[3] :=
      entryAt_natCast (List.getElem?_eq_getElem hlast)
    unfold AddrSpace.saveState
    rw [hp]
    dsimp only
    rw [table, ht]
    dsimp only
    rw [ok_bind, he, ok_bind]
    rfl

/-- What `SaveState` does to the entries: none becomes valid. -/
structure Flushes (m m' : Machine) : Prop where
  length : ∀ p, (m'.heap.cell p).map List.length = (m.heap.cell p).map List.length
  mapping : ∀ space i, m.mapping space i = none → m'.mapping space i = none

theorem Flushes.refl (m : Machine) : m.Flushes m := ⟨fun _ => rfl, fun _ _ h => h⟩

theorem Flushes.trans (h : m.Flushes m') (h' : m'.Flushes m'') : m.Flushes m'' :=
  ⟨fun p => (h'.length p).trans (h.length p), fun _ _ hi => h'.mapping _ _ (h.mapping _ _ hi)⟩

theorem mapping_congr {space : AddrSpace}
    (h : m'.heap.cell space.pageTable = m.heap.cell space.pageTable) (i : ℕ) :
    m'.mapping space i = m.mapping space i := by
  rw [mapping, mapping, h]

theorem Flushes.of_heap (h : m'.heap = m.heap) : m.Flushes m' :=
  ⟨fun p => by rw [h], fun space i hi => (mapping_congr (by rw [h]) i).trans hi⟩

theorem mapping_setTable {p : ℕ} {t t' : List TranslationEntry} {space : AddrSpace}
    (ht : m.heap.cell p = some t) (hspace : space.pageTable = p) (i : ℕ) :
    (m.setTable p t').mapping space i =
      t'[i]?.bind fun e => if e.valid then some e.physicalPage else none := by
  have hcell : (m.setTable p t').heap.cell p = some t' := m.heap.cell_modify_self ht _
  rw [mapping, hspace, hcell]
  rfl

theorem mapping_eq_bind {t : List TranslationEntry} {space : AddrSpace}
    (ht : m.heap.cell space.pageTable = some t) (i : ℕ) :
    m.mapping space i = t[i]?.bind fun e => if e.valid then some e.physicalPage else none := by
  rw [mapping, ht]
  rfl

theorem saveState_flushes (h : AddrSpace.saveState m = .ok m') : m.Flushes m' := by
  obtain ⟨p, t, -, ht, -, rfl⟩ := saveState_eq_ok.mp h
  constructor
  · intro q
    by_cases hq : q = p
    · subst hq
      have hcell : (m.setTable q (flushed t)).heap.cell q = some (flushed t) :=
        m.heap.cell_modify_self ht _
      rw [hcell, ht, Option.map_some, Option.map_some, length_flushed]
    · rw [setTable, m.heap.cell_modify_of_ne hq]
  · intro space i hnone
    by_cases hspace : space.pageTable = p
    · rw [mapping_setTable ht hspace, getElem?_flushed]
      rw [mapping_eq_bind (hspace ▸ ht)] at hnone
      split
      · cases t[i]? with
        | none => rfl
        | some e => rfl
      · exact hnone
    · exact (mapping_congr (m.heap.cell_modify_of_ne hspace _) i).trans hnone

/-- The first pages of the space whose table is installed get lost. -/
theorem saveState_mapping {space : AddrSpace} (h : AddrSpace.saveState m = .ok m')
    (htlb : m.tlb = some space.pageTable) : m'.mapping space 0 = none := by
  obtain ⟨p, t, hp, ht, -, rfl⟩ := saveState_eq_ok.mp h
  obtain rfl : p = space.pageTable := Option.some.inj (hp.symm.trans htlb)
  rw [mapping_setTable ht rfl, getElem?_flushed, if_pos (by decide)]
  cases t[0]? with
  | none => rfl
  | some e => rfl

end Machine

namespace Kernel

/-- `Scheduler::Run` for a thread that is in `Run` itself, once for each item of the list. -/
def switches (build : Build) : List ℕ → Kernel φ γ → Exec (Kernel φ γ)
  | [], k => .ok k
  | next :: rest, k => do
      let k ← k.run next
      let k ← k.afterSwitch build
      switches build rest k

/-- The current thread is one of two that have address spaces, and no thread is to be deleted. -/
structure Pair (a b : ℕ) (spaceA spaceB : AddrSpace) (m : Machine) (k : Kernel φ γ) : Prop where
  current : k.currentThread = a ∨ k.currentThread = b
  fst : (k.thread a).space = some spaceA
  snd : (k.thread b).space = some spaceB
  doomed : k.threadToBeDestroyed = none
  machine : k.machine = some m

variable {build : Build} {k k' : Kernel φ γ} {a b t : ℕ} {spaceA spaceB : AddrSpace} {m : Machine}

theorem Pair.space (h : Pair a b spaceA spaceB m k) (ht : t = a ∨ t = b) :
    ∃ space, (k.thread t).space = some space ∧ (space = spaceA ∨ space = spaceB) := by
  rcases ht with rfl | rfl
  · exact ⟨spaceA, h.fst, .inl rfl⟩
  · exact ⟨spaceB, h.snd, .inr rfl⟩

/-- A switch fails if `SaveState` does. -/
theorem Pair.saveState_of_switches (h : Pair a b spaceA spaceB m k) {rest : List ℕ}
    (hrun : k.switches build (t :: rest) = .ok k') :
    ∃ m', AddrSpace.saveState m = .ok m' := by
  unfold switches run saveUser at hrun
  obtain ⟨space, hspace, -⟩ := h.space h.current
  have hspace : k.current.space = some space := hspace
  rw [hspace, h.machine] at hrun
  dsimp only at hrun
  cases hsave : AddrSpace.saveState m with
  | ok m' => exact ⟨m', rfl⟩
  | error e =>
      rw [hsave] at hrun
      cases hrun

theorem run_of_saveState {space : AddrSpace} (hspace : k.current.space = some space)
    (hm : k.machine = some m) {m' : Machine} (hsave : AddrSpace.saveState m = .ok m') (next : ℕ) :
    ∃ k₁, k.run next = .ok k₁ ∧ k₁.currentThread = next ∧
      (∀ t, (k₁.thread t).space = (k.thread t).space) ∧
      k₁.threadToBeDestroyed = k.threadToBeDestroyed ∧ k₁.machine = some m' := by
  have hrun : ∃ k₁, k.run next = .ok k₁ ∧ k₁.machine = some m' := by
    unfold run saveUser
    rw [hspace, hm]
    dsimp only
    rw [hsave]
    exact ⟨_, rfl, rfl⟩
  obtain ⟨k₁, hrun, hm'⟩ := hrun
  obtain ⟨tables, -, huser⟩ := user_run hrun
  exact ⟨k₁, hrun, congrArg User.current huser, congrFun (congrArg User.space huser),
    congrArg User.doomed huser, hm'⟩

theorem afterSwitch_of_space (build : Build) {space : AddrSpace}
    (hd : k.threadToBeDestroyed = none) (hspace : k.current.space = some space)
    (hm : k.machine = some m) :
    ∃ k₁ m₁, k.afterSwitch build = .ok k₁ ∧ k₁.currentThread = k.currentThread ∧
      k₁.thread = k.thread ∧ k₁.threadToBeDestroyed = none ∧ k₁.machine = some m₁ ∧
      m₁.heap = m.heap ∧ m₁.tlb = if build.useTlb then some space.pageTable else m.tlb := by
  unfold afterSwitch destroyFinished restoreUser
  rw [hd]
  dsimp only
  rw [ok_bind, hspace, hm]
  refine ⟨_, _, rfl, rfl, rfl, hd, rfl, ?_, ?_⟩
  · unfold AddrSpace.restoreState
    split <;> rfl
  · unfold AddrSpace.restoreState
    split <;> rfl

/-- One switch. -/
theorem Pair.switch (h : Pair a b spaceA spaceB m k) (ht : t = a ∨ t = b) {m' : Machine}
    (hsave : AddrSpace.saveState m = .ok m') (build : Build) :
    ∃ k₁ m₁ space, Pair a b spaceA spaceB m₁ k₁ ∧ (space = spaceA ∨ space = spaceB) ∧
      m₁.heap = m'.heap ∧ (m₁.tlb = if build.useTlb then some space.pageTable else m'.tlb) ∧
      ∀ rest, k.switches build (t :: rest) = k₁.switches build rest := by
  obtain ⟨out, hout, -⟩ := h.space h.current
  obtain ⟨space, hspace, hone⟩ := h.space ht
  obtain ⟨k₀, hrun, hcurrent, hspaces, hdoomed, hm₀⟩ := run_of_saveState hout h.machine hsave t
  have hin : k₀.current.space = some space := by
    rw [Kernel.current, hcurrent, hspaces]
    exact hspace
  obtain ⟨k₁, m₁, hafter, hcurrent₁, hthread, hdoomed₁, hm₁, hheap, htlb⟩ :=
    afterSwitch_of_space build (hdoomed.trans h.doomed) hin hm₀
  refine ⟨k₁, m₁, space, ⟨?_, ?_, ?_, hdoomed₁, hm₁⟩, hone, hheap, htlb, fun rest => ?_⟩
  · rw [hcurrent₁, hcurrent]
    exact ht
  · rw [hthread, hspaces]
    exact h.fst
  · rw [hthread, hspaces]
    exact h.snd
  · rw [switches, hrun, ok_bind, hafter, ok_bind]

/-- In a run of switches no entry becomes valid. -/
theorem Pair.flushes (h : Pair a b spaceA spaceB m k) {ts : List ℕ}
    (hts : ∀ t ∈ ts, t = a ∨ t = b) (hrun : k.switches build ts = .ok k') :
    ∃ m', k'.machine = some m' ∧ m.Flushes m' := by
  induction ts generalizing k m with
  | nil =>
      obtain rfl := Except.ok.inj hrun
      exact ⟨m, h.machine, .refl m⟩
  | cons t ts ih =>
      obtain ⟨m₀, hsave⟩ := h.saveState_of_switches hrun
      obtain ⟨k₁, m₁, space, h₁, -, hheap, -, hswitch⟩ :=
        h.switch (hts t List.mem_cons_self) hsave build
      rw [hswitch] at hrun
      obtain ⟨m', hm', hflush⟩ := ih h₁ (fun t ht => hts t (List.mem_cons_of_mem _ ht)) hrun
      exact ⟨m', hm', ((Machine.saveState_flushes hsave).trans (.of_heap hheap)).trans hflush⟩

/-- The translation of both spaces is the same. -/
def Kept (spaceA spaceB : AddrSpace) (m m' : Machine) : Prop :=
  ∀ i, (i < spaceA.numPages → m'.mapping spaceA i = m.mapping spaceA i) ∧
    (i < spaceB.numPages → m'.mapping spaceB i = m.mapping spaceB i)

/-- `machine->tlb` is a table of its own. -/
def OwnTlb (spaceA spaceB : AddrSpace) (m : Machine) : Prop :=
  ∃ p t, m.tlb = some p ∧ m.heap.cell p = some t ∧ TLBSize ≤ t.length ∧
    p ≠ spaceA.pageTable ∧ p ≠ spaceB.pageTable

/-- A flushed page is not kept. -/
theorem Kept.mapping_ne {m' : Machine} (h : Kept spaceA spaceB m m') (hA : m.Maps spaceA)
    (hB : m.Maps spaceB) {space : AddrSpace} (hspace : space = spaceA ∨ space = spaceB)
    (hpos : 0 < space.numPages) : m'.mapping space 0 ≠ none := by
  rcases hspace with rfl | rfl
  · rw [(h 0).1 hpos]
    exact hA.isSome hpos
  · rw [(h 0).2 hpos]
    exact hB.isSome hpos

/-- If the page table of a space is installed when `SaveState` is called, the space has pages. -/
theorem numPages_pos {m₁ m₂ : Machine} {space : AddrSpace} (hmaps : m.Maps space)
    (hflush : m.Flushes m₁) (hsave : AddrSpace.saveState m₁ = .ok m₂)
    (htlb : m₁.tlb = some space.pageTable) : 0 < space.numPages := by
  obtain ⟨p, t, hp, ht, hlength, -⟩ := Machine.saveState_eq_ok.mp hsave
  obtain rfl : p = space.pageTable := Option.some.inj (hp.symm.trans htlb)
  obtain ⟨t₀, ht₀, hlength₀, -⟩ := hmaps
  have hS : TLBSize = 4 := rfl
  have hsame := hflush.length space.pageTable
  rw [ht, ht₀, Option.map_some, Option.map_some] at hsame
  have hsame := Option.some.inj hsame
  omega

theorem Kept.refl (spaceA spaceB : AddrSpace) (m : Machine) : Kept spaceA spaceB m m :=
  fun _ => ⟨fun _ => rfl, fun _ => rfl⟩

theorem Kept.trans {m' m'' : Machine} (h : Kept spaceA spaceB m m')
    (h' : Kept spaceA spaceB m' m'') : Kept spaceA spaceB m m'' :=
  fun i => ⟨fun hi => ((h' i).1 hi).trans ((h i).1 hi), fun hi => ((h' i).2 hi).trans ((h i).2 hi)⟩

theorem Kept.of_heap {m' : Machine} (h : m'.heap = m.heap) : Kept spaceA spaceB m m' :=
  fun i => ⟨fun _ => Machine.mapping_congr (by rw [h]) i,
    fun _ => Machine.mapping_congr (by rw [h]) i⟩

/-- `SaveState` on a table of its own is harmless. -/
theorem OwnTlb.saveState (h : OwnTlb spaceA spaceB m) :
    ∃ m', AddrSpace.saveState m = .ok m' ∧ Kept spaceA spaceB m m' ∧
      ∀ m'', m''.heap = m'.heap → m''.tlb = m'.tlb → OwnTlb spaceA spaceB m'' := by
  obtain ⟨p, t, hp, ht, hlength, hA, hB⟩ := h
  refine ⟨_, Machine.saveState_eq_ok.mpr ⟨p, t, hp, ht, hlength, rfl⟩, fun i => ⟨fun _ => ?_,
    fun _ => ?_⟩, fun m'' hheap htlb => ?_⟩
  · exact Machine.mapping_congr (m.heap.cell_modify_of_ne hA.symm _) i
  · exact Machine.mapping_congr (m.heap.cell_modify_of_ne hB.symm _) i
  · refine ⟨p, Machine.flushed t, htlb.trans hp, ?_, ?_, hA, hB⟩
    · rw [hheap]
      exact m.heap.cell_modify_self ht _
    · rwa [Machine.length_flushed]

/-- Without `USE_TLB` the TLB stays installed. -/
theorem Pair.keep_linear (h : Pair a b spaceA spaceB m k) (hown : OwnTlb spaceA spaceB m)
    (hbuild : build.useTlb = false) {ts : List ℕ} (hts : ∀ t ∈ ts, t = a ∨ t = b) :
    ∃ k' m', k.switches build ts = .ok k' ∧ k'.machine = some m' ∧ Kept spaceA spaceB m m' := by
  induction ts generalizing k m with
  | nil => exact ⟨k, m, rfl, h.machine, .refl _ _ _⟩
  | cons t ts ih =>
      obtain ⟨m₀, hsave, hkept, hstays⟩ := hown.saveState
      obtain ⟨k₁, m₁, space, h₁, -, hheap, htlb, hswitch⟩ :=
        h.switch (hts t List.mem_cons_self) hsave build
      rw [hbuild] at htlb
      obtain ⟨k', m', hrun, hm', hkept'⟩ := ih h₁ (hstays m₁ hheap htlb)
        fun t ht => hts t (List.mem_cons_of_mem _ ht)
      rw [hswitch]
      exact ⟨k', m', hrun, hm', (hkept.trans (.of_heap hheap)).trans hkept'⟩

/-- Switches between two programs fail on no table and keep the translation of both, exactly
if there are none, or `machine->tlb` is not one of their page tables and does not become one
before the last switch. -/
theorem translation_kept_iff (h : Pair a b spaceA spaceB m k) (hA : m.Maps spaceA)
    (hB : m.Maps spaceB) (ts : List ℕ) (hts : ∀ t ∈ ts, t = a ∨ t = b) :
    (∃ k' m', k.switches build ts = .ok k' ∧ k'.machine = some m' ∧ Kept spaceA spaceB m m') ↔
      ts = [] ∨ (ts.length = 1 ∨ build.useTlb = false) ∧ OwnTlb spaceA spaceB m := by
  have hmaps : ∀ space, space = spaceA ∨ space = spaceB → m.Maps space := by
    rintro space (rfl | rfl)
    · exact hA
    · exact hB
  constructor
  · rintro ⟨k', m', hrun, hm', hkept⟩
    cases ts with
    | nil => exact .inl rfl
    | cons t rest =>
        have hrest : ∀ t ∈ rest, t = a ∨ t = b := fun t ht => hts t (List.mem_cons_of_mem _ ht)
        obtain ⟨m₀, hsave⟩ := h.saveState_of_switches hrun
        obtain ⟨k₁, m₁, space, h₁, hspace, hheap, htlb, hswitch⟩ :=
          h.switch (hts t List.mem_cons_self) hsave build
        rw [hswitch] at hrun
        have hflush₁ : m₀.Flushes m₁ := .of_heap hheap
        obtain ⟨m₂, hm₂, hflush⟩ := h₁.flushes hrest hrun
        obtain rfl := Option.some.inj (hm₂.symm.trans hm')
        obtain ⟨p, table, hp, ht, hlength, -⟩ := Machine.saveState_eq_ok.mp hsave
        -- the installed table is flushed and its pages do not come back
        have hown : ∀ s, s = spaceA ∨ s = spaceB → p ≠ s.pageTable := by
          rintro s hs rfl
          have hpos := numPages_pos (hmaps s hs) (.refl m) hsave hp
          have hnone := Machine.saveState_mapping hsave hp
          exact hkept.mapping_ne hA hB hs hpos ((hflush₁.trans hflush).mapping s 0 hnone)
        refine .inr ⟨?_, p, table, hp, ht, hlength, hown _ (.inl rfl), hown _ (.inr rfl)⟩
        cases hbuild : build.useTlb with
        | false => exact .inr rfl
        | true =>
            cases rest with
            | nil => exact .inl rfl
            | cons t' rest =>
                rw [hbuild, if_pos rfl] at htlb
                obtain ⟨m₃, hsave'⟩ := h₁.saveState_of_switches hrun
                obtain ⟨k₂, m₄, -, h₂, -, hheap', -, hswitch'⟩ :=
                  h₁.switch (hrest t' List.mem_cons_self) hsave' build
                rw [hswitch'] at hrun
                obtain ⟨m₅, hm₅, hflush'⟩ :=
                  h₂.flushes (fun t ht => hrest t (List.mem_cons_of_mem _ ht)) hrun
                obtain rfl := Option.some.inj (hm₅.symm.trans hm₂)
                have hpos := numPages_pos (hmaps space hspace)
                  ((Machine.saveState_flushes hsave).trans hflush₁) hsave' htlb
                have hnone := Machine.saveState_mapping hsave' htlb
                have hlost := ((Machine.Flushes.of_heap hheap').trans hflush').mapping space 0 hnone
                exact absurd hlost (hkept.mapping_ne hA hB hspace hpos)
  · rintro (rfl | ⟨hfew, hown⟩)
    · exact ⟨k, m, rfl, h.machine, .refl _ _ _⟩
    · rcases hfew with hone | hbuild
      · obtain ⟨t, rfl⟩ := List.length_eq_one_iff.mp hone
        obtain ⟨m₀, hsave, hkept, -⟩ := hown.saveState
        obtain ⟨k₁, m₁, space, h₁, -, hheap, -, hswitch⟩ :=
          h.switch (hts t List.mem_cons_self) hsave build
        exact ⟨k₁, m₁, (hswitch []), h₁.machine, hkept.trans (.of_heap hheap)⟩
      · exact h.keep_linear hown hbuild hts

/-! ## One switch -/

/-- Two programs of eight pages, with the given table as TLB. -/
def twoSpaces (tlb : Option ℕ) : Machine :=
  { AddrSpace.freshMachine with
    tlb := tlb
    heap := (AddrSpace.freshMachine.heap.alloc
      (AddrSpace.pages 0 ((List.finRange NumPhysPages).take 8))).alloc
        (AddrSpace.pages 0 (((List.finRange NumPhysPages).drop 8).take 8)) }

/-- Thread 0 runs the first program, thread 1 the second one. -/
def twoPrograms (tlb : Option ℕ) : Kernel ℕ Unit :=
  { start 0 () (fun _ => 0) (some (twoSpaces tlb)) with
    thread := fun t => { (unborn : Thread ℕ) with
      space := if t = 0 then some ⟨1, 8⟩ else if t = 1 then some ⟨2, 8⟩ else none }
    created := 2 }

theorem pair_twoPrograms (tlb : Option ℕ) :
    Pair 0 1 ⟨1, 8⟩ ⟨2, 8⟩ (twoSpaces tlb) (twoPrograms tlb) :=
  ⟨.inl rfl, rfl, rfl, rfl, rfl⟩

theorem maps_twoSpaces (tlb : Option ℕ) :
    (twoSpaces tlb).Maps ⟨1, 8⟩ ∧ (twoSpaces tlb).Maps ⟨2, 8⟩ :=
  ⟨⟨_, rfl, by decide, by decide⟩, ⟨_, rfl, by decide, by decide⟩⟩

/-- Before the page table of a program has been installed, one switch does no harm. -/
theorem translation_kept_iff_twoPrograms :
    ∃ k' m', (twoPrograms (some 0)).switches AddrSpace.defaultBuild [1] = .ok k' ∧
      k'.machine = some m' ∧ Kept ⟨1, 8⟩ ⟨2, 8⟩ (twoSpaces (some 0)) m' := by
  obtain ⟨hA, hB⟩ := maps_twoSpaces (some 0)
  refine (translation_kept_iff (pair_twoPrograms _) hA hB [1] (by simp)).mpr (.inr ⟨.inl rfl, ?_⟩)
  exact ⟨0, _, rfl, rfl, by decide, by decide, by decide⟩

/-- If thread 0 runs with its own page table as TLB, a switch to thread 1 makes its first pages
invalid; without `USE_TLB` the switch fails, since there is no TLB. -/
theorem translation_lost :
    ((twoPrograms (some 1)).switches AddrSpace.defaultBuild [1]).toOption.map
        (fun k => k.machine.map fun m => (List.range 8).map (m.mapping ⟨1, 8⟩)) =
      some (some [none, none, none, none, some 4, some 5, some 6, some 7]) ∧
    (twoPrograms none).switches { AddrSpace.defaultBuild with useTlb := false } [1] =
      .error .bounds :=
  ⟨by decide +kernel, rfl⟩

end Kernel

end Nachos
