import Nachos.Verification.AddrSpace.Isolation
import Nachos.Verification.Kernel.Queues
import Nachos.Verification.Machine.Lookup
import Nachos.Verification.Process.Steps

/-! # Frames of address spaces

A frame is given back when a program exits and once more when its thread is deleted. -/

namespace Nachos

open Library

variable {φ γ ι : Type}

namespace Tables

variable {tables tables' : Tables} {space : AddrSpace} {f : ℕ}

/-- The frames of an address space. -/
def frames (tables : Tables) (space : AddrSpace) : List ℕ :=
  ((tables.heap.cell space.pageTable).getD []).map fun e => e.physicalPage.toNat

/-- The frame is in use. -/
def Marked (tables : Tables) (frame : ℕ) : Prop :=
  ∃ h : frame < NumPhysPages, tables.bitMap.testBit ⟨frame, h⟩ = true

theorem frames_congr (h : tables'.heap.cell space.pageTable = tables.heap.cell space.pageTable) :
    tables'.frames space = tables.frames space := by
  rw [frames, frames, h]

end Tables

/-! ## Functions of the machine -/

namespace Machine

variable {m m' : Machine} {build : Build}

theorem clear_marked {num : ℤ} (h : m.clear num = .ok m') :
    (∃ bitMap, m' = { m with bitMap := bitMap }) ∧
      ∀ f : ℕ, m.Marked f → (f : ℤ) ≠ num → m'.Marked f := by
  unfold clear at h
  obtain ⟨marked, -, h⟩ := bind_eq_ok.mp h
  split at h
  · obtain ⟨bitMap, hclear, h⟩ := bind_eq_ok.mp h
    unfold BitMap.clear at hclear
    obtain ⟨i, hi, hclear⟩ := bind_eq_ok.mp hclear
    rw [← Except.ok.inj h, ← Except.ok.inj hclear]
    refine ⟨⟨_, rfl⟩, fun f ⟨hf, hbit⟩ hne => ⟨hf, ?_⟩⟩
    have hother : (⟨f, hf⟩ : Fin NumPhysPages) ≠ i := by
      rintro rfl
      exact hne (BitMap.item_eq_ok hi).symm
    simp [hbit, hother]
  · rw [← Except.ok.inj h]
    exact ⟨⟨m.bitMap, rfl⟩, fun f hf _ => hf⟩

/-- The frames that are not in the table stay marked. -/
theorem clearEntries_marked {t : List TranslationEntry} {n i : ℕ}
    (h : clearEntries t n i m = .ok m') :
    (∃ bitMap, m' = { m with bitMap := bitMap }) ∧
      ∀ f : ℕ, m.Marked f → f ∉ t.map (fun e => e.physicalPage.toNat) → m'.Marked f := by
  induction n generalizing i m with
  | zero =>
      rw [← Except.ok.inj h]
      exact ⟨⟨m.bitMap, rfl⟩, fun f hf _ => hf⟩
  | succ n ih =>
      unfold clearEntries at h
      obtain ⟨e, he, h⟩ := bind_eq_ok.mp h
      obtain ⟨m₁, hclear, h⟩ := bind_eq_ok.mp h
      obtain ⟨⟨bitMap, rfl⟩, hmarked⟩ := clear_marked hclear
      obtain ⟨⟨bitMap', rfl⟩, hmarked'⟩ := ih h
      refine ⟨⟨bitMap', rfl⟩, fun f hf hnot => hmarked' f (hmarked f hf ?_) hnot⟩
      intro heq
      obtain ⟨k, -, hget⟩ := entryAt_eq_ok he
      refine hnot (List.mem_map.mpr ⟨e, List.mem_of_getElem? hget, ?_⟩)
      have hf := hf.1
      have hlt : (f : ℤ) < 32 := by exact_mod_cast hf
      have htoInt := BitVec.toInt_eq_toNat_cond e.physicalPage
      split at htoInt <;> omega

/-- `ClearAll` clears frames of the table that is installed. -/
theorem clearAll_marked {space : AddrSpace}
    (hinstalled : (if build.useTlb then m.tlb else m.pageTable) = some space.pageTable)
    (h : m.clearAll build = .ok m') :
    (∃ bitMap, m' = { m with bitMap := bitMap }) ∧
      ∀ f : ℕ, m.Marked f → f ∉ m.frames space → m'.Marked f := by
  unfold clearAll at h
  rw [hinstalled] at h
  obtain ⟨t, ht, h⟩ := bind_eq_ok.mp h
  obtain ⟨hbitMap, hmarked⟩ := clearEntries_marked h
  refine ⟨hbitMap, fun f hf hnot => hmarked f hf ?_⟩
  rwa [frames, table_eq_ok ht] at hnot

theorem destroy_marked {space : AddrSpace} (h : space.destroy m = .ok m') :
    (∃ bitMap, m' = { m with bitMap := bitMap, heap := m.heap.free space.pageTable }) ∧
      ∀ f : ℕ, m.Marked f → f ∉ m.frames space → m'.Marked f := by
  unfold AddrSpace.destroy at h
  obtain ⟨t, ht, h⟩ := bind_eq_ok.mp h
  obtain ⟨m₁, hclear, h⟩ := bind_eq_ok.mp h
  obtain ⟨⟨bitMap, rfl⟩, hmarked⟩ := clearEntries_marked hclear
  rw [← Except.ok.inj h]
  refine ⟨⟨bitMap, rfl⟩, fun f hf hnot => hmarked f hf ?_⟩
  rwa [frames, table_eq_ok ht] at hnot

/-- `SaveState` changes no frame. -/
theorem saveState_frames (h : AddrSpace.saveState m = .ok m') :
    m'.bitMap = m.bitMap ∧ m'.heap.next = m.heap.next ∧
      ∀ space, m'.frames space = m.frames space := by
  unfold AddrSpace.saveState at h
  split at h
  · cases h
  · rename_i p hp
    obtain ⟨t, ht, h⟩ := bind_eq_ok.mp h
    obtain ⟨e, -, h⟩ := bind_eq_ok.mp h
    rw [← Except.ok.inj h]
    refine ⟨rfl, rfl, fun space => ?_⟩
    rw [frames, frames, setTable]
    dsimp only
    by_cases hspace : space.pageTable = p
    · rw [hspace, m.heap.cell_modify_self (table_eq_ok ht), table_eq_ok ht]
      simp only [Option.getD_some, List.map_append, List.map_map]
      nth_rewrite 3 [← List.take_append_drop TLBSize t]
      rw [List.map_append]
      rfl
    · rw [m.heap.cell_modify_of_ne hspace]

end Machine

/-! ## Address spaces and their frames -/

/-- The address spaces of the threads in `live` own their frames. -/
structure Owning (u : User) (live : ℕ → Prop) (tables : Tables) : Prop where
  below : ∀ t space, u.space t = some space → space.pageTable < tables.heap.next
  distinct : ∀ t t' space space', u.space t = some space → u.space t' = some space' → t ≠ t' →
    space.pageTable ≠ space'.pageTable
  disjoint : ∀ t t' space space', live t → live t' → u.space t = some space →
    u.space t' = some space' → t ≠ t' → ∀ f ∈ tables.frames space, f ∉ tables.frames space'
  marked : ∀ t space, live t → u.space t = some space → ∀ f ∈ tables.frames space, tables.Marked f

namespace Owning

variable {u u' : User} {live live' : ℕ → Prop} {tables tables' : Tables}

/-- No thread gets another address space, and no frame of a live one is given back. -/
theorem keep (h : Owning u live tables)
    (hspace : ∀ t space, u'.space t = some space → u.space t = some space)
    (hlive : ∀ t space, u'.space t = some space → live' t → live t)
    (hnext : tables'.heap.next = tables.heap.next)
    (hframes : ∀ t space, u'.space t = some space → live' t →
      tables'.frames space = tables.frames space)
    (hmarked : ∀ t space, u'.space t = some space → live' t → ∀ f ∈ tables.frames space,
      tables.Marked f → tables'.Marked f) : Owning u' live' tables' where
  below t space hs := by
    rw [hnext]
    exact h.below t space (hspace t space hs)
  distinct t t' space space' hs hs' hne :=
    h.distinct t t' space space' (hspace _ _ hs) (hspace _ _ hs') hne
  disjoint t t' space space' ht ht' hs hs' hne f hf := by
    rw [hframes t space hs ht] at hf
    rw [hframes t' space' hs' ht']
    exact h.disjoint t t' space space' (hlive _ _ hs ht) (hlive _ _ hs' ht') (hspace _ _ hs)
      (hspace _ _ hs') hne f hf
  marked t space ht hs f hf := by
    rw [hframes t space hs ht] at hf
    exact hmarked t space hs ht f hf (h.marked t space (hlive _ _ hs ht) (hspace _ _ hs) f hf)

/-- A thread gets a new address space. -/
theorem load {build : Build} {m m' : Machine} {executable : List Byte} {uninit : NoffHeader}
    {space : AddrSpace} {t : ℕ} (h : Owning u live m.tables)
    (hnew : AddrSpace.new build m executable uninit = .ok (space, m'))
    (hspace : u'.space = Function.update u.space t (some space))
    (hlive : ∀ v, v ≠ t → live' v → live v) : Owning u' live' m'.tables := by
  have hframes := AddrSpace.new_frames hnew rfl
  have hmarked := AddrSpace.new_marked hnew rfl
  have hheap := (AddrSpace.new_allocated hnew rfl).heap
  obtain ⟨-, -, hpointer, -⟩ := AddrSpace.new_eq_ok hnew rfl
  have hnext : m'.heap.next = m.heap.next + 1 := by
    rw [hheap]
    rfl
  have hother : ∀ v s, v ≠ t → u'.space v = some s → u.space v = some s := by
    intro v s hv hs
    rwa [hspace, Function.update_of_ne hv] at hs
  have hself : ∀ s, u'.space t = some s → s = space := by
    intro s hs
    rw [hspace, Function.update_self] at hs
    exact (Option.some.inj hs).symm
  -- the other page tables stay where they are
  have hold : ∀ v s, v ≠ t → u'.space v = some s → m'.tables.frames s = m.tables.frames s := by
    intro v s hv hs
    refine Tables.frames_congr ?_
    have hbelow : s.pageTable < m.heap.next := h.below v s (hother v s hv hs)
    change m'.heap.cell _ = m.heap.cell _
    rw [hheap]
    exact Function.update_of_ne hbelow.ne ..
  have hfresh : ∀ v s, v ≠ t → live' v → u'.space v = some s → ∀ f ∈ m'.tables.frames s,
      f ∉ m'.frames space := by
    intro v s hv hlv hs f hf hmem
    rw [hold v s hv hs] at hf
    obtain ⟨hlt, hbit⟩ := h.marked v s (hlive v hv hlv) (hother v s hv hs) f hf
    rw [hframes] at hmem
    obtain ⟨i, hi, rfl⟩ := List.mem_map.mp hmem
    have hclear := BitMap.mem_free.mp (List.mem_of_mem_take hi)
    exact absurd (hclear.symm.trans hbit) (by simp)
  refine ⟨fun v s hs => ?_, fun v v' s s' hs hs' hne => ?_,
    fun v v' s s' hv hv' hs hs' hne f hf => ?_, fun v s hv hs f hf => ?_⟩
  · change s.pageTable < m'.heap.next
    by_cases hvt : v = t
    · subst hvt
      rw [hself s hs, hpointer, hnext]
      exact Nat.lt_succ_self _
    · rw [hnext]
      exact (h.below v s (hother v s hvt hs)).trans (Nat.lt_succ_self _)
  · by_cases hvt : v = t
    · subst hvt
      rw [hself s hs, hpointer]
      exact (h.below v' s' (hother v' s' hne.symm hs')).ne'
    · by_cases hvt' : v' = t
      · subst hvt'
        rw [hself s' hs', hpointer]
        exact (h.below v s (hother v s hvt hs)).ne
      · exact h.distinct v v' s s' (hother v s hvt hs) (hother v' s' hvt' hs') hne
  · by_cases hvt : v = t
    · subst hvt
      rw [hself s hs] at hf
      exact fun hmem => hfresh v' s' hne.symm hv' hs' f hmem hf
    · by_cases hvt' : v' = t
      · subst hvt'
        rw [hself s' hs']
        exact hfresh v s hvt hv hs f hf
      · rw [hold v s hvt hs] at hf
        rw [hold v' s' hvt' hs']
        exact h.disjoint v v' s s' (hlive v hvt hv) (hlive v' hvt' hv') (hother v s hvt hs)
          (hother v' s' hvt' hs') hne f hf
  · by_cases hvt : v = t
    · subst hvt
      rw [hself s hs] at hf
      refine (hmarked f).mpr (.inr ?_)
      rwa [← hframes]
    · rw [hold v s hvt hs] at hf
      exact (hmarked f).mpr (.inl (h.marked v s (hlive v hvt hv) (hother v s hvt hs) f hf))

/-- Other tables may be installed. -/
theorem install (h : Owning u live tables) (hspace : u'.space = u.space)
    (hlive : ∀ t, live' t → live t) (hbitMap : tables'.bitMap = tables.bitMap)
    (hheap : tables'.heap = tables.heap) : Owning u' live' tables' := by
  refine h.keep (fun t space hs => hspace ▸ hs) (fun t _ _ => hlive t) (by rw [hheap])
    (fun t space _ _ => Tables.frames_congr (by rw [hheap])) fun t space _ _ f _ hf => ?_
  rwa [Tables.Marked, hbitMap]

end Owning

theorem SameFrames.of_some {old : Option Tables} {tables : Tables}
    (h : SameFrames old (some tables)) :
    ∃ tables₀, old = some tables₀ ∧ tables.bitMap = tables₀.bitMap ∧
      tables.heap = tables₀.heap := by
  cases old with
  | none => cases h.1
  | some tables₀ => exact ⟨tables₀, rfl, Option.some.inj h.1, Option.some.inj h.2⟩

namespace Kernel

variable {cfg : Config φ γ ι} {env : Env ι} {k k' : Kernel φ γ}

/-- The current thread has exited and is about to call `Finish`. -/
def Exiting (k : Kernel φ γ) : Prop := ∃ rest, k.current.stack = .cmd .finish :: rest

/-- The thread has neither exited nor been deleted. -/
def Live (k : Kernel φ γ) (t : ℕ) : Prop :=
  (k.thread t).phase = .unfinished ∧ ¬ (t = k.currentThread ∧ k.Exiting)

/-- A user program makes system calls in its own address space. -/
def RunsOwnSpace (build : Build) (k : Kernel φ γ) : Prop :=
  ∀ rest m, k.current.stack = .cmd .syscall :: rest → k.machine = some m →
    ∃ space, k.current.space = some space ∧
      (if build.useTlb then m.tlb else m.pageTable) = some space.pageTable

/-- If the finished thread is deleted in this step, no program has got a frame that is in its
page table. -/
def DeletesNoFrame (k : Kernel φ γ) : Prop :=
  ∀ rest t space m, k.current.stack = .afterSwitch :: rest → k.threadToBeDestroyed = some t →
    (k.thread t).space = some space → k.machine = some m →
    ∀ t' space', k.Live t' → (k.thread t').space = some space' →
      ∀ f ∈ m.frames space, f ∉ m.frames space'

theorem machine_of_tables {tables : Tables} (h : k.user.tables = some tables) :
    ∃ m, k.machine = some m ∧ m.tables = tables :=
  Option.map_eq_some_iff.mp h

theorem of_update_deleted {phase : ℕ → Phase} {t v : ℕ}
    (h : Function.update phase t .deleted v = .unfinished) : v ≠ t ∧ phase v = .unfinished := by
  by_cases hv : v = t
  · subst hv
    rw [Function.update_self] at h
    cases h
  · exact ⟨hv, by rwa [Function.update_of_ne hv] at h⟩

theorem owning_step {place : ℕ → Option Place} (hq : k.core.Queued place)
    (hown : k.RunsOwnSpace cfg.build) (hdelete : k.DeletesNoFrame)
    (howning : ∀ tables, k.user.tables = some tables → Owning k.user k.Live tables)
    (h : k.step cfg env = .ok k') (hrunning : k'.halted = false) (tables : Tables)
    (htables : k'.user.tables = some tables) : Owning k'.user k'.Live tables := by
  obtain ⟨f, rest, hstack, hstep, hend⟩ := step_user h
  have hlive' : ∀ t, k'.Live t → k'.user.phase t = .unfinished := fun t ht => ht.1
  have hlive : f ≠ .cmd .finish → ∀ t, k.user.phase t = .unfinished → k.Live t := by
    intro hf t ht
    refine ⟨ht, fun hexit => ?_⟩
    obtain ⟨rest', hfinish⟩ := hexit.2
    rw [hstack] at hfinish
    cases hfinish
    exact hf rfl
  have hexit' : k'.Exiting → ∀ t, k'.Live t → t ≠ k'.user.current :=
    fun hexit t ht heq => ht.2 ⟨heq, hexit⟩
  generalize k'.user = u' at hstep hlive' hexit' htables ⊢
  generalize k'.Live = live' at hlive' hexit' ⊢
  cases hstep with
  | same hf => exact (howning _ htables).install rfl (fun t ht => hlive hf t (hlive' t ht)) rfl rfl
  | newThread =>
      have hcreated : ∀ t space, Function.update k.user.space k.created none t = some space →
          t ≠ k.created ∧ k.user.space t = some space := by
        intro t space hs
        by_cases ht : t = k.created
        · subst ht
          rw [Function.update_self] at hs
          cases hs
        · exact ⟨ht, by rwa [Function.update_of_ne ht] at hs⟩
      refine (howning _ htables).keep (fun t space hs => (hcreated t space hs).2)
        (fun t space hs ht => hlive (by simp) t ?_) rfl (fun _ _ _ _ => rfl) fun _ _ _ _ _ _ hf => hf
      have hphase := hlive' t ht
      dsimp only at hphase
      rwa [Function.update_of_ne (hcreated t space hs).1] at hphase
  | @load t executable uninit space m m' hm hnew =>
      obtain rfl := Option.some.inj htables
      exact (howning _ hm).load hnew rfl fun v _ hv => hlive (by simp) v (hlive' v hv)
  | restoreState hframes =>
      dsimp only at htables
      rw [htables] at hframes
      obtain ⟨tables₀, hold, hbitMap, hheap⟩ := hframes.of_some
      exact (howning _ hold).install rfl (fun t ht => hlive (by simp) t (hlive' t ht)) hbitMap hheap
  | @syscall m m' hm hclear =>
      obtain rfl := Option.some.inj htables
      obtain ⟨m₀, hm₀, hsame⟩ := machine_of_tables hm
      obtain ⟨space, hspace, hinstalled⟩ := hown rest m₀ hstack hm₀
      have hinstalled : (if cfg.build.useTlb then m.tlb else m.pageTable) = some space.pageTable := by
        rw [show m.tlb = m₀.tlb from congrArg Tables.tlb hsame.symm,
          show m.pageTable = m₀.pageTable from congrArg Tables.pageTable hsame.symm]
        exact hinstalled
      obtain ⟨⟨bitMap, rfl⟩, hmarked⟩ := Machine.clearAll_marked hinstalled hclear
      have hcurrent : k.Live k.currentThread := by
        refine hlive (by simp) _ (hq.runs ?_).2.2
        change ¬ Sleepy k.current.stack
        rw [hstack]
        exact id
      have hexit : k'.Exiting := (hend rfl).resolve_left (by rw [hrunning]; simp)
      refine (howning _ hm).keep (fun _ _ hs => hs)
        (fun t _ _ ht => hlive (by simp) t (hlive' t ht)) rfl (fun _ _ _ _ => rfl)
        fun t space' hs ht f hf hmark => hmarked f hmark ?_
      exact (howning _ hm).disjoint t k.currentThread space' space
        (hlive (by simp) t (hlive' t ht)) hcurrent hs hspace (hexit' hexit t ht) f hf
  | finish =>
      refine (howning _ htables).keep (fun _ _ hs => hs) (fun t _ _ ht => ?_) rfl
        (fun _ _ _ _ => rfl) fun _ _ _ _ _ _ hf => hf
      have hphase := hlive' t ht
      dsimp only at hphase
      have hne : t ≠ k.user.current := by
        rintro rfl
        rw [Function.update_self] at hphase
        cases hphase
      rw [Function.update_of_ne hne] at hphase
      exact ⟨hphase, fun hexit => hne hexit.1⟩
  | @switch _ next saved hf hsave =>
      have hf : f ≠ .cmd .finish := by rcases hf with rfl | rfl <;> simp
      dsimp only at htables
      cases hsave with
      | kernel hs =>
          exact (howning _ htables).install rfl (fun t ht => hlive hf t (hlive' t ht)) rfl rfl
      | @user space m m' hs hm hsave =>
          obtain rfl := Option.some.inj htables
          obtain ⟨hbitMap, hnext, hframes⟩ := Machine.saveState_frames hsave
          refine (howning _ hm).keep (fun _ _ hs => hs)
            (fun t _ _ ht => hlive hf t (hlive' t ht)) hnext (fun _ space' _ _ => hframes space')
            fun _ _ _ _ f _ hmark => ?_
          change m'.Marked f
          rw [Machine.Marked, hbitMap]
          exact hmark
  | @afterSwitch u₁ restored hd hframes =>
      dsimp only at htables
      rw [htables] at hframes
      obtain ⟨tables₁, hold, hbitMap, hheap⟩ := hframes.of_some
      have howning₁ : Owning u₁ live' tables₁ := by
        cases hd with
        | nobody => exact (howning _ hold).install rfl (fun t ht => hlive (by simp) t (hlive' t ht)) rfl rfl
        | @kernel t hd hs =>
            refine (howning _ hold).install rfl (fun v hv => hlive (by simp) v ?_) rfl rfl
            exact (of_update_deleted (hlive' v hv)).2
        | @user t space m m' hd hs hm hdestroy =>
            obtain rfl := Option.some.inj hold
            obtain ⟨m₀, hm₀, hsame⟩ := machine_of_tables hm
            obtain ⟨⟨bitMap, rfl⟩, hmarked⟩ := Machine.destroy_marked hdestroy
            have hwas : ∀ v, live' v → v ≠ t ∧ k.Live v := by
              intro v hv
              obtain ⟨hne, hphase⟩ := of_update_deleted (hlive' v hv)
              exact ⟨hne, hlive (by simp) v hphase⟩
            refine (howning _ hm).keep (fun _ _ hs => hs) (fun v _ _ hv => (hwas v hv).2) rfl
              (fun v space' hs' hv => ?_) fun v space' hs' hv f hf hmark => hmarked f hmark ?_
            · refine Tables.frames_congr (m.heap.cell_free_of_ne ?_)
              exact (howning _ hm).distinct v t space' space hs' hs (hwas v hv).1
            · intro hmem
              have hframes : ∀ space, m.frames space = m₀.frames space := by
                intro space
                exact congrArg (fun tables => Tables.frames tables space) hsame.symm
              rw [hframes] at hmem
              refine hdelete rest t space m₀ hstack hd hs hm₀ v space' (hwas v hv).2 hs' f hmem ?_
              rwa [← hframes]
      exact howning₁.install rfl (fun _ ht => ht) hbitMap hheap

/-! ## Runs -/

/-- User instructions change registers, the memory and bits of table entries. -/
structure Executed (m m' : Machine) : Prop where
  tlb : m'.tlb = m.tlb
  pageTable : m'.pageTable = m.pageTable
  pageTableSize : m'.pageTableSize = m.pageTableSize
  bitMap : m'.bitMap = m.bitMap
  next : m'.heap.next = m.heap.next
  frames : ∀ space, m'.frames space = m.frames space

/-- The runs of the kernel and of user programs in which every step of the kernel satisfies
`P`. -/
def processSystem (cfg : Config φ γ ι) (P : Kernel φ γ → Prop) :
    System (Kernel φ γ) (Option (Env ι)) Unit where
  init := Initial
  step k i _ k' :=
    match i with
    | some env => P k ∧ (system cfg Initial).step k env () k'
    | none => ∃ m m', k.machine = some m ∧ Executed m m' ∧ k' = { k with machine := some m' }

theorem Executed.owning {m m' : Machine} (h : Executed m m') {u u' : User} {live : ℕ → Prop}
    (howning : Owning u live m.tables) (hspace : u'.space = u.space) :
    Owning u' live m'.tables := by
  refine howning.keep (fun t space hs => hspace ▸ hs) (fun _ _ _ ht => ht) h.next
    (fun _ space _ _ => h.frames space) fun _ _ _ _ f _ hmark => ?_
  change m'.Marked f
  rw [Machine.Marked, h.bitMap]
  exact hmark

theorem owning (h : (processSystem cfg fun k =>
      k.RunsOwnSpace cfg.build ∧ k.DeletesNoFrame).Reachable k) (hrunning : k.halted = false)
    (tables : Tables) (htables : k.user.tables = some tables) :
    Owning k.user k.Live tables := by
  suffices hinv : k.core.Shaped ∧ (∃ place, k.core.Queued place) ∧ (k.halted = false →
      ∀ tables, k.user.tables = some tables → Owning k.user k.Live tables) from
    hinv.2.2 hrunning tables htables
  refine h.invariant (I := fun k => k.core.Shaped ∧ (∃ place, k.core.Queued place) ∧
    (k.halted = false → ∀ tables, k.user.tables = some tables → Owning k.user k.Live tables)) ?_ ?_
  · intro k hk
    obtain ⟨hshape, hq⟩ := stands_start (fun _ => id) hk
    refine ⟨hshape, hq, fun _ tables _ => ?_⟩
    -- no thread has an address space
    obtain ⟨main, client, values, machine, -, rfl⟩ := hk
    have hnone : ∀ t, (start main client values machine).user.space t = none := by
      intro t
      by_cases ht : t = 0
      · simp [user, start, unborn, ht]
      · simp [user, start, unborn, ht]
    constructor <;> simp [hnone]
  · rintro k i r k' ⟨hshape, ⟨place, hq⟩, howning⟩ hstep
    cases i with
    | none =>
        obtain ⟨m, m', hm, hexec, rfl⟩ := hstep
        refine ⟨hshape, ⟨place, hq⟩, fun hrunning tables htables => ?_⟩
        obtain rfl := Option.some.inj htables
        exact hexec.owning (howning hrunning _ (user_tables hm)) rfl
    | some env =>
        obtain ⟨⟨hown, hdelete⟩, hrunning, hlegal, hrun⟩ := hstep
        have hcore := steps_invariant (I := fun c : Core φ γ => c.Shaped ∧ ∃ place, c.Queued place)
          (fun c c' hc hstep => hc.2.elim fun _ hq => ⟨hc.1.step hstep.1, hq.step hc.1 hstep.1⟩)
          (step_from hlegal hrun) ⟨hshape, place, hq⟩
        exact ⟨hcore.1, hcore.2, owning_step hq hown hdelete (howning hrunning) hrun⟩

/-- `Find` returns a frame that is not marked. -/
theorem find_not_marked {m m' : Machine} {found : ℤ} (h : m.find = .ok (found, m')) {f : ℕ}
    (hf : m.Marked f) : (f : ℤ) ≠ found := by
  unfold Machine.find at h
  obtain ⟨u, hassert, h⟩ := bind_eq_ok.mp h
  obtain ⟨i, hfree, hfind⟩ := BitMap.find_of_ne (of_assert hassert)
  obtain ⟨rfl, -⟩ := Prod.mk.inj (Except.ok.inj h)
  obtain ⟨hlt, hbit⟩ := hf
  rw [hfind]
  dsimp only
  intro heq
  have hi : i ∈ m.bitMap.free := List.mem_of_mem_head? hfree
  obtain rfl : f = i := by exact_mod_cast heq
  rw [BitMap.mem_free.mp hi] at hbit
  cases hbit

/-- In every run in which no frame that is in use is given back with a deleted thread, the
address spaces of live threads have no frame in common, their frames are marked, and `Find`
does not return them. -/
theorem frames_owned (h : (processSystem cfg fun k =>
      k.RunsOwnSpace cfg.build ∧ k.DeletesNoFrame).Reachable k) (hrunning : k.halted = false)
    (m : Machine) (hm : k.machine = some m) :
    (∀ t t' space space', k.Live t → k.Live t' → (k.thread t).space = some space →
      (k.thread t').space = some space' → t ≠ t' → ∀ f ∈ m.frames space, f ∉ m.frames space') ∧
    ∀ t space, k.Live t → (k.thread t).space = some space → ∀ f ∈ m.frames space,
      m.Marked f ∧ ∀ found m', m.find = .ok (found, m') → (f : ℤ) ≠ found := by
  have howning := owning h hrunning _ (user_tables hm)
  refine ⟨howning.disjoint, fun t space ht hs f hf => ?_⟩
  have hmarked : m.Marked f := howning.marked t space ht hs f hf
  exact ⟨hmarked, fun found m' hfind => find_not_marked hfind hmarked⟩

/-! ## Two programs -/

/-- The user program puts `SC_Exit` into register 2. -/
def setExit (k : Kernel φ γ) : Kernel φ γ :=
  { k with machine := k.machine.map fun m => m.setRegister 2 SC_Exit }

/-- Steps of the kernel with a check before each one; in between, `none` stands for the user
program. -/
def perform (cfg : Config φ γ ι) (check : Kernel φ γ → Bool) :
    List (Option (Env ι)) → Kernel φ γ → Option (Kernel φ γ)
  | [], k => some k
  | some env :: inputs, k =>
      if check k then (execute cfg [env] k).bind (perform cfg check inputs) else none
  | none :: inputs, k => if k.machine.isSome then perform cfg check inputs k.setExit else none

theorem reachable_of_perform {P : Kernel φ γ → Prop} {check : Kernel φ γ → Bool}
    (hcheck : ∀ k, (processSystem cfg P).Reachable k → k.halted = false → check k = true → P k)
    {inputs : List (Option (Env ι))} (h : (processSystem cfg P).Reachable k) (hrun : perform cfg check inputs k = some k') :
    (processSystem cfg P).Reachable k' := by
  induction inputs generalizing k with
  | nil => exact Option.some.inj hrun ▸ h
  | cons i inputs ih =>
      cases i with
      | some env =>
          unfold perform at hrun
          split at hrun
          next hk =>
            obtain ⟨k₁, hone, hrest⟩ := Option.bind_eq_some_iff.mp hrun
            obtain ⟨k₂, hstep, hend⟩ := execute_cons hone
            obtain rfl : k₂ = k₁ := Option.some.inj hend
            have hP := hcheck k h hstep.1 hk
            exact ih (h.step (i := some env) (r := ()) ⟨hP, hstep⟩) hrest
          next => cases hrun
      | none =>
          unfold perform at hrun
          split at hrun
          next hm =>
            obtain ⟨m, hm⟩ := Option.isSome_iff_exists.mp hm
            refine ih (h.step (i := none) (r := ()) ⟨m, m.setRegister 2 SC_Exit, hm, ?_, ?_⟩) hrun
            · exact ⟨rfl, rfl, rfl, rfl, rfl, fun _ => rfl⟩
            · rw [setExit, hm]
              rfl
          next => cases hrun

/-- The system call is made in the space of the current thread. -/
def ownSpace? (build : Build) (k : Kernel φ γ) : Bool :=
  match k.current.stack, k.machine, k.current.space with
  | .cmd .syscall :: _, some m, some space =>
      decide ((if build.useTlb then m.tlb else m.pageTable) = some space.pageTable)
  | .cmd .syscall :: _, _, _ => false
  | _, _, _ => true

theorem runsOwnSpace_of_ownSpace? {build : Build} (h : k.ownSpace? build = true) :
    k.RunsOwnSpace build := by
  intro rest m hstack hm
  unfold ownSpace? at h
  rw [hstack, hm] at h
  cases hspace : k.current.space with
  | none =>
      rw [hspace] at h
      cases h
  | some space =>
      rw [hspace] at h
      exact ⟨space, rfl, of_decide_eq_true h⟩

/-- A kernel with user programs, in the build of the `Makefile`, whose threads have such code. -/
def processes (scripts : List (List (Cmd ℕ))) (hpublic : ∀ cmds ∈ scripts, ∀ x ∈ cmds, x.Public) :
    Config ℕ Unit Unit where
  build := AddrSpace.defaultBuild
  schedPriority := false
  program := scripted scripts hpublic

def startProcesses : Kernel ℕ Unit := start 0 () (fun _ => 0) (some AddrSpace.freshMachine)

/-- A thread loads a program and exits, and another one, which runs for the first time then,
loads a program before the first thread is deleted. -/
def exitAndLoad : Config ℕ Unit Unit :=
  processes [
    [.newThread 6 0, .newThread 6 0, .call (.fork 1 1), .call (.fork 2 2), .call .yield],
    [.load 1 (AddrSpace.program []) (AddrSpace.programHeader []), .restoreState 1, .syscall],
    [.load 2 (AddrSpace.program []) (AddrSpace.programHeader []), .restoreState 2, .call .yield]]
    (by decide)

def exitAndLoadInputs : List (Option (Env Unit)) :=
  (calm 30).map some ++ none :: (calm 14).map some

/-- The next command of the current thread is `Finish`. -/
def exiting? (k : Kernel φ γ) : Bool :=
  match k.current.stack with
  | .cmd .finish :: _ => true
  | _ => false

/-- What there is to see of a user program. -/
structure Observation where
  halted : Bool
  current : ℕ
  exiting : Bool
  phase : Phase
  space : AddrSpace
  frames : List ℕ
  used : List (Fin NumPhysPages)
  deriving DecidableEq

def observe (t : ℕ) (k : Kernel φ γ) : Option Observation := do
  let m ← k.machine
  let space ← (k.thread t).space
  return ⟨k.halted, k.currentThread, k.exiting?, (k.thread t).phase, space, m.frames space,
    (List.finRange NumPhysPages).filter m.bitMap.testBit⟩

theorem of_observe {t : ℕ} {o : Observation} (h : k.observe t = some o) :
    ∃ m, k.halted = o.halted ∧ (k.thread t).phase = o.phase ∧
      (o.phase = .unfinished → t ≠ o.current ∨ o.exiting = false → k.Live t) ∧
      (k.thread t).space = some o.space ∧ k.machine = some m ∧ m.frames o.space = o.frames ∧
      ∀ f, m.Marked f ↔ f ∈ o.used.map Fin.val := by
  obtain ⟨m, hm, h⟩ := Option.bind_eq_some_iff.mp h
  obtain ⟨space, hspace, h⟩ := Option.bind_eq_some_iff.mp h
  obtain rfl := Option.some.inj h
  refine ⟨m, rfl, rfl, fun hphase hlive => ⟨hphase, ?_⟩, hspace, hm, rfl, fun f => ?_⟩
  · rintro ⟨hcurrent, rest, hstack⟩
    rcases hlive with hne | hexit
    · exact hne hcurrent
    · dsimp only at hexit
      rw [exiting?, hstack] at hexit
      cases hexit
  simp only [List.mem_map, List.mem_filter, List.mem_finRange, true_and]
  constructor
  · rintro ⟨hlt, hbit⟩
    exact ⟨⟨f, hlt⟩, hbit, rfl⟩
  · rintro ⟨i, hbit, rfl⟩
    exact ⟨i.isLt, hbit⟩

/-- The frames of the second program are free, although it runs. -/
theorem used_frames_freed : ∃ (k : Kernel ℕ Unit) (m : Machine) (space : AddrSpace),
    (processSystem exitAndLoad fun k => k.RunsOwnSpace AddrSpace.defaultBuild).Reachable k ∧
      k.halted = false ∧ k.machine = some m ∧ k.Live 2 ∧ (k.thread 2).space = some space ∧
      m.frames space = [0, 1, 2, 3, 4, 5, 6, 7] ∧ ∀ f, ¬ m.Marked f := by
  have hrun : (perform exitAndLoad (ownSpace? AddrSpace.defaultBuild) exitAndLoadInputs
      startProcesses).bind (observe 2) =
        some ⟨false, 0, false, .unfinished, ⟨2, 8⟩, [0, 1, 2, 3, 4, 5, 6, 7], []⟩ := by
    decide +kernel
  obtain ⟨k, hk, hobs⟩ := Option.bind_eq_some_iff.mp hrun
  obtain ⟨m, hhalted, -, hlive, hspace, hm, hframes, hmarked⟩ := of_observe hobs
  refine ⟨k, m, _, reachable_of_perform (fun _ _ _ => runsOwnSpace_of_ownSpace?) ?_ hk, hhalted, hm,
    hlive rfl (.inl (by decide)), hspace, hframes, fun f hf => ?_⟩
  · exact .of_init ⟨0, (), _, _, fun _ => le_rfl, rfl⟩
  · have hmem := (hmarked f).mp hf
    cases hmem

/-- The frames of a thread that is deleted now have been given back. -/
def freed? (k : Kernel φ γ) : Bool :=
  match k.current.stack, k.machine, k.threadToBeDestroyed with
  | .afterSwitch :: _, some m, some t =>
      ((k.thread t).space.elim [] m.frames).all fun f =>
        (List.finRange NumPhysPages).all fun i => !(i.val == f && m.bitMap.testBit i)
  | _, _, _ => true

theorem deletesNoFrame_of_freed? (hreach : (processSystem cfg fun k =>
      k.RunsOwnSpace cfg.build ∧ k.DeletesNoFrame).Reachable k) (hrunning : k.halted = false)
    (h : k.freed? = true) : k.DeletesNoFrame := by
  intro rest t space m hstack ht hspace hm t' space' hlive hspace' f hf hf'
  -- the frames of live threads are marked, those of the deleted one are not
  have howning := owning hreach hrunning _ (user_tables hm)
  obtain ⟨hlt, hbit⟩ := howning.marked t' space' hlive hspace' f hf'
  unfold freed? at h
  rw [hstack, hm, ht] at h
  dsimp only at h
  rw [hspace] at h
  have hfree := List.all_eq_true.mp (List.all_eq_true.mp h f hf) ⟨f, hlt⟩ (List.mem_finRange _)
  change m.bitMap.testBit ⟨f, hlt⟩ = true at hbit
  rw [hbit] at hfree
  simp at hfree

/-- A thread of a running program forks another one, which loads a program and exits. After it
has been deleted, a third program is loaded. -/
def exitThenLoad : Config ℕ Unit Unit :=
  processes [
    [.load 0 (AddrSpace.program []) (AddrSpace.programHeader []), .restoreState 0,
      .newThread 6 0, .call (.fork 1 1), .call .yield, .newThread 6 0,
      .load 2 (AddrSpace.program []) (AddrSpace.programHeader []), .call .yield],
    [.load 1 (AddrSpace.program []) (AddrSpace.programHeader []), .restoreState 1, .syscall]]
    (by decide)

def exitThenLoadInputs : List (Option (Env Unit)) :=
  (calm 24).map some ++ none :: (calm 12).map some

/-- The second program has exited and been deleted, and the third one has got its frames. -/
theorem frames_owned_exitThenLoad :
    ∃ (k : Kernel ℕ Unit) (m : Machine) (space space₂ : AddrSpace),
      (processSystem exitThenLoad fun k =>
        k.RunsOwnSpace exitThenLoad.build ∧ k.DeletesNoFrame).Reachable k ∧
      k.machine = some m ∧ (k.thread 1).phase = .deleted ∧
      k.Live 0 ∧ (k.thread 0).space = some space ∧ m.frames space = [0, 1, 2, 3, 4, 5, 6, 7] ∧
      k.Live 2 ∧ (k.thread 2).space = some space₂ ∧
      m.frames space₂ = [8, 9, 10, 11, 12, 13, 14, 15] ∧
      (∀ f ∈ m.frames space, f ∉ m.frames space₂) ∧ ∀ f ∈ m.frames space₂,
        m.Marked f ∧ ∀ found m', m.find = .ok (found, m') → (f : ℤ) ≠ found := by
  have hrun : (perform exitThenLoad (fun k => k.ownSpace? exitThenLoad.build && k.freed?)
      exitThenLoadInputs startProcesses).bind (fun k => do
        return (← k.observe 0, ← k.observe 1, ← k.observe 2)) =
      some (⟨false, 0, false, .unfinished, ⟨1, 8⟩, [0, 1, 2, 3, 4, 5, 6, 7],
          (List.finRange NumPhysPages).take 16⟩,
        ⟨false, 0, false, .deleted, ⟨2, 8⟩, [], (List.finRange NumPhysPages).take 16⟩,
        ⟨false, 0, false, .unfinished, ⟨3, 8⟩, [8, 9, 10, 11, 12, 13, 14, 15],
          (List.finRange NumPhysPages).take 16⟩) := by
    decide +kernel
  obtain ⟨k, hk, hobs⟩ := Option.bind_eq_some_iff.mp hrun
  obtain ⟨o, hobs₀, hobs⟩ := Option.bind_eq_some_iff.mp hobs
  obtain ⟨o₁, hobs₁, hobs⟩ := Option.bind_eq_some_iff.mp hobs
  obtain ⟨o₂, hobs₂, hobs⟩ := Option.bind_eq_some_iff.mp hobs
  obtain ⟨rfl, rfl, rfl⟩ : o = _ ∧ o₁ = _ ∧ o₂ = _ := by simpa using hobs
  obtain ⟨m, hhalted, -, hlive, hspace, hm, hframes, -⟩ := of_observe hobs₀
  obtain ⟨-, -, hphase, -⟩ := of_observe hobs₁
  obtain ⟨m₂, -, -, hlive₂, hspace₂, hm₂, hframes₂, -⟩ := of_observe hobs₂
  obtain rfl := Option.some.inj (hm.symm.trans hm₂)
  have hreach : (processSystem exitThenLoad fun k =>
      k.RunsOwnSpace exitThenLoad.build ∧ k.DeletesNoFrame).Reachable k := by
    refine reachable_of_perform (fun k hreach hrunning hcheck => ?_)
      (.of_init ⟨0, (), _, _, fun _ => le_rfl, rfl⟩) hk
    obtain ⟨hown, hfreed⟩ := Bool.and_eq_true_iff.mp hcheck
    exact ⟨runsOwnSpace_of_ownSpace? hown, deletesNoFrame_of_freed? hreach hrunning hfreed⟩
  have hlive := hlive rfl (.inr rfl)
  have hlive₂ := hlive₂ rfl (.inr rfl)
  obtain ⟨hdisjoint, hmarked⟩ := frames_owned hreach hhalted m hm
  exact ⟨k, m, _, _, hreach, hm, hphase, hlive, hspace, hframes, hlive₂, hspace₂, hframes₂,
    hdisjoint 0 2 _ _ hlive hlive₂ hspace hspace₂ (by decide), hmarked 2 _ hlive₂ hspace₂⟩

end Kernel

end Nachos
