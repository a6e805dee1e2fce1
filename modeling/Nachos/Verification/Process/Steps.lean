import Nachos.Verification.AddrSpace.Loading
import Nachos.Verification.Kernel.Execution
import Nachos.Verification.Kernel.Parts

/-! # User programs in the kernel

The part of the kernel that concerns user programs: the tables and frames of the machine and
the address spaces of the threads. Few of the functions of the kernel touch it; `UserStep` says
what they do to it. -/

namespace Nachos

open Library

variable {φ γ ι : Type}

/-- The machine without its registers and its memory. -/
@[ext]
structure Tables where
  tlb : Option ℕ
  pageTable : Option ℕ
  pageTableSize : ℕ
  bitMap : BitMap NumPhysPages
  heap : Heap (List TranslationEntry)

def Machine.tables (m : Machine) : Tables where
  tlb := m.tlb
  pageTable := m.pageTable
  pageTableSize := m.pageTableSize
  bitMap := m.bitMap
  heap := m.heap

@[ext]
structure User where
  current : ℕ
  doomed : Option ℕ
  tables : Option Tables
  space : ℕ → Option AddrSpace
  phase : ℕ → Phase

/-- The frames and the tables in memory are the same; other tables may be installed. -/
def SameFrames (tables tables' : Option Tables) : Prop :=
  tables'.map Tables.bitMap = tables.map Tables.bitMap ∧
    tables'.map Tables.heap = tables.map Tables.heap

namespace User

/-- `SaveState`, if the current thread runs a user program -/
inductive Saved (u : User) : Option Tables → Prop where
  | kernel (hs : u.space u.current = none) : Saved u u.tables
  | user {space : AddrSpace} {m m' : Machine} (hs : u.space u.current = some space)
      (hm : u.tables = some m.tables) (h : AddrSpace.saveState m = .ok m') :
      Saved u (some m'.tables)

/-- The finished thread is deleted. -/
inductive Destroyed (u : User) : User → Prop where
  | nobody (hd : u.doomed = none) : Destroyed u u
  | kernel {t : ℕ} (hd : u.doomed = some t) (hs : u.space t = none) :
      Destroyed u { u with doomed := none, phase := Function.update u.phase t .deleted }
  | user {t : ℕ} {space : AddrSpace} {m m' : Machine} (hd : u.doomed = some t)
      (hs : u.space t = some space) (hm : u.tables = some m.tables)
      (h : space.destroy m = .ok m') :
      Destroyed u { u with
        doomed := none
        tables := some m'.tables
        phase := Function.update u.phase t .deleted }

/-- What the execution of a frame does to user programs. -/
inductive Step (build : Build) (created : ℕ) (u : User) : Frame φ → User → Prop where
  | same {f : Frame φ} (hf : f ≠ .cmd .finish) : Step build created u f u
  | newThread {pri uninit : ℤ} :
      Step build created u (.cmd (.newThread pri uninit)) { u with
        space := Function.update u.space created none
        phase := Function.update u.phase created .unfinished }
  | load {t : ℕ} {executable : List Byte} {uninit : NoffHeader} {space : AddrSpace}
      {m m' : Machine} (hm : u.tables = some m.tables)
      (hnew : AddrSpace.new build m executable uninit = .ok (space, m')) :
      Step build created u (.cmd (.load t executable uninit)) { u with
        tables := some m'.tables
        space := Function.update u.space t (some space) }
  | restoreState {t : ℕ} {tables : Option Tables} (h : SameFrames u.tables tables) :
      Step build created u (.cmd (.restoreState t)) { u with tables := tables }
  | syscall {m m' : Machine} (hm : u.tables = some m.tables)
      (hclear : m.clearAll build = .ok m') :
      Step build created u (.cmd .syscall) { u with tables := some m'.tables }
  | finish :
      Step build created u (.cmd .finish) { u with
        doomed := some u.current
        phase := Function.update u.phase u.current .finished }
  | switch {f : Frame φ} {next : ℕ} {tables : Option Tables}
      (hf : f = .yieldBody ∨ f = .sleepLoop) (hsave : u.Saved tables) :
      Step build created u f { u with current := next, tables := tables }
  | afterSwitch {u₁ : User} {tables : Option Tables} (hd : u.Destroyed u₁)
      (h : SameFrames u₁.tables tables) :
      Step build created u .afterSwitch { u₁ with tables := tables }

end User

namespace Kernel

def user (k : Kernel φ γ) : User where
  current := k.currentThread
  doomed := k.threadToBeDestroyed
  tables := k.machine.map Machine.tables
  space t := (k.thread t).space
  phase t := (k.thread t).phase

theorem user_tables {k : Kernel φ γ} {m : Machine} (hm : k.machine = some m) :
    k.user.tables = some m.tables := congrArg (Option.map Machine.tables) hm

/-! ## Functions that do not concern user programs -/

section

variable (k : Kernel φ γ)

@[simp] theorem user_emit (e : Event φ) : (k.emit e).user = k.user := rfl

/-- One thread changes. -/
theorem user_setThread (t : ℕ) (th : Thread φ) :
    user { k with thread := Function.update k.thread t th } = { k.user with
      space := Function.update k.user.space t th.space
      phase := Function.update k.user.phase t th.phase } := by
  exact User.ext rfl rfl rfl
    (funext fun v => Function.apply_update (fun _ => Thread.space) k.thread t th v)
    (funext fun v => Function.apply_update (fun _ => Thread.phase) k.thread t th v)

theorem user_modifyThread (t : ℕ) {f : Thread φ → Thread φ}
    (hspace : (f (k.thread t)).space = (k.thread t).space)
    (hphase : (f (k.thread t)).phase = (k.thread t).phase) :
    (k.modifyThread t f).user = k.user := by
  rw [modifyThread, user_setThread, hspace, hphase]
  exact User.ext rfl rfl rfl (Function.update_eq_self t _) (Function.update_eq_self t _)

theorem user_apart : Apart (user : Kernel φ γ → User) where
  emit _ _ _ := rfl
  modifyThread k t _ hspace hphase := k.user_modifyThread t hspace hphase
  interrupt _ _ _ := rfl
  update _ _ _ _ _ _ := rfl

@[simp] theorem user_setStack (stack : List (Frame φ)) : (k.setStack stack).user = k.user :=
  user_modifyThread k _ rfl rfl

@[simp] theorem user_push (frames : List (Frame φ)) : (k.push frames).user = k.user :=
  user_setStack k _

@[simp] theorem user_changeLevel (now : IntStatus) : (k.changeLevel now).user = k.user := rfl

@[simp] theorem user_changeStatus (st : MachineStatus) : (k.changeStatus st).user = k.user := rfl

theorem user_oneTickEnd (old : MachineStatus) : (k.oneTickEnd old).user = k.user := by
  unfold oneTickEnd
  dsimp only
  split
  · rw [user_push]
    rfl
  · rfl

end

section

variable {k k' : Kernel φ γ} {schedPriority : Bool} {acts : List HandlerAct} {build : Build}

theorem user_schedule {fromNow : ℤ} {type : IntType} (h : k.schedule fromNow type = .ok k') :
    k'.user = k.user := by
  unfold schedule at h
  obtain ⟨when, -, h⟩ := bind_eq_ok.mp h
  obtain ⟨u, -, h⟩ := bind_eq_ok.mp h
  rw [← Except.ok.inj h]
  rfl

theorem user_handlerAct {act : HandlerAct} (h : k.handlerAct schedPriority act = .ok k') :
    k'.user = k.user := by
  rcases user_apart.handlerAct h with ⟨fromNow, type, h⟩ | hsame
  · exact user_schedule h
  · exact hsame

theorem user_handlerActs (h : k.handlerActs schedPriority acts = .ok k') : k'.user = k.user := by
  induction acts generalizing k with
  | nil => rw [← Except.ok.inj h]
  | cons act acts ih =>
      unfold handlerActs at h
      obtain ⟨k₁, hact, h⟩ := bind_eq_ok.mp h
      rw [ih h, user_handlerAct hact]

theorem tables_delayedLoad {m m' : Machine} {nextReg nextVal : Word}
    (h : m.delayedLoad nextReg nextVal = .ok m') : m'.tables = m.tables := by
  unfold Machine.delayedLoad at h
  dsimp only at h
  split at h
  · rw [← Except.ok.inj h]
    rfl
  · cases h

theorem user_finishLoad (h : k.finishLoad = .ok k') : k'.user = k.user := by
  unfold finishLoad at h
  split at h
  · rw [← Except.ok.inj h]
  · rename_i m hm
    obtain ⟨m', hload, h⟩ := bind_eq_ok.mp h
    rw [← Except.ok.inj h]
    refine User.ext rfl rfl ?_ rfl rfl
    rw [user, user, hm]
    exact congrArg some (tables_delayedLoad hload)

theorem user_checkIfDue {advanceClock fired : Bool}
    (h : k.checkIfDue schedPriority advanceClock acts = .ok (fired, k')) : k'.user = k.user := by
  unfold checkIfDue at h
  obtain ⟨u, -, h⟩ := bind_eq_ok.mp h
  split at h
  · rw [← (Prod.mk.inj (Except.ok.inj h)).2]
    rfl
  · split at h
    · rw [← (Prod.mk.inj (Except.ok.inj h)).2]
      rfl
    · dsimp only at h
      split at h
      · rw [← (Prod.mk.inj (Except.ok.inj h)).2]
        rfl
      · obtain ⟨k₁, hfire, h⟩ := bind_eq_ok.mp h
        unfold fire at hfire
        obtain ⟨k₂, hload, hfire⟩ := bind_eq_ok.mp hfire
        obtain ⟨k₃, hacts, hfire⟩ := bind_eq_ok.mp hfire
        have hacts := user_handlerActs hacts
        have hload := user_finishLoad hload
        rw [← (Prod.mk.inj (Except.ok.inj h)).2, ← Except.ok.inj hfire]
        exact hacts.trans hload

theorem user_fireLoop (h : k.fireLoop schedPriority acts = .ok k') : k'.user = k.user := by
  unfold fireLoop at h
  obtain ⟨⟨fired, k₁⟩, hcheck, h⟩ := bind_eq_ok.mp h
  rw [← user_checkIfDue hcheck]
  dsimp only at h
  split at h
  · rw [← Except.ok.inj h, user_push]
  · rw [← Except.ok.inj h]

theorem user_idle (h : k.idle schedPriority acts = .ok k') : k'.user = k.user := by
  unfold idle at h
  obtain ⟨⟨fired, k₁⟩, hcheck, h⟩ := bind_eq_ok.mp h
  rw [← user_changeStatus k .idle, ← user_checkIfDue hcheck]
  dsimp only at h
  split at h
  · rw [← Except.ok.inj h, user_push]
  · rw [← Except.ok.inj h]
    exact user_push k₁ _

theorem user_idleLoop (h : k.idleLoop schedPriority acts = .ok k') : k'.user = k.user := by
  unfold idleLoop at h
  obtain ⟨⟨fired, k₁⟩, hcheck, h⟩ := bind_eq_ok.mp h
  rw [← user_checkIfDue hcheck]
  dsimp only at h
  split at h
  · rw [← Except.ok.inj h, user_push]
  · rw [← Except.ok.inj h]
    rfl

theorem user_oneTick (h : k.oneTick = .ok k') : k'.user = k.user := by
  unfold oneTick at h
  obtain ⟨k₁, hadvance, h⟩ := bind_eq_ok.mp h
  rw [← Except.ok.inj h, user_push, user_changeLevel]
  unfold advance at hadvance
  split at hadvance
  · obtain ⟨totalTicks, -, hadvance⟩ := bind_eq_ok.mp hadvance
    obtain ⟨systemTicks, -, hadvance⟩ := bind_eq_ok.mp hadvance
    rw [← Except.ok.inj hadvance]
    rfl
  · obtain ⟨totalTicks, -, hadvance⟩ := bind_eq_ok.mp hadvance
    obtain ⟨userTicks, -, hadvance⟩ := bind_eq_ok.mp hadvance
    rw [← Except.ok.inj hadvance]
    rfl

/-! ## Functions that do -/

theorem user_saveUser (h : k.saveUser = .ok k') :
    ∃ tables, k.user.Saved tables ∧ k'.user = { k.user with tables := tables } := by
  unfold saveUser at h
  split at h
  · rename_i hspace
    rw [← Except.ok.inj h]
    exact ⟨_, .kernel hspace, rfl⟩
  · cases h
  · rename_i space m hspace hm
    obtain ⟨m', hsave, h⟩ := bind_eq_ok.mp h
    rw [← Except.ok.inj h]
    refine ⟨_, .user hspace (user_tables hm) hsave, ?_⟩
    change { user (k.modifyThread k.currentThread fun th => { th with
      userRegisters := m.registers }) with tables := some m'.tables } = _
    rw [user_modifyThread _ _ rfl rfl]

theorem user_run {next : ℕ} (h : k.run next = .ok k') :
    ∃ tables, k.user.Saved tables ∧
      k'.user = { k.user with current := next, tables := tables } := by
  unfold run at h
  obtain ⟨k₁, hsave, h⟩ := bind_eq_ok.mp h
  obtain ⟨tables, hsaved, hk₁⟩ := user_saveUser hsave
  refine ⟨tables, hsaved, ?_⟩
  rw [← Except.ok.inj h, user_modifyThread _ _ rfl rfl]
  change { user ((k₁.emit (.run next k₁.level)).push [.afterSwitch]) with current := next } = _
  rw [user_push, user_emit, hk₁]

theorem user_destroyFinished (h : k.destroyFinished = .ok k') : k.user.Destroyed k'.user := by
  unfold destroyFinished at h
  split at h
  · rename_i hd
    rw [← Except.ok.inj h]
    exact .nobody hd
  · rename_i t hd
    obtain ⟨k₁, hdelete, h⟩ := bind_eq_ok.mp h
    unfold delete at hdelete
    obtain ⟨u, -, hdelete⟩ := bind_eq_ok.mp hdelete
    dsimp only at hdelete
    have hdeleted : ∀ tables, { user (k.modifyThread t fun th => { th with phase := .deleted }) with
        doomed := none, tables := tables } = { k.user with
          doomed := none, tables := tables, phase := Function.update k.user.phase t .deleted } := by
      intro tables
      rw [modifyThread, user_setThread]
      exact User.ext rfl rfl rfl (Function.update_eq_self t _) rfl
    have hspace : ((k.modifyThread t fun th => { th with phase := .deleted }).thread t).space =
        (k.thread t).space := by
      simp [modifyThread]
    split at hdelete
    · rename_i hs
      have hk' : k'.user = { k.user with
          doomed := none, phase := Function.update k.user.phase t .deleted } := by
        rw [← Except.ok.inj h, ← Except.ok.inj hdelete]
        exact hdeleted _
      rw [hk']
      exact .kernel hd (hspace.symm.trans hs)
    · cases hdelete
    · rename_i space m hs hm
      obtain ⟨m', hdestroy, hdelete⟩ := bind_eq_ok.mp hdelete
      have hk' : k'.user = { k.user with
          doomed := none
          tables := some m'.tables
          phase := Function.update k.user.phase t .deleted } := by
        rw [← Except.ok.inj h, ← Except.ok.inj hdelete]
        exact hdeleted _
      rw [hk']
      exact .user hd (hspace.symm.trans hs) (user_tables hm) hdestroy

theorem sameFrames_restoreState (build : Build) (space : AddrSpace) {m m₁ : Machine}
    (hbitMap : m₁.bitMap = m.bitMap) (hheap : m₁.heap = m.heap) :
    SameFrames (some m.tables) (some (space.restoreState build m₁).tables) := by
  unfold AddrSpace.restoreState
  split
  · exact ⟨congrArg some hbitMap, congrArg some hheap⟩
  · exact ⟨congrArg some hbitMap, congrArg some hheap⟩

theorem user_restoreUser (h : k.restoreUser build = .ok k') :
    ∃ tables, SameFrames k.user.tables tables ∧ k'.user = { k.user with tables := tables } := by
  unfold restoreUser at h
  split at h
  · rw [← Except.ok.inj h]
    exact ⟨_, ⟨rfl, rfl⟩, rfl⟩
  · cases h
  · rename_i space m hspace hm
    rw [← Except.ok.inj h]
    refine ⟨_, ?_, rfl⟩
    rw [user_tables hm]
    exact sameFrames_restoreState build space rfl rfl

theorem user_finish : k.finish.user = { k.user with
    doomed := some k.currentThread
    phase := Function.update k.user.phase k.currentThread .finished } := by
  rw [finish, user_setStack, modifyThread, user_setThread]
  exact User.ext rfl rfl rfl (Function.update_eq_self _ _) rfl

theorem user_newThread {pri uninit : ℤ} (h : k.newThread pri uninit = .ok k') :
    k'.user = { k.user with
      space := Function.update k.user.space k.created none
      phase := Function.update k.user.phase k.created .unfinished } := by
  unfold newThread at h
  split at h
  · cases h
  · rw [← Except.ok.inj h]
    exact user_setThread k k.created _

theorem user_load {t : ℕ} {executable : List Byte} {uninit : NoffHeader}
    (h : k.load build t executable uninit = .ok k') :
    ∃ m space m', k.user.tables = some m.tables ∧
      AddrSpace.new build m executable uninit = .ok (space, m') ∧
      k'.user = { k.user with
        tables := some m'.tables
        space := Function.update k.user.space t (some space) } := by
  unfold load at h
  split at h
  · cases h
  · rename_i m hm
    obtain ⟨⟨space, m'⟩, hnew, h⟩ := bind_eq_ok.mp h
    refine ⟨m, space, m', user_tables hm, hnew, ?_⟩
    rw [← Except.ok.inj h]
    change { user (k.modifyThread t fun th => { th with space := some space }) with
      tables := some m'.tables } = _
    rw [modifyThread, user_setThread]
    exact User.ext rfl rfl rfl rfl (Function.update_eq_self t _)

theorem user_restoreState {t : ℕ} (h : k.restoreState build t = .ok k') :
    ∃ tables, SameFrames k.user.tables tables ∧ k'.user = { k.user with tables := tables } := by
  unfold restoreState at h
  split at h
  · rename_i space m hspace hm
    rw [← Except.ok.inj h]
    refine ⟨_, ?_, rfl⟩
    rw [user_tables hm]
    exact sameFrames_restoreState build space rfl rfl
  · cases h

/-- `SC_Halt` and `SC_Exit` -/
theorem user_syscall (h : k.syscall build = .ok k') :
    (∃ m m' : Machine, k.user.tables = some m.tables ∧ m.clearAll build = .ok m' ∧
      k'.user = { k.user with tables := some m'.tables }) ∧
    (k'.halted = true ∨ ∃ rest, k'.current.stack = .cmd .finish :: rest) := by
  unfold syscall at h
  split at h
  · cases h
  · rename_i m hm
    obtain ⟨⟨control, m₂⟩, hraise, h⟩ := bind_eq_ok.mp h
    unfold Machine.raiseException Machine.raiseTo at hraise
    obtain ⟨m₁, hload, hraise⟩ := bind_eq_ok.mp hraise
    have htables : k.user.tables = some m₁.tables :=
      (user_tables hm).trans (congrArg some (tables_delayedLoad hload).symm)
    unfold Machine.kernel Machine.exceptionHandler at hraise
    dsimp only at hraise
    split at hraise
    · obtain ⟨m', hclear, hraise⟩ := bind_eq_ok.mp hraise
      obtain ⟨rfl, rfl⟩ := Prod.mk.inj (Except.ok.inj hraise)
      rw [← Except.ok.inj h]
      exact ⟨⟨m₁, m', htables, hclear, rfl⟩, .inl rfl⟩
    · split at hraise
      · obtain ⟨m', hclear, hraise⟩ := bind_eq_ok.mp hraise
        obtain ⟨rfl, rfl⟩ := Prod.mk.inj (Except.ok.inj hraise)
        rw [← Except.ok.inj h]
        refine ⟨⟨m₁, m', htables, hclear, ?_⟩, .inr ⟨_, stack_push _ _⟩⟩
        rw [user_push]
        rfl
      · rw [if_neg (by simp)] at hraise
        cases hraise

/-! ## Frames -/

variable {cfg : Config φ γ ι} {env : Env ι}

theorem execCmd_user {x : Cmd φ} (h : k.execCmd cfg env x = .ok k') :
    User.Step cfg.build k.created k.user (.cmd x) k'.user := by
  have hsame : k'.user = k.user → x ≠ .finish →
      User.Step cfg.build k.created k.user (.cmd x) k'.user := by
    intro heq hx
    rw [heq]
    exact .same fun hf => hx (Frame.cmd.inj hf)
  cases x with
  | call | run | setLevel | oneTick => exact hsame (user_apart.execCmd h trivial) (by simp)
  | finish =>
      rw [← Except.ok.inj h, user_finish]
      exact .finish
  | newThread pri uninit =>
      rw [user_newThread h]
      exact .newThread
  | setStatus st =>
      refine hsame ?_ (by simp)
      rw [← Except.ok.inj h, user_changeStatus]
  | schedule fromNow type => exact hsame (user_schedule h) (by simp)
  | load t executable uninit =>
      obtain ⟨m, space, m', hm, hnew, hk'⟩ := user_load h
      rw [hk']
      exact .load hm hnew
  | restoreState t =>
      obtain ⟨tables, hframes, hk'⟩ := user_restoreState h
      rw [hk']
      exact .restoreState hframes
  | syscall =>
      obtain ⟨⟨m, m', hm, hclear, hk'⟩, -⟩ := user_syscall h
      rw [hk']
      exact .syscall hm hclear

theorem exec_user {f : Frame φ} (h : k.exec cfg env f = .ok k') :
    User.Step cfg.build k.created k.user f k'.user := by
  have hsame : k'.user = k.user → (∀ x, f ≠ .cmd x) →
      User.Step cfg.build k.created k.user f k'.user := by
    intro heq hf
    rw [heq]
    exact .same (hf _)
  cases f with
  | cmd x => exact execCmd_user h
  | call | pLoop | vBody | setOwner | clearOwner | assertOwner | enqueue | signalBody
  | broadcastBody | startThread | sleep | setLevel | ret =>
      exact hsame (user_apart.exec h trivial) (by simp)
  | yieldBody =>
      change k.yieldBody cfg.schedPriority = .ok k' at h
      unfold yieldBody at h
      split at h
      · rename_i k₁ hfind
        refine hsame ?_ (by simp)
        rw [← Except.ok.inj h, user_apart.findNextToRun hfind]
      · rename_i next k₁ hfind
        obtain ⟨tables, hsave, hk'⟩ := user_run h
        rw [user_apart.readyToRun, user_apart.findNextToRun hfind] at hsave hk'
        rw [hk']
        exact .switch (.inl rfl) hsave
  | sleepLoop =>
      change k.sleepLoop cfg.schedPriority = .ok k' at h
      unfold sleepLoop at h
      split at h
      · rename_i k₁ hfind
        refine hsame ?_ (by simp)
        rw [← Except.ok.inj h, user_push, user_apart.findNextToRun hfind]
      · rename_i next k₁ hfind
        obtain ⟨tables, hsave, hk'⟩ := user_run h
        rw [user_apart.findNextToRun hfind] at hsave hk'
        rw [hk']
        exact .switch (.inr rfl) hsave
  | afterSwitch =>
      change k.afterSwitch cfg.build = .ok k' at h
      unfold afterSwitch at h
      obtain ⟨k₁, hdestroy, h⟩ := bind_eq_ok.mp h
      obtain ⟨tables, hframes, hk'⟩ := user_restoreUser h
      rw [hk']
      exact .afterSwitch (user_destroyFinished hdestroy) hframes
  | oneTick => exact hsame (user_oneTick h) (by simp)
  | fireLoop => exact hsame (user_fireLoop h) (by simp)
  | oneTickEnd old =>
      refine hsame ?_ (by simp)
      rw [← Except.ok.inj h, user_oneTickEnd]
  | setStatus st =>
      refine hsame ?_ (by simp)
      rw [← Except.ok.inj h, user_changeStatus]
  | idle => exact hsame (user_idle h) (by simp)
  | idleLoop => exact hsame (user_idleLoop h) (by simp)

/-- What a step of the kernel does to user programs. -/
theorem step_user (h : k.step cfg env = .ok k') :
    ∃ f rest, k.current.stack = f :: rest ∧
      User.Step cfg.build k.created k.user f k'.user ∧
      (f = .cmd .syscall →
        k'.halted = true ∨ ∃ rest, k'.current.stack = .cmd .finish :: rest) := by
  unfold step at h
  split at h
  · cases h
  · rename_i f rest hstack
    have hexec := exec_user h
    rw [user_setStack] at hexec
    refine ⟨f, rest, hstack, hexec, ?_⟩
    rintro rfl
    exact (user_syscall h).2

end

end Kernel

end Nachos
