import Nachos.Verification.Kernel.Core

/-! # Steps of the kernel are steps of its threads

Every step of the kernel is a sequence of steps of `Core`: one for the frame that it
executes, with one for every `V` of an interrupt handler and every turn of `Broadcast`. -/

namespace Nachos

open Library

namespace Core

variable {φ γ ι : Type} {cfg : Config φ γ ι} {c c' c₀ : Core φ γ} {schedPriority : Bool}
  {acts : List HandlerAct}

/-- Handlers leave the stack of the current thread alone. -/
theorem Handled.frame (h : Handled schedPriority acts c c') :
    c'.current = c.current ∧ c'.stack = c.stack ∧ c'.level = c.level := by
  induction h with
  | nil => exact ⟨rfl, rfl, rfl⟩
  | schedule _ _ ih | up _ _ ih | upWake _ _ ih | yieldOnReturn _ ih => exact ih

theorem Handled.goto (h : Handled schedPriority acts c c') (fs : List (Frame φ)) :
    Handled schedPriority acts (c.goto fs) (c'.goto fs) := by
  induction h with
  | nil => exact .nil
  | schedule hp _ ih => exact .schedule hp ih
  | up hq _ ih => exact .up hq ih
  | upWake hq _ ih => exact .upWake hq ih
  | yieldOnReturn _ ih => exact .yieldOnReturn ih

theorem Handled.setMode (h : Handled schedPriority acts c c') (mode : MachineStatus) :
    Handled schedPriority acts (c.setMode mode) (c'.setMode mode) := by
  induction h with
  | nil => exact .nil
  | schedule hp _ ih => exact .schedule hp ih
  | up hq _ ih => exact .up hq ih
  | upWake hq _ ih => exact .upWake hq ih
  | yieldOnReturn _ ih => exact .yieldOnReturn ih

end Core

/-! ## The core of an updated kernel -/

namespace Kernel

variable {φ γ ι : Type} (k : Kernel φ γ) {t : ℕ} {build : Build}

theorem core_emit (e : Event φ) : (k.emit e).core = k.core.emit e := rfl

theorem core_changeLevel (now : IntStatus) : (k.changeLevel now).core = k.core.setLevel now := rfl

theorem field_update {β : Type} (g : Thread φ → β) (threads : ℕ → Thread φ) (t : ℕ)
    (th : Thread φ) : (fun u => g (Function.update threads t th u)) =
      Function.update (fun u => g (threads u)) t (g th) :=
  Function.comp_update g threads t th

theorem core_modifyThread {f : Thread φ → Thread φ}
    (hpriority : (f (k.thread t)).priority = (k.thread t).priority)
    (hid : (f (k.thread t)).threadId = (k.thread t).threadId) :
    (k.modifyThread t f).core = { k.core with
      stack := Function.update k.core.stack t (f (k.thread t)).stack
      status := Function.update k.core.status t (f (k.thread t)).status
      phase := Function.update k.core.phase t (f (k.thread t)).phase } := by
  unfold modifyThread core
  dsimp only
  rw [field_update Thread.stack, field_update Thread.status, field_update Thread.phase,
    field_update Thread.priority, field_update Thread.threadId, hpriority, hid,
    Function.update_eq_self t (fun u => (k.thread u).priority),
    Function.update_eq_self t (fun u => (k.thread u).threadId)]
  rfl

theorem core_setStackOf (t : ℕ) (fs : List (Frame φ)) :
    (k.modifyThread t fun th => { th with stack := fs }).core =
      k.core.setStack t fs := by
  rw [core_modifyThread k rfl rfl]
  dsimp only
  rw [show (k.thread t).status = k.core.status t from rfl,
    show (k.thread t).phase = k.core.phase t from rfl,
    Function.update_eq_self, Function.update_eq_self]
  rfl

theorem core_setStack (stack : List (Frame φ)) : (k.setStack stack).core = k.core.goto stack :=
  k.core_setStackOf k.currentThread stack

theorem core_setStatus (t : ℕ) (st : ThreadStatus) :
    (k.modifyThread t fun th => { th with status := st }).core = k.core.setStatus t st := by
  rw [core_modifyThread k rfl rfl]
  dsimp only
  rw [show (k.thread t).stack = k.core.stack t from rfl,
    show (k.thread t).phase = k.core.phase t from rfl,
    Function.update_eq_self, Function.update_eq_self]
  rfl

theorem core_setPhase (t : ℕ) (ph : Phase) :
    (k.modifyThread t fun th => { th with phase := ph }).core =
      { k.core with phase := Function.update k.core.phase t ph } := by
  rw [core_modifyThread k rfl rfl]
  dsimp only
  rw [show (k.thread t).stack = k.core.stack t from rfl,
    show (k.thread t).status = k.core.status t from rfl,
    Function.update_eq_self, Function.update_eq_self]

theorem core_modifyThread_same {f : Thread φ → Thread φ}
    (hpriority : (f (k.thread t)).priority = (k.thread t).priority)
    (hid : (f (k.thread t)).threadId = (k.thread t).threadId)
    (hstack : (f (k.thread t)).stack = (k.thread t).stack)
    (hstatus : (f (k.thread t)).status = (k.thread t).status)
    (hphase : (f (k.thread t)).phase = (k.thread t).phase) :
    (k.modifyThread t f).core = k.core := by
  rw [core_modifyThread k hpriority hid, hstack, hstatus, hphase,
    show (k.thread t).stack = k.core.stack t from rfl,
    show (k.thread t).status = k.core.status t from rfl,
    show (k.thread t).phase = k.core.phase t from rfl,
    Function.update_eq_self, Function.update_eq_self, Function.update_eq_self]

theorem core_push (frames : List (Frame φ)) :
    (k.push frames).core = k.core.goto (frames ++ k.core.stack k.core.current) :=
  core_setStack k _

theorem queue_eq (k' : Kernel φ γ) (q : Place) (l : List ℕ) (hq : k'.queue q = l)
    (hothers : ∀ q', q' ≠ q → k'.queue q' = k.queue q') :
    k'.queue = Function.update k.queue q l := by
  funext q'
  by_cases h : q' = q
  · subst h
    rw [Function.update_self, hq]
  · rw [Function.update_of_ne h, hothers q' h]

theorem core_setSem (s : SemId) (x : Semaphore) :
    (k.setSem s x).core = (k.core.setQueue (.sem s) x.queue).setValue s x.value := by
  have hqueue : (k.setSem s x).queue = Function.update k.queue (.sem s) x.queue := by
    refine k.queue_eq _ _ _ ?_ fun q' hq' => ?_
    · exact congrArg Semaphore.queue (Function.update_self ..)
    · cases q' with
      | ready | cond => rfl
      | sem s' =>
          have hne : s' ≠ s := fun h => hq' (by rw [h])
          exact congrArg Semaphore.queue (Function.update_of_ne hne ..)
  have hvalue : (fun s' => ((k.setSem s x).sem s').value) =
      Function.update (fun s' => (k.sem s').value) s x.value := by
    funext s'
    by_cases h : s' = s
    · subst h
      rw [Function.update_self]
      exact congrArg Semaphore.value (Function.update_self ..)
    · rw [Function.update_of_ne h]
      exact congrArg Semaphore.value (Function.update_of_ne h ..)
  unfold core
  rw [hqueue, hvalue]
  rfl

theorem core_setSemQueue (s : SemId) (q : List ℕ) :
    (k.setSem s { k.sem s with queue := q }).core = k.core.setQueue (.sem s) q := by
  rw [core_setSem]
  exact Core.setValue_self _ s

theorem core_setValue (s : SemId) (v : ℤ) :
    (k.setSem s { k.sem s with value := v }).core = k.core.setValue s v := by
  rw [core_setSem, show k.core.setQueue (.sem s) (k.sem s).queue = k.core from
    Core.setQueue_self _ _]

theorem core_setCond (c : ℕ) (l : List ℕ) :
    ({ k with cond := Function.update k.cond c l } : Kernel φ γ).core =
      k.core.setQueue (.cond c) l := by
  have hqueue : ({ k with cond := Function.update k.cond c l } : Kernel φ γ).queue =
      Function.update k.queue (.cond c) l := by
    refine k.queue_eq _ _ _ (Function.update_self ..) fun q' hq' => ?_
    cases q' with
    | ready | sem => rfl
    | cond c' => exact Function.update_of_ne (fun h => hq' (by rw [h])) ..
  unfold core
  rw [hqueue]
  rfl

theorem core_setReady (l : List (Keyed ℕ)) :
    ({ k with readyList := l } : Kernel φ γ).core = k.core.setReady l := by
  have hqueue : ({ k with readyList := l } : Kernel φ γ).queue =
      Function.update k.queue .ready (l.map Keyed.item) := by
    refine k.queue_eq _ _ _ rfl fun q' hq' => ?_
    cases q' with
    | ready => exact absurd rfl hq'
    | sem | cond => rfl
  unfold core
  rw [hqueue]
  rfl

/-! ## The core after each function -/

theorem core_readyToRun (schedPriority : Bool) (t : ℕ) :
    (k.readyToRun schedPriority t).core = k.core.makeReady schedPriority t := by
  have hready := core_setReady (k.modifyThread t fun th => { th with status := .ready })
    (k.core.joinReady schedPriority t)
  rw [core_setStatus] at hready
  exact congrArg (fun c : Core φ γ => c.emit (.readyToRun t k.level)) hready

theorem core_saveUser {k' : Kernel φ γ} (h : k.saveUser = .ok k') : k'.core = k.core := by
  unfold saveUser at h
  split at h
  · rw [← Except.ok.inj h]
  · cases h
  · obtain ⟨m, -, h⟩ := bind_eq_ok.mp h
    rw [← Except.ok.inj h]
    exact k.core_modifyThread_same (t := k.currentThread)
      (f := fun th => { th with userRegisters := _ }) rfl rfl rfl rfl rfl

theorem core_run {next : ℕ} {k' : Kernel φ γ} (h : k.run next = .ok k') :
    k'.core = k.core.dispatch next (k.core.stack k.core.current) := by
  unfold run at h
  obtain ⟨k₁, hsave, h⟩ := bind_eq_ok.mp h
  rw [← Except.ok.inj h, core_setStatus]
  have hsaved := k.core_saveUser hsave
  have hpush := core_push (k₁.emit (.run next k₁.level)) [.afterSwitch]
  rw [core_emit, hsaved] at hpush
  have hlevel : k₁.level = k.core.level := congrArg Core.level hsaved
  rw [hlevel] at hpush ⊢
  exact congrArg (fun c : Core φ γ => { c with current := next }.setStatus next .running) hpush

theorem core_delete {k' : Kernel φ γ} (h : k.delete t = .ok k') :
    t ≠ k.currentThread ∧ k'.core = { k.core with
      phase := Function.update k.core.phase t .deleted
      threadIds := Function.update k.core.threadIds (k.core.threadId t) false } := by
  unfold delete at h
  obtain ⟨u, hassert, h⟩ := bind_eq_ok.mp h
  refine ⟨of_assert hassert, ?_⟩
  have hfreed := congrArg (fun c : Core φ γ => { c with
    threadIds := Function.update k.core.threadIds (k.core.threadId t) false })
    (k.core_setPhase t .deleted)
  dsimp only at h
  split at h
  · rw [← Except.ok.inj h]
    exact hfreed
  · cases h
  · obtain ⟨m, -, h⟩ := bind_eq_ok.mp h
    rw [← Except.ok.inj h]
    exact hfreed

theorem core_restoreUser {k' : Kernel φ γ} (h : k.restoreUser build = .ok k') :
    k'.core = k.core := by
  unfold restoreUser at h
  split at h
  · rw [← Except.ok.inj h]
  · cases h
  · rw [← Except.ok.inj h]
    rfl

/-- The ways in which `V` can go. -/
theorem core_vBody {schedPriority : Bool} {s : SemId} {k' : Kernel φ γ}
    (h : k.vBody schedPriority s = .ok k') :
    (k.core.queue (.sem s) = [] ∧
        k'.core = (k.core.setValue s (k.core.value s + 1)).emit (.up s)) ∨
      ∃ t q, k.core.queue (.sem s) = t :: q ∧
        k'.core = (((k.core.setQueue (.sem s) q).makeReady schedPriority t).setValue s
          (k.core.value s + 1)).emit (.up s) := by
  unfold vBody at h
  obtain ⟨value, hvalue, h⟩ := bind_eq_ok.mp h
  have hvalue := add32_eq_ok hvalue
  rw [← Except.ok.inj h, core_emit, core_setValue]
  cases hq : (k.sem s).queue with
  | nil =>
      rw [hq] at hvalue
      exact .inl ⟨hq, by rw [hvalue]; rfl⟩
  | cons t q =>
      rw [hq] at hvalue
      have hsame : ((k.setSem s { k.sem s with queue := q }).readyToRun schedPriority t).sem s =
          { k.sem s with queue := q } := Function.update_self ..
      rw [hsame] at hvalue
      refine .inr ⟨t, q, hq, ?_⟩
      dsimp only
      rw [core_readyToRun, core_setSemQueue, hvalue]
      rfl

/-! ## Interrupts -/

theorem core_schedule {fromNow : ℤ} {type : IntType} {k' : Kernel φ γ}
    (h : k.schedule fromNow type = .ok k') :
    ∃ p : PendingInterrupt, p.type = type ∧ k'.core = k.core.emit (.scheduled p) := by
  unfold schedule at h
  obtain ⟨when, -, h⟩ := bind_eq_ok.mp h
  obtain ⟨u, -, h⟩ := bind_eq_ok.mp h
  exact ⟨⟨k.nextPending, when, type⟩, rfl, congrArg core (Except.ok.inj h).symm⟩

variable {k} {advanceClock fired : Bool}

section

variable {k' : Kernel φ γ}

theorem handlerAct_handled {schedPriority : Bool} {act : HandlerAct}
    (h : k.handlerAct schedPriority act = .ok k') (hoff : k.level = .off) :
    k'.level = .off ∧ ∀ acts c', Core.Handled schedPriority acts k'.core c' →
      Core.Handled schedPriority (act :: acts) k.core c' := by
  cases act with
  | schedule fromNow type =>
      obtain ⟨p, hp, hcore⟩ := k.core_schedule h
      rw [hcore]
      exact ⟨(congrArg Core.level hcore).trans hoff, fun acts c' => .schedule hp⟩
  | v n =>
      unfold handlerAct at h
      obtain ⟨k₁, hv, h⟩ := bind_eq_ok.mp h
      obtain ⟨u, -, h⟩ := bind_eq_ok.mp h
      have hk : (k.changeLevel .off).core = k.core := by
        rw [core_changeLevel, ← hoff]
        rfl
      have hk' : k'.core = k₁.core.setLevel k.core.level := by
        rw [← Except.ok.inj h, core_changeLevel]
        rfl
      refine ⟨(congrArg Core.level hk').trans hoff, fun acts c' hrest => ?_⟩
      rcases core_vBody _ hv with ⟨hq, hcore⟩ | ⟨t, q, hq, hcore⟩
      · rw [hk', hcore, hk] at hrest
        exact .up (hk ▸ hq) hrest
      · rw [hk', hcore, hk] at hrest
        exact .upWake (hk ▸ hq) hrest
  | yieldOnReturn =>
      unfold handlerAct at h
      obtain ⟨u, -, h⟩ := bind_eq_ok.mp h
      rw [← Except.ok.inj h]
      exact ⟨hoff, fun acts c' => .yieldOnReturn⟩

theorem handlerActs_handled {schedPriority : Bool} {acts : List HandlerAct}
    (h : k.handlerActs schedPriority acts = .ok k') (hoff : k.level = .off) :
    Core.Handled schedPriority acts k.core k'.core := by
  induction acts generalizing k with
  | nil =>
      rw [← Except.ok.inj h]
      exact .nil
  | cons act acts ih =>
      unfold handlerActs at h
      obtain ⟨k₁, hact, h⟩ := bind_eq_ok.mp h
      obtain ⟨hoff₁, hfirst⟩ := handlerAct_handled hact hoff
      exact hfirst acts _ (ih h hoff₁)

theorem core_finishLoad (h : k.finishLoad = .ok k') : k'.core = k.core := by
  unfold finishLoad at h
  split at h
  · rw [← Except.ok.inj h]
  · obtain ⟨m, -, h⟩ := bind_eq_ok.mp h
    rw [← Except.ok.inj h]
    rfl

theorem fire_handled {schedPriority : Bool} {acts : List HandlerAct} {p : PendingInterrupt}
    (h : k.fire schedPriority acts p = .ok k') (hoff : k.level = .off) :
    ∃ now, Core.Handled schedPriority acts (k.core.emit (.fired p now)) k'.core := by
  unfold fire at h
  obtain ⟨k₁, hload, h⟩ := bind_eq_ok.mp h
  obtain ⟨k₂, hacts, h⟩ := bind_eq_ok.mp h
  have hk₁ : k₁.core = k.core := core_finishLoad hload
  -- the mode that the handler runs in is not seen outside
  have hrest := (handlerActs_handled hacts ((congrArg Core.level hk₁).trans hoff)).setMode
    k.interrupt.status
  have hstart : (k₁.core.emit (.fired p k₁.stats.totalTicks)).setMode k.interrupt.status =
      k.core.emit (.fired p k₁.stats.totalTicks) := by
    rw [hk₁]
    rfl
  rw [← Except.ok.inj h]
  exact ⟨_, hstart ▸ hrest⟩

/-- The ways in which `CheckIfDue` can go. -/
theorem core_checkIfDue {schedPriority : Bool} {acts : List HandlerAct}
    (h : k.checkIfDue schedPriority advanceClock acts = .ok (fired, k')) :
    k.core.level = .off ∧
      ((fired = false ∧ k'.core = k.core.emit (.checkIfDue k.core.level)) ∨
        (fired = true ∧ ∃ p now, Core.Handled schedPriority acts
          ((k.core.emit (.checkIfDue k.core.level)).emit (.fired p now)) k'.core)) := by
  unfold checkIfDue at h
  obtain ⟨u, hassert, h⟩ := bind_eq_ok.mp h
  have hoff : k.level = .off := of_assert hassert
  refine ⟨hoff, ?_⟩
  split at h
  · obtain ⟨hfired, hk'⟩ := Prod.mk.inj (Except.ok.inj h)
    exact .inl ⟨hfired.symm, by rw [← hk']; rfl⟩
  · rename_i e pending hpending
    have hskip : ((((k.emit (.checkIfDue k.level)).setPending pending).skipTo e.key)).core =
        k.core.emit (.checkIfDue k.core.level) := rfl
    split at h
    · obtain ⟨hfired, hk'⟩ := Prod.mk.inj (Except.ok.inj h)
      exact .inl ⟨hfired.symm, by rw [← hk']; rfl⟩
    · dsimp only at h
      split at h
      · obtain ⟨hfired, hk'⟩ := Prod.mk.inj (Except.ok.inj h)
        exact .inl ⟨hfired.symm, by rw [← hk']; rfl⟩
      · obtain ⟨k₁, hfire, h⟩ := bind_eq_ok.mp h
        obtain ⟨hfired, hk'⟩ := Prod.mk.inj (Except.ok.inj h)
        obtain ⟨now, hhandled⟩ := fire_handled hfire ((congrArg Core.level hskip).trans hoff)
        rw [hskip] at hhandled
        exact .inr ⟨hfired.symm, e.item, now, hk' ▸ hhandled⟩

end

/-! ## Frames -/

section

variable {cfg : Config φ γ ι} {env : Env ι} {k' : Kernel φ γ} {f : Frame φ} {rest : List (Frame φ)}

theorem core_enter (x : Call φ) :
    (k.enter x).core = ((k.core.goto (x.body ++ .setLevel k.core.level ::
      .ret x k.core.level :: k.core.stack k.core.current)).setLevel .off).emit
        (.called k.core.current x k.core.level) := by
  unfold enter
  rw [core_push, List.append_assoc]
  rfl

theorem core_pLoop {s : SemId} (h : k.pLoop s = .ok k') :
    (k.core.value s = 0 ∧ k'.core = (k.core.goto (.sleep :: .pLoop s true ::
        k.core.stack k.core.current)).setQueue (.sem s)
          (k.core.queue (.sem s) ++ [k.core.current])) ∨
      (k.core.value s ≠ 0 ∧ k'.core = (k.core.setValue s (k.core.value s - 1)).emit (.down s)) := by
  unfold pLoop at h
  split at h
  · rename_i hv
    refine .inl ⟨hv, ?_⟩
    rw [← Except.ok.inj h, core_push, core_setSemQueue]
    rfl
  · rename_i hv
    obtain ⟨value, hvalue, h⟩ := bind_eq_ok.mp h
    refine .inr ⟨hv, ?_⟩
    rw [← Except.ok.inj h, core_emit, core_setValue, add32_eq_ok hvalue]
    rfl

theorem core_signalBody {schedPriority : Bool} (x : ℕ) :
    (k.core.queue (.cond x) = [] ∧ (k.signalBody schedPriority x).core = k.core) ∨
      ∃ t q, k.core.queue (.cond x) = t :: q ∧ (k.signalBody schedPriority x).core =
        ((k.core.setQueue (.cond x) q).emit (.selected x t)).makeReady schedPriority t := by
  unfold signalBody
  cases hq : k.cond x with
  | nil => exact .inl ⟨hq, rfl⟩
  | cons t q =>
      refine .inr ⟨t, q, hq, ?_⟩
      dsimp only
      rw [core_readyToRun, core_emit, core_setCond]

theorem core_setLevel {now : IntStatus} (h : k.setLevel now = .ok k') :
    (now = .on ∧ k.core.level = .off ∧
        k'.core = (k.core.goto (.oneTick :: k.core.stack k.core.current)).setLevel now) ∨
      ((now = .off ∨ k.core.level = .on) ∧ k'.core = k.core.setLevel now) := by
  unfold setLevel at h
  obtain ⟨u, -, h⟩ := bind_eq_ok.mp h
  split at h
  · rename_i hnow
    refine .inl ⟨hnow.1, hnow.2, ?_⟩
    rw [← Except.ok.inj h, core_push]
    rfl
  · rename_i hnow
    refine .inr ⟨?_, ?_⟩
    · cases hn : now with
      | off => exact .inl rfl
      | on =>
          cases hl : k.core.level with
          | on => exact .inr rfl
          | off => exact absurd ⟨hn, hl⟩ hnow
    · rw [← Except.ok.inj h]
      rfl

theorem core_newThread {pri uninit : ℤ} (h : k.newThread pri uninit = .ok k') :
    ∃ i, k.core.threadIds i = false ∧
      k'.core = k.core.create (if pri < 0 ∨ pri > 10 then uninit else pri) i := by
  unfold newThread at h
  split at h
  · cases h
  · rename_i i hi
    refine ⟨i, ?_, ?_⟩
    · have hfree : (!k.threadIds i) = true := List.find?_some (p := fun j => !k.threadIds j) hi
      exact (Bool.not_eq_true' _).mp hfree
    · rw [← Except.ok.inj h]
      unfold core
      dsimp only
      rw [field_update Thread.stack, field_update Thread.status, field_update Thread.phase,
        field_update Thread.priority, field_update Thread.threadId]
      rfl

theorem core_finish : k.finish.core = k.core.finish := by
  unfold finish
  rw [core_setStack, core_setPhase]
  rfl

theorem core_load {executable : List Byte} {uninit : NoffHeader}
    (h : k.load build t executable uninit = .ok k') : k'.core = k.core := by
  unfold load at h
  split at h
  · cases h
  · obtain ⟨⟨space, m⟩, -, h⟩ := bind_eq_ok.mp h
    rw [← Except.ok.inj h]
    exact k.core_modifyThread_same (f := fun th => { th with space := some space })
      rfl rfl rfl rfl rfl

theorem core_restoreState (h : k.restoreState build t = .ok k') : k'.core = k.core := by
  unfold restoreState at h
  split at h
  · rw [← Except.ok.inj h]
    rfl
  · cases h

/-- `SC_Exit` makes the thread finish. -/
theorem core_syscall (h : k.syscall build = .ok k') :
    ∃ (cmds : List (Cmd φ)) (mode : MachineStatus), (∀ y ∈ cmds, y = .finish) ∧ mode ≠ .idle ∧
      k'.core = (k.core.goto (cmds.map .cmd ++ k.core.stack k.core.current)).setMode mode := by
  unfold syscall at h
  split at h
  · cases h
  · obtain ⟨⟨control, m⟩, -, h⟩ := bind_eq_ok.mp h
    cases control with
    | resume =>
        refine ⟨[], .user, by simp, by decide, ?_⟩
        rw [← Except.ok.inj h, List.map_nil, List.nil_append, Core.goto_self]
        rfl
    | halt =>
        refine ⟨[], .system, by simp, by decide, ?_⟩
        rw [← Except.ok.inj h, List.map_nil, List.nil_append, Core.goto_self]
        rfl
    | finish =>
        refine ⟨[.finish], .system, by simp, by decide, ?_⟩
        rw [← Except.ok.inj h, core_push]
        rfl

/-- The frame is executed in one step. -/
def Simple : Frame φ → Prop
  | .fireLoop | .idle | .idleLoop | .broadcastBody _ _ | .cmd (.schedule _ _) => False
  | _ => True

theorem Simple.ordinary (hf : Simple f) : Core.Ordinary f := by
  cases f with
  | cmd x =>
      cases x with
      | schedule => exact hf.elim
      | _ => trivial
  | fireLoop | idle | idleLoop => exact hf.elim
  | _ => trivial

/-- A step that leads to what is seen of the kernel. -/
theorem stepped {c c' : Core φ γ} (hstep : Core.Step cfg c c') (hcore : k'.core = c')
    (htiming : Core.timing c'.log = Core.timing k.core.log) :
    Core.Step cfg c k'.core ∧ Core.timing k'.core.log = Core.timing k.core.log :=
  ⟨hcore ▸ hstep, hcore ▸ htiming⟩

theorem execCmd_step {x : Cmd φ} (h : k.execCmd cfg env x = .ok k') (hx : Simple (.cmd x)) :
    Core.Step cfg (k.core.goto (.cmd x :: k.core.stack k.core.current)) k'.core ∧
      Core.timing k'.core.log = Core.timing k.core.log := by
  have hs : (k.core.goto (.cmd x :: k.core.stack k.core.current)).stack k.core.current =
      .cmd x :: k.core.stack k.core.current := Core.stack_goto _ _
  have hgoto : ∀ fs, (k.core.goto (.cmd x :: k.core.stack k.core.current)).goto fs =
      k.core.goto fs := Core.goto_goto _ _
  have hpop := (hgoto _).trans (Core.goto_self _)
  cases x with
  | call x =>
      refine stepped (.enter (.inr hs)) ?_ (by simp [Core.timing])
      rw [← Except.ok.inj h, core_enter, hgoto]
      rfl
  | run f =>
      obtain ⟨⟨g, cmds⟩, hp, h⟩ := bind_eq_ok.mp h
      exact stepped (.run hs hp) (by rw [← Except.ok.inj h, core_push, hgoto]; rfl) rfl
  | finish =>
      refine stepped (.finish hs) ?_ (by simp [Core.timing])
      rw [← Except.ok.inj h, core_finish, Core.finish_goto]
  | newThread pri uninit =>
      obtain ⟨i, hi, hcore⟩ := core_newThread h
      exact stepped (.newThread hs hi) (by rw [hcore, hpop]) (by simp [Core.timing])
  | setLevel now =>
      rcases core_setLevel h with ⟨rfl, hl, hcore⟩ | ⟨hl, hcore⟩
      · refine stepped (.quiet hs (.cmdSetLevelTick hl)) ?_ (by simp [Core.timing])
        rw [hcore, hgoto]
        rfl
      · refine stepped (.quiet hs (.cmdSetLevel hl)) ?_ (by simp [Core.timing])
        rw [hcore, List.nil_append, hpop]
        rfl
  | oneTick =>
      refine stepped (.quiet hs .cmdTick) ?_ (by simp [Core.timing])
      rw [← Except.ok.inj h, core_push, hgoto]
      rfl
  | setStatus st =>
      refine stepped (.quiet hs .cmdSetStatus) ?_ rfl
      rw [← Except.ok.inj h, List.nil_append, hpop]
      rfl
  | schedule fromNow type => exact hx.elim
  | load t executable uninit =>
      refine stepped (.quiet hs (.cmd trivial)) ?_ (by simp [Core.timing])
      rw [core_load h, List.nil_append, hpop]
      rfl
  | restoreState t =>
      refine stepped (.quiet hs (.cmd trivial)) ?_ (by simp [Core.timing])
      rw [core_restoreState h, List.nil_append, hpop]
      rfl
  | syscall =>
      obtain ⟨cmds, mode, hcmds, hmode, hcore⟩ := core_syscall h
      refine stepped (.quiet hs (.syscall hcmds hmode)) ?_ (by simp [Core.timing])
      rw [hcore, hgoto]
      rfl

/-- The ways in which `FindNextToRun` can go. -/
theorem core_findNextToRun {schedPriority bySleep : Bool} {next : Option ℕ}
    (h : k.findNextToRun schedPriority bySleep = (next, k')) :
    (k.core.ready = [] ∧ next = none ∧ k'.core = k.core.emit (.findNextToRun k.core.level)) ∨
      ∃ e q, k.core.ready = e :: q ∧
        ((next = some e.item ∧
            (bySleep = false → schedPriority = true →
              k.core.priority e.item < k.core.priority k.core.current) ∧
            k'.core = (k.core.emit (.findNextToRun k.core.level)).setReady q) ∨
          (next = none ∧ bySleep = false ∧ schedPriority = true ∧
            k.core.priority k.core.current ≤ k.core.priority e.item ∧
            k'.core = (k.core.emit (.findNextToRun k.core.level)).setReady
              (Keyed.sortedInsert ⟨k.core.priority e.item, e.item⟩ q))) := by
  unfold findNextToRun at h
  dsimp only at h
  cases hready : k.readyList with
  | nil =>
      rw [show (k.emit (.findNextToRun k.level)).readyList = [] from hready] at h
      obtain ⟨rfl, rfl⟩ := Prod.mk.inj h
      exact .inl ⟨hready, rfl, rfl⟩
  | cons e q =>
      rw [show (k.emit (.findNextToRun k.level)).readyList = e :: q from hready] at h
      refine .inr ⟨e, q, hready, ?_⟩
      dsimp only at h
      split at h
      · rename_i hforced
        obtain ⟨rfl, rfl⟩ := Prod.mk.inj h
        refine .inl ⟨rfl, ?_, core_setReady _ q⟩
        rintro rfl rfl
        cases hforced
      · rename_i hforced
        split at h
        · rename_i hlt
          obtain ⟨rfl, rfl⟩ := Prod.mk.inj h
          exact .inl ⟨rfl, fun _ _ => hlt, core_setReady _ q⟩
        · rename_i hlt
          obtain ⟨rfl, rfl⟩ := Prod.mk.inj h
          have hmode : bySleep = false ∧ schedPriority = true := by
            cases bySleep <;> cases schedPriority <;> simp_all
          exact .inr ⟨rfl, hmode.1, hmode.2, not_lt.mp hlt, core_setReady _ _⟩

theorem yieldBody_step (hrest : k.core.stack k.core.current = rest)
    (h : k.yieldBody cfg.schedPriority = .ok k') :
    Core.Step cfg (k.core.goto (.yieldBody :: rest)) k'.core ∧
      Core.timing k'.core.log = Core.timing k.core.log := by
  have hs : (k.core.goto (.yieldBody :: rest)).stack k.core.current = .yieldBody :: rest :=
    Core.stack_goto _ _
  have hpop : (k.core.goto (.yieldBody :: rest)).goto rest = k.core := by
    rw [Core.goto_goto, ← hrest, Core.goto_self]
  unfold yieldBody at h
  split at h
  · rename_i k₁ hfind
    rw [← Except.ok.inj h]
    rcases core_findNextToRun hfind with ⟨hq, -, hcore⟩ | ⟨e, q, hq, ⟨hnext, -⟩ | hkeep⟩
    · exact stepped (.yieldNone hs hq) (by rw [hcore, hpop]; rfl) (by simp [Core.timing])
    · cases hnext
    · obtain ⟨-, -, hsp, hle, hcore⟩ := hkeep
      refine stepped (.yieldKeep hs hq hsp hle) ?_ (by simp [Core.timing])
      rw [hcore, hpop]
      rfl
  · rename_i next k₁ hfind
    rcases core_findNextToRun hfind with ⟨-, hnext, -⟩ | ⟨e, q, hq, hswitch | ⟨hnext, -⟩⟩
    · cases hnext
    · obtain ⟨hnext, hlt, hcore⟩ := hswitch
      cases hnext
      have hstep : Core.Step cfg (k.core.goto (.yieldBody :: rest))
          (((((k.core.emit (.findNextToRun k.core.level)).setReady q).makeReady
            cfg.schedPriority k.core.current).goto (.yieldBody :: rest)).dispatch e.item rest) :=
        .yieldSwitch hs hq (hlt rfl)
      rw [Core.dispatch_goto] at hstep
      have hrun := core_run _ h
      have hcurrent : k₁.currentThread = k.core.current := congrArg Core.current hcore
      rw [core_readyToRun, hcore, hcurrent] at hrun
      rw [hrun]
      exact ⟨hrest ▸ hstep, by simp [Core.timing]⟩
    · cases hnext

theorem sleepLoop_step (hrest : k.core.stack k.core.current = rest)
    (h : k.sleepLoop cfg.schedPriority = .ok k') :
    Core.Step cfg (k.core.goto (.sleepLoop :: rest)) k'.core ∧
      Core.timing k'.core.log = Core.timing k.core.log := by
  have hs : (k.core.goto (.sleepLoop :: rest)).stack k.core.current = .sleepLoop :: rest :=
    Core.stack_goto _ _
  unfold sleepLoop at h
  split at h
  · rename_i k₁ hfind
    rw [← Except.ok.inj h]
    rcases core_findNextToRun hfind with ⟨hq, -, hcore⟩ | ⟨e, q, hq, ⟨hnext, -⟩ | ⟨-, hfalse, -⟩⟩
    · refine stepped (.sleepIdle hs hq) ?_ (by simp [Core.timing])
      rw [core_push, hcore, Core.goto_goto, ← hrest]
      rfl
    · cases hnext
    · cases hfalse
  · rename_i next k₁ hfind
    rcases core_findNextToRun hfind with ⟨-, hnext, -⟩ | ⟨e, q, hq, hswitch | ⟨hnext, -⟩⟩
    · cases hnext
    · obtain ⟨hnext, -, hcore⟩ := hswitch
      cases hnext
      have hstep : Core.Step cfg (k.core.goto (.sleepLoop :: rest))
          ((((k.core.emit (.findNextToRun k.core.level)).setReady q).goto
            (.sleepLoop :: rest)).dispatch e.item rest) := .sleepSwitch hs hq
      rw [Core.dispatch_goto] at hstep
      rw [core_run _ h, hcore]
      exact ⟨hrest ▸ hstep, by simp [Core.timing]⟩
    · cases hnext

theorem afterSwitch_step (hrest : k.core.stack k.core.current = rest)
    (h : k.afterSwitch cfg.build = .ok k') :
    Core.Step cfg (k.core.goto (.afterSwitch :: rest)) k'.core ∧
      Core.timing k'.core.log = Core.timing k.core.log := by
  have hs : (k.core.goto (.afterSwitch :: rest)).stack k.core.current = .afterSwitch :: rest :=
    Core.stack_goto _ _
  have hpop : (k.core.goto (.afterSwitch :: rest)).goto rest = k.core := by
    rw [Core.goto_goto, ← hrest, Core.goto_self]
  unfold afterSwitch at h
  obtain ⟨k₁, hdestroy, h⟩ := bind_eq_ok.mp h
  rw [core_restoreUser _ h]
  unfold destroyFinished at hdestroy
  split at hdestroy
  · rename_i hnone
    have hstep : Core.Step cfg (k.core.goto (.afterSwitch :: rest)) _ :=
      .quiet hs (.afterSwitch hnone)
    rw [List.nil_append, hpop] at hstep
    rw [← Except.ok.inj hdestroy]
    exact ⟨hstep, by simp [Core.timing]⟩
  · rename_i t hsome
    obtain ⟨k₂, hdelete, hdestroy⟩ := bind_eq_ok.mp hdestroy
    obtain ⟨ht, hcore⟩ := core_delete _ hdelete
    have hstep : Core.Step cfg (k.core.goto (.afterSwitch :: rest)) _ := .destroy hs hsome ht
    rw [hpop] at hstep
    rw [← Except.ok.inj hdestroy]
    have hdone : ({ k₂ with threadToBeDestroyed := none } : Kernel φ γ).core = _ :=
      congrArg (fun c : Core φ γ => { c with toBeDestroyed := none }) hcore
    rw [hdone]
    exact ⟨hstep, by simp [Core.timing]⟩

theorem core_advance (h : k.advance = .ok k') : k'.core = k.core := by
  unfold advance at h
  split at h
  · obtain ⟨totalTicks, -, h⟩ := bind_eq_ok.mp h
    obtain ⟨systemTicks, -, h⟩ := bind_eq_ok.mp h
    rw [← Except.ok.inj h]
    rfl
  · obtain ⟨totalTicks, -, h⟩ := bind_eq_ok.mp h
    obtain ⟨userTicks, -, h⟩ := bind_eq_ok.mp h
    rw [← Except.ok.inj h]
    rfl

/-- Executing a frame is a step from the state in which it is on the stack. -/
theorem exec_step (rest : List (Frame φ)) (hrest : k.core.stack k.core.current = rest)
    (h : k.exec cfg env f = .ok k')
    (hlegal : ∀ t g, f = .startThread t g → t < k.core.created ∧ k.core.status t = .justCreated)
    (hf : Simple f) :
    Core.Step cfg (k.core.goto (f :: rest)) k'.core ∧
      Core.timing k'.core.log = Core.timing k.core.log := by
  have hs : (k.core.goto (f :: rest)).stack k.core.current = f :: rest := Core.stack_goto _ _
  have hgoto : ∀ fs, (k.core.goto (f :: rest)).goto fs = k.core.goto fs := Core.goto_goto _ _
  have hpop : (k.core.goto (f :: rest)).goto rest = k.core := by
    rw [hgoto, ← hrest, Core.goto_self]
  cases f with
  | cmd x => exact hrest ▸ execCmd_step h hf
  | call x =>
      refine stepped (.enter (.inl hs)) ?_ (by simp [Core.timing])
      rw [← Except.ok.inj h, core_enter, hrest, hgoto]
      rfl
  | pLoop s b =>
      rcases core_pLoop h with ⟨hv, hcore⟩ | ⟨hv, hcore⟩
      · exact stepped (.block hs hv) (by rw [hcore, hrest, hgoto]; rfl) (by simp [Core.timing])
      · exact stepped (.down hs hv) (by rw [hcore, hpop]; rfl) (by simp [Core.timing])
  | vBody s =>
      rcases k.core_vBody h with ⟨hq, hcore⟩ | ⟨t, q, hq, hcore⟩
      · exact stepped (.up (.thread hs) hq) (by rw [hcore, hpop]; rfl) (by simp [Core.timing])
      · exact stepped (.upWake (.thread hs) hq) (by rw [hcore, hpop]; rfl) (by simp [Core.timing])
  | setOwner l =>
      exact stepped (.setOwner hs) (by rw [← Except.ok.inj h, hpop]; rfl) rfl
  | clearOwner l =>
      exact stepped (.clearOwner hs) (by rw [← Except.ok.inj h, hpop]; rfl) rfl
  | assertOwner l =>
      unfold exec assertOwner at h
      obtain ⟨u, hassert, h⟩ := bind_eq_ok.mp h
      refine stepped (.quiet hs (.assertOwner (of_assert hassert))) ?_ (by simp [Core.timing])
      rw [← Except.ok.inj h, List.nil_append, hpop]
      rfl
  | enqueue x =>
      refine stepped (.enqueue hs) ?_ (by simp [Core.timing])
      rw [← Except.ok.inj h, enqueue, core_emit, core_setCond, hpop]
      rfl
  | signalBody x =>
      rw [← Except.ok.inj h]
      rcases k.core_signalBody x with ⟨hq, hcore⟩ | ⟨t, q, hq, hcore⟩
      · refine stepped (.quiet hs (.signalNone hq)) ?_ (by simp [Core.timing])
        rw [hcore, List.nil_append, hpop]
        rfl
      · exact stepped (.select (.signal hs) hq) (by rw [hcore, hpop]) (by simp [Core.timing])
  | broadcastBody x l => exact hf.elim
  | startThread t g =>
      obtain ⟨ht, hst⟩ := hlegal t g rfl
      refine stepped (.startThread hs ht hst) ?_ (by simp [Core.timing])
      rw [← Except.ok.inj h, startThread, core_readyToRun, core_setStackOf, hpop]
  | yieldBody => exact yieldBody_step hrest h
  | sleep =>
      unfold exec sleep at h
      obtain ⟨u, hassert, h⟩ := bind_eq_ok.mp h
      refine stepped (.sleep hs (of_assert hassert)) ?_ (by simp [Core.timing])
      rw [← Except.ok.inj h, core_push, core_setStatus, hgoto, ← hrest]
      rfl
  | sleepLoop => exact sleepLoop_step hrest h
  | afterSwitch => exact afterSwitch_step hrest h
  | setLevel now =>
      rcases core_setLevel h with ⟨rfl, hl, hcore⟩ | ⟨hl, hcore⟩
      · refine stepped (.quiet hs (.setLevelTick hl)) ?_ (by simp [Core.timing])
        rw [hcore, hrest, hgoto]
        rfl
      · refine stepped (.quiet hs (.setLevel hl)) ?_ (by simp [Core.timing])
        rw [hcore, List.nil_append, hpop]
        rfl
  | ret x level =>
      refine stepped (.ret hs) ?_ (by simp [Core.timing])
      rw [← Except.ok.inj h, hpop]
      rfl
  | oneTick =>
      unfold exec oneTick at h
      obtain ⟨k₁, hadvance, h⟩ := bind_eq_ok.mp h
      refine stepped (.quiet hs .oneTick) ?_ (by simp [Core.timing])
      rw [← Except.ok.inj h, core_push, core_changeLevel, core_advance hadvance, hgoto, ← hrest]
      rfl
  | fireLoop => exact hf.elim
  | oneTickEnd old =>
      rw [← Except.ok.inj h]
      unfold oneTickEnd
      dsimp only
      split
      · exact stepped (.quiet hs .oneTickYield) (by rw [core_push, hgoto, ← hrest]; rfl) rfl
      · exact stepped (.quiet hs .oneTickEnd) (by rw [List.nil_append, hpop]; rfl) rfl
  | setStatus st =>
      refine stepped (.quiet hs .setStatus) ?_ rfl
      rw [← Except.ok.inj h, List.nil_append, hpop]
      rfl
  | idle => exact hf.elim
  | idleLoop => exact hf.elim

/-- Each turn of the loop is a step; the last one leaves it. -/
theorem broadcastLoop_own {x l : ℕ} {waiting : List ℕ} (rest : List (Frame φ))
    (c₀ : Core φ γ) (h : k.broadcastLoop cfg.schedPriority x l waiting = .ok k')
    (hw : waiting.length = (k.core.queue (.cond x)).length) :
    Relation.ReflTransGen (Core.Own cfg c₀) (k.core.goto (.broadcastBody x l :: rest))
        (k'.core.goto rest) ∧
      k'.core.stack k'.core.current = k.core.stack k.core.current := by
  have hs : ∀ k : Kernel φ γ, (k.core.goto (.broadcastBody x l :: rest)).stack k.core.current =
      .broadcastBody x l :: rest := fun k => Core.stack_goto _ _
  have hown : ∀ {k : Kernel φ γ} {c'},
      Core.Step cfg (k.core.goto (.broadcastBody x l :: rest)) c' →
      Core.timing c'.log = Core.timing k.core.log →
      Core.Own cfg c₀ (k.core.goto (.broadcastBody x l :: rest)) c' := by
    intro k c' hstep htiming
    refine .step (.inr ⟨x, l, rest, hs k⟩) (fun f rest' hs' => ?_) hstep htiming
    cases (hs k).symm.trans hs'
    trivial
  induction waiting generalizing k with
  | nil =>
      rw [← Except.ok.inj h]
      have hnil : k.core.queue (.cond x) = [] := List.eq_nil_of_length_eq_zero hw.symm
      have hstep : Core.Step cfg (k.core.goto (.broadcastBody x l :: rest)) _ :=
        .quiet (hs k) (.broadcastDone hnil)
      rw [Core.goto_goto] at hstep
      exact ⟨.single (hown hstep rfl), rfl⟩
  | cons t waiting ih =>
      unfold broadcastLoop at h
      obtain ⟨u, -, h⟩ := bind_eq_ok.mp h
      rcases k.core_signalBody x with ⟨hnil, -⟩ | ⟨t, q, hq, hcore⟩
      · rw [hnil] at hw
        cases hw
      · have hstep : Core.Step cfg (k.core.goto (.broadcastBody x l :: rest)) _ :=
          .select (.broadcast (hs k)) hq
        rw [Core.goto_goto] at hstep
        have hlength : waiting.length =
            ((k.signalBody cfg.schedPriority x).core.queue (.cond x)).length := by
          rw [hq] at hw
          rw [hcore]
          have hsame : (((k.core.setQueue (.cond x) q).emit (.selected x t)).makeReady
              cfg.schedPriority t).queue (.cond x) = q :=
            (Core.queue_makeReady_of_ne _ _ _ (by simp)).trans (Function.update_self ..)
          rw [hsame]
          exact Nat.succ.inj hw
        obtain ⟨hsteps, hstack⟩ := ih h hlength
        rw [hcore] at hsteps hstack
        exact ⟨.head (hown hstep (by simp [Core.timing, List.filterMap_cons])) hsteps, hstack⟩

/-- `CheckIfDue` is called while the current thread stays in its frame. -/
theorem checkIfDue_moves {acts : List HandlerAct} {c₀ c' : Core φ γ}
    (h : k.checkIfDue cfg.schedPriority advanceClock acts = .ok (fired, k')) (hf : Core.Firing f)
    (hpre : Relation.ReflTransGen Core.Still c₀ (k.core.goto (f :: rest)))
    (hpost : Relation.ReflTransGen Core.Still (k'.core.goto (f :: rest)) c') :
    Core.Moves cfg acts c₀ c' := by
  obtain ⟨hl, hcases⟩ := core_checkIfDue h
  have hcheck := hpre.tail (.check (Core.stack_goto _ _) hf hl)
  rcases hcases with ⟨-, hcore⟩ | ⟨-, p, now, hhandled⟩
  · rw [hcore] at hpost
    exact .own (Relation.ReflTransGen.mono (fun _ _ => .still) _ _ (hcheck.trans hpost))
  · have hs : (k.core.goto (f :: rest)).stack k.core.current = f :: rest := Core.stack_goto _ _
    exact .fired hcheck hs hf hl (hhandled.goto (f :: rest)) hpost

theorem checkIfDue_stack {schedPriority : Bool} {acts : List HandlerAct}
    (h : k.checkIfDue schedPriority advanceClock acts = .ok (fired, k')) :
    k'.core.stack k'.core.current = k.core.stack k.core.current := by
  obtain ⟨-, ⟨-, hcore⟩ | ⟨-, p, now, hhandled⟩⟩ := core_checkIfDue h
  · rw [hcore]
    rfl
  · rw [hhandled.frame.1, hhandled.frame.2.1]
    rfl

/-- A thread leaves a frame in which handlers are called. -/
theorem still_leave {fs : List (Frame φ)} {mode : MachineStatus} {c : Core φ γ} (hf : Core.Firing f)
    (hq : Core.Quiet (c.goto (f :: rest)) f fs c.level mode) :
    Core.Still (c.goto (f :: rest)) ((c.goto (fs ++ rest)).setMode mode) := by
  have hstill : Core.Still (c.goto (f :: rest)) _ := .quiet (Core.stack_goto _ _) hf hq
  rw [Core.goto_goto] at hstill
  exact hstill

theorem fireLoop_moves {acts : List HandlerAct} (rest : List (Frame φ))
    (hrest : k.core.stack k.core.current = rest)
    (h : k.fireLoop cfg.schedPriority acts = .ok k') :
    Core.Moves cfg acts (k.core.goto (.fireLoop :: rest)) k'.core := by
  unfold fireLoop at h
  obtain ⟨⟨fired, k₁⟩, hcheck, h⟩ := bind_eq_ok.mp h
  have hstack := (checkIfDue_stack hcheck).trans hrest
  refine checkIfDue_moves hcheck (f := .fireLoop) trivial .refl ?_
  cases fired with
  | true =>
      rw [← Except.ok.inj h, core_push, hstack]
      exact .refl
  | false =>
      rw [← Except.ok.inj h]
      have hend : Core.Still (k₁.core.goto (.fireLoop :: rest)) _ :=
        still_leave (f := .fireLoop) trivial .fireEnd
      rw [List.nil_append, ← hstack, Core.goto_self] at hend
      exact .single (hstack ▸ hend)

theorem idle_moves {acts : List HandlerAct} (rest : List (Frame φ))
    (hrest : k.core.stack k.core.current = rest) (h : k.idle cfg.schedPriority acts = .ok k') :
    Core.Moves cfg acts (k.core.goto (.idle :: rest)) k'.core := by
  unfold idle at h
  obtain ⟨⟨fired, k₁⟩, hcheck, h⟩ := bind_eq_ok.mp h
  have hstack := (checkIfDue_stack hcheck).trans hrest
  have hfirst : Core.Still (k.core.goto (.idle :: rest)) _ := still_leave (f := .idle) trivial .idle
  refine checkIfDue_moves hcheck (f := .idle) trivial (.single hfirst) ?_
  cases fired with
  | true =>
      rw [← Except.ok.inj h, core_push, hstack]
      exact .single (still_leave (f := .idle) trivial .idleFired)
  | false =>
      have hstay : (k₁.push [.idle]).core = k₁.core.goto (.idle :: rest) := by
        rw [core_push, hstack]
        rfl
      rw [← Except.ok.inj h]
      exact hstay ▸ .refl

theorem idleLoop_moves {acts : List HandlerAct} (rest : List (Frame φ))
    (hrest : k.core.stack k.core.current = rest) (h : k.idleLoop cfg.schedPriority acts = .ok k') :
    Core.Moves cfg acts (k.core.goto (.idleLoop :: rest)) k'.core := by
  unfold idleLoop at h
  obtain ⟨⟨fired, k₁⟩, hcheck, h⟩ := bind_eq_ok.mp h
  have hstack := (checkIfDue_stack hcheck).trans hrest
  refine checkIfDue_moves hcheck (f := .idleLoop) trivial .refl ?_
  cases fired with
  | true =>
      rw [← Except.ok.inj h, core_push, hstack]
      exact .refl
  | false =>
      rw [← Except.ok.inj h]
      have hend : Core.Still (k₁.core.goto (.idleLoop :: rest)) _ :=
        still_leave (f := .idleLoop) trivial .idleEnd
      rw [List.nil_append, ← hstack, Core.goto_self] at hend
      exact .single (hstack ▸ hend)

theorem schedule_moves {fromNow : ℤ} {type : IntType} {acts : List HandlerAct}
    (rest : List (Frame φ)) (hrest : k.core.stack k.core.current = rest)
    (h : k.schedule fromNow type = .ok k') :
    Core.Moves cfg acts (k.core.goto (.cmd (.schedule fromNow type) :: rest)) k'.core := by
  obtain ⟨p, hp, hcore⟩ := k.core_schedule h
  have hown : Core.Own cfg (k.core.goto (.cmd (.schedule fromNow type) :: rest))
      (k.core.goto (.cmd (.schedule fromNow type) :: rest)) _ :=
    .schedule (Core.stack_goto _ _) hp
  rw [Core.goto_goto, ← hrest, Core.goto_self] at hown
  rw [hcore]
  exact .own (.single (hrest ▸ hown))

theorem exec_moves (rest : List (Frame φ)) (hrest : k.core.stack k.core.current = rest)
    (h : k.exec cfg env f = .ok k')
    (hlegal : ∀ t g, f = .startThread t g → t < k.core.created ∧ k.core.status t = .justCreated) :
    Core.Moves cfg env.handler (k.core.goto (f :: rest)) k'.core := by
  have hsimple : Simple f → Core.Moves cfg env.handler (k.core.goto (f :: rest)) k'.core := by
    intro hf
    obtain ⟨hstep, htiming⟩ := exec_step rest hrest h hlegal hf
    refine .own (.single (.step (.inl rfl) (fun g rest' hs => ?_) hstep htiming))
    cases (Core.stack_goto k.core (f :: rest)).symm.trans hs
    exact hf.ordinary
  cases f with
  | cmd x =>
      cases x with
      | schedule fromNow type => exact schedule_moves rest hrest h
      | _ => exact hsimple trivial
  | broadcastBody x l =>
      obtain ⟨hsteps, hstack⟩ := broadcastLoop_own rest (k.core.goto (.broadcastBody x l :: rest))
        h rfl
      rw [← hrest, ← hstack, Core.goto_self] at hsteps
      rw [hrest] at hstack
      exact .own (hstack ▸ hsteps)
  | fireLoop => exact fireLoop_moves rest hrest h
  | idle => exact idle_moves rest hrest h
  | idleLoop => exact idleLoop_moves rest hrest h
  | _ => exact hsimple trivial

/-- What a step of the kernel does to its core. -/
theorem step_moves (hlegal : k.Legal) (h : k.step cfg env = .ok k') :
    Core.Moves cfg env.handler k.core k'.core := by
  unfold step at h
  split at h
  · cases h
  · rename_i f rest hstack
    have hrest : (k.setStack rest).core.stack (k.setStack rest).core.current = rest := by
      rw [core_setStack]
      exact Core.stack_goto _ _
    have hmoves := exec_moves rest hrest h (by
      rintro t g rfl
      rw [core_setStack]
      exact hlegal t g rest hstack)
    rw [core_setStack, Core.goto_goto, ← hstack] at hmoves
    exact (Core.goto_self k.core) ▸ hmoves

theorem minor_of_firing (hf : Core.Firing f) : Core.Minor f := by
  cases f <;> first | exact hf.elim | trivial

theorem still_step {c₀ c c' : Core φ γ} (h : Core.Still c c') : Core.StepFrom cfg c₀ c c' := by
  cases h with
  | quiet hs hf h => exact ⟨.quiet hs h, .inr ⟨_, _, hs, minor_of_firing hf⟩⟩
  | check hs hf hl => exact ⟨.remark hl, .inr ⟨_, _, hs, minor_of_firing hf⟩⟩

/-- What a thread does are steps of the core. -/
theorem own_steps {c₀ c c' : Core φ γ} (h : Core.Own cfg c₀ c c') :
    Relation.ReflTransGen (Core.StepFrom cfg c₀) c c' := by
  cases h with
  | step hc _ h =>
      refine .single ⟨h, hc.imp_right ?_⟩
      rintro ⟨x, l, rest, hs⟩
      exact ⟨_, rest, hs, trivial⟩
  | @schedule fromNow type rest p hs =>
      have hemit : Core.Step cfg c (c.emit (.scheduled p)) := .remark trivial
      have hpop : Core.Step cfg (c.emit (.scheduled p)) _ := .quiet hs (.cmd trivial)
      exact .tail (.single ⟨hemit, .inr ⟨_, rest, hs, trivial⟩⟩)
        ⟨hpop, .inr ⟨_, rest, hs, trivial⟩⟩
  | still h => exact .single (still_step h)

/-- So is what a handler does. -/
theorem handled_steps {acts : List HandlerAct} {c₀ c c' : Core φ γ}
    (hs : c.stack c.current = f :: rest) (hf : Core.Firing f) (hl : c.level = .off)
    (h : Core.Handled cfg.schedPriority acts c c') :
    Relation.ReflTransGen (Core.StepFrom cfg c₀) c c' := by
  have hstay : ∀ c : Core φ γ, c.stack c.current = f :: rest → c.goto (f :: rest) = c :=
    fun c hs => hs ▸ c.goto_self
  have hfrom : ∀ {c c' : Core φ γ}, c.stack c.current = f :: rest → Core.Step cfg c c' →
      Core.StepFrom cfg c₀ c c' := fun hs h => ⟨h, .inr ⟨f, rest, hs, minor_of_firing hf⟩⟩
  induction h with
  | nil => exact .refl
  | @schedule _ _ _ c _ p _ _ ih =>
      have hemit : Core.Step cfg c (c.emit (.scheduled p)) := .remark trivial
      exact .head (hfrom hs hemit) (ih hs hl)
  | up hq _ ih =>
      have hup : Core.Step cfg _ _ := .up (.handler hs hf hl) hq
      rw [hstay _ hs] at hup
      exact .head (hfrom hs hup) (ih hs hl)
  | upWake hq _ ih =>
      have hup : Core.Step cfg _ _ := .upWake (.handler hs hf hl) hq
      rw [hstay _ hs] at hup
      exact .head (hfrom hs hup) (ih hs hl)
  | yieldOnReturn _ ih => exact ih hs hl

/-- A step of the kernel is a sequence of steps of its core. -/
theorem step_from (hlegal : k.Legal) (h : k.step cfg env = .ok k') :
    Relation.ReflTransGen (Core.StepFrom cfg k.core) k.core k'.core := by
  have hown : ∀ {c c'}, Relation.ReflTransGen (Core.Own cfg k.core) c c' →
      Relation.ReflTransGen (Core.StepFrom cfg k.core) c c' :=
    fun hsteps => Relation.reflTransGen_closed (fun _ _ => own_steps) _ _ hsteps
  have hstill : ∀ {c c'}, Relation.ReflTransGen Core.Still c c' →
      Relation.ReflTransGen (Core.StepFrom cfg k.core) c c' :=
    fun hsteps => Relation.ReflTransGen.mono (fun _ _ => still_step) _ _ hsteps
  cases step_moves hlegal h with
  | own hsteps => exact hown hsteps
  | @fired p now c₁ c₂ f rest hpre hs hf hl hhandled hpost =>
      have hemit : Core.Step cfg c₁ (c₁.emit (.fired p now)) := .remark trivial
      have hfired : Core.StepFrom cfg k.core _ _ :=
        ⟨hemit, .inr ⟨f, rest, hs, minor_of_firing hf⟩⟩
      have hacts : Relation.ReflTransGen (Core.StepFrom cfg k.core) (c₁.emit (.fired p now)) c₂ :=
        handled_steps hs hf hl hhandled
      exact (hstill hpre).trans (.head hfired (hacts.trans (hstill hpost)))

theorem step_steps (hlegal : k.Legal) (h : k.step cfg env = .ok k') :
    Relation.ReflTransGen (Core.Step cfg) k.core k'.core :=
  Relation.ReflTransGen.mono (fun _ _ hs => hs.1) _ _ (step_from hlegal h)

theorem core_start (main : φ) (client : γ) (values : ℕ → ℤ) (machine : Option Machine) :
    (start main client values machine).core = Core.start main client values := by
  have hqueue : (start main client values machine).queue = fun _ => [] := by
    funext q
    rcases q with _ | (n | l) | c
    all_goals rfl
  have hvalue : (fun s => ((start main client values machine).sem s).value) =
      (Core.start main client values : Core φ γ).value := by
    funext s
    cases s with
    | user n => rfl
    | lock l => rfl
  unfold core
  rw [hqueue, hvalue]
  unfold start
  dsimp only
  rw [field_update Thread.stack, field_update Thread.status, field_update Thread.phase,
    field_update Thread.priority, field_update Thread.threadId]
  have hphase : Function.update (fun _ : ℕ => (unborn : Thread φ).phase) 0 .unfinished =
      fun _ => .unfinished := Function.update_eq_self 0 (fun _ => Phase.unfinished)
  have hid : Function.update (fun _ : ℕ => (unborn : Thread φ).threadId) 0 0 = fun _ => 0 :=
    Function.update_eq_self 0 (fun _ => (0 : Fin maxThreadsCount))
  exact Core.ext rfl rfl rfl rfl rfl hphase rfl hid rfl rfl rfl rfl rfl rfl rfl rfl rfl

/-- What the steps of the core preserve holds of the core in every state that is reached. -/
theorem core_invariant {init : Kernel φ γ → Prop} {I : Core φ γ → Prop}
    (hinit : ∀ k, init k → I k.core) (hstep : ∀ c c', I c → Core.Step cfg c c' → I c')
    (h : (system cfg init).Reachable k) : I k.core := by
  refine h.invariant (I := fun k : Kernel φ γ => I k.core) hinit fun k _ _ k' hk hk' => ?_
  exact steps_invariant hstep (step_steps hk'.2.1 hk'.2.2) hk

theorem invariant_of_start {I : Core φ γ → Prop}
    (hstart : ∀ main client values, (∀ n, 0 ≤ values n) → I (Core.start main client values))
    (hstep : ∀ c c', I c → Core.Step cfg c c' → I c')
    (h : (system cfg Initial).Reachable k) : I k.core := by
  refine core_invariant (fun k hk => ?_) hstep h
  obtain ⟨main, client, values, machine, hvalues, rfl⟩ := hk
  rw [core_start]
  exact hstart main client values hvalues

end

end Kernel

end Nachos
