import Nachos.Verification.Kernel.Parts
import Nachos.Verification.Kernel.Stacks

/-! # The clock and the pending interrupts

The part of the kernel that concerns simulated time. Few of the functions of the kernel
touch it; the steps of `Clock` say what they do to it. -/

namespace Nachos

open Library

variable {φ γ ι : Type}

@[simp] def Event.scheduled? : Event φ → Option PendingInterrupt
  | .scheduled p => some p
  | _ => none

@[simp] def Event.fired? : Event φ → Option (PendingInterrupt × ℤ)
  | .fired p now => some (p, now)
  | _ => none

/-- `scheduled` and `fired` are all interrupts that have been scheduled and that have
occurred, in this order, the latter with the time at which they did. -/
@[ext]
structure Clock where
  pending : List (Keyed PendingInterrupt)
  nextPending : ℕ
  inHandler : Bool
  status : MachineStatus
  stats : Statistics
  scheduled : List PendingInterrupt
  fired : List (PendingInterrupt × ℤ)

def Kernel.clock (k : Kernel φ γ) : Clock where
  pending := k.interrupt.pending
  nextPending := k.nextPending
  inHandler := k.interrupt.inHandler
  status := k.interrupt.status
  stats := k.stats
  scheduled := k.log.filterMap Event.scheduled?
  fired := k.log.filterMap Event.fired?

namespace Clock

/-- `Schedule` -/
@[simps]
def schedule (c : Clock) (fromNow : ℤ) (type : IntType) : Clock :=
  { c with
    nextPending := c.nextPending + 1
    pending := Keyed.sortedInsert ⟨c.stats.totalTicks + fromNow,
      c.nextPending, c.stats.totalTicks + fromNow, type⟩ c.pending
    scheduled := c.scheduled ++ [⟨c.nextPending, c.stats.totalTicks + fromNow, type⟩] }

/-- The start of `OneTick`. -/
@[simps]
def tick (c : Clock) : Clock :=
  { c with
    stats := if c.status = .system then
        { c.stats with
          totalTicks := c.stats.totalTicks + SystemTick
          systemTicks := c.stats.systemTicks + SystemTick }
      else
        { c.stats with
          totalTicks := c.stats.totalTicks + UserTick
          userTicks := c.stats.userTicks + UserTick } }

/-- The first interrupt occurs. -/
@[simps]
def fire (c : Clock) (e : Keyed PendingInterrupt) (rest : List (Keyed PendingInterrupt)) : Clock :=
  { c with
    pending := rest
    inHandler := true
    status := .system
    stats := c.stats.skipTo e.key
    fired := c.fired ++ [(e.item, (c.stats.skipTo e.key).totalTicks)] }

/-- What can happen to the clock. An interrupt that is not due is put back if `Q` holds. -/
inductive Step (Q : Clock → Prop) (c : Clock) : Clock → Prop where
  | mode (st : MachineStatus) : Step Q c { c with status := st }
  | schedule {fromNow : ℤ} (type : IntType) (hpos : 0 < fromNow) :
      Step Q c (c.schedule fromNow type)
  | tick : Step Q c c.tick
  | fire {e rest} (hp : c.pending = e :: rest) : Step Q c (c.fire e rest)
  | fired (st : MachineStatus) : Step Q c { c with inHandler := false, status := st }
  | idle {e} (hp : c.pending = [e]) : Step Q c { c with stats := c.stats.skipTo e.key }
  | putBack {e rest} (hQ : Q c) (hp : c.pending = e :: rest) (hlate : c.stats.totalTicks < e.key) :
      Step Q c { c with pending := Keyed.sortedInsert e rest }

end Clock

namespace Kernel

/-! ## Functions that do not touch the clock -/

section

variable (k : Kernel φ γ)

theorem clock_emit {e : Event φ} (hs : e.scheduled? = none) (hf : e.fired? = none) :
    (k.emit e).clock = k.clock := by
  unfold emit clock
  simp only [List.filterMap_append, List.filterMap_cons, hs, hf, List.filterMap_nil,
    List.append_nil]

@[simp] theorem clock_push (frames : List (Frame φ)) : (k.push frames).clock = k.clock := rfl

theorem clock_apart : Apart (clock : Kernel φ γ → Clock) where
  emit k e he := by
    cases e with
    | scheduled | fired => cases he
    | _ => exact k.clock_emit rfl rfl
  modifyThread _ _ _ _ _ := rfl
  interrupt _ _ _ := rfl
  update _ _ _ _ _ _ := rfl

@[simp] theorem clock_changeLevel (now : IntStatus) : (k.changeLevel now).clock = k.clock := rfl

end

section

variable {k k' : Kernel φ γ} {build : Build} {schedPriority : Bool}

theorem clock_saveUser (h : k.saveUser = .ok k') : k'.clock = k.clock := by
  unfold saveUser at h
  split at h
  · rw [← Except.ok.inj h]
  · cases h
  · obtain ⟨m, -, h⟩ := bind_eq_ok.mp h
    rw [← Except.ok.inj h]
    rfl

theorem clock_run {next : ℕ} (h : k.run next = .ok k') : k'.clock = k.clock := by
  unfold run at h
  obtain ⟨k₁, hsave, h⟩ := bind_eq_ok.mp h
  rw [← Except.ok.inj h, ← clock_saveUser hsave]
  exact k₁.clock_emit (e := .run next k₁.level) rfl rfl

theorem clock_destroyFinished (h : k.destroyFinished = .ok k') : k'.clock = k.clock := by
  unfold destroyFinished at h
  split at h
  · rw [← Except.ok.inj h]
  · obtain ⟨k₁, hdelete, h⟩ := bind_eq_ok.mp h
    rw [← Except.ok.inj h]
    unfold delete at hdelete
    obtain ⟨u, -, hdelete⟩ := bind_eq_ok.mp hdelete
    dsimp only at hdelete
    split at hdelete
    · rw [← Except.ok.inj hdelete]
      rfl
    · cases hdelete
    · obtain ⟨m, -, hdelete⟩ := bind_eq_ok.mp hdelete
      rw [← Except.ok.inj hdelete]
      rfl

theorem clock_afterSwitch (h : k.afterSwitch build = .ok k') : k'.clock = k.clock := by
  unfold afterSwitch at h
  obtain ⟨k₁, hdestroy, h⟩ := bind_eq_ok.mp h
  rw [← clock_destroyFinished hdestroy]
  unfold restoreUser at h
  split at h
  · rw [← Except.ok.inj h]
  · cases h
  · rw [← Except.ok.inj h]
    rfl

theorem clock_yieldBody (h : k.yieldBody schedPriority = .ok k') : k'.clock = k.clock := by
  unfold yieldBody at h
  split at h
  · rename_i k₁ hfind
    rw [← Except.ok.inj h, clock_apart.findNextToRun hfind]
  · rename_i next k₁ hfind
    rw [clock_run h, clock_apart.readyToRun, clock_apart.findNextToRun hfind]

theorem clock_sleepLoop (h : k.sleepLoop schedPriority = .ok k') : k'.clock = k.clock := by
  unfold sleepLoop at h
  split at h
  · rename_i k₁ hfind
    rw [← Except.ok.inj h, clock_push, clock_apart.findNextToRun hfind]
  · rename_i next k₁ hfind
    rw [clock_run h, clock_apart.findNextToRun hfind]

theorem clock_newThread {pri uninit : ℤ} (h : k.newThread pri uninit = .ok k') :
    k'.clock = k.clock := by
  unfold newThread at h
  split at h
  · cases h
  · rw [← Except.ok.inj h]
    rfl

theorem clock_load {t : ℕ} {executable : List Byte} {uninit : NoffHeader}
    (h : k.load build t executable uninit = .ok k') : k'.clock = k.clock := by
  unfold load at h
  split at h
  · cases h
  · obtain ⟨⟨space, m⟩, -, h⟩ := bind_eq_ok.mp h
    rw [← Except.ok.inj h]
    rfl

theorem clock_restoreState {t : ℕ} (h : k.restoreState build t = .ok k') : k'.clock = k.clock := by
  unfold restoreState at h
  split at h
  · rw [← Except.ok.inj h]
    rfl
  · cases h

theorem clock_syscall (h : k.syscall build = .ok k') :
    ∃ st, k'.clock = { k.clock with status := st } := by
  unfold syscall at h
  split at h
  · cases h
  · obtain ⟨⟨control, m⟩, -, h⟩ := bind_eq_ok.mp h
    cases control with
    | resume => exact ⟨.user, by rw [← Except.ok.inj h]; rfl⟩
    | halt => exact ⟨.system, by rw [← Except.ok.inj h]; rfl⟩
    | finish => exact ⟨.system, by rw [← Except.ok.inj h]; rfl⟩

/-! ## Functions that do -/

variable {Q : Clock → Prop} {acts : List HandlerAct} {cfg : Config φ γ ι} {env : Env ι}

/-- A sequence of steps of the clock that does not start in a handler. It does not end in one
either. -/
structure Passes (Q : Clock → Prop) (k k' : Kernel φ γ) : Prop where
  steps : Relation.ReflTransGen (Clock.Step Q) k.clock k'.clock
  inHandler : k.interrupt.inHandler = false → k'.interrupt.inHandler = false

theorem Passes.of_eq (h : k'.clock = k.clock) : Passes Q k k' := by
  refine ⟨h ▸ .refl, fun hk => ?_⟩
  exact (congrArg Clock.inHandler h).trans hk

theorem Passes.single (h : Clock.Step Q k.clock k'.clock)
    (hh : k'.interrupt.inHandler = k.interrupt.inHandler) : Passes Q k k' :=
  ⟨.single h, fun hk => hh.trans hk⟩

theorem clock_schedule {fromNow : ℤ} {type : IntType} (h : k.schedule fromNow type = .ok k') :
    0 < fromNow ∧ k'.clock = k.clock.schedule fromNow type := by
  unfold schedule at h
  obtain ⟨when, hwhen, h⟩ := bind_eq_ok.mp h
  obtain ⟨u, hassert, h⟩ := bind_eq_ok.mp h
  refine ⟨of_assert hassert, ?_⟩
  rw [← Except.ok.inj h, add32_eq_ok hwhen]
  unfold clock
  simp only [List.filterMap_append, List.filterMap_cons, Event.scheduled?, Event.fired?,
    List.filterMap_nil, List.append_nil]
  rfl

/-- Handlers schedule interrupts and leave the rest of the clock alone. -/
theorem handlerAct_clock {act : HandlerAct} (h : k.handlerAct schedPriority act = .ok k') :
    Relation.ReflTransGen (Clock.Step Q) k.clock k'.clock ∧
      k'.interrupt.inHandler = k.interrupt.inHandler := by
  rcases clock_apart.handlerAct h with ⟨fromNow, type, h⟩ | hclock
  · obtain ⟨hpos, hclock⟩ := clock_schedule h
    refine ⟨?_, congrArg Clock.inHandler hclock⟩
    rw [hclock]
    exact .single (.schedule type hpos)
  · exact ⟨hclock ▸ .refl, congrArg Clock.inHandler hclock⟩

theorem handlerActs_clock (h : k.handlerActs schedPriority acts = .ok k') :
    Relation.ReflTransGen (Clock.Step Q) k.clock k'.clock := by
  induction acts generalizing k with
  | nil => rw [← Except.ok.inj h]
  | cons act acts ih =>
      unfold handlerActs at h
      obtain ⟨k₁, hact, h⟩ := bind_eq_ok.mp h
      exact (handlerAct_clock hact).1.trans (ih h)

theorem clock_finishLoad (h : k.finishLoad = .ok k') : k'.clock = k.clock := by
  unfold finishLoad at h
  split at h
  · rw [← Except.ok.inj h]
  · obtain ⟨m, -, h⟩ := bind_eq_ok.mp h
    rw [← Except.ok.inj h]
    rfl

/-- An interrupt that has been taken off the list occurs. -/
theorem fire_clock {e : Keyed PendingInterrupt} {rest : List (Keyed PendingInterrupt)}
    {k₀ : Kernel φ γ} (hp : k₀.clock.pending = e :: rest)
    (hk : k.clock = { k₀.clock with pending := rest, stats := k₀.clock.stats.skipTo e.key })
    (h : k.fire schedPriority acts e.item = .ok k') : Passes Q k₀ k' := by
  unfold fire at h
  obtain ⟨k₁, hload, h⟩ := bind_eq_ok.mp h
  obtain ⟨k₂, hacts, h⟩ := bind_eq_ok.mp h
  have hk₁ := (clock_finishLoad hload).trans hk
  have hfire : Clock.Step Q k₀.clock (k₀.clock.fire e rest) := .fire hp
  have hstart : k₀.clock.fire e rest = ({ k₁ with
      interrupt := { k₁.interrupt with inHandler := true, status := .system } }.emit
        (.fired e.item k₁.stats.totalTicks)).clock := by
    have hscheduled : k₁.log.filterMap Event.scheduled? = k₀.clock.scheduled :=
      congrArg Clock.scheduled hk₁
    have hfired : k₁.log.filterMap Event.fired? = k₀.clock.fired := congrArg Clock.fired hk₁
    have hstats : k₁.stats = k₀.clock.stats.skipTo e.key := congrArg Clock.stats hk₁
    refine Clock.ext (congrArg Clock.pending hk₁).symm (congrArg Clock.nextPending hk₁).symm rfl
      rfl hstats.symm ?_ ?_
    · simp [clock, emit, hscheduled]
    · simp [clock, emit, hfired, hstats]
  have hrest := handlerActs_clock (Q := Q) hacts
  rw [← hstart] at hrest
  rw [← Except.ok.inj h]
  refine ⟨.head hfire (hrest.tail (.fired k.interrupt.status)), fun _ => rfl⟩

theorem checkIfDue_clock {advanceClock fired : Bool}
    (h : k.checkIfDue schedPriority advanceClock acts = .ok (fired, k'))
    (hQ : advanceClock = false → Q k.clock) : Passes Q k k' := by
  unfold checkIfDue at h
  obtain ⟨u, -, h⟩ := bind_eq_ok.mp h
  have hemit := k.clock_emit (e := .checkIfDue k.level) rfl rfl
  split at h
  · rw [← (Prod.mk.inj (Except.ok.inj h)).2]
    exact .of_eq hemit
  · rename_i e rest hpending
    have hp : k.clock.pending = e :: rest := hpending
    split at h
    · rename_i hlate
      rw [← (Prod.mk.inj (Except.ok.inj h)).2]
      have hback : ((k.emit (.checkIfDue k.level)).setPending (Keyed.sortedInsert e rest)).clock =
          { k.clock with pending := Keyed.sortedInsert e rest } := by
        rw [← hemit]
        rfl
      refine .single ?_ rfl
      rw [hback]
      exact .putBack (hQ hlate.1) hp hlate.2
    · dsimp only at h
      have htaken : (((k.emit (.checkIfDue k.level)).setPending rest).skipTo e.key).clock =
          { k.clock with pending := rest, stats := k.clock.stats.skipTo e.key } := by
        rw [← hemit]
        rfl
      split at h
      · rename_i htimer
        rw [← (Prod.mk.inj (Except.ok.inj h)).2]
        obtain ⟨-, -, rfl⟩ := htimer
        have hscheduled := congrArg Clock.scheduled hemit
        have hfired := congrArg Clock.fired hemit
        have hback : ((((k.emit (.checkIfDue k.level)).setPending []).skipTo e.key).setPending
            (Keyed.sortedInsert e [])).clock =
              { k.clock with stats := k.clock.stats.skipTo e.key } :=
          Clock.ext hp.symm rfl rfl rfl rfl hscheduled hfired
        refine .single ?_ rfl
        rw [hback]
        exact .idle hp
      · obtain ⟨k₁, hfire, h⟩ := bind_eq_ok.mp h
        rw [← (Prod.mk.inj (Except.ok.inj h)).2]
        exact fire_clock hp htaken hfire

theorem Passes.trans {k₁ k₂ k₃ : Kernel φ γ} (h : Passes Q k₁ k₂) (h' : Passes Q k₂ k₃) :
    Passes Q k₁ k₃ :=
  ⟨h.steps.trans h'.steps, fun hk => h'.inHandler (h.inHandler hk)⟩

theorem fireLoop_clock (h : k.fireLoop schedPriority acts = .ok k') (hQ : Q k.clock) :
    Passes Q k k' := by
  unfold fireLoop at h
  obtain ⟨⟨fired, k₁⟩, hcheck, h⟩ := bind_eq_ok.mp h
  refine (checkIfDue_clock hcheck fun _ => hQ).trans (.of_eq ?_)
  dsimp only at h
  split at h
  · rw [← Except.ok.inj h, clock_push]
  · rw [← Except.ok.inj h]

theorem idle_clock (h : k.idle schedPriority acts = .ok k') : Passes Q k k' := by
  unfold idle at h
  obtain ⟨⟨fired, k₁⟩, hcheck, h⟩ := bind_eq_ok.mp h
  have hmode : Passes Q k (k.changeStatus .idle) := .single (.mode .idle) rfl
  refine (hmode.trans (checkIfDue_clock hcheck (by simp))).trans (.of_eq ?_)
  dsimp only at h
  split at h
  · rw [← Except.ok.inj h, clock_push]
  · rw [← Except.ok.inj h]
    rfl

theorem idleLoop_clock (h : k.idleLoop schedPriority acts = .ok k') (hQ : Q k.clock) :
    Passes Q k k' := by
  unfold idleLoop at h
  obtain ⟨⟨fired, k₁⟩, hcheck, h⟩ := bind_eq_ok.mp h
  refine (checkIfDue_clock hcheck fun _ => hQ).trans ?_
  dsimp only at h
  split at h
  · rw [← Except.ok.inj h]
    exact .of_eq rfl
  · rw [← Except.ok.inj h]
    exact .single (.mode .system) rfl

theorem clock_advance (h : k.advance = .ok k') : k'.clock = k.clock.tick := by
  unfold advance at h
  split at h
  · rename_i hsystem
    obtain ⟨totalTicks, htotal, h⟩ := bind_eq_ok.mp h
    obtain ⟨systemTicks, hsys, h⟩ := bind_eq_ok.mp h
    rw [← Except.ok.inj h, add32_eq_ok htotal, add32_eq_ok hsys]
    exact Clock.ext rfl rfl rfl rfl (if_pos hsystem).symm rfl rfl
  · rename_i hsystem
    obtain ⟨totalTicks, htotal, h⟩ := bind_eq_ok.mp h
    obtain ⟨userTicks, huser, h⟩ := bind_eq_ok.mp h
    rw [← Except.ok.inj h, add32_eq_ok htotal, add32_eq_ok huser]
    exact Clock.ext rfl rfl rfl rfl (if_neg hsystem).symm rfl rfl

theorem oneTickEnd_clock (old : MachineStatus) : Passes Q k (k.oneTickEnd old) := by
  unfold oneTickEnd
  dsimp only
  split
  · exact .single (.mode .system) rfl
  · exact .of_eq rfl

theorem execCmd_clock {x : Cmd φ} (h : k.execCmd cfg env x = .ok k') : Passes Q k k' := by
  cases x with
  | call | run | setLevel | oneTick => exact .of_eq (clock_apart.execCmd h trivial)
  | finish =>
      rw [← Except.ok.inj h]
      exact .of_eq rfl
  | newThread pri uninit => exact .of_eq (clock_newThread h)
  | setStatus st =>
      rw [← Except.ok.inj h]
      exact .single (.mode st) rfl
  | schedule fromNow type =>
      obtain ⟨hpos, hclock⟩ := clock_schedule h
      refine .single (hclock ▸ .schedule type hpos) ?_
      exact congrArg Clock.inHandler hclock
  | load t executable uninit => exact .of_eq (clock_load h)
  | restoreState t => exact .of_eq (clock_restoreState h)
  | syscall =>
      obtain ⟨st, hclock⟩ := clock_syscall h
      refine .single (hclock ▸ .mode st) ?_
      exact congrArg Clock.inHandler hclock

/-- What a frame does to the clock. -/
theorem exec_clock {f : Frame φ} (h : k.exec cfg env f = .ok k')
    (hQ : f = .fireLoop ∨ f = .idleLoop → Q k.clock) : Passes Q k k' := by
  cases f with
  | cmd x => exact execCmd_clock h
  | call | pLoop | vBody | setOwner | clearOwner | assertOwner | enqueue | signalBody
  | broadcastBody | startThread | sleep | setLevel | ret =>
      exact .of_eq (clock_apart.exec h trivial)
  | yieldBody => exact .of_eq (clock_yieldBody h)
  | sleepLoop => exact .of_eq (clock_sleepLoop h)
  | afterSwitch => exact .of_eq (clock_afterSwitch h)
  | oneTick =>
      obtain ⟨k₁, hadvance, h⟩ := bind_eq_ok.mp h
      have hclock : k'.clock = k.clock.tick := by
        rw [← Except.ok.inj h, clock_push, clock_changeLevel, clock_advance hadvance]
      exact .single (hclock ▸ .tick) (congrArg Clock.inHandler hclock)
  | fireLoop => exact fireLoop_clock h (hQ (.inl rfl))
  | oneTickEnd old =>
      rw [← Except.ok.inj h]
      exact oneTickEnd_clock old
  | setStatus st =>
      rw [← Except.ok.inj h]
      exact .single (.mode st) rfl
  | idle => exact idle_clock h
  | idleLoop => exact idleLoop_clock h (hQ (.inr rfl))

/-- The innermost frame is a loop that calls `CheckIfDue(FALSE)`. -/
def Checking (k : Kernel φ γ) : Prop :=
  ∃ f rest, k.current.stack = f :: rest ∧ (f = .fireLoop ∨ f = .idleLoop)

/-- A step of the kernel is a sequence of steps of its clock. -/
theorem step_clock (h : k.step cfg env = .ok k') (hQ : k.Checking → Q k.clock) : Passes Q k k' := by
  unfold step at h
  split at h
  · cases h
  · rename_i f rest hstack
    have hexec := exec_clock h (Q := Q) fun hf => hQ ⟨f, rest, hstack, hf⟩
    exact ⟨hexec.steps, hexec.inHandler⟩

end

end Kernel

end Nachos
