import Nachos.Library.Transition
import Nachos.Model.Thread

/-! # The kernel

Threads, the scheduler, interrupts, semaphores, locks and conditions, as in `thread.cc`,
`scheduler.cc`, `interrupt.cc` and `synch.cc`. One step executes the innermost frame of the
current thread. -/

namespace Nachos

open Library

/-- The code of the threads. It sees and changes its own state only; everything else it does
by commands. `ι` is what it may depend on besides. -/
structure Program (φ γ ι : Type) where
  step : φ → ι → γ → ℕ → Exec (γ × List (Cmd φ))
  isPublic : ∀ f i g t g' cmds, step f i g t = .ok (g', cmds) → ∀ c ∈ cmds, c.Public

/-- The build, with or without `SCHED_PRIORITY`, and the program. -/
structure Config (φ γ ι : Type) where
  build : Build
  schedPriority : Bool
  program : Program φ γ ι

/-- What interrupt handlers do. -/
inductive HandlerAct where
  | schedule (fromNow : ℤ) (type : IntType)
  | v (n : ℕ)
  | yieldOnReturn
  deriving DecidableEq, Repr

/-- What a step may depend on besides the state. -/
structure Env (ι : Type) where
  choice : ι
  handler : List HandlerAct

namespace Kernel

variable {φ γ ι : Type}

def current (k : Kernel φ γ) : Thread φ := k.thread k.currentThread

def level (k : Kernel φ γ) : IntStatus := k.interrupt.level

def emit (k : Kernel φ γ) (e : Event φ) : Kernel φ γ := { k with log := k.log ++ [e] }

def modifyThread (k : Kernel φ γ) (t : ℕ) (f : Thread φ → Thread φ) : Kernel φ γ :=
  { k with thread := Function.update k.thread t (f (k.thread t)) }

def setStack (k : Kernel φ γ) (stack : List (Frame φ)) : Kernel φ γ :=
  k.modifyThread k.currentThread fun th => { th with stack := stack }

def push (k : Kernel φ γ) (frames : List (Frame φ)) : Kernel φ γ :=
  k.setStack (frames ++ k.current.stack)

def setSem (k : Kernel φ γ) (s : SemId) (x : Semaphore) : Kernel φ γ :=
  { k with sem := Function.update k.sem s x }

def changeLevel (k : Kernel φ γ) (now : IntStatus) : Kernel φ γ :=
  { k with interrupt := { k.interrupt with level := now } }

def changeStatus (k : Kernel φ γ) (st : MachineStatus) : Kernel φ γ :=
  { k with interrupt := { k.interrupt with status := st } }

/-! ## The scheduler -/

def readyToRun (schedPriority : Bool) (t : ℕ) (k : Kernel φ γ) : Kernel φ γ :=
  { k.modifyThread t (fun th => { th with status := .ready }) with
    readyList := if schedPriority then Keyed.sortedInsert ⟨(k.thread t).priority, t⟩ k.readyList
      else k.readyList ++ [⟨0, t⟩]
    log := k.log ++ [.readyToRun t k.level] }

/-- The thread to run next, which leaves the ready list. With `SCHED_PRIORITY` and if the
current thread could go on, the first thread may also be put back. -/
def findNextToRun (schedPriority bySleep : Bool) (k : Kernel φ γ) : Option ℕ × Kernel φ γ :=
  let k := k.emit (.findNextToRun k.level)
  match k.readyList with
  | [] => (none, k)
  | e :: rest =>
      if bySleep || !schedPriority then (some e.item, { k with readyList := rest })
      else if (k.thread e.item).priority < k.current.priority then
        (some e.item, { k with readyList := rest })
      else (none, { k with
        readyList := Keyed.sortedInsert ⟨(k.thread e.item).priority, e.item⟩ rest })

/-- `SaveUserState` and `SaveState`, if the current thread runs a user program. -/
def saveUser (k : Kernel φ γ) : Exec (Kernel φ γ) :=
  match k.current.space, k.machine with
  | none, _ => .ok k
  | some _, none => .error .bounds
  | some _, some m => do
      let k := k.modifyThread k.currentThread fun th => { th with userRegisters := m.registers }
      return { k with machine := some (← AddrSpace.saveState m) }

/-- `Scheduler::Run` up to `SWITCH`. `CheckOverflow`, which looks at the fence post on the host's
stack, is left out: its `ASSERT` is none of the model's. -/
def run (next : ℕ) (k : Kernel φ γ) : Exec (Kernel φ γ) := do
  let k ← k.saveUser
  let k := (k.emit (.run next k.level)).push [.afterSwitch]
  return { k with currentThread := next }.modifyThread next fun th => { th with status := .running }

/-- `Thread::~Thread` -/
def delete (t : ℕ) (k : Kernel φ γ) : Exec (Kernel φ γ) := do
  let k := { k with threadIds := Function.update k.threadIds (k.thread t).threadId false }
  assert (t ≠ k.currentThread)
  let k := k.modifyThread t fun th => { th with phase := .deleted }
  match (k.thread t).space, k.machine with
  | none, _ => return k
  | some _, none => .error .bounds
  | some space, some m => return { k with machine := some (← space.destroy m) }

def destroyFinished (k : Kernel φ γ) : Exec (Kernel φ γ) :=
  match k.threadToBeDestroyed with
  | none => .ok k
  | some t => do return { ← k.delete t with threadToBeDestroyed := none }

/-- `RestoreUserState` and `RestoreState`, if the current thread runs a user program. -/
def restoreUser (build : Build) (k : Kernel φ γ) : Exec (Kernel φ γ) :=
  match k.current.space, k.machine with
  | none, _ => .ok k
  | some _, none => .error .bounds
  | some space, some m => .ok { k with
      machine := some (space.restoreState build { m with registers := k.current.userRegisters }) }

/-- `Scheduler::Run` from `SWITCH` on. -/
def afterSwitch (build : Build) (k : Kernel φ γ) : Exec (Kernel φ γ) := do
  (← k.destroyFinished).restoreUser build

/-! ## Semaphores, locks and conditions -/

/-- `V` without the changes of the level. -/
def vBody (schedPriority : Bool) (s : SemId) (k : Kernel φ γ) : Exec (Kernel φ γ) := do
  let k := match (k.sem s).queue with
    | [] => k
    | t :: rest => (k.setSem s { k.sem s with queue := rest }).readyToRun schedPriority t
  let value ← add32 (k.sem s).value 1
  return (k.setSem s { k.sem s with value := value }).emit (.up s)

/-- One turn of the loop of `P`. -/
def pLoop (s : SemId) (k : Kernel φ γ) : Exec (Kernel φ γ) :=
  if (k.sem s).value = 0 then
    .ok ((k.setSem s { k.sem s with queue := (k.sem s).queue ++ [k.currentThread] }).push
      [.sleep, .pLoop s true])
  else do
    let value ← add32 (k.sem s).value (-1)
    return (k.setSem s { k.sem s with value := value }).emit (.down s)

def assertOwner (l : ℕ) (k : Kernel φ γ) : Exec (Kernel φ γ) := do
  assert (k.owner l = some k.currentThread)
  return k

def enqueue (c : ℕ) (k : Kernel φ γ) : Kernel φ γ :=
  { k with cond := Function.update k.cond c (k.cond c ++ [k.currentThread]) }.emit
    (.joined c k.currentThread)

def signalBody (schedPriority : Bool) (c : ℕ) (k : Kernel φ γ) : Kernel φ γ :=
  match k.cond c with
  | [] => k
  | t :: rest =>
      ({ k with cond := Function.update k.cond c rest }.emit (.selected c t)).readyToRun
        schedPriority t

/-- The loop of `Broadcast`; the list has one item for each turn. In it, `Signal` is called
with interrupts turned off. -/
def broadcastLoop (schedPriority : Bool) (c l : ℕ) : List ℕ → Kernel φ γ → Exec (Kernel φ γ)
  | [], k => .ok k
  | _ :: waiting, k => do
      assert (k.owner l = some k.currentThread)
      broadcastLoop schedPriority c l waiting (k.signalBody schedPriority c)

/-! ## Interrupts -/

def schedule (fromNow : ℤ) (type : IntType) (k : Kernel φ γ) : Exec (Kernel φ γ) := do
  let when ← add32 k.stats.totalTicks fromNow
  let toOccur : PendingInterrupt := ⟨k.nextPending, when, type⟩
  assert (fromNow > 0)
  return { k with
    nextPending := k.nextPending + 1
    interrupt := { k.interrupt with
      pending := Keyed.sortedInsert ⟨when, toOccur⟩ k.interrupt.pending }
    log := k.log ++ [.scheduled toOccur] }

/-- `V` calls `SetLevel` twice; as handlers must not turn interrupts on, the second call is
to leave them off. -/
def handlerAct (schedPriority : Bool) (k : Kernel φ γ) : HandlerAct → Exec (Kernel φ γ)
  | .schedule fromNow type => k.schedule fromNow type
  | .v n => do
      let old := k.level
      let k ← (k.changeLevel .off).vBody schedPriority (.user n)
      assert (old = .off ∨ k.interrupt.inHandler = false)
      return k.changeLevel old
  | .yieldOnReturn => do
      assert (k.interrupt.inHandler = true)
      return { k with interrupt := { k.interrupt with yieldOnReturn := true } }

def handlerActs (schedPriority : Bool) : List HandlerAct → Kernel φ γ → Exec (Kernel φ γ)
  | [], k => .ok k
  | act :: acts, k => do handlerActs schedPriority acts (← k.handlerAct schedPriority act)

/-- `DelayedLoad(0, 0)`, if there is a machine. -/
def finishLoad (k : Kernel φ γ) : Exec (Kernel φ γ) :=
  match k.machine with
  | none => .ok k
  | some m => do return { k with machine := some (← m.delayedLoad 0 0) }

/-- The end of `CheckIfDue`, once it is known that the interrupt occurs. -/
def fire (schedPriority : Bool) (acts : List HandlerAct) (toOccur : PendingInterrupt)
    (k : Kernel φ γ) : Exec (Kernel φ γ) := do
  let old := k.interrupt.status
  let k ← k.finishLoad
  let k := { k with
    interrupt := { k.interrupt with inHandler := true, status := .system } }.emit
      (.fired toOccur k.stats.totalTicks)
  let k ← k.handlerActs schedPriority acts
  return { k with interrupt := { k.interrupt with inHandler := false, status := old } }

def setPending (k : Kernel φ γ) (pending : List (Keyed PendingInterrupt)) : Kernel φ γ :=
  { k with interrupt := { k.interrupt with pending := pending } }

def skipTo (k : Kernel φ γ) (when : ℤ) : Kernel φ γ := { k with stats := k.stats.skipTo when }

def checkIfDue (schedPriority advanceClock : Bool) (acts : List HandlerAct) (k : Kernel φ γ) :
    Exec (Bool × Kernel φ γ) := do
  let k := k.emit (.checkIfDue k.level)
  assert (k.level = .off)
  match k.interrupt.pending with
  | [] => return (false, k)
  | e :: rest =>
      if advanceClock = false ∧ e.key > k.stats.totalTicks then
        return (false, k.setPending (Keyed.sortedInsert e rest))
      else
        let k := (k.setPending rest).skipTo e.key
        if k.interrupt.status = .idle ∧ e.item.type = .timer ∧ rest = [] then
          return (false, k.setPending (Keyed.sortedInsert e rest))
        else return (true, ← k.fire schedPriority acts e.item)

/-- The start of `OneTick`. -/
def advance (k : Kernel φ γ) : Exec (Kernel φ γ) := do
  if k.interrupt.status = .system then
    let totalTicks ← add32 k.stats.totalTicks SystemTick
    let systemTicks ← add32 k.stats.systemTicks SystemTick
    return { k with stats := { k.stats with totalTicks := totalTicks, systemTicks := systemTicks } }
  else
    let totalTicks ← add32 k.stats.totalTicks UserTick
    let userTicks ← add32 k.stats.userTicks UserTick
    return { k with stats := { k.stats with totalTicks := totalTicks, userTicks := userTicks } }

def oneTick (k : Kernel φ γ) : Exec (Kernel φ γ) := do
  let old := k.interrupt.status
  return ((← k.advance).changeLevel .off).push [.fireLoop, .oneTickEnd old]

/-- One turn of the loop of `OneTick`. -/
def fireLoop (schedPriority : Bool) (acts : List HandlerAct) (k : Kernel φ γ) :
    Exec (Kernel φ γ) := do
  let (fired, k) ← k.checkIfDue schedPriority false acts
  if fired then return k.push [.fireLoop] else return k

def oneTickEnd (old : MachineStatus) (k : Kernel φ γ) : Kernel φ γ :=
  let k := k.changeLevel .on
  if k.interrupt.yieldOnReturn then
    { k with interrupt := { k.interrupt with yieldOnReturn := false, status := .system } }.push
      [.call .yield, .setStatus old]
  else k

/-- `Idle`; if there is nothing to wait for, it calls `Halt`, which does not return. -/
def idle (schedPriority : Bool) (acts : List HandlerAct) (k : Kernel φ γ) :
    Exec (Kernel φ γ) := do
  let (fired, k) ← (k.changeStatus .idle).checkIfDue schedPriority true acts
  if fired then return k.push [.idleLoop] else return { k.push [.idle] with halted := true }

/-- One turn of the loop of `Idle`. -/
def idleLoop (schedPriority : Bool) (acts : List HandlerAct) (k : Kernel φ γ) :
    Exec (Kernel φ γ) := do
  let (fired, k) ← k.checkIfDue schedPriority false acts
  if fired then return k.push [.idleLoop]
  else return { k with interrupt := { k.interrupt with yieldOnReturn := false, status := .system } }

/-- `SetLevel` -/
def setLevel (now : IntStatus) (k : Kernel φ γ) : Exec (Kernel φ γ) := do
  assert (now = .off ∨ k.interrupt.inHandler = false)
  if now = .on ∧ k.level = .off then return (k.changeLevel now).push [.oneTick]
  else return k.changeLevel now

/-! ## Threads -/

/-- The start of a call: interrupts are turned off and the old level is kept for the end. -/
def enter (c : Call φ) (k : Kernel φ γ) : Kernel φ γ :=
  ((k.changeLevel .off).emit (.called k.currentThread c k.level)).push
    (c.body ++ [.setLevel k.level, .ret c k.level])

/-- `ThreadRoot` turns interrupts on, calls the procedure and then `Finish`. -/
def root (f : φ) : List (Frame φ) := [.cmd (.setLevel .on), .cmd (.run f), .cmd .finish]

def allocatedThreadID (k : Kernel φ γ) : Option (Fin maxThreadsCount) :=
  (List.finRange maxThreadsCount).find? fun i => !k.threadIds i

/-- A priority outside of 0 to 10 is not stored at all. -/
def newThread (pri uninit : ℤ) (k : Kernel φ γ) : Exec (Kernel φ γ) :=
  match k.allocatedThreadID with
  | none => .error .assertion
  | some threadId => .ok { k with
      threadIds := Function.update k.threadIds threadId true
      created := k.created + 1
      thread := Function.update k.thread k.created
        { status := .justCreated
          priority := if pri < 0 ∨ pri > 10 then uninit else pri
          threadId := threadId
          stack := []
          space := none
          userRegisters := fun _ => 0
          phase := .unfinished } }

/-- `Fork` without the changes of the level. -/
def startThread (schedPriority : Bool) (t : ℕ) (f : φ) (k : Kernel φ γ) : Kernel φ γ :=
  (k.modifyThread t fun th => { th with stack := root f }).readyToRun schedPriority t

/-- `Yield` without the changes of the level. -/
def yieldBody (schedPriority : Bool) (k : Kernel φ γ) : Exec (Kernel φ γ) :=
  match k.findNextToRun schedPriority false with
  | (none, k) => .ok k
  | (some next, k) => (k.readyToRun schedPriority k.currentThread).run next

def sleep (k : Kernel φ γ) : Exec (Kernel φ γ) := do
  assert (k.level = .off)
  return (k.modifyThread k.currentThread fun th => { th with status := .blocked }).push
    [.sleepLoop]

/-- One turn of the loop of `Sleep`. -/
def sleepLoop (schedPriority : Bool) (k : Kernel φ γ) : Exec (Kernel φ γ) :=
  match k.findNextToRun schedPriority true with
  | (none, k) => .ok (k.push [.idle, .sleepLoop])
  | (some next, k) => k.run next

def finish (k : Kernel φ γ) : Kernel φ γ :=
  (({ k.changeLevel .off with threadToBeDestroyed := some k.currentThread }).modifyThread
    k.currentThread fun th => { th with phase := .finished }).setStack [.sleep]

/-- `t->space = new AddrSpace(executable)` -/
def load (build : Build) (t : ℕ) (executable : List Byte) (uninit : NoffHeader)
    (k : Kernel φ γ) : Exec (Kernel φ γ) :=
  match k.machine with
  | none => .error .bounds
  | some m => do
      let (space, m) ← AddrSpace.new build m executable uninit
      return { k.modifyThread t (fun th => { th with space := some space }) with
        machine := some m }

/-- `t->space->InitRegisters()` and `t->space->RestoreState()` -/
def restoreState (build : Build) (t : ℕ) (k : Kernel φ γ) : Exec (Kernel φ γ) :=
  match (k.thread t).space, k.machine with
  | some space, some m =>
      .ok { k with machine := some (space.restoreState build (space.initRegisters m)) }
  | _, _ => .error .bounds

/-- The `syscall` instruction of a user program. -/
def syscall (build : Build) (k : Kernel φ γ) : Exec (Kernel φ γ) :=
  match k.machine with
  | none => .error .bounds
  | some m => do
      let (control, m) ← m.raiseException build .syscallException 0
      let k := { k.changeStatus .system with machine := some m }
      match control with
      | .resume => return k.changeStatus .user
      | .halt => return { k with halted := true }
      | .finish => return k.push [.cmd .finish]

def execCmd (cfg : Config φ γ ι) (env : Env ι) (k : Kernel φ γ) : Cmd φ → Exec (Kernel φ γ)
  | .call c => .ok (k.enter c)
  | .run f => do
      let (client, cmds) ← cfg.program.step f env.choice k.client k.currentThread
      return { k with client := client }.push (cmds.map .cmd)
  | .finish => .ok k.finish
  | .newThread pri uninit => k.newThread pri uninit
  | .setLevel now => k.setLevel now
  | .setStatus st => .ok (k.changeStatus st)
  | .oneTick => .ok (k.push [.oneTick])
  | .schedule fromNow type => k.schedule fromNow type
  | .load t executable uninit => k.load cfg.build t executable uninit
  | .restoreState t => k.restoreState cfg.build t
  | .syscall => k.syscall cfg.build

/-! ## Steps -/

/-- Execute a frame that has been taken off the stack. -/
def exec (cfg : Config φ γ ι) (env : Env ι) (k : Kernel φ γ) : Frame φ → Exec (Kernel φ γ)
  | .cmd c => k.execCmd cfg env c
  | .call c => .ok (k.enter c)
  | .pLoop s _ => k.pLoop s
  | .vBody s => k.vBody cfg.schedPriority s
  | .setOwner l => .ok { k with owner := Function.update k.owner l (some k.currentThread) }
  | .assertOwner l => k.assertOwner l
  | .clearOwner l => .ok { k with owner := Function.update k.owner l none }
  | .enqueue c => .ok (k.enqueue c)
  | .signalBody c => .ok (k.signalBody cfg.schedPriority c)
  | .broadcastBody c l => k.broadcastLoop cfg.schedPriority c l (k.cond c)
  | .startThread t f => .ok (k.startThread cfg.schedPriority t f)
  | .yieldBody => k.yieldBody cfg.schedPriority
  | .sleep => k.sleep
  | .sleepLoop => k.sleepLoop cfg.schedPriority
  | .afterSwitch => k.afterSwitch cfg.build
  | .setLevel now => k.setLevel now
  | .ret c _ => .ok (k.emit (.returned k.currentThread c k.level))
  | .oneTick => k.oneTick
  | .fireLoop => k.fireLoop cfg.schedPriority env.handler
  | .oneTickEnd old => .ok (k.oneTickEnd old)
  | .setStatus st => .ok (k.changeStatus st)
  | .idle => k.idle cfg.schedPriority env.handler
  | .idleLoop => k.idleLoop cfg.schedPriority env.handler

def step (cfg : Config φ γ ι) (env : Env ι) (k : Kernel φ γ) : Exec (Kernel φ γ) :=
  match k.current.stack with
  | [] => .error .bounds
  | f :: rest => (k.setStack rest).exec cfg env f

/-- A thread is forked only once. -/
def Legal (k : Kernel φ γ) : Prop :=
  ∀ t f rest, k.current.stack = .startThread t f :: rest →
    t < k.created ∧ (k.thread t).status = .justCreated

/-- A thread that has not been created. -/
def unborn : Thread φ where
  status := .justCreated
  priority := 0
  threadId := 0
  stack := []
  space := none
  userRegisters := fun _ => 0
  phase := .unfinished

/-- The end of `Initialize`: the main thread is about to turn interrupts on. The semaphores
have the given initial values. -/
def start (main : φ) (client : γ) (values : ℕ → ℤ) (machine : Option Machine) : Kernel φ γ where
  thread := Function.update (fun _ => unborn) 0
    { (unborn : Thread φ) with status := .running, priority := 6, stack := root main }
  created := 1
  currentThread := 0
  threadToBeDestroyed := none
  threadIds i := decide (i = 0)
  readyList := []
  interrupt :=
    { level := .off, pending := [], inHandler := false, yieldOnReturn := false, status := .system }
  nextPending := 0
  stats := ⟨0, 0, 0, 0⟩
  sem
    | .user n => ⟨values n, []⟩
    | .lock _ => ⟨1, []⟩
  owner _ := none
  cond _ := []
  machine := machine
  halted := false
  client := client
  log := []

/-- The state at the end of `Initialize`, in which no semaphore is negative. -/
def Initial (k : Kernel φ γ) : Prop :=
  ∃ main client values machine, (∀ n, 0 ≤ values n) ∧ k = start main client values machine

/-- All runs of a program from the given start. -/
def system (cfg : Config φ γ ι) (init : Kernel φ γ → Prop) : System (Kernel φ γ) (Env ι) Unit where
  init := init
  step k env _ k' := k.halted = false ∧ k.Legal ∧ k.step cfg env = .ok k'

end Kernel

end Nachos
