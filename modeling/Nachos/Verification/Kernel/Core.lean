import Nachos.Library.Placement
import Nachos.Model.Kernel

/-! # Threads and queues

The part of the kernel that concerns threads: their stacks, the queues that they are on, and
the values and owners that they compete for. Its steps say in full what a step of the kernel
can do to this part; the machine, the clock and the pending interrupts are left out. -/

namespace Nachos

open Library

/-- The queues that a thread can be on. -/
inductive Place where
  | ready
  | sem (s : SemId)
  | cond (c : ℕ)
  deriving DecidableEq, Repr

@[ext]
structure Core (φ γ : Type) where
  current : ℕ
  level : IntStatus
  mode : MachineStatus
  stack : ℕ → List (Frame φ)
  status : ℕ → ThreadStatus
  phase : ℕ → Phase
  priority : ℕ → ℤ
  threadId : ℕ → Fin maxThreadsCount
  threadIds : Fin maxThreadsCount → Bool
  created : ℕ
  toBeDestroyed : Option ℕ
  ready : List (Keyed ℕ)
  queue : Place → List ℕ
  value : SemId → ℤ
  owner : ℕ → Option ℕ
  client : γ
  log : List (Event φ)

/-- The queues of a kernel. -/
def Kernel.queue {φ γ : Type} (k : Kernel φ γ) : Place → List ℕ
  | .ready => k.readyList.map Keyed.item
  | .sem s => (k.sem s).queue
  | .cond c => k.cond c

def Kernel.core {φ γ : Type} (k : Kernel φ γ) : Core φ γ where
  current := k.currentThread
  level := k.level
  mode := k.interrupt.status
  stack t := (k.thread t).stack
  status t := (k.thread t).status
  phase t := (k.thread t).phase
  priority t := (k.thread t).priority
  threadId t := (k.thread t).threadId
  threadIds := k.threadIds
  created := k.created
  toBeDestroyed := k.threadToBeDestroyed
  ready := k.readyList
  queue := k.queue
  value s := (k.sem s).value
  owner := k.owner
  client := k.client
  log := k.log

@[simp] def Event.timing? {φ : Type} : Event φ → Option (PendingInterrupt × Bool)
  | .scheduled p => some (p, false)
  | .fired p _ => some (p, true)
  | _ => none

namespace Core

variable {φ γ ι : Type}

@[simps -fullyApplied]
def emit (c : Core φ γ) (e : Event φ) : Core φ γ := { c with log := c.log ++ [e] }

/-- The current thread goes on with another stack. -/
@[simps -fullyApplied]
def goto (c : Core φ γ) (stack : List (Frame φ)) : Core φ γ :=
  { c with stack := Function.update c.stack c.current stack }

@[simps -fullyApplied]
def setStack (c : Core φ γ) (t : ℕ) (stack : List (Frame φ)) : Core φ γ :=
  { c with stack := Function.update c.stack t stack }

@[simps -fullyApplied]
def setQueue (c : Core φ γ) (q : Place) (l : List ℕ) : Core φ γ :=
  { c with queue := Function.update c.queue q l }

@[simps -fullyApplied]
def setReady (c : Core φ γ) (l : List (Keyed ℕ)) : Core φ γ :=
  { c with
    ready := l
    queue := Function.update c.queue .ready (l.map Keyed.item) }

@[simps -fullyApplied]
def setStatus (c : Core φ γ) (t : ℕ) (st : ThreadStatus) : Core φ γ :=
  { c with status := Function.update c.status t st }

@[simps -fullyApplied]
def setValue (c : Core φ γ) (s : SemId) (v : ℤ) : Core φ γ :=
  { c with value := Function.update c.value s v }

@[simps -fullyApplied]
def setLevel (c : Core φ γ) (level : IntStatus) : Core φ γ := { c with level := level }

@[simps -fullyApplied]
def setMode (c : Core φ γ) (mode : MachineStatus) : Core φ γ := { c with mode := mode }

@[simps -fullyApplied]
def setOwner (c : Core φ γ) (l : ℕ) (t : Option ℕ) : Core φ γ :=
  { c with owner := Function.update c.owner l t }

@[simps -fullyApplied]
def setClient (c : Core φ γ) (client : γ) : Core φ γ := { c with client := client }

/-- The ready list with `t` on it. -/
def joinReady (c : Core φ γ) (schedPriority : Bool) (t : ℕ) : List (Keyed ℕ) :=
  if schedPriority then Keyed.sortedInsert ⟨c.priority t, t⟩ c.ready else c.ready ++ [⟨0, t⟩]

@[simps -fullyApplied]
def makeReady (c : Core φ γ) (schedPriority : Bool) (t : ℕ) : Core φ γ :=
  { c with
    status := Function.update c.status t .ready
    ready := c.joinReady schedPriority t
    queue := Function.update c.queue .ready ((c.joinReady schedPriority t).map Keyed.item)
    log := c.log ++ [.readyToRun t c.level] }

/-- The current thread is switched out and `next` runs. -/
@[simps -fullyApplied]
def dispatch (c : Core φ γ) (next : ℕ) (rest : List (Frame φ)) : Core φ γ :=
  { c with
    stack := Function.update c.stack c.current (.afterSwitch :: rest)
    status := Function.update c.status next .running
    current := next
    log := c.log ++ [.run next c.level] }

@[simps -fullyApplied]
def create (c : Core φ γ) (priority : ℤ) (i : Fin maxThreadsCount) : Core φ γ :=
  { c with
    created := c.created + 1
    stack := Function.update c.stack c.created []
    status := Function.update c.status c.created .justCreated
    phase := Function.update c.phase c.created .unfinished
    priority := Function.update c.priority c.created priority
    threadId := Function.update c.threadId c.created i
    threadIds := Function.update c.threadIds i true }

@[simps -fullyApplied]
def finish (c : Core φ γ) : Core φ γ :=
  { c with
    stack := Function.update c.stack c.current [.sleep]
    level := .off
    toBeDestroyed := some c.current
    phase := Function.update c.phase c.current .finished }

@[simps -fullyApplied]
def destroy (c : Core φ γ) (t : ℕ) : Core φ γ :=
  { c with
    toBeDestroyed := none
    phase := Function.update c.phase t .deleted
    threadIds := Function.update c.threadIds (c.threadId t) false }

theorem setQueue_self (c : Core φ γ) (q : Place) : c.setQueue q (c.queue q) = c := by
  rw [setQueue, Function.update_eq_self]

theorem setValue_self (c : Core φ γ) (s : SemId) : c.setValue s (c.value s) = c := by
  rw [setValue, Function.update_eq_self]

theorem goto_goto (c : Core φ γ) (fs gs : List (Frame φ)) : (c.goto fs).goto gs = c.goto gs := by
  unfold goto
  dsimp only
  rw [Function.update_idem]

theorem goto_self (c : Core φ γ) : c.goto (c.stack c.current) = c := by
  rw [goto, Function.update_eq_self]

theorem stack_goto (c : Core φ γ) (fs : List (Frame φ)) : (c.goto fs).stack c.current = fs :=
  Function.update_self ..

theorem dispatch_goto (c : Core φ γ) (next : ℕ) (fs rest : List (Frame φ)) :
    (c.goto fs).dispatch next rest = c.dispatch next rest := by
  unfold dispatch goto
  dsimp only
  rw [Function.update_idem]

theorem finish_goto (c : Core φ γ) (fs : List (Frame φ)) : (c.goto fs).finish = c.finish := by
  unfold finish goto
  dsimp only
  rw [Function.update_idem]

theorem queue_makeReady_of_ne (c : Core φ γ) (schedPriority : Bool) (t : ℕ) {q : Place}
    (hq : q ≠ .ready) : (c.makeReady schedPriority t).queue q = c.queue q :=
  Function.update_of_ne hq ..

@[simps -fullyApplied]
def start (main : φ) (client : γ) (values : ℕ → ℤ) : Core φ γ where
  current := 0
  level := .off
  mode := .system
  stack := Function.update (fun _ => []) 0 (Kernel.root main)
  status := Function.update (fun _ => .justCreated) 0 .running
  phase _ := .unfinished
  priority := Function.update (fun _ => 0) 0 6
  threadId _ := 0
  threadIds i := decide (i = 0)
  created := 1
  toBeDestroyed := none
  ready := []
  queue _ := []
  value
    | .user n => values n
    | .lock _ => 1
  owner _ := none
  client := client
  log := []

/-! ## Steps -/

/-- Handlers may be called while the frame is executed. -/
def Firing : Frame φ → Prop
  | .fireLoop | .idle | .idleLoop => True
  | _ => False

/-- Commands that do nothing to threads. -/
def Plain : Cmd φ → Prop
  | .schedule _ _ | .load _ _ _ | .restoreState _ => True
  | _ => False

/-- Events that concern interrupts only. -/
def Remark : Event φ → Prop
  | .checkIfDue l => l = .off
  | .scheduled _ | .fired _ _ => True
  | _ => False

/-- Frames that change no more than the level and the mode, with the frames that take their
place. -/
inductive Quiet (c : Core φ γ) : Frame φ → List (Frame φ) → IntStatus → MachineStatus → Prop where
  | assertOwner {l} (ho : c.owner l = some c.current) : Quiet c (.assertOwner l) [] c.level c.mode
  | signalNone {x} (hq : c.queue (.cond x) = []) : Quiet c (.signalBody x) [] c.level c.mode
  | broadcastDone {x l} (hq : c.queue (.cond x) = []) :
      Quiet c (.broadcastBody x l) [] c.level c.mode
  | afterSwitch (hd : c.toBeDestroyed = none) : Quiet c .afterSwitch [] c.level c.mode
  | setLevel {now} (hl : now = .off ∨ c.level = .on) : Quiet c (.setLevel now) [] now c.mode
  | setLevelTick (hl : c.level = .off) : Quiet c (.setLevel .on) [.oneTick] .on c.mode
  | cmdSetLevel {now} (hl : now = .off ∨ c.level = .on) :
      Quiet c (.cmd (.setLevel now)) [] now c.mode
  | cmdSetLevelTick (hl : c.level = .off) : Quiet c (.cmd (.setLevel .on)) [.oneTick] .on c.mode
  | cmdTick : Quiet c (.cmd .oneTick) [.oneTick] c.level c.mode
  | oneTick : Quiet c .oneTick [.fireLoop, .oneTickEnd c.mode] .off c.mode
  | fireEnd : Quiet c .fireLoop [] c.level c.mode
  | oneTickEnd {st} : Quiet c (.oneTickEnd st) [] .on c.mode
  | oneTickYield {st} : Quiet c (.oneTickEnd st) [.call .yield, .setStatus st] .on .system
  | setStatus {st} : Quiet c (.setStatus st) [] c.level st
  | idle : Quiet c .idle [.idle] c.level .idle
  | idleFired : Quiet c .idle [.idleLoop] c.level c.mode
  | idleEnd : Quiet c .idleLoop [] c.level .system
  | cmdSetStatus {st} : Quiet c (.cmd (.setStatus st)) [] c.level st
  | cmd {x : Cmd φ} (hx : Plain x) : Quiet c (.cmd x) [] c.level c.mode
  | syscall {cmds : List (Cmd φ)} {mode} (hc : ∀ y ∈ cmds, y = .finish) (hm : mode ≠ .idle) :
      Quiet c (.cmd .syscall) (cmds.map .cmd) c.level mode

/-- Who increments a semaphore, and what its stack is then: the current thread in `V`, or an
interrupt handler. -/
inductive UpBy (c : Core φ γ) : SemId → List (Frame φ) → Prop where
  | thread {s rest} (hs : c.stack c.current = .vBody s :: rest) : UpBy c s rest
  | handler {f rest n} (hs : c.stack c.current = f :: rest) (hf : Firing f)
      (hl : c.level = .off) : UpBy c (.user n) (f :: rest)

/-- `Signal`, or one turn of `Broadcast`. -/
inductive SelectBy (c : Core φ γ) : ℕ → List (Frame φ) → Prop where
  | signal {x rest} (hs : c.stack c.current = .signalBody x :: rest) : SelectBy c x rest
  | broadcast {x l rest} (hs : c.stack c.current = .broadcastBody x l :: rest) :
      SelectBy c x (.broadcastBody x l :: rest)

inductive Step (cfg : Config φ γ ι) (c : Core φ γ) : Core φ γ → Prop where
  | quiet {f fs rest now mode} (hs : c.stack c.current = f :: rest)
      (hf : Quiet c f fs now mode) :
      Step cfg c (((c.goto (fs ++ rest)).setLevel now).setMode mode)
  | remark {e : Event φ} (he : Remark e) : Step cfg c (c.emit e)
  | enter {x : Call φ} {rest : List (Frame φ)}
      (hs : c.stack c.current = .call x :: rest ∨ c.stack c.current = .cmd (.call x) :: rest) :
      Step cfg c (((c.goto (x.body ++ .setLevel c.level :: .ret x c.level :: rest)).setLevel
        .off).emit (.called c.current x c.level))
  | ret {x level rest} (hs : c.stack c.current = .ret x level :: rest) :
      Step cfg c ((c.goto rest).emit (.returned c.current x c.level))
  | run {f rest i g cmds} (hs : c.stack c.current = .cmd (.run f) :: rest)
      (hp : cfg.program.step f i c.client c.current = .ok (g, cmds)) :
      Step cfg c ((c.goto (cmds.map .cmd ++ rest)).setClient g)
  | down {s b rest} (hs : c.stack c.current = .pLoop s b :: rest) (hv : c.value s ≠ 0) :
      Step cfg c (((c.goto rest).setValue s (c.value s - 1)).emit (.down s))
  | block {s b rest} (hs : c.stack c.current = .pLoop s b :: rest) (hv : c.value s = 0) :
      Step cfg c ((c.goto (.sleep :: .pLoop s true :: rest)).setQueue (.sem s)
        (c.queue (.sem s) ++ [c.current]))
  | up {s fs} (hs : UpBy c s fs) (hq : c.queue (.sem s) = []) :
      Step cfg c (((c.goto fs).setValue s (c.value s + 1)).emit (.up s))
  | upWake {s fs t q} (hs : UpBy c s fs) (hq : c.queue (.sem s) = t :: q) :
      Step cfg c (((((c.goto fs).setQueue (.sem s) q).makeReady cfg.schedPriority t).setValue s
        (c.value s + 1)).emit (.up s))
  | setOwner {l rest} (hs : c.stack c.current = .setOwner l :: rest) :
      Step cfg c ((c.goto rest).setOwner l (some c.current))
  | clearOwner {l rest} (hs : c.stack c.current = .clearOwner l :: rest) :
      Step cfg c ((c.goto rest).setOwner l none)
  | enqueue {x rest} (hs : c.stack c.current = .enqueue x :: rest) :
      Step cfg c (((c.goto rest).setQueue (.cond x) (c.queue (.cond x) ++ [c.current])).emit
        (.joined x c.current))
  | select {x fs t q} (hs : SelectBy c x fs) (hq : c.queue (.cond x) = t :: q) :
      Step cfg c ((((c.goto fs).setQueue (.cond x) q).emit (.selected x t)).makeReady
        cfg.schedPriority t)
  | startThread {t f rest} (hs : c.stack c.current = .startThread t f :: rest)
      (ht : t < c.created) (hst : c.status t = .justCreated) :
      Step cfg c (((c.goto rest).setStack t (Kernel.root f)).makeReady cfg.schedPriority t)
  | newThread {pri uninit rest i} (hs : c.stack c.current = .cmd (.newThread pri uninit) :: rest)
      (hi : c.threadIds i = false) :
      Step cfg c ((c.goto rest).create (if pri < 0 ∨ pri > 10 then uninit else pri) i)
  | yieldNone {rest} (hs : c.stack c.current = .yieldBody :: rest) (hq : c.ready = []) :
      Step cfg c ((c.goto rest).emit (.findNextToRun c.level))
  | yieldKeep {rest e q} (hs : c.stack c.current = .yieldBody :: rest) (hq : c.ready = e :: q)
      (hp : cfg.schedPriority = true) (hkeep : c.priority c.current ≤ c.priority e.item) :
      Step cfg c (((c.goto rest).emit (.findNextToRun c.level)).setReady
        (Keyed.sortedInsert ⟨c.priority e.item, e.item⟩ q))
  | yieldSwitch {rest e q} (hs : c.stack c.current = .yieldBody :: rest) (hq : c.ready = e :: q)
      (hp : cfg.schedPriority = true → c.priority e.item < c.priority c.current) :
      Step cfg c ((((c.emit (.findNextToRun c.level)).setReady q).makeReady cfg.schedPriority
        c.current).dispatch e.item rest)
  | sleep {rest} (hs : c.stack c.current = .sleep :: rest) (hl : c.level = .off) :
      Step cfg c ((c.goto (.sleepLoop :: rest)).setStatus c.current .blocked)
  | sleepIdle {rest} (hs : c.stack c.current = .sleepLoop :: rest) (hq : c.ready = []) :
      Step cfg c ((c.goto (.idle :: .sleepLoop :: rest)).emit (.findNextToRun c.level))
  | sleepSwitch {rest e q} (hs : c.stack c.current = .sleepLoop :: rest) (hq : c.ready = e :: q) :
      Step cfg c (((c.emit (.findNextToRun c.level)).setReady q).dispatch e.item rest)
  | finish {rest} (hs : c.stack c.current = .cmd .finish :: rest) :
      Step cfg c c.finish
  | destroy {rest t} (hs : c.stack c.current = .afterSwitch :: rest)
      (hd : c.toBeDestroyed = some t) (ht : t ≠ c.current) :
      Step cfg c ((c.goto rest).destroy t)

/-! ## Who makes a step -/

/-- The interrupts that have been scheduled and that have occurred, in this order. -/
def timing (log : List (Event φ)) : List (PendingInterrupt × Bool) := log.filterMap Event.timing?

/-- Frames whose execution does not concern interrupts. -/
def Ordinary : Frame φ → Prop
  | .fireLoop | .idle | .idleLoop | .cmd (.schedule _ _) => False
  | _ => True

/-- A step that looks for interrupts and goes on to the next frame. -/
inductive Still (c : Core φ γ) : Core φ γ → Prop where
  | quiet {f fs rest now mode} (hs : c.stack c.current = f :: rest) (hf : Firing f)
      (h : Quiet c f fs now mode) : Still c (((c.goto (fs ++ rest)).setLevel now).setMode mode)
  | check {f rest} (hs : c.stack c.current = f :: rest) (hf : Firing f) (hl : c.level = .off) :
      Still c (c.emit (.checkIfDue c.level))

/-- A step of the thread that executes its innermost frame in the state `c₀`. -/
inductive Own (cfg : Config φ γ ι) (c₀ c : Core φ γ) : Core φ γ → Prop where
  | step {c'} (hc : c = c₀ ∨ ∃ x l rest, c.stack c.current = .broadcastBody x l :: rest)
      (hf : ∀ f rest, c.stack c.current = f :: rest → Ordinary f) (h : Step cfg c c')
      (ht : timing c'.log = timing c.log) : Own cfg c₀ c c'
  | schedule {fromNow type rest} {p : PendingInterrupt}
      (hs : c.stack c.current = .cmd (.schedule fromNow type) :: rest) (hp : p.type = type) :
      Own cfg c₀ c ((c.goto rest).emit (.scheduled p))
  | still {c'} (h : Still c c') : Own cfg c₀ c c'

/-- Frames in which the kernel may make several steps of the core at once. -/
def Minor : Frame φ → Prop
  | .broadcastBody _ _ | .cmd (.schedule _ _) => True
  | f => Firing f

/-- A step of the core that is part of a step of the kernel from `c₀`. -/
def StepFrom (cfg : Config φ γ ι) (c₀ c c' : Core φ γ) : Prop :=
  Step cfg c c' ∧ (c = c₀ ∨ ∃ f rest, c.stack c.current = f :: rest ∧ Minor f)

/-- What interrupt handlers do, one thing after the other. -/
inductive Handled (schedPriority : Bool) : List HandlerAct → Core φ γ → Core φ γ → Prop where
  | nil {c} : Handled schedPriority [] c c
  | schedule {fromNow type acts c c'} {p : PendingInterrupt} (hp : p.type = type)
      (h : Handled schedPriority acts (c.emit (.scheduled p)) c') :
      Handled schedPriority (.schedule fromNow type :: acts) c c'
  | up {n acts c c'} (hq : c.queue (.sem (.user n)) = [])
      (h : Handled schedPriority acts
        ((c.setValue (.user n) (c.value (.user n) + 1)).emit (.up (.user n))) c') :
      Handled schedPriority (.v n :: acts) c c'
  | upWake {n t q acts c c'} (hq : c.queue (.sem (.user n)) = t :: q)
      (h : Handled schedPriority acts
        ((((c.setQueue (.sem (.user n)) q).makeReady schedPriority t).setValue (.user n)
          (c.value (.user n) + 1)).emit (.up (.user n))) c') :
      Handled schedPriority (.v n :: acts) c c'
  | yieldOnReturn {acts c c'} (h : Handled schedPriority acts c c') :
      Handled schedPriority (.yieldOnReturn :: acts) c c'

/-- What a step of the kernel does: no interrupt occurs, or one does and its handler is
executed. -/
inductive Moves (cfg : Config φ γ ι) (acts : List HandlerAct) (c c' : Core φ γ) : Prop where
  | own (h : Relation.ReflTransGen (Own cfg c) c c')
  | fired {p now c₁ c₂ f rest} (hpre : Relation.ReflTransGen Still c c₁)
      (hs : c₁.stack c₁.current = f :: rest) (hf : Firing f) (hl : c₁.level = .off)
      (h : Handled cfg.schedPriority acts (c₁.emit (.fired p now)) c₂)
      (hpost : Relation.ReflTransGen Still c₂ c')

end Core

end Nachos
