import Nachos.Library.SortedQueue
import Nachos.Model.AddrSpace

/-! # Threads

A thread is switched out in the middle of kernel functions, so that what it still has to do
is part of the state: its stack holds one frame for each function that it is in, from the
innermost one on. A frame is the place in the function where execution goes on, with the
local variables that are still needed. -/

namespace Nachos

open Library

inductive IntStatus where
  | off
  | on
  deriving DecidableEq, Repr

inductive MachineStatus where
  | idle
  | system
  | user
  deriving DecidableEq, Repr

inductive IntType where
  | timer
  | disk
  | consoleWrite
  | consoleRead
  | elevator
  | networkSend
  | networkRecv
  deriving DecidableEq, Repr

inductive ThreadStatus where
  | justCreated
  | running
  | ready
  | blocked
  deriving DecidableEq, Repr

/-- A semaphore of the program, or the one inside of a lock. -/
inductive SemId where
  | user (n : ℕ)
  | lock (l : ℕ)
  deriving DecidableEq, Repr

/-- The functions that turn interrupts off and, at the end, set the level back to what it
was. Threads, locks and conditions are named by numbers; `φ` is the code that a thread can
be started with. -/
inductive Call (φ : Type) where
  | p (s : SemId)
  | v (s : SemId)
  | acquire (l : ℕ)
  | release (l : ℕ)
  | wait (c l : ℕ)
  | signal (c l : ℕ)
  | broadcast (c l : ℕ)
  | fork (t : ℕ) (f : φ)
  | yield

/-- What the code of a program does next. -/
inductive Cmd (φ : Type) where
  | call (c : Call φ)
  | run (f : φ)
  | finish
  /-- `new Thread(name, pri)`; `uninit` is what `priority` holds before it is set -/
  | newThread (pri uninit : ℤ)
  | setLevel (now : IntStatus)
  | setStatus (st : MachineStatus)
  /-- a user instruction has been executed -/
  | oneTick
  | schedule (fromNow : ℤ) (type : IntType)
  | load (t : ℕ) (executable : List Byte) (uninit : NoffHeader)
  | restoreState (t : ℕ)
  | syscall

/-- A program uses the semaphores inside of locks only through the locks, and it leaves the
idle mode to the kernel. -/
def Cmd.Public {φ : Type} : Cmd φ → Prop
  | .call (.p (.lock _)) => False
  | .call (.v (.lock _)) => False
  | .setStatus .idle => False
  | _ => True

inductive Frame (φ : Type) where
  | cmd (c : Cmd φ)
  /-- a call from inside of the kernel -/
  | call (c : Call φ)
  /-- the loop of `P`; `slept` says that the thread has been on the queue -/
  | pLoop (s : SemId) (slept : Bool)
  | vBody (s : SemId)
  | setOwner (l : ℕ)
  | assertOwner (l : ℕ)
  | clearOwner (l : ℕ)
  | enqueue (c : ℕ)
  | signalBody (c : ℕ)
  | broadcastBody (c l : ℕ)
  | startThread (t : ℕ) (f : φ)
  | yieldBody
  | sleep
  | sleepLoop
  /-- the part of `Scheduler::Run` behind `SWITCH` -/
  | afterSwitch
  /-- `SetLevel(now)` at the end of a call -/
  | setLevel (now : IntStatus)
  /-- the call, made at the given level, returns -/
  | ret (c : Call φ) (level : IntStatus)
  | oneTick
  | fireLoop
  | oneTickEnd (old : MachineStatus)
  | setStatus (st : MachineStatus)
  | idle
  | idleLoop

/-- What a call does between the two changes of the level. -/
def Call.body {φ : Type} : Call φ → List (Frame φ)
  | .p s => [.pLoop s false]
  | .v s => [.vBody s]
  | .acquire l => [.call (.p (.lock l)), .setOwner l]
  | .release l => [.assertOwner l, .call (.v (.lock l)), .clearOwner l]
  | .wait c l => [.assertOwner l, .call (.release l), .enqueue c, .sleep, .call (.acquire l)]
  | .signal c l => [.assertOwner l, .signalBody c]
  | .broadcast c l => [.assertOwner l, .broadcastBody c l]
  | .fork t f => [.startThread t f]
  | .yield => [.yieldBody]

abbrev maxThreadsCount : ℕ := 128

/-- How far a thread has come. This is not part of the program. -/
inductive Phase where
  | unfinished
  | finished
  | deleted
  deriving DecidableEq, Repr

structure Thread (φ : Type) where
  status : ThreadStatus
  priority : ℤ
  threadId : Fin maxThreadsCount
  stack : List (Frame φ)
  space : Option AddrSpace
  userRegisters : Fin NumTotalRegs → Word
  phase : Phase

structure Semaphore where
  value : ℤ
  queue : List ℕ

/-- `id` stands for the address of the object; what its handler does is left open. -/
structure PendingInterrupt where
  id : ℕ
  when : ℤ
  type : IntType
  deriving DecidableEq, Repr

structure Interrupt where
  level : IntStatus
  pending : List (Keyed PendingInterrupt)
  inHandler : Bool
  yieldOnReturn : Bool
  status : MachineStatus

structure Statistics where
  totalTicks : ℤ
  idleTicks : ℤ
  systemTicks : ℤ
  userTicks : ℤ
  deriving DecidableEq, Repr

/-- The clock jumps to the given time, if that is not past. -/
def Statistics.skipTo (stats : Statistics) (when : ℤ) : Statistics :=
  if when > stats.totalTicks then { stats with
    idleTicks := stats.idleTicks + (when - stats.totalTicks)
    totalTicks := when }
  else stats

abbrev SystemTick : ℤ := 10

abbrev UserTick : ℤ := 1

/-- What is recorded about a run. -/
inductive Event (φ : Type) where
  | called (t : ℕ) (c : Call φ) (level : IntStatus)
  | returned (t : ℕ) (c : Call φ) (level : IntStatus)
  | readyToRun (t : ℕ) (level : IntStatus)
  | findNextToRun (level : IntStatus)
  | run (t : ℕ) (level : IntStatus)
  | checkIfDue (level : IntStatus)
  /-- the value of a semaphore has been decremented, incremented -/
  | down (s : SemId)
  | up (s : SemId)
  /-- a thread has joined the queue of a condition, has been selected from it -/
  | joined (c t : ℕ)
  | selected (c t : ℕ)
  | scheduled (p : PendingInterrupt)
  | fired (p : PendingInterrupt) (now : ℤ)

/-- The state of the kernel, with that of the program in `client`. `log` is not part of the
program. -/
structure Kernel (φ γ : Type) where
  thread : ℕ → Thread φ
  created : ℕ
  currentThread : ℕ
  threadToBeDestroyed : Option ℕ
  threadIds : Fin maxThreadsCount → Bool
  readyList : List (Keyed ℕ)
  interrupt : Interrupt
  nextPending : ℕ
  stats : Statistics
  sem : SemId → Semaphore
  owner : ℕ → Option ℕ
  cond : ℕ → List ℕ
  machine : Option Machine
  halted : Bool
  client : γ
  log : List (Event φ)

end Nachos
