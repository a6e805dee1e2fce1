import Nachos.Model.Kernel

/-! # The barrier of `threadtest.cc`

Threads that have arrived wait on a condition, and the last one wakes all of them up. Between two
calls of the kernel no tick occurs, so that each piece of code in between is one step. -/

namespace Nachos.Barrier

open Library

/-- how many threads have to arrive -/
abbrev barrierThreadNum : ℕ := 5

abbrev barrCond : ℕ := 0

abbrev barrLock : ℕ := 0

/-- The functions that threads are started with, and the pieces of code inside of them. -/
inductive Routine where
  | barrierThreadTest
  | barrierFun
  | arrive
  | goOn
  deriving DecidableEq, Repr

/-- The global variable, and how many threads have printed that they continue to run. -/
structure Globals where
  barrierCnt : ℤ
  continued : ℤ
  deriving DecidableEq, Repr

def Globals.new : Globals where
  barrierCnt := 0
  continued := 0

/-- One turn of the loop of `barrierThreadTest`: the main thread is thread 0. -/
def forkBarrier (i : ℕ) : List (Cmd Routine) :=
  [.newThread 6 0, .call (.fork (i + 1) .barrierFun)]

/-- What a piece of code does. Both branches of `barrierFun` end with the same `Release`. -/
def step (g : Globals) : Routine → Exec (Globals × List (Cmd Routine))
  | .barrierThreadTest => .ok (g, (List.range barrierThreadNum).flatMap forkBarrier)
  | .barrierFun => .ok (g, [.call (.acquire barrLock), .run .arrive, .call (.release barrLock),
      .run .goOn])
  | .arrive => do
      let barrierCnt ← add32 g.barrierCnt 1
      return ({ g with barrierCnt := barrierCnt },
        if barrierCnt = barrierThreadNum then [.call (.broadcast barrCond barrLock)]
        else [.call (.wait barrCond barrLock)])
  | .goOn => .ok ({ g with continued := g.continued + 1 }, [])

theorem isPublic_of_step {cmds : List (Cmd Routine)} {f : Routine} {g g' : Globals}
    (h : step g f = .ok (g', cmds)) : ∀ x ∈ cmds, x.Public := by
  cases f with
  | barrierThreadTest =>
      cases h
      intro x hx
      obtain ⟨i, -, hx⟩ := List.mem_flatMap.mp hx
      simp only [forkBarrier, List.mem_cons, List.not_mem_nil, or_false] at hx
      rcases hx with rfl | rfl <;> trivial
  | barrierFun | goOn =>
      cases h
      simp [Cmd.Public]
  | arrive =>
      obtain ⟨n, -, h⟩ := bind_eq_ok.mp h
      cases h
      split <;> simp [Cmd.Public]

def program : Program Routine Globals Unit where
  step f _ g _ := step g f
  isPublic _ _ _ _ _ _ h := isPublic_of_step h

def config (build : Build) (schedPriority : Bool) : Config Routine Globals Unit where
  build := build
  schedPriority := schedPriority
  program := program

/-- The main thread is about to start the test. -/
def start (machine : Option Machine) : Kernel Routine Globals :=
  .start .barrierThreadTest .new (fun _ => 0) machine

end Nachos.Barrier
