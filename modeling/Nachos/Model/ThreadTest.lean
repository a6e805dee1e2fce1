import Nachos.Model.Kernel

/-! # The tests of `threadtest.cc`

Producers and consumers, with semaphores and with conditions, and readers and writers. Between
two calls of the kernel no tick occurs, so that each piece of code in between is one step. -/

namespace Nachos.ThreadTest

open Library

/-- the size of the buffer -/
abbrev N : ℤ := 1024

abbrev empty : ℕ := 0

abbrev mutex : ℕ := 1

abbrev full : ℕ := 2

abbrev wLock : ℕ := 3

abbrev condc : ℕ := 0

abbrev condp : ℕ := 1

abbrev pcLock : ℕ := 0

abbrev rLock : ℕ := 1

/-- The functions that threads are started with, and the pieces of code inside of them. -/
inductive Routine where
  | threadTest
  | producer
  | produce
  | customer
  | consume
  | producer1
  | produce1
  | customer1
  | consume1
  | readFunc
  | readEnter
  | read
  | readLeave
  | writeFunc
  | write
  deriving DecidableEq, Repr

/-- The global variables. That a branch has been taken which should not be is recorded. -/
structure Globals where
  msgQueue : ℤ
  shareNum : ℤ
  rCnt : ℤ
  bufSize : ℤ
  alreadyFull : Bool
  alreadyEmpty : Bool
  deriving DecidableEq, Repr

def Globals.new : Globals where
  msgQueue := 0
  shareNum := 0
  rCnt := 0
  bufSize := 0
  alreadyFull := false
  alreadyEmpty := false

/-- The initial values of the semaphores. -/
def values : ℕ → ℤ
  | 0 => N
  | 1 => 1
  | 3 => 1
  | _ => 0

/-- What a piece of code does; `setup` is what the test does to start its threads. -/
def step (setup : List (Cmd Routine)) (g : Globals) : Routine → Exec (Globals × List (Cmd Routine))
  | .threadTest => .ok (g, setup)
  | .producer => .ok (g, [.call (.p (.user empty)), .call (.p (.user mutex)), .run .produce,
      .call (.v (.user mutex)), .call (.v (.user full)), .run .producer])
  | .produce =>
      if g.msgQueue ≥ N then .ok ({ g with alreadyFull := true }, [])
      else do return ({ g with msgQueue := ← add32 g.msgQueue 1 }, [])
  | .customer => .ok (g, [.call (.p (.user full)), .call (.p (.user mutex)), .run .consume,
      .call (.v (.user mutex)), .call (.v (.user empty)), .run .customer])
  | .consume =>
      if g.msgQueue ≤ 0 then .ok ({ g with alreadyEmpty := true }, [])
      else do return ({ g with msgQueue := ← add32 g.msgQueue (-1) }, [])
  | .producer1 => .ok (g, [.call (.acquire pcLock), .run .produce1, .call (.release pcLock),
      .run .producer1])
  | .produce1 =>
      if g.shareNum ≥ N then .ok (g, [.call (.wait condp pcLock), .run .produce1])
      else do return ({ g with shareNum := ← add32 g.shareNum 1 }, [.call (.signal condc pcLock)])
  | .customer1 => .ok (g, [.call (.acquire pcLock), .run .consume1, .call (.release pcLock),
      .run .customer1])
  | .consume1 =>
      if g.shareNum ≤ 0 then .ok (g, [.call (.wait condc pcLock), .run .consume1])
      else do return ({ g with shareNum := ← add32 g.shareNum (-1) },
        [.call (.signal condp pcLock)])
  | .readFunc => .ok (g, [.call (.acquire rLock), .run .readEnter, .call (.release rLock),
      .run .read, .call (.acquire rLock), .run .readLeave, .call (.release rLock), .call .yield,
      .run .readFunc])
  | .readEnter => do
      let rCnt ← add32 g.rCnt 1
      return ({ g with rCnt := rCnt }, if rCnt = 1 then [.call (.p (.user wLock))] else [])
  | .read => .ok (g, [])
  | .readLeave => do
      let rCnt ← add32 g.rCnt (-1)
      return ({ g with rCnt := rCnt }, if rCnt = 0 then [.call (.v (.user wLock))] else [])
  | .writeFunc => .ok (g, [.call (.p (.user wLock)), .run .write, .call (.v (.user wLock)),
      .call .yield, .run .writeFunc])
  | .write => do return ({ g with bufSize := ← add32 g.bufSize 1 }, [])

/-- A command that creates a thread, or starts one with one of the given functions. -/
def Sets (functions : List Routine) : Cmd Routine → Prop
  | .newThread _ _ => True
  | .call (.fork _ f) => f ∈ functions
  | _ => False

theorem isPublic_of_sets {functions : List Routine} {x : Cmd Routine} (h : Sets functions x) :
    x.Public := by
  cases x with
  | call y =>
      cases y with
      | fork => trivial
      | _ => exact h.elim
  | newThread => trivial
  | _ => exact h.elim

theorem isPublic_of_step {setup cmds : List (Cmd Routine)} {f : Routine} {g g' : Globals}
    (hsetup : ∀ x ∈ setup, x.Public) (h : step setup g f = .ok (g', cmds)) :
    ∀ x ∈ cmds, x.Public := by
  cases f with
  | threadTest =>
      cases h
      exact hsetup
  | produce | consume | produce1 | consume1 =>
      simp only [step] at h
      split at h
      · cases h
        simp [Cmd.Public]
      · obtain ⟨n, -, h⟩ := bind_eq_ok.mp h
        cases h
        simp [Cmd.Public]
  | readEnter | readLeave =>
      obtain ⟨n, -, h⟩ := bind_eq_ok.mp h
      cases h
      split <;> simp [Cmd.Public]
  | write =>
      obtain ⟨n, -, h⟩ := bind_eq_ok.mp h
      cases h
      simp
  | producer | customer | producer1 | customer1 | readFunc | read | writeFunc =>
      cases h
      simp [Cmd.Public]

def program {functions : List Routine} (setup : List (Cmd Routine))
    (hsetup : ∀ x ∈ setup, Sets functions x) : Program Routine Globals Unit where
  step f _ g _ := step setup g f
  isPublic _ _ _ _ _ _ h := isPublic_of_step (fun x hx => isPublic_of_sets (hsetup x hx)) h

def config {functions : List Routine} (build : Build) (schedPriority : Bool)
    (setup : List (Cmd Routine)) (hsetup : ∀ x ∈ setup, Sets functions x) :
    Config Routine Globals Unit where
  build := build
  schedPriority := schedPriority
  program := program setup hsetup

/-- The main thread is about to start the test. -/
def start (machine : Option Machine) : Kernel Routine Globals :=
  .start .threadTest .new values machine

end Nachos.ThreadTest
