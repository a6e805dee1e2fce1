import Nachos.Model.Component
import Nachos.Model.LinkedList

/-! # Synchronized lists

`synchlist.cc` on top of the kernel: threads call `Append` and `Remove` on one list. Between two
calls of the kernel no tick occurs, so that each piece of code in between is one step. -/

namespace Nachos.SynchList

open Library

abbrev NULL : ℕ := 0

abbrev lock : ℕ := 0

abbrev listEmpty : ℕ := 0

/-- A pointer that is not null. -/
abbrev Item := {item : ℕ // item ≠ NULL}

inductive Op where
  | append (item : Item)
  | remove

/-- The code that calls the operations, and the pieces of code inside of them. -/
inductive Routine where
  | caller
  | append (item : Item)
  | remove
  deriving DecidableEq

/-- The list. What has been appended and removed is recorded. -/
structure Channel where
  list : LinkedList ℕ
  appended : List ℕ
  removed : List ℕ

def Channel.new : Channel := ⟨.new, [], []⟩

def component : Component Routine := ⟨.caller, [lock], [listEmpty], [], []⟩

def step (g : Channel) : Routine → Use component Op → Exec (Channel × List (Cmd Routine))
  | .caller, .call (.append item) => .ok (g, [.call (.acquire lock), .run (.append item),
      .call (.signal listEmpty lock), .call (.release lock), .run .caller])
  | .caller, .call .remove => .ok (g, [.call (.acquire lock), .run .remove,
      .call (.release lock), .run .caller])
  | .caller, .other x => .ok (g, [x.1, .run .caller])
  | .caller, .leave => .ok (g, [])
  | .append item, _ => do
      return ({ g with list := ← g.list.append item, appended := g.appended ++ [item.1] }, [])
  | .remove, _ =>
      if g.list.isEmpty then .ok (g, [.call (.wait listEmpty lock), .run .remove])
      else do
        let (thing, list) ← g.list.remove
        let item := thing.getD NULL
        assert (item ≠ NULL)
        return ({ g with list := list, removed := g.removed ++ [item] }, [])

theorem isPublic_of_step {g g' : Channel} {f : Routine} {i : Use component Op}
    {cmds : List (Cmd Routine)} (h : step g f i = .ok (g', cmds)) : ∀ x ∈ cmds, x.Public := by
  cases f with
  | caller =>
      cases i with
      | call op => cases op <;> cases h <;> simp [Cmd.Public]
      | other x =>
          cases h
          simpa [Cmd.Public] using x.2.isPublic
      | leave =>
          cases h
          simp
  | append item =>
      obtain ⟨l, -, h⟩ := bind_eq_ok.mp h
      cases h
      simp
  | remove =>
      simp only [step] at h
      split at h
      · cases h
        simp [Cmd.Public]
      · obtain ⟨r, -, h⟩ := bind_eq_ok.mp h
        obtain ⟨_, -, h⟩ := bind_eq_ok.mp h
        cases h
        simp

def program : Program Routine Channel (Use component Op) where
  step f i g _ := step g f i
  isPublic _ _ _ _ _ _ h := isPublic_of_step h

def config (build : Build) (schedPriority : Bool) : Config Routine Channel (Use component Op) where
  build := build
  schedPriority := schedPriority
  program := program

/-- The main thread is about to use a new list. -/
def start (values : ℕ → ℤ) (machine : Option Machine) : Kernel Routine Channel :=
  .start .caller .new values machine

end Nachos.SynchList
