import Nachos.Model.Kernel

/-! # Components and their users

A component of the kernel has locks, conditions, semaphores and interrupts of its own. Threads
call its operations, in any order and between other things that leave all of these alone. -/

namespace Nachos

/-- What belongs to a component, and the code from which its operations are called. -/
structure Component (φ : Type) where
  caller : φ
  locks : List ℕ
  conds : List ℕ
  sems : List ℕ
  interrupts : List IntType

/-- A command that has nothing to do with the component. -/
def Cmd.Outside {φ : Type} (r : Component φ) : Cmd φ → Prop
  | .call (.p (.user n)) | .call (.v (.user n)) => n ∉ r.sems
  | .call (.p (.lock _)) | .call (.v (.lock _)) => False
  | .call (.acquire l) | .call (.release l) => l ∉ r.locks
  | .call (.wait c l) | .call (.signal c l) | .call (.broadcast c l) => c ∉ r.conds ∧ l ∉ r.locks
  | .call (.fork _ f) => f = r.caller
  | .run f => f = r.caller
  | .setStatus .idle => False
  | .schedule _ type => type ∉ r.interrupts
  | _ => True

/-- What a thread that uses the component does next. -/
inductive Use {φ : Type} (r : Component φ) (ω : Type) where
  | call (op : ω)
  | other (x : {x : Cmd φ // x.Outside r})
  | leave

theorem Cmd.Outside.isPublic {φ : Type} {r : Component φ} {x : Cmd φ} (h : x.Outside r) :
    x.Public := by
  cases x with
  | call y =>
      cases y with
      | p s | v s =>
          cases s with
          | user => trivial
          | lock => exact h
      | _ => trivial
  | setStatus st =>
      cases st with
      | idle => exact h
      | _ => trivial
  | _ => trivial

end Nachos
