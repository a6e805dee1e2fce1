import Nachos.Library.Transition
import Nachos.Model.Thread

/-! # Elevators

The bank of elevators of `elevator.cc`, with the clock and the interrupts that it schedules.
The functions that it is given to notify riders and controllers may call it again; these
calls are steps of their own. -/

namespace Nachos

open Library

inductive Direction where
  | down
  | up
  | neither
  deriving DecidableEq, Repr

inductive ElevatorEvent where
  | noEvent
  | doorsOpened
  | upButtonPressed
  | downButtonPressed
  | floorButtonPressed
  | elevatorArrived
  deriving DecidableEq, Repr

abbrev MaxRiders : ℕ := 4

abbrev DelayPerFloor : ℤ := 100

structure PendingElevatorEvent where
  event : ElevatorEvent
  floor : ℤ
  elevator : ℤ
  deriving DecidableEq, Repr

structure ElevatorInfo where
  display : Direction
  doorsOpen : Bool
  inMotion : Bool
  lastFloor : ℤ
  willArrive : ℤ
  goingTo : ℤ
  riders : List ℕ
  deriving DecidableEq, Repr

namespace ElevatorInfo

def new : ElevatorInfo where
  display := .neither
  doorsOpen := false
  inMotion := false
  lastFloor := 0
  willArrive := 0
  goingTo := 0
  riders := []

def openDoors (e : ElevatorInfo) : Exec (ℤ × ElevatorInfo) := do
  assert (e.doorsOpen = false ∧ e.inMotion = false)
  return (e.lastFloor, { e with doorsOpen := true })

def closeDoors (e : ElevatorInfo) : Exec ElevatorInfo := do
  assert (e.doorsOpen = true)
  return { e with doorsOpen := false }

/-- The result says whether the elevator starts to move. -/
def moveTo (now goingToFloor : ℤ) (e : ElevatorInfo) : Exec (Bool × ElevatorInfo) := do
  assert (e.doorsOpen = false ∧ (e.inMotion = true ∨ e.lastFloor ≠ goingToFloor))
  if e.inMotion then return (false, { e with goingTo := goingToFloor })
  else
    let willArrive ← add32 now DelayPerFloor
    return (true, { e with goingTo := goingToFloor, willArrive := willArrive, inMotion := true })

def enter (thread : ℕ) (onFloor : ℤ) (e : ElevatorInfo) : Exec (Bool × ElevatorInfo) := do
  if e.doorsOpen = false ∨ e.lastFloor ≠ onFloor then return (false, e)
  else
    assert (e.inMotion = false)
    assert (e.riders.length < MaxRiders)
    return (true, { e with riders := e.riders ++ [thread] })

/-- `List::Remove(item)` looks at the first element without testing that there is one. -/
def exit (thread : ℕ) (onFloor : ℤ) (e : ElevatorInfo) : Exec (Bool × ElevatorInfo) := do
  if e.doorsOpen = false ∨ e.lastFloor ≠ onFloor then return (false, e)
  else
    assert (e.inMotion = false)
    if e.riders = [] then .error .bounds
    else
      assert (thread ∈ e.riders)
      return (true, { e with riders := e.riders.erase thread })

/-- Which way the next floor is. -/
def towards (e : ElevatorInfo) : ℤ := if e.goingTo > e.lastFloor then 1 else -1

def reachedNextFloor (now : ℤ) (e : ElevatorInfo) : Exec (Bool × ElevatorInfo) := do
  if e.inMotion = true ∧ now ≥ e.willArrive then
    let lastFloor ← add32 e.lastFloor e.towards
    return (true, { e with lastFloor := lastFloor })
  else return (false, e)

def checkArrived (e : ElevatorInfo) : Bool × ElevatorInfo :=
  if e.inMotion = true ∧ e.lastFloor = e.goingTo then (true, { e with inMotion := false })
  else (false, e)

end ElevatorInfo

/-- An elevator has been set in motion, or has passed or reached a floor. -/
structure Motion (n : ℕ) where
  elevator : Fin n
  time : ℤ
  passed : Bool
  deriving DecidableEq, Repr

/-- `pending` holds the times of the interrupts that the bank has scheduled. `heading` is the
adjacent floor for which an elevator has left its last one; like `history`, it is not part of
the program. -/
structure ElevatorBank (n : ℕ) where
  elevators : Fin n → ElevatorInfo
  numFloors : ℤ
  riderEvents : List PendingElevatorEvent
  controllerEvents : List PendingElevatorEvent
  totalTicks : ℤ
  pending : List (Keyed IntType)
  heading : Fin n → ℤ
  history : List (Motion n)

namespace ElevatorBank

variable {n : ℕ}

/-- The constructor, called at the given time. -/
def new (n : ℕ) (numFlr now : ℤ) : ElevatorBank n where
  elevators _ := .new
  numFloors := numFlr
  riderEvents := []
  controllerEvents := []
  totalTicks := now
  pending := []
  heading _ := 0
  history := []

/-- `elevators[elevator]`, after the test of the index. -/
def index (n : ℕ) (elevator : ℤ) : Exec (Fin n) :=
  if h : 0 ≤ elevator ∧ elevator < n then .ok ⟨elevator.toNat, toNat_lt_of_index h⟩
  else .error .assertion

def setElevator (b : ElevatorBank n) (i : Fin n) (e : ElevatorInfo) : ElevatorBank n :=
  { b with elevators := Function.update b.elevators i e }

/-- The elevator leaves its last floor for the next one. -/
def leave (b : ElevatorBank n) (i : Fin n) : ElevatorBank n :=
  let e := b.elevators i
  { b with heading := Function.update b.heading i (e.lastFloor + e.towards) }

def note (b : ElevatorBank n) (i : Fin n) (passed : Bool) : ElevatorBank n :=
  { b with history := b.history ++ [⟨i, b.totalTicks, passed⟩] }

/-- `interrupt->Schedule(ElevatorDone, this, fromNow, ElevatorInt)` -/
def schedule (fromNow : ℤ) (b : ElevatorBank n) : Exec (ElevatorBank n) := do
  let when ← add32 b.totalTicks fromNow
  assert (fromNow > 0)
  return { b with pending := Keyed.sortedInsert ⟨when, .elevator⟩ b.pending }

/-- The end of `PostEvent`, after the event has been put on its list. -/
def postEvent (inHandler : Bool) (b : ElevatorBank n) : Exec (ElevatorBank n) :=
  if inHandler then .ok b else b.schedule 1

def postRiders (ev : ElevatorEvent) (floor elevator : ℤ) (inHandler : Bool)
    (b : ElevatorBank n) : Exec (ElevatorBank n) :=
  let events : List PendingElevatorEvent := b.riderEvents ++ [⟨ev, floor, elevator⟩]
  { b with riderEvents := events }.postEvent inHandler

def postControllers (ev : ElevatorEvent) (floor elevator : ℤ) (inHandler : Bool)
    (b : ElevatorBank n) : Exec (ElevatorBank n) :=
  let events : List PendingElevatorEvent := b.controllerEvents ++ [⟨ev, floor, elevator⟩]
  { b with controllerEvents := events }.postEvent inHandler

/-! ## The interface of the controllers -/

def openDoors (elevator : ℤ) (b : ElevatorBank n) : Exec (ElevatorBank n) := do
  let i ← index n elevator
  let (floor, e) ← (b.elevators i).openDoors
  (b.setElevator i e).postRiders .doorsOpened floor elevator false

def closeDoors (elevator : ℤ) (b : ElevatorBank n) : Exec (ElevatorBank n) := do
  let i ← index n elevator
  return b.setElevator i (← (b.elevators i).closeDoors)

def moveTo (goingToFloor elevator : ℤ) (b : ElevatorBank n) : Exec (ElevatorBank n) := do
  let i ← index n elevator
  assert (0 ≤ goingToFloor ∧ goingToFloor < b.numFloors)
  let (started, e) ← (b.elevators i).moveTo b.totalTicks goingToFloor
  let b := b.setElevator i e
  if started then ((b.leave i).note i false).schedule DelayPerFloor else return b

def whereIsElevator (elevator : ℤ) (b : ElevatorBank n) : Exec ℤ := do
  return (b.elevators (← index n elevator)).lastFloor

def markDirection (elevator : ℤ) (dir : Direction) (b : ElevatorBank n) :
    Exec (ElevatorBank n) := do
  let i ← index n elevator
  return b.setElevator i { b.elevators i with display := dir }

/-! ## The interface of the riders -/

def pressButton (onFloor : ℤ) (goingTo : Direction) (b : ElevatorBank n) :
    Exec (ElevatorBank n) := do
  assert (0 ≤ onFloor ∧ onFloor < b.numFloors ∧ goingTo ≠ .neither)
  b.postControllers (if goingTo = .up then .upButtonPressed else .downButtonPressed) onFloor 0 false

def getDirection (elevator : ℤ) (b : ElevatorBank n) : Exec Direction := do
  return (b.elevators (← index n elevator)).display

def enterElevator (thread : ℕ) (onFloor elevator : ℤ) (b : ElevatorBank n) :
    Exec (Bool × ElevatorBank n) := do
  assert (0 ≤ onFloor ∧ onFloor < b.numFloors)
  let i ← index n elevator
  let (entered, e) ← (b.elevators i).enter thread onFloor
  return (entered, b.setElevator i e)

def pressFloor (goingToFloor elevator : ℤ) (b : ElevatorBank n) : Exec (ElevatorBank n) := do
  assert (0 ≤ goingToFloor ∧ goingToFloor < b.numFloors)
  let _ ← index n elevator
  b.postControllers .floorButtonPressed goingToFloor elevator false

def exitElevator (thread : ℕ) (onFloor elevator : ℤ) (b : ElevatorBank n) :
    Exec (Bool × ElevatorBank n) := do
  assert (0 ≤ onFloor ∧ onFloor < b.numFloors)
  let i ← index n elevator
  let (left, e) ← (b.elevators i).exit thread onFloor
  return (left, b.setElevator i e)

/-- `none` is `NoEvent`. -/
def getNextEvent : List PendingElevatorEvent →
    Option PendingElevatorEvent × List PendingElevatorEvent
  | [] => (none, [])
  | event :: rest => (some event, rest)

/-! ## Interrupts -/

/-- One turn of the loop of `HandleInterrupt`, after the elevator has reached a floor. -/
def arrive (i : Fin n) (intSched : Bool) (b : ElevatorBank n) : Exec (Bool × ElevatorBank n) := do
  let (arrived, e) := (b.elevators i).checkArrived
  let b := b.setElevator i e
  if arrived then return (intSched, ← b.postControllers .elevatorArrived e.goingTo (i : ℕ) true)
  else
    let b := b.leave i
    if intSched then return (intSched, b)
    else
      let willArrive ← add32 e.willArrive DelayPerFloor
      let b ← (b.setElevator i { e with willArrive := willArrive }).schedule DelayPerFloor
      return (true, b)

/-- One turn of the loop of `HandleInterrupt`. -/
def turn (i : Fin n) (intSched : Bool) (b : ElevatorBank n) : Exec (Bool × ElevatorBank n) := do
  let (reached, e) ← (b.elevators i).reachedNextFloor b.totalTicks
  if reached then ((b.setElevator i e).note i true).arrive i intSched else return (intSched, b)

def turns : List (Fin n) → Bool × ElevatorBank n → Exec (Bool × ElevatorBank n)
  | [], s => .ok s
  | i :: rest, (intSched, b) => do turns rest (← b.turn i intSched)

/-- `HandleInterrupt` up to the notification of the riders, which is made if the result is
TRUE. -/
def handleInterrupt (b : ElevatorBank n) : Exec (Bool × ElevatorBank n) := do
  let (_, b) ← turns (List.finRange n) (false, b)
  return (!b.riderEvents.isEmpty, b)

/-- The rest of `HandleInterrupt`: whether the controllers are notified. -/
def notifiesControllers (b : ElevatorBank n) : Bool := !b.controllerEvents.isEmpty

/-! ## Steps -/

inductive Call where
  | openDoors (elevator : ℤ)
  | closeDoors (elevator : ℤ)
  | moveTo (goingToFloor elevator : ℤ)
  | whereIsElevator (elevator : ℤ)
  | markDirection (elevator : ℤ) (dir : Direction)
  | getNextControllerEvent
  | pressButton (onFloor : ℤ) (goingTo : Direction)
  | getDirection (elevator : ℤ)
  | enterElevator (thread : ℕ) (onFloor elevator : ℤ)
  | pressFloor (goingToFloor elevator : ℤ)
  | exitElevator (thread : ℕ) (onFloor elevator : ℤ)
  | getNextRiderEvent
  deriving DecidableEq, Repr

inductive Answer where
  | void
  | floor (floor : ℤ)
  | direction (dir : Direction)
  | bool (b : Bool)
  | event (event : Option PendingElevatorEvent)
  deriving DecidableEq, Repr

def call (b : ElevatorBank n) : Call → Exec (Answer × ElevatorBank n)
  | .openDoors elevator => do return (.void, ← b.openDoors elevator)
  | .closeDoors elevator => do return (.void, ← b.closeDoors elevator)
  | .moveTo goingToFloor elevator => do return (.void, ← b.moveTo goingToFloor elevator)
  | .whereIsElevator elevator => do return (.floor (← b.whereIsElevator elevator), b)
  | .markDirection elevator dir => do return (.void, ← b.markDirection elevator dir)
  | .getNextControllerEvent =>
      let (event, rest) := getNextEvent b.controllerEvents
      .ok (.event event, { b with controllerEvents := rest })
  | .pressButton onFloor goingTo => do return (.void, ← b.pressButton onFloor goingTo)
  | .getDirection elevator => do return (.direction (← b.getDirection elevator), b)
  | .enterElevator thread onFloor elevator => do
      let (entered, b) ← b.enterElevator thread onFloor elevator
      return (.bool entered, b)
  | .pressFloor goingToFloor elevator => do return (.void, ← b.pressFloor goingToFloor elevator)
  | .exitElevator thread onFloor elevator => do
      let (left, b) ← b.exitElevator thread onFloor elevator
      return (.bool left, b)
  | .getNextRiderEvent =>
      let (event, rest) := getNextEvent b.riderEvents
      .ok (.event event, { b with riderEvents := rest })

/-- Time passes, the bank is called, its first interrupt that is due fires, or the handler
comes to its end. -/
inductive Action where
  | wait (ticks : ℕ)
  | call (c : Call)
  | interrupt
  | notify
  deriving DecidableEq, Repr

def step (b : ElevatorBank n) : Action → Exec (Answer × ElevatorBank n)
  | .wait ticks => do return (.void, { b with totalTicks := ← add32 b.totalTicks ticks })
  | .call c => b.call c
  | .interrupt =>
      match b.pending with
      | [] => .error .assertion
      | p :: rest => do
          assert (p.key ≤ b.totalTicks)
          let (notified, b) ← { b with pending := rest }.handleInterrupt
          return (.bool notified, b)
  | .notify => .ok (.bool b.notifiesControllers, b)

/-- The runs of a bank in which every action meets the condition. -/
def system (n : ℕ) (init : ElevatorBank n → Prop) (allowed : ElevatorBank n → Action → Prop) :
    System (ElevatorBank n) Action Answer where
  init := init
  step b a r b' := allowed b a ∧ b.step a = .ok (r, b')

/-- A bank as the constructor leaves it. -/
def Initial (b : ElevatorBank n) : Prop := ∃ numFlr now, b = new n numFlr now

end ElevatorBank

end Nachos
