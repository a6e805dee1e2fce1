import Nachos.Model.Elevator

/-! # What a bank of elevators does in one step

A call sets one elevator in motion, redirects one that is moving, or moves none. In the loop
of `HandleInterrupt` each elevator that is due goes on by one floor. -/

namespace Nachos

open Library

/-- The two agree in what matters for the motion. -/
structure ElevatorInfo.Same (e e' : ElevatorInfo) : Prop where
  inMotion : e'.inMotion = e.inMotion
  lastFloor : e'.lastFloor = e.lastFloor
  willArrive : e'.willArrive = e.willArrive
  goingTo : e'.goingTo = e.goingTo

namespace ElevatorBank

variable {n : ℕ} {b b' b'' : ElevatorBank n} {i : Fin n} {e : ElevatorInfo}
  {inHandler intSched intSched' : Bool} {elevator onFloor : ℤ} {thread : ℕ}

/-! ## Calls that move nothing -/

/-- No elevator is affected, and more interrupts may be pending. -/
structure Quiet (b b' : ElevatorBank n) : Prop where
  same : ∀ i, (b.elevators i).Same (b'.elevators i)
  numFloors : b'.numFloors = b.numFloors
  totalTicks : b'.totalTicks = b.totalTicks
  pending : ∀ p ∈ b.pending, p ∈ b'.pending
  heading : b'.heading = b.heading
  history : b'.history = b.history

theorem Quiet.refl (b : ElevatorBank n) : Quiet b b :=
  ⟨fun _ => ⟨rfl, rfl, rfl, rfl⟩, rfl, rfl, fun _ hp => hp, rfl, rfl⟩

theorem Quiet.setElevator (b : ElevatorBank n) (he : (b.elevators i).Same e) :
    Quiet b (b.setElevator i e) := by
  refine ⟨fun j => ?_, rfl, rfl, fun _ hp => hp, rfl, rfl⟩
  by_cases hj : j = i
  · subst hj
    simpa [ElevatorBank.setElevator] using he
  · simpa [ElevatorBank.setElevator, hj] using (Quiet.refl b).same j

theorem Quiet.trans (h : Quiet b b') (h' : Quiet b' b'') : Quiet b b'' where
  same i := ⟨(h'.same i).inMotion.trans (h.same i).inMotion,
    (h'.same i).lastFloor.trans (h.same i).lastFloor,
    (h'.same i).willArrive.trans (h.same i).willArrive,
    (h'.same i).goingTo.trans (h.same i).goingTo⟩
  numFloors := h'.numFloors.trans h.numFloors
  totalTicks := h'.totalTicks.trans h.totalTicks
  pending p hp := h'.pending p (h.pending p hp)
  heading := h'.heading.trans h.heading
  history := h'.history.trans h.history

theorem schedule_eq_ok {fromNow : ℤ} (h : b.schedule fromNow = .ok b') :
    b' = { b with pending := Keyed.sortedInsert ⟨b.totalTicks + fromNow, .elevator⟩ b.pending } := by
  unfold schedule at h
  obtain ⟨when, hwhen, h⟩ := bind_eq_ok.mp h
  obtain ⟨_, _, h⟩ := bind_eq_ok.mp h
  rw [← Except.ok.inj h, add32_eq_ok hwhen]

theorem Quiet.of_postEvent (h : b.postEvent inHandler = .ok b') : Quiet b b' := by
  unfold postEvent at h
  split at h
  · rw [← Except.ok.inj h]
    exact .refl b
  · rw [schedule_eq_ok h]
    exact { Quiet.refl b with pending := fun p hp => Keyed.mem_sortedInsert.mpr (.inr hp) }

theorem Quiet.of_postRiders {ev : ElevatorEvent} {floor : ℤ}
    (h : b.postRiders ev floor elevator inHandler = .ok b') : Quiet b b' :=
  have hpost := Quiet.of_postEvent h
  ⟨hpost.same, hpost.numFloors, hpost.totalTicks, hpost.pending, hpost.heading, hpost.history⟩

theorem Quiet.of_postControllers {ev : ElevatorEvent} {floor : ℤ}
    (h : b.postControllers ev floor elevator inHandler = .ok b') : Quiet b b' :=
  have hpost := Quiet.of_postEvent h
  ⟨hpost.same, hpost.numFloors, hpost.totalTicks, hpost.pending, hpost.heading, hpost.history⟩

theorem Quiet.of_openDoors (h : b.openDoors elevator = .ok b') : Quiet b b' := by
  obtain ⟨i, _, h⟩ := bind_eq_ok.mp h
  obtain ⟨⟨floor, e⟩, he, h⟩ := bind_eq_ok.mp h
  obtain ⟨_, _, he⟩ := bind_eq_ok.mp he
  simp only [pure_eq_ok, Except.ok.injEq, Prod.mk.injEq] at he
  refine (Quiet.setElevator b ?_).trans (.of_postRiders h)
  rw [← he.2]
  exact ⟨rfl, rfl, rfl, rfl⟩

theorem Quiet.of_closeDoors (h : b.closeDoors elevator = .ok b') : Quiet b b' := by
  obtain ⟨i, _, h⟩ := bind_eq_ok.mp h
  obtain ⟨e, he, h⟩ := bind_eq_ok.mp h
  obtain ⟨_, _, he⟩ := bind_eq_ok.mp he
  rw [← Except.ok.inj h, ← Except.ok.inj he]
  exact .setElevator b ⟨rfl, rfl, rfl, rfl⟩

theorem Quiet.of_markDirection {dir : Direction} (h : b.markDirection elevator dir = .ok b') :
    Quiet b b' := by
  obtain ⟨i, _, h⟩ := bind_eq_ok.mp h
  rw [← Except.ok.inj h]
  exact .setElevator b ⟨rfl, rfl, rfl, rfl⟩

theorem Quiet.of_pressButton {goingTo : Direction} (h : b.pressButton onFloor goingTo = .ok b') :
    Quiet b b' := by
  obtain ⟨_, _, h⟩ := bind_eq_ok.mp h
  exact .of_postControllers h

theorem Quiet.of_pressFloor {goingToFloor : ℤ} (h : b.pressFloor goingToFloor elevator = .ok b') :
    Quiet b b' := by
  obtain ⟨_, _, h⟩ := bind_eq_ok.mp h
  obtain ⟨_, _, h⟩ := bind_eq_ok.mp h
  exact .of_postControllers h

theorem same_of_enter {e' : ElevatorInfo} {entered : Bool}
    (h : e.enter thread onFloor = .ok (entered, e')) : e.Same e' := by
  unfold ElevatorInfo.enter at h
  split at h
  · simp only [pure_eq_ok, Except.ok.injEq, Prod.mk.injEq] at h
    rw [← h.2]
    exact ⟨rfl, rfl, rfl, rfl⟩
  · obtain ⟨_, _, h⟩ := bind_eq_ok.mp h
    obtain ⟨_, _, h⟩ := bind_eq_ok.mp h
    simp only [pure_eq_ok, Except.ok.injEq, Prod.mk.injEq] at h
    rw [← h.2]
    exact ⟨rfl, rfl, rfl, rfl⟩

theorem same_of_exit {e' : ElevatorInfo} {left : Bool}
    (h : e.exit thread onFloor = .ok (left, e')) :
    e.Same e' := by
  unfold ElevatorInfo.exit at h
  split at h
  · simp only [pure_eq_ok, Except.ok.injEq, Prod.mk.injEq] at h
    rw [← h.2]
    exact ⟨rfl, rfl, rfl, rfl⟩
  · obtain ⟨_, _, h⟩ := bind_eq_ok.mp h
    split at h
    · cases h
    · obtain ⟨_, _, h⟩ := bind_eq_ok.mp h
      simp only [pure_eq_ok, Except.ok.injEq, Prod.mk.injEq] at h
      rw [← h.2]
      exact ⟨rfl, rfl, rfl, rfl⟩

theorem Quiet.of_enterElevator {entered : Bool}
    (h : b.enterElevator thread onFloor elevator = .ok (entered, b')) : Quiet b b' := by
  obtain ⟨_, _, h⟩ := bind_eq_ok.mp h
  obtain ⟨i, _, h⟩ := bind_eq_ok.mp h
  obtain ⟨⟨_, e⟩, he, h⟩ := bind_eq_ok.mp h
  simp only [pure_eq_ok, Except.ok.injEq, Prod.mk.injEq] at h
  rw [← h.2]
  exact .setElevator b (same_of_enter he)

theorem Quiet.of_exitElevator {left : Bool}
    (h : b.exitElevator thread onFloor elevator = .ok (left, b')) : Quiet b b' := by
  obtain ⟨_, _, h⟩ := bind_eq_ok.mp h
  obtain ⟨i, _, h⟩ := bind_eq_ok.mp h
  obtain ⟨⟨_, e⟩, he, h⟩ := bind_eq_ok.mp h
  simp only [pure_eq_ok, Except.ok.injEq, Prod.mk.injEq] at h
  rw [← h.2]
  exact .setElevator b (same_of_exit he)

theorem returned {x : Exec (ElevatorBank n)} {a r : Answer}
    (h : (do return (a, ← x)) = (.ok (r, b') : Exec _)) : x = .ok b' := by
  obtain ⟨_, hx, he⟩ := bind_eq_ok.mp h
  simp only [pure_eq_ok, Except.ok.injEq, Prod.mk.injEq] at he
  exact he.2 ▸ hx

/-- Only `MoveTo` moves an elevator. -/
theorem call_cases {c : Call} {r : Answer} (h : b.call c = .ok (r, b')) :
    Quiet b b' ∨ ∃ goingToFloor elevator, c = .moveTo goingToFloor elevator ∧
      b.moveTo goingToFloor elevator = .ok b' := by
  cases c with
  | openDoors elevator => exact .inl (.of_openDoors (returned h))
  | closeDoors elevator => exact .inl (.of_closeDoors (returned h))
  | moveTo goingToFloor elevator => exact .inr ⟨_, _, rfl, returned h⟩
  | whereIsElevator elevator =>
      obtain ⟨_, _, he⟩ := bind_eq_ok.mp h
      simp only [pure_eq_ok, Except.ok.injEq, Prod.mk.injEq] at he
      exact .inl (he.2 ▸ .refl b)
  | markDirection elevator dir => exact .inl (.of_markDirection (returned h))
  | getNextControllerEvent =>
      simp only [call, Except.ok.injEq, Prod.mk.injEq] at h
      rw [← h.2]
      exact .inl { Quiet.refl b with }
  | pressButton onFloor goingTo => exact .inl (.of_pressButton (returned h))
  | getDirection elevator =>
      obtain ⟨_, _, he⟩ := bind_eq_ok.mp h
      simp only [pure_eq_ok, Except.ok.injEq, Prod.mk.injEq] at he
      exact .inl (he.2 ▸ .refl b)
  | enterElevator thread onFloor elevator =>
      obtain ⟨⟨_, _⟩, h', he⟩ := bind_eq_ok.mp h
      simp only [pure_eq_ok, Except.ok.injEq, Prod.mk.injEq] at he
      exact .inl (.of_enterElevator (he.2 ▸ h'))
  | pressFloor goingToFloor elevator => exact .inl (.of_pressFloor (returned h))
  | exitElevator thread onFloor elevator =>
      obtain ⟨⟨_, _⟩, h', he⟩ := bind_eq_ok.mp h
      simp only [pure_eq_ok, Except.ok.injEq, Prod.mk.injEq] at he
      exact .inl (.of_exitElevator (he.2 ▸ h'))
  | getNextRiderEvent =>
      simp only [call, Except.ok.injEq, Prod.mk.injEq] at h
      rw [← h.2]
      exact .inl { Quiet.refl b with }

/-! ## `MoveTo` -/

/-- The elevator at rest sets out for the given floor. -/
def started (b : ElevatorBank n) (i : Fin n) (goingToFloor : ℤ) : ElevatorBank n :=
  let b' := (b.setElevator i { b.elevators i with
    goingTo := goingToFloor, willArrive := b.totalTicks + DelayPerFloor, inMotion := true }).leave i
  { b'.note i false with
    pending := Keyed.sortedInsert ⟨b.totalTicks + DelayPerFloor, .elevator⟩ b.pending }

/-- The elevator in motion gets a new destination. -/
def redirected (b : ElevatorBank n) (i : Fin n) (goingToFloor : ℤ) : ElevatorBank n :=
  b.setElevator i { b.elevators i with goingTo := goingToFloor }

theorem moveTo_cases {goingToFloor : ℤ} (h : b.moveTo goingToFloor elevator = .ok b') :
    ∃ i : Fin n, elevator = (i : ℕ) ∧ (0 ≤ goingToFloor ∧ goingToFloor < b.numFloors) ∧
      (((b.elevators i).inMotion = true ∧ b' = b.redirected i goingToFloor) ∨
        ((b.elevators i).inMotion = false ∧ (b.elevators i).lastFloor ≠ goingToFloor ∧
          b' = b.started i goingToFloor)) := by
  unfold moveTo at h
  obtain ⟨i, hi, h⟩ := bind_eq_ok.mp h
  obtain ⟨_, hfloor, h⟩ := bind_eq_ok.mp h
  obtain ⟨⟨started?, e⟩, he, h⟩ := bind_eq_ok.mp h
  have hindex : elevator = (i : ℕ) := by
    unfold index at hi
    split at hi
    · obtain rfl := Except.ok.inj hi
      simp only
      omega
    · cases hi
  refine ⟨i, hindex, of_assert hfloor, ?_⟩
  unfold ElevatorInfo.moveTo at he
  obtain ⟨_, hassert, he⟩ := bind_eq_ok.mp he
  obtain ⟨_, hmay⟩ := of_assert hassert
  split at he
  · rename_i hmoving
    simp only [pure_eq_ok, Except.ok.injEq, Prod.mk.injEq] at he
    obtain ⟨rfl, rfl⟩ := he
    simp only [Bool.false_eq_true, if_false, pure_eq_ok, Except.ok.injEq] at h
    exact .inl ⟨hmoving, h.symm⟩
  · rename_i hrest
    have hrest := Bool.eq_false_of_not_eq_true hrest
    obtain ⟨willArrive, hwill, he⟩ := bind_eq_ok.mp he
    simp only [pure_eq_ok, Except.ok.injEq, Prod.mk.injEq] at he
    obtain ⟨rfl, rfl⟩ := he
    rw [add32_eq_ok hwill] at h
    simp only [if_true] at h
    have hne : (b.elevators i).lastFloor ≠ goingToFloor := by simpa [hrest] using hmay
    exact .inr ⟨hrest, hne, schedule_eq_ok h⟩

/-! ## The loop of `HandleInterrupt` -/

/-- The elevator is in motion and has come to the next floor. -/
def Due (b : ElevatorBank n) (i : Fin n) : Prop :=
  (b.elevators i).inMotion = true ∧ (b.elevators i).willArrive ≤ b.totalTicks

/-- The floor after the last one is not the destination. -/
def Passing (b : ElevatorBank n) (i : Fin n) : Prop :=
  (b.elevators i).lastFloor + (b.elevators i).towards ≠ (b.elevators i).goingTo

/-- The elevator has gone on by one floor. -/
def moved (b : ElevatorBank n) (i : Fin n) (e : ElevatorInfo) : ElevatorBank n :=
  (b.setElevator i { e with lastFloor := e.lastFloor + e.towards }).note i true

/-- The ways in which a turn of the loop can go. -/
inductive Turn (b : ElevatorBank n) (i : Fin n) : Bool → Bool → ElevatorBank n → Prop
  | skip {intSched : Bool} (hdue : ¬ b.Due i) : Turn b i intSched intSched b
  | arrive {intSched : Bool} (hdue : b.Due i) (hpass : ¬ b.Passing i)
      (events : List PendingElevatorEvent) :
      Turn b i intSched intSched
        { b.moved i { b.elevators i with inMotion := false } with controllerEvents := events }
  | follow (hdue : b.Due i) (hpass : b.Passing i) :
      Turn b i true true ((b.moved i (b.elevators i)).leave i)
  | lead (hdue : b.Due i) (hpass : b.Passing i) :
      Turn b i false true { (b.moved i { b.elevators i with
          willArrive := (b.elevators i).willArrive + DelayPerFloor }).leave i with
        pending := Keyed.sortedInsert ⟨b.totalTicks + DelayPerFloor, .elevator⟩ b.pending }

@[simp] theorem setElevator_self (b : ElevatorBank n) (i : Fin n) (e : ElevatorInfo) :
    (b.setElevator i e).elevators i = e :=
  Function.update_self ..

@[simp] theorem note_elevators (b : ElevatorBank n) (i : Fin n) (passed : Bool) :
    (b.note i passed).elevators = b.elevators := rfl

theorem setElevator_eq_self (b : ElevatorBank n) (i : Fin n) :
    b.setElevator i (b.elevators i) = b := by
  simp [setElevator]

theorem arrive_eq_ok (hmoving : (b.elevators i).inMotion = true)
    (h : b.arrive i intSched = .ok (intSched', b')) :
    ((b.elevators i).lastFloor = (b.elevators i).goingTo ∧ intSched' = intSched ∧ ∃ events,
        b' = { b.setElevator i { b.elevators i with inMotion := false } with
          controllerEvents := events }) ∨
      ((b.elevators i).lastFloor ≠ (b.elevators i).goingTo ∧ intSched' = true ∧
        ((intSched = true ∧ b' = b.leave i) ∨
          (intSched = false ∧ b' = { (b.leave i).setElevator i { b.elevators i with
              willArrive := (b.elevators i).willArrive + DelayPerFloor } with
            pending := Keyed.sortedInsert ⟨b.totalTicks + DelayPerFloor, .elevator⟩
              b.pending }))) := by
  unfold arrive ElevatorInfo.checkArrived at h
  by_cases hfloor : (b.elevators i).lastFloor = (b.elevators i).goingTo
  · rw [if_pos ⟨hmoving, hfloor⟩] at h
    obtain ⟨_, hpost, h⟩ := bind_eq_ok.mp h
    obtain ⟨rfl, rfl⟩ := Prod.mk.inj (Except.ok.inj h)
    exact .inl ⟨hfloor, rfl, _, (Except.ok.inj hpost).symm⟩
  · rw [if_neg fun hc => hfloor hc.2] at h
    simp only [Bool.false_eq_true, if_false, setElevator_eq_self] at h
    cases intSched with
    | true =>
        obtain ⟨rfl, rfl⟩ := Prod.mk.inj (Except.ok.inj h)
        exact .inr ⟨hfloor, rfl, .inl ⟨rfl, rfl⟩⟩
    | false =>
        obtain ⟨willArrive, hwill, h⟩ := bind_eq_ok.mp h
        obtain ⟨_, hsched, h⟩ := bind_eq_ok.mp h
        obtain ⟨rfl, rfl⟩ := Prod.mk.inj (Except.ok.inj h)
        rw [add32_eq_ok hwill] at hsched
        exact .inr ⟨hfloor, rfl, .inr ⟨rfl, schedule_eq_ok hsched⟩⟩

theorem turn_cases (h : b.turn i intSched = .ok (intSched', b')) :
    Turn b i intSched intSched' b' := by
  unfold turn at h
  obtain ⟨⟨reached, e⟩, he, h⟩ := bind_eq_ok.mp h
  unfold ElevatorInfo.reachedNextFloor at he
  split at he
  · rename_i hdue
    obtain ⟨floor, hfloor, he⟩ := bind_eq_ok.mp he
    obtain ⟨rfl, rfl⟩ := Prod.mk.inj (Except.ok.inj he)
    obtain rfl := add32_eq_ok hfloor
    simp only [if_true] at h
    rcases arrive_eq_ok (by simpa using hdue.1) h with
      ⟨hat, rfl, events, rfl⟩ | ⟨hat, rfl, ⟨rfl, rfl⟩ | ⟨rfl, rfl⟩⟩
    · rw [note_elevators, setElevator_self] at hat
      convert Turn.arrive hdue (not_not.mpr hat) events using 1
      simp [moved, setElevator, note, ElevatorInfo.towards]
    · rw [note_elevators, setElevator_self] at hat
      exact .follow hdue hat
    · rw [note_elevators, setElevator_self] at hat
      convert Turn.lead hdue hat using 1
      simp [moved, setElevator, note, leave, ElevatorInfo.towards]
  · rename_i hdue
    obtain ⟨rfl, rfl⟩ := Prod.mk.inj (Except.ok.inj he)
    obtain ⟨rfl, rfl⟩ := Prod.mk.inj (Except.ok.inj h)
    exact .skip hdue

/-- A turn concerns one elevator. -/
theorem Turn.frame (h : Turn b i intSched intSched' b') :
    b'.numFloors = b.numFloors ∧ b'.totalTicks = b.totalTicks ∧
      ∀ j, j ≠ i → b'.elevators j = b.elevators j ∧ b'.heading j = b.heading j := by
  cases h with
  | skip => exact ⟨rfl, rfl, fun _ _ => ⟨rfl, rfl⟩⟩
  | arrive =>
      exact ⟨rfl, rfl, fun j hj => ⟨Function.update_of_ne hj _ _, rfl⟩⟩
  | follow =>
      exact ⟨rfl, rfl, fun j hj => ⟨Function.update_of_ne hj _ _, Function.update_of_ne hj _ _⟩⟩
  | lead =>
      exact ⟨rfl, rfl, fun j hj => ⟨Function.update_of_ne hj _ _, Function.update_of_ne hj _ _⟩⟩

/-- What each turn of the loop preserves, the loop preserves. A turn finds its elevator as it
was before the loop. -/
theorem turns_invariant {I : List (Fin n) → Bool → ElevatorBank n → Prop} {l : List (Fin n)}
    (b₀ : ElevatorBank n)
    (hstep : ∀ i rest s s' b b', i ∉ rest → b.elevators i = b₀.elevators i →
      b.heading i = b₀.heading i → b.totalTicks = b₀.totalTicks → I (i :: rest) s b →
      Turn b i s s' b' → I rest s' b')
    (h : turns l (intSched, b) = .ok (intSched', b')) (hnodup : l.Nodup)
    (hsame : ∀ i ∈ l, b.elevators i = b₀.elevators i ∧ b.heading i = b₀.heading i)
    (htime : b.totalTicks = b₀.totalTicks) (hI : I l intSched b) : I [] intSched' b' := by
  induction l generalizing intSched b with
  | nil =>
      obtain ⟨rfl, rfl⟩ := Prod.mk.inj (Except.ok.inj h)
      exact hI
  | cons i rest ih =>
      obtain ⟨⟨s, b₁⟩, hturn, h⟩ := bind_eq_ok.mp h
      have hturn := turn_cases hturn
      obtain ⟨hi, hnodup⟩ := List.nodup_cons.mp hnodup
      obtain ⟨_, htime₁, hframe⟩ := hturn.frame
      obtain ⟨helev, hhead⟩ := hsame i List.mem_cons_self
      refine ih h hnodup (fun j hj => ?_) (htime₁.trans htime)
        (hstep i rest _ _ _ _ hi helev hhead htime hI hturn)
      obtain ⟨helev, hhead⟩ := hframe j fun he => hi (he ▸ hj)
      obtain ⟨helev', hhead'⟩ := hsame j (List.mem_cons_of_mem i hj)
      exact ⟨helev.trans helev', hhead.trans hhead'⟩

/-! ## All steps -/

/-- The ways in which a step can go. -/
inductive Step (b : ElevatorBank n) : Action → ElevatorBank n → Prop
  | quiet {a : Action} {b' : ElevatorBank n} (ha : a ≠ .interrupt) (h : Quiet b b') : Step b a b'
  | wait (ticks : ℕ) : Step b (.wait ticks) { b with totalTicks := b.totalTicks + ticks }
  | start {i : Fin n} {goingToFloor : ℤ}
      (hfloor : 0 ≤ goingToFloor ∧ goingToFloor < b.numFloors)
      (hrest : (b.elevators i).inMotion = false) (hne : (b.elevators i).lastFloor ≠ goingToFloor) :
      Step b (.call (.moveTo goingToFloor (i : ℕ))) (b.started i goingToFloor)
  | redirect {i : Fin n} {goingToFloor : ℤ}
      (hfloor : 0 ≤ goingToFloor ∧ goingToFloor < b.numFloors)
      (hmoving : (b.elevators i).inMotion = true) :
      Step b (.call (.moveTo goingToFloor (i : ℕ))) (b.redirected i goingToFloor)
  | interrupt {p : Keyed IntType} {rest : List (Keyed IntType)} {intSched : Bool}
      {b' : ElevatorBank n} (hpending : b.pending = p :: rest) (hdue : p.key ≤ b.totalTicks)
      (hturns : turns (List.finRange n) (false, { b with pending := rest }) =
        .ok (intSched, b')) : Step b .interrupt b'

theorem step_cases {a : Action} {r : Answer} (h : b.step a = .ok (r, b')) : Step b a b' := by
  cases a with
  | wait ticks =>
      obtain ⟨_, htime, h⟩ := bind_eq_ok.mp h
      obtain ⟨-, rfl⟩ := Prod.mk.inj (Except.ok.inj h)
      rw [add32_eq_ok htime]
      exact .wait ticks
  | call c =>
      rcases call_cases h with hquiet | ⟨goingToFloor, elevator, rfl, hmove⟩
      · exact .quiet (by simp) hquiet
      · obtain ⟨i, rfl, hfloor, ⟨hmoving, rfl⟩ | ⟨hrest, hne, rfl⟩⟩ := moveTo_cases hmove
        · exact .redirect hfloor hmoving
        · exact .start hfloor hrest hne
  | interrupt =>
      simp only [step] at h
      split at h
      · cases h
      · rename_i p rest hpending
        obtain ⟨_, hdue, h⟩ := bind_eq_ok.mp h
        obtain ⟨⟨_, _⟩, hhandle, h⟩ := bind_eq_ok.mp h
        obtain ⟨⟨_, _⟩, hturns, hhandle⟩ := bind_eq_ok.mp hhandle
        obtain ⟨-, rfl⟩ := Prod.mk.inj (Except.ok.inj h)
        obtain ⟨-, rfl⟩ := Prod.mk.inj (Except.ok.inj hhandle)
        exact .interrupt hpending (of_assert hdue) hturns
  | notify =>
      obtain ⟨-, rfl⟩ := Prod.mk.inj (Except.ok.inj h)
      exact .quiet (by simp) (.refl b)

end ElevatorBank

end Nachos
