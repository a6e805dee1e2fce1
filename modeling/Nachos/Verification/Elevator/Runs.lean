import Nachos.Verification.Elevator.Steps

/-! # Runs of a bank of elevators

No moving elevator is forgotten. That the elevators stay in the building depends on where
they are redirected to, and that they keep their speed on when interrupts occur. -/

namespace Nachos.ElevatorBank

open Library

variable {n : ℕ} {b b' : ElevatorBank n} {i : Fin n} {rest : List (Fin n)}
  {intSched intSched' : Bool}

/-! ## Pending interrupts -/

/-- An interrupt is pending that does not come too early for the elevator. -/
def Awaited (b : ElevatorBank n) (i : Fin n) : Prop :=
  ∃ p ∈ b.pending, (b.elevators i).willArrive ≤ p.key

/-- In the loop, an elevator that has lost its interrupt is still to be looked at. -/
structure Watched (l : List (Fin n)) (intSched : Bool) (b : ElevatorBank n) : Prop where
  awaited : ∀ i, (b.elevators i).inMotion = true → b.Awaited i ∨ (i ∈ l ∧ b.Due i)
  scheduled : intSched = true → ∃ p ∈ b.pending, b.totalTicks ≤ p.key

theorem Turn.watched (h : Turn b i intSched intSched' b') (hw : Watched (i :: rest) intSched b) :
    Watched rest intSched' b' := by
  have hframe := h.frame.2.2
  -- the interrupts that others wait for are still pending
  have hothers : (∀ p ∈ b.pending, p ∈ b'.pending) → ∀ j, j ≠ i →
      (b'.elevators j).inMotion = true → b'.Awaited j ∨ (j ∈ rest ∧ b'.Due j) := by
    intro hpending j hj hmoving
    rw [(hframe j hj).1] at hmoving
    rcases hw.awaited j hmoving with ⟨p, hp, hle⟩ | ⟨hmem, hdue⟩
    · exact .inl ⟨p, hpending p hp, by rwa [(hframe j hj).1]⟩
    · refine .inr ⟨(List.mem_cons.mp hmem).resolve_left hj, ?_⟩
      rwa [Due, (hframe j hj).1, h.frame.2.1]
  cases h with
  | skip hdue =>
      refine ⟨fun j hmoving => ?_, hw.scheduled⟩
      by_cases hj : j = i
      · subst hj
        exact .inl ((hw.awaited j hmoving).resolve_right fun h => hdue h.2)
      · exact hothers (fun _ hp => hp) j hj hmoving
  | arrive hdue hpass events =>
      refine ⟨fun j hmoving => ?_, hw.scheduled⟩
      by_cases hj : j = i
      · subst hj
        simp [moved] at hmoving
      · exact hothers (fun _ hp => hp) j hj hmoving
  | follow hdue hpass =>
      refine ⟨fun j hmoving => ?_, hw.scheduled⟩
      by_cases hj : j = i
      · subst hj
        obtain ⟨p, hp, hle⟩ := hw.scheduled rfl
        exact .inl ⟨p, hp, by simpa [leave, moved] using hdue.2.trans hle⟩
      · exact hothers (fun _ hp => hp) j hj hmoving
  | lead hdue hpass =>
      have hnew := Keyed.mem_sortedInsert (l := b.pending).mpr
        (.inl (rfl : (⟨b.totalTicks + DelayPerFloor, .elevator⟩ : Keyed IntType) = _))
      refine ⟨fun j hmoving => ?_, fun _ => ⟨_, hnew, ?_⟩⟩
      · by_cases hj : j = i
        · subst hj
          have hle := hdue.2
          exact .inl ⟨_, hnew, by simpa [leave, moved] using hle⟩
        · exact hothers (fun _ hp => Keyed.mem_sortedInsert.mpr (.inr hp)) j hj hmoving
      · change b.totalTicks ≤ b.totalTicks + DelayPerFloor
        simp

/-- Every moving elevator will be looked at when it is due, or later. -/
def Attended (b : ElevatorBank n) : Prop := ∀ i, (b.elevators i).inMotion = true → b.Awaited i

theorem Attended.quiet (hb : b.Attended) (h : Quiet b b') : b'.Attended := by
  intro i hmoving
  rw [(h.same i).inMotion] at hmoving
  obtain ⟨p, hp, hle⟩ := hb i hmoving
  exact ⟨p, h.pending p hp, by rwa [(h.same i).willArrive]⟩

theorem Attended.interrupt {p : Keyed IntType} {rest : List (Keyed IntType)} (hb : b.Attended)
    (hpending : b.pending = p :: rest) (hdue : p.key ≤ b.totalTicks)
    (hturns : turns (List.finRange n) (false, { b with pending := rest }) = .ok (intSched, b')) :
    b'.Attended := by
  -- an elevator that waited for the interrupt which occurs now is due
  have hstart : Watched (List.finRange n) false { b with pending := rest } := by
    refine ⟨fun i hmoving => ?_, by simp⟩
    obtain ⟨q, hq, hle⟩ := hb i hmoving
    rw [hpending] at hq
    rcases List.mem_cons.mp hq with rfl | hq
    · exact .inr ⟨List.mem_finRange i, hmoving, hle.trans hdue⟩
    · exact .inl ⟨q, hq, hle⟩
  have hend := turns_invariant (I := Watched) _ (fun _ _ _ _ _ _ _ _ _ _ hw h => h.watched hw)
    hturns (List.nodup_finRange n) (fun _ _ => ⟨rfl, rfl⟩) rfl hstart
  exact fun i hmoving => (hend.awaited i hmoving).resolve_right (by simp)

theorem Step.attended {a : Action} (h : Step b a b') (hb : b.Attended) : b'.Attended := by
  cases h with
  | quiet _ h => exact hb.quiet h
  | wait => exact hb
  | @start i goingToFloor =>
      intro j hmoving
      by_cases hj : j = i
      · subst hj
        exact ⟨_, Keyed.mem_sortedInsert.mpr (.inl rfl), by simp [started, leave]⟩
      · have helev : (b.started i goingToFloor).elevators j = b.elevators j :=
          Function.update_of_ne hj _ _
        rw [helev] at hmoving
        obtain ⟨p, hp, hle⟩ := hb j hmoving
        exact ⟨p, Keyed.mem_sortedInsert.mpr (.inr hp), by rwa [helev]⟩
  | @redirect i goingToFloor _ hmoving =>
      intro j hj
      by_cases hji : j = i
      · subst hji
        obtain ⟨p, hp, hle⟩ := hb j hmoving
        exact ⟨p, hp, by simpa [redirected] using hle⟩
      · have helev : (b.redirected i goingToFloor).elevators j = b.elevators j :=
          Function.update_of_ne hji _ _
        rw [helev] at hj
        obtain ⟨p, hp, hle⟩ := hb j hj
        exact ⟨p, hp, by rwa [helev]⟩
  | interrupt hpending hdue hturns => exact hb.interrupt hpending hdue hturns

/-- No moving elevator is left without an interrupt that comes once it is due. -/
theorem never_stranded (n : ℕ) (b : ElevatorBank n)
    (hreach : (system n Initial fun _ _ => True).Reachable b) (i : Fin n)
    (hmoving : (b.elevators i).inMotion = true) :
    ∃ p ∈ b.pending, (b.elevators i).willArrive ≤ p.key := by
  have hattended : b.Attended := by
    refine hreach.invariant (I := Attended) ?_ fun _ _ _ _ hb h => (step_cases h.2).attended hb
    rintro _ ⟨_, _, rfl⟩ i hmoving
    simp [new, ElevatorInfo.new] at hmoving
  exact hattended i hmoving

/-! ## Executions -/

/-- The state after the given actions, if all of them are allowed and succeed. -/
def execute (allowed : ElevatorBank n → Action → Prop) [∀ b a, Decidable (allowed b a)] :
    List Action → ElevatorBank n → Option (ElevatorBank n)
  | [], b => some b
  | a :: rest, b =>
      match b.step a with
      | .ok (_, b') => if allowed b a then execute allowed rest b' else none
      | .error _ => none

theorem reachable_execute {init : ElevatorBank n → Prop} {allowed : ElevatorBank n → Action → Prop}
    [∀ b a, Decidable (allowed b a)] {actions : List Action}
    (hb : (system n init allowed).Reachable b) (h : execute allowed actions b = some b') :
    (system n init allowed).Reachable b' := by
  induction actions generalizing b with
  | nil => exact Option.some.inj h ▸ hb
  | cons a rest ih =>
      unfold execute at h
      split at h
      · rename_i hstep
        split at h
        · rename_i hallowed
          exact ih (hb.step ⟨hallowed, hstep⟩) h
        · cases h
      · cases h

/-- What is observed at the end of an execution holds in a reachable state. -/
theorem exists_reachable {α : Type*} (init : ElevatorBank n → Prop)
    (allowed : ElevatorBank n → Action → Prop) [∀ b a, Decidable (allowed b a)]
    (actions : List Action) (b : ElevatorBank n) (hb : init b) (f : ElevatorBank n → α) (a : α)
    (h : (execute allowed actions b).map f = some a) :
    ∃ b', (system n init allowed).Reachable b' ∧ f b' = a := by
  obtain ⟨b', hb', hf⟩ := Option.map_eq_some_iff.mp h
  exact ⟨b', reachable_execute (.of_init hb) hb', hf⟩

/-- An elevator on its way from floor 0 to floor 2, after the first interrupt. -/
theorem never_stranded_halfway :
    ∃ b, (system 1 Initial fun _ _ => True).Reachable b ∧
      (b.elevators 0).inMotion = true ∧ ∃ p ∈ b.pending, (b.elevators 0).willArrive ≤ p.key := by
  obtain ⟨b, hb, hmoving⟩ := exists_reachable Initial (fun _ _ => True)
    [.call (.moveTo 2 0), .wait 100, .interrupt] (new 1 3 0) ⟨3, 0, rfl⟩
    (fun b => (b.elevators 0).inMotion) true (by decide +kernel)
  exact ⟨b, hb, hmoving, never_stranded 1 b hb 0 hmoving⟩

/-! ## Where the elevators are -/

/-- An elevator that is on its way is given no destination on the other side of its last
floor; nor is one on its way up sent back to that floor. -/
def KeepsCourse (b : ElevatorBank n) : Action → Prop
  | .call (.moveTo goingToFloor elevator) => ∀ i : Fin n, elevator = (i : ℕ) →
      (b.elevators i).inMotion = true →
      ((b.elevators i).lastFloor < goingToFloor ↔
        (b.elevators i).lastFloor < (b.elevators i).goingTo)
  | _ => True

instance (b : ElevatorBank n) (a : Action) : Decidable (b.KeepsCourse a) := by
  unfold KeepsCourse
  split <;> infer_instance

/-- Where the elevator is, goes and is heading for. -/
structure Placed (b : ElevatorBank n) (i : Fin n) : Prop where
  lastFloor : 0 ≤ (b.elevators i).lastFloor ∧ (b.elevators i).lastFloor < b.numFloors
  goingTo : 0 ≤ (b.elevators i).goingTo ∧ (b.elevators i).goingTo < b.numFloors
  course : (b.elevators i).inMotion = true →
    b.heading i = (b.elevators i).lastFloor + (b.elevators i).towards
  heading : (b.elevators i).inMotion = true → 0 ≤ b.heading i ∧ b.heading i < b.numFloors

theorem Placed.congr (hb : b.Placed i) (h : (b.elevators i).Same (b'.elevators i))
    (hfloors : b'.numFloors = b.numFloors) (hheading : b'.heading i = b.heading i) :
    b'.Placed i := by
  have htowards : (b'.elevators i).towards = (b.elevators i).towards := by
    rw [ElevatorInfo.towards, ElevatorInfo.towards, h.goingTo, h.lastFloor]
  refine ⟨?_, ?_, ?_, ?_⟩
  · rw [h.lastFloor, hfloors]
    exact hb.lastFloor
  · rw [h.goingTo, hfloors]
    exact hb.goingTo
  · rw [h.inMotion, htowards, h.lastFloor, hheading]
    exact hb.course
  · rw [h.inMotion, hheading, hfloors]
    exact hb.heading

/-- An elevator that sets out for another floor of the building is heading for one. -/
theorem placed_leave {e : ElevatorInfo} (hlast : 0 ≤ e.lastFloor ∧ e.lastFloor < b.numFloors)
    (hgoing : 0 ≤ e.goingTo ∧ e.goingTo < b.numFloors) (hne : e.lastFloor ≠ e.goingTo)
    (helev : b'.elevators i = e) (hfloors : b'.numFloors = b.numFloors)
    (hheading : b'.heading i = e.lastFloor + e.towards) : b'.Placed i := by
  refine ⟨by rwa [helev, hfloors], by rwa [helev, hfloors], fun _ => by rw [hheading, helev],
    fun _ => ?_⟩
  rw [hheading, hfloors, ElevatorInfo.towards]
  split <;> omega

theorem Turn.placed {j : Fin n} (h : Turn b i intSched intSched' b') (hi : b.Placed i)
    (hj : b.Placed j) : b'.Placed j := by
  obtain ⟨hfloors, _, hframe⟩ := h.frame
  by_cases hij : j = i
  · subst hij
    cases h with
    | skip => exact hj
    | arrive hdue hpass events =>
        have hlast := hj.heading hdue.1
        rw [hj.course hdue.1] at hlast
        refine ⟨?_, ?_, ?_, ?_⟩
        · simpa [moved, setElevator, note, ElevatorInfo.towards] using hlast
        · simpa [moved, setElevator, note] using hj.goingTo
        · simp [moved]
        · simp [moved]
    | follow hdue hpass =>
        have hlast := hj.heading hdue.1
        rw [hj.course hdue.1] at hlast
        refine placed_leave (b := b) (e := { b.elevators j with
            lastFloor := (b.elevators j).lastFloor + (b.elevators j).towards })
          hlast hj.goingTo hpass ?_ rfl ?_
        · simp [leave, moved]
        · simp [leave, moved]
    | lead hdue hpass =>
        have hlast := hj.heading hdue.1
        rw [hj.course hdue.1] at hlast
        refine placed_leave (b := b) (e := { b.elevators j with
            lastFloor := (b.elevators j).lastFloor + (b.elevators j).towards
            willArrive := (b.elevators j).willArrive + DelayPerFloor })
          hlast hj.goingTo hpass ?_ rfl ?_
        · simp [leave, moved, ElevatorInfo.towards]
        · simp [leave, moved, ElevatorInfo.towards]
  · obtain ⟨helev, hheading⟩ := hframe j hij
    exact hj.congr (by rw [helev]; exact ⟨rfl, rfl, rfl, rfl⟩) hfloors hheading

/-- How far an elevator comes in the loop. -/
structure Advanced (b₀ : ElevatorBank n) (l : List (Fin n)) (b : ElevatorBank n) : Prop where
  placed : ∀ i, b.Placed i
  floor : ∀ i, (b.elevators i).lastFloor = (b₀.elevators i).lastFloor ∨
    (i ∉ l ∧ (b₀.elevators i).inMotion = true ∧ (b.elevators i).lastFloor = b₀.heading i)

theorem Turn.advanced {b₀ : ElevatorBank n} (h : Turn b i intSched intSched' b') (hi : i ∉ rest)
    (helev : b.elevators i = b₀.elevators i) (hheading : b.heading i = b₀.heading i)
    (hb : Advanced b₀ (i :: rest) b) : Advanced b₀ rest b' := by
  refine ⟨fun j => h.placed (hb.placed i) (hb.placed j), fun j => ?_⟩
  by_cases hj : j = i
  · subst hj
    -- an elevator that is due comes to the floor for which it was heading
    have hdone : b.Due j → (b'.elevators j).lastFloor =
        (b.elevators j).lastFloor + (b.elevators j).towards →
        (b'.elevators j).lastFloor = (b₀.elevators j).lastFloor ∨ (j ∉ rest ∧
          (b₀.elevators j).inMotion = true ∧ (b'.elevators j).lastFloor = b₀.heading j) := by
      intro hdue hfloor
      refine .inr ⟨hi, helev ▸ hdue.1, ?_⟩
      rw [hfloor, ← (hb.placed j).course hdue.1, hheading]
    cases h with
    | skip => exact .inl (by rw [helev])
    | arrive hdue => exact hdone hdue (by simp [moved, ElevatorInfo.towards])
    | follow hdue => exact hdone hdue (by simp [leave, moved])
    | lead hdue => exact hdone hdue (by simp [leave, moved, ElevatorInfo.towards])
  · rw [(h.frame.2.2 j hj).1]
    refine (hb.floor j).imp_right fun hmoved => ⟨fun hmem => ?_, hmoved.2⟩
    exact hmoved.1 (List.mem_cons_of_mem i hmem)

theorem advanced_interrupt {rest : List (Keyed IntType)} (hb : ∀ i, b.Placed i)
    (hturns : turns (List.finRange n) (false, { b with pending := rest }) = .ok (intSched, b')) :
    Advanced b [] b' := by
  refine turns_invariant (I := fun l _ b' => Advanced b l b') b
    (fun i rest _ _ _ _ hi helev hheading _ hI h => h.advanced hi helev hheading hI) hturns
    (List.nodup_finRange n) (fun _ _ => ⟨rfl, rfl⟩) rfl ⟨fun i => ?_, fun _ => .inl rfl⟩
  exact (hb i).congr ⟨rfl, rfl, rfl, rfl⟩ rfl rfl

theorem Step.placed {a : Action} (h : Step b a b') (hkeeps : b.KeepsCourse a)
    (hb : ∀ i, b.Placed i) (i : Fin n) : b'.Placed i := by
  cases h with
  | quiet _ h => exact (hb i).congr (h.same i) h.numFloors (congrFun h.heading i)
  | wait => exact (hb i).congr ⟨rfl, rfl, rfl, rfl⟩ rfl rfl
  | @start j goingToFloor hfloor hrest hne =>
      by_cases hi : i = j
      · subst hi
        refine placed_leave (b := b) (e := { b.elevators i with
            goingTo := goingToFloor, willArrive := b.totalTicks + DelayPerFloor, inMotion := true })
          (hb i).lastFloor hfloor hne ?_ rfl ?_
        · simp [started, leave]
        · simp [started, leave, note]
      · have helev : (b.started j goingToFloor).elevators i = b.elevators i :=
          Function.update_of_ne hi _ _
        exact (hb i).congr (by rw [helev]; exact ⟨rfl, rfl, rfl, rfl⟩) rfl
          (Function.update_of_ne hi _ _)
  | @redirect j goingToFloor hfloor hmoving =>
      by_cases hi : i = j
      · subst hi
        have hsame := hkeeps i rfl hmoving
        have hcourse := (hb i).course hmoving
        refine ⟨?_, ?_, fun _ => ?_, fun _ => (hb i).heading hmoving⟩
        · simpa [redirected, setElevator] using (hb i).lastFloor
        · simpa [redirected, setElevator] using hfloor
        · simpa [redirected, setElevator, ElevatorInfo.towards, hsame] using hcourse
      · have helev : (b.redirected j goingToFloor).elevators i = b.elevators i :=
          Function.update_of_ne hi _ _
        exact (hb i).congr (by rw [helev]; exact ⟨rfl, rfl, rfl, rfl⟩) rfl rfl
  | interrupt hpending hdue hturns => exact (advanced_interrupt hb hturns).placed i

/-- A bank in a building with at least one floor. -/
def InitialFloors (b : ElevatorBank n) : Prop :=
  ∃ numFlr now, (0 < n → 0 < numFlr) ∧ b = new n numFlr now

/-- As long as no elevator is sent back on its way, the elevators stay in the building, and
one that moves comes to the floor it was heading for, which is the next one towards its
destination unless this is the floor that it has just left. -/
theorem elevators_stay (n : ℕ) (b : ElevatorBank n)
    (hreach : (system n InitialFloors KeepsCourse).Reachable b) :
    (∀ i, 0 ≤ (b.elevators i).lastFloor ∧ (b.elevators i).lastFloor < b.numFloors) ∧
    ∀ a r b', b.step a = .ok (r, b') → ∀ i,
      (b'.elevators i).lastFloor = (b.elevators i).lastFloor ∨
      (a = .interrupt ∧ (b'.elevators i).lastFloor = b.heading i ∧
        |b.heading i - (b.elevators i).lastFloor| = 1 ∧
        (|(b.elevators i).goingTo - b.heading i| <
            |(b.elevators i).goingTo - (b.elevators i).lastFloor| ∨
          (b.elevators i).goingTo = (b.elevators i).lastFloor)) := by
  have hplaced : ∀ i, b.Placed i := by
    refine hreach.invariant (I := fun b => ∀ i, b.Placed i) ?_
      fun _ _ _ _ hb h => (step_cases h.2).placed h.1 hb
    rintro _ ⟨numFlr, now, hfloors, rfl⟩ i
    have hpos := hfloors i.pos
    exact ⟨⟨le_rfl, hpos⟩, ⟨le_rfl, hpos⟩, by simp [new, ElevatorInfo.new],
      by simp [new, ElevatorInfo.new]⟩
  refine ⟨fun i => (hplaced i).lastFloor, fun a r b' h i => ?_⟩
  cases step_cases h with
  | quiet _ h => exact .inl (h.same i).lastFloor
  | wait => exact .inl rfl
  | @start j =>
      by_cases hi : i = j
      · subst hi
        exact .inl (by simp [started, leave])
      · exact .inl (congrArg _ (Function.update_of_ne hi _ _))
  | @redirect j =>
      by_cases hi : i = j
      · subst hi
        exact .inl (by simp [redirected])
      · exact .inl (congrArg _ (Function.update_of_ne hi _ _))
  | interrupt hpending hdue hturns =>
      refine ((advanced_interrupt hplaced hturns).floor i).imp_right ?_
      rintro ⟨-, hmoving, hfloor⟩
      have hcourse := (hplaced i).course hmoving
      refine ⟨rfl, hfloor, ?_, ?_⟩
      · rw [hcourse, ElevatorInfo.towards]
        split <;> simp
      · rw [hcourse, ElevatorInfo.towards]
        split <;> grind

/-- The elevator passes floor 1, is redirected to floor 3 and comes to floor 2. -/
theorem elevators_stay_redirected :
    ∃ b, (system 1 InitialFloors KeepsCourse).Reachable b ∧ (b.elevators 0).lastFloor = 2 ∧
      0 ≤ (b.elevators 0).lastFloor ∧ (b.elevators 0).lastFloor < b.numFloors := by
  obtain ⟨b, hb, hfloor⟩ := exists_reachable InitialFloors KeepsCourse
    [.call (.moveTo 2 0), .wait 100, .interrupt, .call (.moveTo 3 0), .wait 100, .interrupt]
    (new 1 4 0) ⟨4, 0, by decide, rfl⟩ (fun b => (b.elevators 0).lastFloor) 2 (by decide +kernel)
  exact ⟨b, hb, hfloor, (elevators_stay 1 b hb).1 0⟩

/-- An elevator that has left floor 0 and is sent back there comes to floor -1. -/
theorem elevator_leaves_building :
    ∃ b, (system 1 InitialFloors fun _ _ => True).Reachable b ∧ (b.elevators 0).lastFloor = -1 :=
  exists_reachable InitialFloors (fun _ _ => True)
    [.call (.moveTo 1 0), .call (.moveTo 0 0), .wait 100, .interrupt]
    (new 1 2 0) ⟨2, 0, by decide, rfl⟩ (fun b => (b.elevators 0).lastFloor) (-1) (by decide +kernel)

/-! ## How fast the elevators are -/

/-- At most one elevator passes a floor at which it does not stop, and it does so on time. -/
def OnTime (b : ElevatorBank n) : Action → Prop
  | .interrupt => ∀ i, b.Due i → b.Passing i →
      (b.elevators i).willArrive = b.totalTicks ∧ ∀ j, b.Due j → b.Passing j → j = i
  | _ => True

instance (b : ElevatorBank n) (a : Action) : Decidable (b.OnTime a) := by
  unfold OnTime Due Passing
  split <;> infer_instance

/-- What is recorded of an elevator is at least `DelayPerFloor` before it passes a floor. -/
def Spaced (x y : Motion n) : Prop :=
  y.passed = true → x.elevator = y.elevator → x.time + DelayPerFloor ≤ y.time

/-- The elevators have kept their speed and will do so. -/
structure Paced (b : ElevatorBank n) : Prop where
  past : ∀ m ∈ b.history, m.time ≤ b.totalTicks
  spaced : b.history.Pairwise Spaced
  next : ∀ i, (b.elevators i).inMotion = true → ∀ m ∈ b.history, m.elevator = i →
    m.time + DelayPerFloor ≤ (b.elevators i).willArrive

theorem Paced.note (hb : b.Paced) (i : Fin n) (passed : Bool)
    (hspaced : passed = true → ∀ m ∈ b.history, m.elevator = i →
      m.time + DelayPerFloor ≤ b.totalTicks) :
    (∀ m ∈ (b.note i passed).history, m.time ≤ b.totalTicks) ∧
      (b.note i passed).history.Pairwise Spaced := by
  simp only [ElevatorBank.note]
  constructor
  · intro m hm
    rcases List.mem_append.mp hm with hm | hm
    · exact hb.past m hm
    · rw [List.mem_singleton.mp hm]
  · refine List.pairwise_append.mpr ⟨hb.spaced, List.pairwise_singleton _ _, ?_⟩
    intro x hx y hy hpassed he
    rw [List.mem_singleton.mp hy] at hpassed he ⊢
    exact hspaced hpassed x hx he

/-- An elevator that is due goes on, in time for its next floor if it does not stop. -/
theorem Paced.pass {e : ElevatorInfo} (hb : b.Paced) (hdue : b.Due i)
    (helev : b'.elevators = Function.update b.elevators i e) (htime : b'.totalTicks = b.totalTicks)
    (hhistory : b'.history = (b.note i true).history)
    (hnext : e.inMotion = true → e.willArrive = b.totalTicks + DelayPerFloor) : b'.Paced := by
  obtain ⟨hpast, hspaced⟩ := hb.note i true fun _ m hm hi =>
    (hb.next i hdue.1 m hm hi).trans hdue.2
  refine ⟨?_, by rwa [hhistory], fun j hmoving m hm hj => ?_⟩
  · rw [hhistory, htime]
    exact hpast
  · rw [hhistory] at hm
    rw [helev] at hmoving ⊢
    by_cases hji : j = i
    · subst hji
      rw [Function.update_self] at hmoving ⊢
      rw [hnext hmoving]
      exact Int.add_le_add_right (hpast m hm) _
    · rw [Function.update_of_ne hji] at hmoving ⊢
      rcases List.mem_append.mp hm with hm | hm
      · exact hb.next j hmoving m hm hj
      · rw [List.mem_singleton.mp hm] at hj
        exact absurd hj.symm hji

theorem Turn.paced (h : Turn b i intSched intSched' b') (hb : b.Paced)
    (hfirst : b.Due i → b.Passing i →
      (b.elevators i).willArrive = b.totalTicks ∧ intSched = false) :
    b'.Paced := by
  cases h with
  | skip => exact hb
  | arrive hdue hpass events => exact hb.pass hdue rfl rfl rfl (by simp)
  | follow hdue hpass => exact absurd (hfirst hdue hpass).2 (by simp)
  | lead hdue hpass =>
      refine hb.pass hdue rfl rfl rfl fun _ => ?_
      simp [(hfirst hdue hpass).1]

/-- In the loop, an interrupt has been scheduled only for an elevator that has had its turn. -/
structure Timed (b₀ : ElevatorBank n) (l : List (Fin n)) (intSched : Bool) (b : ElevatorBank n) :
    Prop where
  paced : b.Paced
  scheduled : intSched = true → ∃ j, j ∉ l ∧ b₀.Due j ∧ b₀.Passing j

theorem Turn.timed {b₀ : ElevatorBank n} (h : Turn b i intSched intSched' b') (hi : i ∉ rest)
    (helev : b.elevators i = b₀.elevators i) (htime : b.totalTicks = b₀.totalTicks)
    (honTime : b₀.OnTime .interrupt) (hb : Timed b₀ (i :: rest) intSched b) :
    Timed b₀ rest intSched' b' := by
  have hsame : (b.Due i ↔ b₀.Due i) ∧ (b.Passing i ↔ b₀.Passing i) := by
    simp only [Due, Passing, helev, htime, and_self]
  refine ⟨h.paced hb.paced fun hdue hpass => ?_, fun hsched => ?_⟩
  · obtain ⟨hwill, honly⟩ := honTime i (hsame.1.mp hdue) (hsame.2.mp hpass)
    refine ⟨by rw [helev, hwill, htime], Bool.eq_false_of_not_eq_true fun hsched => ?_⟩
    obtain ⟨j, hj, hdue', hpass'⟩ := hb.scheduled hsched
    exact hj (honly j hdue' hpass' ▸ List.mem_cons_self)
  · have hkeep : intSched = true → ∃ j, j ∉ rest ∧ b₀.Due j ∧ b₀.Passing j := fun hs =>
      let ⟨j, hj, hrest⟩ := hb.scheduled hs
      ⟨j, fun hmem => hj (List.mem_cons_of_mem i hmem), hrest⟩
    cases h with
    | skip => exact hkeep hsched
    | arrive => exact hkeep hsched
    | follow => exact hkeep hsched
    | lead hdue hpass => exact ⟨i, hi, hsame.1.mp hdue, hsame.2.mp hpass⟩

theorem Step.paced {a : Action} (h : Step b a b') (honTime : b.OnTime a) (hb : b.Paced) :
    b'.Paced := by
  cases h with
  | quiet _ h =>
      refine ⟨by rw [h.history, h.totalTicks]; exact hb.past, by rw [h.history]; exact hb.spaced,
        fun i hmoving => ?_⟩
      rw [(h.same i).inMotion] at hmoving
      rw [h.history, (h.same i).willArrive]
      exact hb.next i hmoving
  | wait ticks => exact ⟨fun m hm => (hb.past m hm).trans (by simp), hb.spaced, hb.next⟩
  | @start i goingToFloor hfloor hrest hne =>
      obtain ⟨hpast, hspaced⟩ := hb.note i false (by simp)
      refine ⟨hpast, hspaced, fun j hmoving m hm hj => ?_⟩
      by_cases hji : j = i
      · subst hji
        have hwill : ((b.started j goingToFloor).elevators j).willArrive =
            b.totalTicks + DelayPerFloor := by simp [started, leave]
        rw [hwill]
        exact Int.add_le_add_right (hpast m hm) _
      · have helev : (b.started i goingToFloor).elevators j = b.elevators j :=
          Function.update_of_ne hji _ _
        rw [helev] at hmoving ⊢
        rcases List.mem_append.mp hm with hm | hm
        · exact hb.next j hmoving m hm hj
        · rw [List.mem_singleton.mp hm] at hj
          exact absurd hj.symm hji
  | @redirect i goingToFloor hfloor hmoving' =>
      refine ⟨hb.past, hb.spaced, fun j hmoving m hm hj => ?_⟩
      by_cases hji : j = i
      · subst hji
        have := hb.next j hmoving' m hm hj
        simpa [redirected] using this
      · have helev : (b.redirected i goingToFloor).elevators j = b.elevators j :=
          Function.update_of_ne hji _ _
        rw [helev] at hmoving ⊢
        exact hb.next j hmoving m hm hj
  | @interrupt p rest intSched b' hpending hdue hturns =>
      have hend := turns_invariant (I := Timed b) b
        (fun i rest _ _ _ _ hi helev _ htime hI h => h.timed hi helev htime honTime hI) hturns
        (List.nodup_finRange n) (fun _ _ => ⟨rfl, rfl⟩) rfl
        ⟨⟨hb.past, hb.spaced, hb.next⟩, by simp⟩
      exact hend.paced

/-- If at every interrupt at most one elevator passes a floor without stopping, and on time,
then from its start, and from one floor to the next, an elevator takes `DelayPerFloor` ticks
or more. -/
theorem elevators_keep_speed (n : ℕ) (b : ElevatorBank n)
    (hreach : (system n Initial OnTime).Reachable b) : b.history.Pairwise Spaced := by
  have hpaced : b.Paced := by
    refine hreach.invariant (I := Paced) ?_ fun _ _ _ _ hb h => (step_cases h.2).paced h.1 hb
    rintro _ ⟨_, _, rfl⟩
    exact ⟨by simp [new], by simp [new], by simp [new]⟩
  exact hpaced.spaced

theorem elevators_keep_speed_two_floors :
    ∃ b, (system 1 Initial OnTime).Reachable b ∧
      b.history = [⟨0, 0, false⟩, ⟨0, 100, true⟩, ⟨0, 200, true⟩] ∧ b.history.Pairwise Spaced := by
  obtain ⟨b, hb, hhistory⟩ := exists_reachable Initial OnTime
    [.call (.moveTo 2 0), .wait 100, .interrupt, .wait 100, .interrupt]
    (new 1 3 0) ⟨3, 0, rfl⟩ (fun b => b.history)
    [⟨0, 0, false⟩, ⟨0, 100, true⟩, ⟨0, 200, true⟩] (by decide +kernel)
  exact ⟨b, hb, hhistory, elevators_keep_speed 1 b hb⟩

/-- Of two elevators that set out together, the second passes two floors at the same time. -/
theorem elevator_too_fast :
    ∃ b, (system 2 Initial fun _ _ => True).Reachable b ∧
      b.history = [⟨0, 0, false⟩, ⟨1, 0, false⟩, ⟨0, 100, true⟩, ⟨1, 100, true⟩, ⟨1, 100, true⟩] :=
  exists_reachable Initial (fun _ _ => True)
    [.call (.moveTo 2 0), .call (.moveTo 2 1), .wait 100, .interrupt, .interrupt]
    (new 2 3 0) ⟨3, 0, rfl⟩ (fun b => b.history) _ (by decide +kernel)

end Nachos.ElevatorBank
