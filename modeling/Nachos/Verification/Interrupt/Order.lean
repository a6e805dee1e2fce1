import Nachos.Verification.Interrupt.Timing

/-! # Interrupts of the same time

`CheckIfDue` puts an interrupt that is not due back behind those of the same time. Interrupts
of the same time occur in the order in which they have been scheduled if that never happens. -/

namespace Nachos

open Library

variable {φ γ ι : Type}

namespace Clock

variable {c c' : Clock}

/-- If the first interrupt is not due, then the next one is later. -/
def Spread (c : Clock) : Prop :=
  ∀ e ∈ c.pending.head?, c.stats.totalTicks < e.key → ∀ e' ∈ c.pending.tail.head?, e.key < e'.key

instance : DecidablePred Spread := fun c =>
  inferInstanceAs (Decidable (∀ e ∈ c.pending.head?, _ → ∀ e' ∈ c.pending.tail.head?, _))

/-- For each time, those that have been scheduled are, in this order, those that have occurred
and those on the list. -/
structure Ordered (c : Clock) : Prop where
  timed : Timed c
  split : ∀ w, c.scheduled.filter (fun p => decide (p.when = w)) =
    (c.fired.map Prod.fst).filter (fun p => decide (p.when = w)) ++
      (Keyed.withKey c.pending w).map Keyed.item

theorem Ordered.step (h : Ordered c) (hstep : Step Spread c c') : Ordered c' := by
  refine ⟨h.timed.step hstep, fun w => ?_⟩
  have hsplit := h.split w
  cases hstep with
  | mode | tick | fired | idle => exact hsplit
  | schedule type hpos =>
      rw [schedule_scheduled, schedule_fired, schedule_pending, List.filter_append, hsplit,
        Keyed.withKey_sortedInsert h.timed.sorted, List.map_append, List.append_assoc]
      congr 2
      simp only [Keyed.withKey, List.filter_cons, List.filter_nil]
      split <;> rfl
  | @fire e rest hp =>
      have hwhen : e.key = e.item.when := h.timed.key e (hp ▸ List.mem_cons_self)
      rw [hp] at hsplit
      rw [fire_scheduled, fire_fired, fire_pending, hsplit, List.map_append, List.filter_append]
      simp only [Keyed.withKey, List.filter_cons, List.map_cons, List.map_nil, List.filter_nil,
        hwhen]
      split <;> simp
  | @putBack e rest hspread hp hlate =>
      have hsame : Keyed.sortedInsert e rest = c.pending := by
        rw [hp]
        refine Keyed.sortedInsert_head fun x hx => ?_
        exact hspread e (by simp [hp]) hlate x (by simpa [hp] using hx)
      rw [hsame]
      exact hsplit

theorem Timed.nodup_scheduled (h : Timed c) : c.scheduled.Nodup := by
  refine List.Nodup.of_map PendingInterrupt.id ?_
  rw [h.ids]
  exact List.nodup_range

theorem Timed.nodup_pending (h : Timed c) : c.pending.Nodup :=
  (h.kept.nodup_iff.mp h.nodup_scheduled).of_append_right.of_map

theorem Ordered.pair (h : Ordered c) {a b : PendingInterrupt} (hab : [a, b].Sublist c.scheduled)
    (hwhen : a.when = b.when) (hb : b ∈ c.fired.map Prod.fst) :
    [a, b].Sublist (c.fired.map Prod.fst) :=
  pair_sublist_of_split (h.split b.when) h.timed.nodup_scheduled hab (decide_eq_true hwhen)
    (decide_eq_true rfl) hb

end Clock

namespace Kernel

variable {cfg : Config φ γ ι} {k k' : Kernel φ γ}

instance : DecidablePred (Checking (φ := φ) (γ := γ)) := fun k =>
  decidable_of_iff
    ((match k.current.stack with
      | .fireLoop :: _ | .idleLoop :: _ => true
      | _ => false) = true) (by
    unfold Checking
    split
    · simp_all
    · simp_all
    · rename_i hfire hidle
      simp only [Bool.false_eq_true, false_iff]
      rintro ⟨f, rest, hs, rfl | rfl⟩
      · exact hfire rest hs
      · exact hidle rest hs)

/-- No interrupt is about to be put back behind another one of the same time. -/
def Spaced (k : Kernel φ γ) : Prop := k.Checking → k.clock.Spread

instance : DecidablePred (Spaced (φ := φ) (γ := γ)) := fun k =>
  inferInstanceAs (Decidable (k.Checking → k.clock.Spread))

theorem ordered (h : (systemWhere cfg Initial fun k _ => k.Spaced).Reachable k) : k.clock.Ordered := by
  refine h.invariant (I := fun k : Kernel φ γ => k.clock.Ordered) ?_ ?_
  · rintro k ⟨main, client, values, machine, -, rfl⟩
    exact ⟨timed_start main client values machine, fun _ => rfl⟩
  · intro k env _ k' hk hstep
    exact steps_invariant (fun _ _ hc hs => hc.step hs) (step_clock hstep.2.2.2 hstep.1).steps hk

/-- `CheckIfDue(FALSE)` with nothing due. -/
theorem checkIfDue_pending_iff {schedPriority : Bool} {acts : List HandlerAct}
    (hnodup : k.interrupt.pending.Nodup)
    (hdue : ∀ e ∈ k.interrupt.pending, k.stats.totalTicks < e.key)
    (h : k.checkIfDue schedPriority false acts = .ok (false, k')) :
    k'.interrupt.pending = k.interrupt.pending ↔ k.clock.Spread := by
  unfold checkIfDue at h
  obtain ⟨u, -, h⟩ := bind_eq_ok.mp h
  split at h
  · rename_i hpending
    have hp : k.interrupt.pending = [] := hpending
    rw [← (Prod.mk.inj (Except.ok.inj h)).2]
    simp [Clock.Spread, clock, hp, emit]
  · rename_i e rest hpending
    have hp : k.interrupt.pending = e :: rest := hpending
    have hlate : k.stats.totalTicks < e.key := hdue e (hp ▸ List.mem_cons_self)
    rw [if_pos ⟨rfl, hlate⟩] at h
    rw [← (Prod.mk.inj (Except.ok.inj h)).2]
    rw [hp] at hnodup
    have hback := Keyed.sortedInsert_eq_cons_iff (List.nodup_cons.mp hnodup).1
    simpa [Clock.Spread, clock, hp, setPending, hlate] using hback

/-- If two interrupts have the same time, the one that has been scheduled first occurs first.
`CheckIfDue(FALSE)` leaves the list as it is, if nothing is due, just in case no other
interrupt has the time of the first one. -/
theorem same_time_in_order (h : (systemWhere cfg Initial fun k _ => k.Spaced).Reachable k) :
    (∀ a b, [a, b].Sublist k.clock.scheduled → a.when = b.when →
        b ∈ k.clock.fired.map Prod.fst → [a, b].Sublist (k.clock.fired.map Prod.fst)) ∧
      ∀ schedPriority acts k', (∀ e ∈ k.interrupt.pending, k.stats.totalTicks < e.key) →
        k.checkIfDue schedPriority false acts = .ok (false, k') →
          (k'.interrupt.pending = k.interrupt.pending ↔ k.clock.Spread) := by
  have hordered := ordered h
  exact ⟨fun a b hab hwhen hb => hordered.pair hab hwhen hb,
    fun schedPriority acts k' hdue hcheck =>
      checkIfDue_pending_iff hordered.timed.nodup_pending hdue hcheck⟩

/-- Two interrupts are scheduled and are due at the next tick. -/
def scheduleTwo (fromNow : ℤ) : Config ℕ Unit Unit :=
  .scripted false [[.schedule fromNow .disk, .schedule fromNow .elevator, .setLevel .off,
    .setLevel .on, .setLevel .off, .setLevel .on]] (by simp [Cmd.Public])

theorem same_time_in_order_scheduleTwo : ∃ k : Kernel ℕ Unit,
    [⟨0, 15, .disk⟩, ⟨1, 15, .elevator⟩].Sublist (k.clock.fired.map Prod.fst) := by
  obtain ⟨k, hobs, hk⟩ := exists_reachable_where (scheduleTwo 5) (fun k _ => k.Spaced) (calm 14)
    (start 0 () (fun _ => 0) none) (fun k => (k.clock.scheduled, k.clock.fired))
    ([⟨0, 15, .disk⟩, ⟨1, 15, .elevator⟩], [(⟨0, 15, .disk⟩, 20), (⟨1, 15, .elevator⟩, 20)])
    (by decide +kernel)
  obtain ⟨hscheduled, hfired⟩ := Prod.mk.inj hobs
  refine ⟨k, (same_time_in_order (hk _ (initial_start 0 ()))).1 _ _ ?_ rfl ?_⟩
  · rw [hscheduled]
  · simp [hfired]

/-- If another tick comes before, they occur in the other order. -/
theorem same_time_swapped : ∃ k : Kernel ℕ Unit,
    (system (scheduleTwo 15) Initial).Reachable k ∧
      k.clock.scheduled = [⟨0, 25, .disk⟩, ⟨1, 25, .elevator⟩] ∧
      k.clock.fired = [(⟨1, 25, .elevator⟩, 30), (⟨0, 25, .disk⟩, 30)] := by
  obtain ⟨k, hobs, hk⟩ := exists_reachable (scheduleTwo 15) (calm 20)
    (start 0 () (fun _ => 0) none) (fun k => (k.clock.scheduled, k.clock.fired))
    ([⟨0, 25, .disk⟩, ⟨1, 25, .elevator⟩], [(⟨1, 25, .elevator⟩, 30), (⟨0, 25, .disk⟩, 30)])
    (by decide +kernel)
  obtain ⟨hscheduled, hfired⟩ := Prod.mk.inj hobs
  exact ⟨k, hk _ (initial_start 0 ()), hscheduled, hfired⟩

end Kernel

end Nachos
