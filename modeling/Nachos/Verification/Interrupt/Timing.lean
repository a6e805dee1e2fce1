import Nachos.Verification.Interrupt.Clock
import Nachos.Verification.Kernel.Levels

/-! # Interrupts occur on time

Whatever is scheduled is on the pending list until it occurs. It does so once, not before its
time, and after all interrupts with an earlier time. -/

namespace Nachos

open Library

variable {φ γ ι : Type}

theorem Statistics.le_skipTo (stats : Statistics) (when : ℤ) :
    stats.totalTicks ≤ (stats.skipTo when).totalTicks ∧
      when ≤ (stats.skipTo when).totalTicks := by
  unfold Statistics.skipTo
  split
  · exact ⟨by dsimp only; omega, le_rfl⟩
  · exact ⟨le_rfl, by omega⟩

theorem Statistics.skipTo_of_le {stats : Statistics} {when : ℤ} (h : when ≤ stats.totalTicks) :
    stats.skipTo when = stats := if_neg (not_lt.mpr h)

/-- All time is spent idle, in the kernel or in the user program. -/
def Statistics.Conserved (stats : Statistics) : Prop :=
  stats.totalTicks = stats.idleTicks + stats.systemTicks + stats.userTicks

theorem Statistics.Conserved.skipTo {stats : Statistics} (h : stats.Conserved) (when : ℤ) :
    (stats.skipTo when).Conserved := by
  unfold Statistics.Conserved Statistics.skipTo at *
  split
  · dsimp only
    omega
  · exact h

namespace Clock

variable {Q : Clock → Prop} {c c' : Clock}

structure Timed (c : Clock) : Prop where
  sorted : Keyed.Sorted c.pending
  key : ∀ e ∈ c.pending, e.key = e.item.when
  ids : c.scheduled.map PendingInterrupt.id = List.range c.nextPending
  kept : c.scheduled.Perm (c.fired.map Prod.fst ++ c.pending.map Keyed.item)
  late : ∀ f ∈ c.fired, f.1.when ≤ f.2 ∧ f.2 ≤ c.stats.totalTicks
  ahead : ∀ f ∈ c.fired, ∀ e ∈ c.pending, f.1.when ≤ e.key
  order : (c.fired.map fun f => f.1.when).Pairwise (· ≤ ·)
  conserved : c.stats.Conserved

theorem Step.totalTicks_le (h : Step Q c c') : c.stats.totalTicks ≤ c'.stats.totalTicks := by
  cases h with
  | mode | schedule | fired | putBack => exact le_rfl
  | tick =>
      rw [tick_stats]
      split <;> simp
  | fire | idle => exact (Statistics.le_skipTo ..).1

/-- Time passes, but nothing happens to the interrupts. -/
theorem Timed.pass (h : Timed c) (hpending : c'.pending = c.pending)
    (hnext : c'.nextPending = c.nextPending) (hscheduled : c'.scheduled = c.scheduled)
    (hfired : c'.fired = c.fired) (hticks : c.stats.totalTicks ≤ c'.stats.totalTicks)
    (hconserved : c'.stats.Conserved) : Timed c' where
  sorted := hpending ▸ h.sorted
  key := hpending ▸ h.key
  ids := by
    rw [hscheduled, hnext]
    exact h.ids
  kept := by
    rw [hscheduled, hfired, hpending]
    exact h.kept
  late f hf := by
    have hold := h.late f (hfired ▸ hf)
    exact ⟨hold.1, hold.2.trans hticks⟩
  ahead := by
    rw [hfired, hpending]
    exact h.ahead
  order := hfired ▸ h.order
  conserved := hconserved

theorem Timed.schedule (h : Timed c) {fromNow : ℤ} (type : IntType) (hpos : 0 < fromNow) :
    Timed (c.schedule fromNow type) where
  sorted := h.sorted.sortedInsert _
  key e he := by
    rcases Keyed.mem_sortedInsert.mp he with rfl | he
    · rfl
    · exact h.key e he
  ids := by simp [h.ids, List.range_succ]
  kept := by
    have hinsert := (Keyed.sortedInsert_perm (⟨c.stats.totalTicks + fromNow, c.nextPending,
      c.stats.totalTicks + fromNow, type⟩ : Keyed PendingInterrupt) c.pending).map Keyed.item
    refine (h.kept.append_right _).trans ?_
    rw [List.append_assoc, schedule_fired, schedule_pending]
    exact (List.perm_append_comm.trans hinsert.symm).append_left _
  late := h.late
  ahead f hf e he := by
    rcases Keyed.mem_sortedInsert.mp he with rfl | he
    · have hlate := h.late f hf
      dsimp only
      omega
    · exact h.ahead f hf e he
  order := h.order
  conserved := h.conserved

theorem Timed.fire (h : Timed c) {e : Keyed PendingInterrupt}
    {rest : List (Keyed PendingInterrupt)} (hp : c.pending = e :: rest) :
    Timed (c.fire e rest) := by
  have hsorted := h.sorted
  have hkey := h.key
  have hkept := h.kept
  have hahead := h.ahead
  rw [hp] at hsorted hkey hkept hahead
  have hwhen : e.key = e.item.when := hkey e List.mem_cons_self
  have hticks := Statistics.le_skipTo c.stats e.key
  have hfirst := List.pairwise_cons.mp hsorted
  refine ⟨hfirst.2, fun a ha => hkey a (List.mem_cons_of_mem e ha), h.ids, ?_, ?_, ?_, ?_,
    h.conserved.skipTo _⟩
  · simpa using hkept
  · intro f hf
    rcases List.mem_append.mp hf with hf | hf
    · have hold := h.late f hf
      exact ⟨hold.1, hold.2.trans hticks.1⟩
    · rw [List.mem_singleton.mp hf]
      exact ⟨hwhen ▸ hticks.2, le_rfl⟩
  · intro f hf a ha
    rcases List.mem_append.mp hf with hf | hf
    · exact hahead f hf a (List.mem_cons_of_mem e ha)
    · rw [List.mem_singleton.mp hf]
      exact hwhen ▸ hfirst.1 a ha
  · rw [fire_fired, List.map_append]
    refine List.pairwise_append.mpr ⟨h.order, List.pairwise_singleton _ _, ?_⟩
    intro w hw w' hw'
    obtain ⟨f, hf, rfl⟩ := List.mem_map.mp hw
    rw [List.map_singleton, List.mem_singleton] at hw'
    rw [hw', ← hwhen]
    exact hahead f hf e List.mem_cons_self

theorem Timed.putBack (h : Timed c) {e : Keyed PendingInterrupt}
    {rest : List (Keyed PendingInterrupt)} (hp : c.pending = e :: rest) :
    Timed { c with pending := Keyed.sortedInsert e rest } := by
  have hperm : (Keyed.sortedInsert e rest).Perm c.pending := hp ▸ Keyed.sortedInsert_perm e rest
  have hsorted := h.sorted
  rw [hp] at hsorted
  have hrest : Keyed.Sorted rest := (List.pairwise_cons.mp hsorted).2
  exact { h with
    sorted := hrest.sortedInsert e
    key := fun a ha => h.key a (hperm.mem_iff.mp ha)
    kept := h.kept.trans ((hperm.symm.map Keyed.item).append_left _)
    ahead := fun f hf a ha => h.ahead f hf a (hperm.mem_iff.mp ha) }

theorem Timed.step (h : Timed c) (hstep : Step Q c c') : Timed c' := by
  have hticks := hstep.totalTicks_le
  cases hstep with
  | mode | fired => exact h.pass rfl rfl rfl rfl hticks h.conserved
  | schedule type hpos => exact h.schedule type hpos
  | tick =>
      refine h.pass rfl rfl rfl rfl hticks ?_
      have hconserved := h.conserved
      unfold Statistics.Conserved at *
      rw [tick_stats]
      split
      · dsimp only
        omega
      · dsimp only
        omega
  | fire hp => exact h.fire hp
  | idle hp => exact h.pass rfl rfl rfl rfl hticks (h.conserved.skipTo _)
  | putBack _ hp => exact h.putBack hp

/-- How many interrupts are due. -/
def due (c : Clock) : ℕ := c.pending.countP fun e => decide (e.key ≤ c.stats.totalTicks)

/-- What is scheduled is not due at once. -/
theorem due_schedule (c : Clock) {fromNow : ℤ} (type : IntType) (hpos : 0 < fromNow) :
    (c.schedule fromNow type).due = c.due := by
  unfold due
  rw [schedule_pending, schedule_stats, (Keyed.sortedInsert_perm _ _).countP_eq,
    List.countP_cons_of_neg]
  simpa using hpos

end Clock

namespace Kernel

variable {cfg : Config φ γ ι} {k k' : Kernel φ γ} {schedPriority : Bool} {acts : List HandlerAct}

theorem timed_start (main : φ) (client : γ) (values : ℕ → ℤ) (machine : Option Machine) :
    (start main client values machine).clock.Timed where
  sorted := List.Pairwise.nil
  key := List.forall_mem_nil _
  ids := rfl
  kept := .refl _
  late := List.forall_mem_nil _
  ahead := List.forall_mem_nil _
  order := List.Pairwise.nil
  conserved := rfl

theorem timed (h : (system cfg Initial).Reachable k) : k.clock.Timed := by
  refine h.invariant (I := fun k : Kernel φ γ => k.clock.Timed) ?_ ?_
  · rintro k ⟨main, client, values, machine, -, rfl⟩
    exact timed_start main client values machine
  · intro k env _ k' hk hstep
    exact steps_invariant (fun _ _ hc hs => hc.step hs)
      (step_clock (Q := fun _ => True) hstep.2.2 fun _ => trivial).steps hk

theorem totalTicks_le {env : Env ι} (h : k.step cfg env = .ok k') :
    k.stats.totalTicks ≤ k'.stats.totalTicks :=
  steps_invariant (I := fun c : Clock => k.stats.totalTicks ≤ c.stats.totalTicks)
    (fun _ _ hc hs => hc.trans hs.totalTicks_le)
    (step_clock (Q := fun _ => True) h fun _ => trivial).steps le_rfl

/-! ## The loop of `OneTick` -/

theorem handlerAct_due {act : HandlerAct} (h : k.handlerAct schedPriority act = .ok k') :
    k'.clock.due = k.clock.due := by
  rcases clock_apart.handlerAct h with ⟨fromNow, type, h⟩ | hclock
  · obtain ⟨hpos, hclock⟩ := clock_schedule h
    rw [hclock, Clock.due_schedule _ type hpos]
  · rw [hclock]

theorem handlerActs_due (h : k.handlerActs schedPriority acts = .ok k') :
    k'.clock.due = k.clock.due := by
  induction acts generalizing k with
  | nil => rw [← Except.ok.inj h]
  | cons act acts ih =>
      unfold handlerActs at h
      obtain ⟨k₁, hact, h⟩ := bind_eq_ok.mp h
      rw [ih h, handlerAct_due hact]

theorem fire_due {p : PendingInterrupt} (h : k.fire schedPriority acts p = .ok k') :
    k'.clock.due = k.clock.due := by
  unfold fire at h
  obtain ⟨k₁, hload, h⟩ := bind_eq_ok.mp h
  obtain ⟨k₂, hacts, h⟩ := bind_eq_ok.mp h
  have hk₁ : k₁.clock.due = k.clock.due := by rw [clock_finishLoad hload]
  have hk₂ := (handlerActs_due hacts).trans hk₁
  rw [← Except.ok.inj h]
  exact hk₂

/-- `CheckIfDue(FALSE)` returns `TRUE` if an interrupt has been due, which then occurs. -/
theorem checkIfDue_true (h : k.checkIfDue schedPriority false acts = .ok (true, k')) :
    k'.clock.due < k.clock.due := by
  unfold checkIfDue at h
  obtain ⟨u, -, h⟩ := bind_eq_ok.mp h
  split at h
  · cases h
  · rename_i e rest hpending
    have hp : k.interrupt.pending = e :: rest := hpending
    split at h
    · cases h
    · rename_i hdue
      have hle : e.key ≤ k.stats.totalTicks := by
        by_contra hlate
        exact hdue ⟨rfl, not_le.mp hlate⟩
      dsimp only at h
      split at h
      · cases h
      · obtain ⟨k₁, hfire, h⟩ := bind_eq_ok.mp h
        rw [← (Prod.mk.inj (Except.ok.inj h)).2, fire_due hfire]
        have hcount : k.clock.due =
            rest.countP (fun a => decide (a.key ≤ k.stats.totalTicks)) + 1 := by
          unfold Clock.due
          rw [show k.clock.pending = e :: rest from hp]
          exact List.countP_cons_of_pos (decide_eq_true hle)
        change rest.countP (fun a => decide (a.key ≤ (k.stats.skipTo e.key).totalTicks)) < _
        rw [Statistics.skipTo_of_le hle, hcount]
        exact Nat.lt_succ_self _

/-- It returns `FALSE` if nothing is due. -/
theorem checkIfDue_false (hsorted : Keyed.Sorted k.interrupt.pending)
    (hmode : k.interrupt.status ≠ .idle)
    (h : k.checkIfDue schedPriority false acts = .ok (false, k')) :
    ∀ e ∈ k'.interrupt.pending, k'.stats.totalTicks < e.key := by
  unfold checkIfDue at h
  obtain ⟨u, -, h⟩ := bind_eq_ok.mp h
  split at h
  · rename_i hpending
    rw [← (Prod.mk.inj (Except.ok.inj h)).2, hpending]
    exact List.forall_mem_nil _
  · rename_i e rest hpending
    have hp : k.interrupt.pending = e :: rest := hpending
    split at h
    · rename_i hlate
      rw [← (Prod.mk.inj (Except.ok.inj h)).2]
      rw [hp] at hsorted
      intro a ha
      rcases Keyed.mem_sortedInsert.mp ha with rfl | ha
      · exact hlate.2
      · exact hlate.2.trans_le ((List.pairwise_cons.mp hsorted).1 a ha)
    · dsimp only at h
      split at h
      · rename_i htimer
        exact absurd htimer.1 hmode
      · obtain ⟨k₁, hfire, h⟩ := bind_eq_ok.mp h
        cases h

/-- One turn of the loop: it ends, or one interrupt less is due. -/
theorem fireLoop_turn {rest : List (Frame φ)} (hshape : k.core.Shaped) (htimed : k.clock.Timed)
    {env : Env ι} (hs : k.current.stack = .fireLoop :: rest) (h : k.step cfg env = .ok k') :
    (k'.current.stack = rest ∧ ∀ e ∈ k'.interrupt.pending, k'.stats.totalTicks < e.key) ∨
      k'.current.stack = .fireLoop :: rest ∧ k'.clock.due < k.clock.due := by
  unfold step at h
  rw [hs] at h
  obtain ⟨⟨fired, k₁⟩, hcheck, h⟩ := bind_eq_ok.mp h
  have hstack : k₁.current.stack = rest := by
    refine (checkIfDue_stack hcheck).trans ?_
    rw [core_setStack]
    exact Core.stack_goto k.core rest
  dsimp only at h
  cases fired with
  | true =>
      rw [if_pos rfl] at h
      have hlt := checkIfDue_true hcheck
      rw [← Except.ok.inj h]
      refine .inr ⟨?_, hlt⟩
      rw [stack_push, hstack]
      rfl
  | false =>
      rw [if_neg Bool.false_ne_true] at h
      have hsorted : Keyed.Sorted (k.setStack rest).interrupt.pending := htimed.sorted
      have hmode : (k.setStack rest).interrupt.status ≠ .idle := hshape.awake hs id
      rw [← Except.ok.inj h]
      exact .inl ⟨hstack, checkIfDue_false hsorted hmode hcheck⟩

/-- The loop ends, with nothing due, unless a handler fails other than by an `ASSERT`. -/
theorem fireLoop_ends {rest : List (Frame φ)} (hshape : k.core.Shaped) (htimed : k.clock.Timed)
    (hin : k.interrupt.inHandler = false) (hs : k.current.stack = .fireLoop :: rest)
    (envs : ℕ → Env ι) (hproper : ∀ i, ∀ act ∈ (envs i).handler, HandlerAct.Proper act) :
    ∃ n ≤ k.clock.due + 1, ∃ k', steps cfg ((List.range n).map envs) k = .ok k' ∧
      ((k'.current.stack = rest ∧ ∀ e ∈ k'.interrupt.pending, k'.stats.totalTicks < e.key) ∨
        ∃ e, k'.step cfg (envs n) = .error e ∧ e ≠ .assertion) := by
  induction hn : k.clock.due using Nat.strong_induction_on generalizing k envs with
  | _ n ih =>
      cases hstep : k.step cfg (envs 0) with
      | error e =>
          refine ⟨0, Nat.zero_le _, k, rfl, .inr ⟨e, hstep, fun he => ?_⟩⟩
          exact step_ne_assertion hshape hin hs trivial (hproper 0) (he ▸ hstep)
      | ok k₁ =>
          rcases fireLoop_turn hshape htimed hs hstep with hend | ⟨hs₁, hlt⟩
          · exact ⟨1, Nat.succ_le_succ (Nat.zero_le _), k₁, steps_cons hstep rfl, .inl hend⟩
          · have hlegal : k.Legal := by
              intro t f rest' hs'
              rw [hs] at hs'
              cases hs'
            have hpasses := step_clock (Q := fun _ => True) hstep fun _ => trivial
            obtain ⟨m, hm, k', hsteps, hend⟩ := ih k₁.clock.due (hn ▸ hlt)
              (steps_invariant (fun _ _ hc hs => hc.step hs) (step_steps hlegal hstep) hshape)
              (steps_invariant (fun _ _ hc hs => hc.step hs) hpasses.steps htimed)
              (hpasses.inHandler hin) hs₁ (fun i => envs (i + 1)) (fun i => hproper (i + 1)) rfl
            refine ⟨m + 1, by omega, k', ?_, hend⟩
            rw [List.range_succ_eq_map, List.map_cons, List.map_map]
            exact steps_cons hstep hsteps

/-- Every interrupt that has occurred was scheduled; it did so once and not before its time, and
the times of interrupts that have occurred do not decrease. An interrupt that has not occurred
is on the pending list once. Time does not go back, and all of it is accounted for. The loop of
`OneTick` ends when nothing is due any more. -/
theorem interrupts_on_time (h : (system cfg Initial).Reachable k) :
    (∀ f ∈ k.clock.fired, f.1 ∈ k.clock.scheduled ∧ f.1.when ≤ f.2) ∧
      (k.clock.fired.map Prod.fst).Nodup ∧
      (k.clock.fired.map fun f => f.1.when).Pairwise (· ≤ ·) ∧
      (∀ p ∈ k.clock.scheduled, p ∉ k.clock.fired.map Prod.fst →
        (k.interrupt.pending.map Keyed.item).count p = 1) ∧
      k.stats.totalTicks = k.stats.idleTicks + k.stats.systemTicks + k.stats.userTicks ∧
      (∀ env k', k.step cfg env = .ok k' → k.stats.totalTicks ≤ k'.stats.totalTicks) ∧
      ∀ rest envs, k.current.stack = .fireLoop :: rest →
        (∀ i, ∀ act ∈ (envs i).handler, HandlerAct.Proper act) →
          ∃ n ≤ k.clock.due + 1, ∃ k', steps cfg ((List.range n).map envs) k = .ok k' ∧
            ((k'.current.stack = rest ∧
                ∀ e ∈ k'.interrupt.pending, k'.stats.totalTicks < e.key) ∨
              ∃ e, k'.step cfg (envs n) = .error e ∧ e ≠ .assertion) := by
  have htimed := timed h
  have hnodup : (k.clock.fired.map Prod.fst ++ k.clock.pending.map Keyed.item).Nodup := by
    refine htimed.kept.nodup_iff.mp (List.Nodup.of_map PendingInterrupt.id ?_)
    rw [htimed.ids]
    exact List.nodup_range
  refine ⟨fun f hf => ⟨?_, (htimed.late f hf).1⟩, hnodup.of_append_left, htimed.order, ?_,
    htimed.conserved, fun env k' hstep => totalTicks_le hstep, ?_⟩
  · exact htimed.kept.mem_iff.mpr (List.mem_append_left _ (List.mem_map_of_mem hf))
  · intro p hp hfired
    have hmem := htimed.kept.mem_iff.mp hp
    have hpending : p ∈ k.clock.pending.map Keyed.item :=
      (List.mem_append.mp hmem).resolve_left hfired
    exact List.count_eq_one_of_mem hnodup.of_append_right hpending
  · intro rest envs hs hproper
    exact fireLoop_ends (shaped h) htimed (inHandler_eq_false h) hs envs hproper

/-- An interrupt is scheduled and time passes. -/
def scheduleOne : Config ℕ Unit Unit :=
  .scripted false [[.schedule 5 .disk, .setLevel .off, .setLevel .on]] (by decide)

theorem interrupts_on_time_scheduleOne : ∃ k : Kernel ℕ Unit,
    k.clock.fired = [(⟨0, 15, .disk⟩, 20)] ∧ ⟨0, 15, .disk⟩ ∈ k.clock.scheduled := by
  obtain ⟨k, hobs, hk⟩ := exists_reachable scheduleOne (calm 10) (start 0 () (fun _ => 0) none)
    (fun k => k.clock.fired) [(⟨0, 15, .disk⟩, 20)] (by decide +kernel)
  have hfired := (interrupts_on_time (hk _ (initial_start 0 ()))).1 (⟨0, 15, .disk⟩, 20)
  exact ⟨k, hobs, (hfired (by simp [hobs])).1⟩

end Kernel

end Nachos
