import Nachos.Verification.Interrupt.Timing
import Nachos.Verification.Tasks.Refinement

/-! # Interrupts and what threads have to do

An invariant may depend on the interrupts that have been scheduled and that have occurred. The
one that occurs is the first of those that are pending, and what its handler does may depend on
it. -/

namespace Nachos

open Library

variable {φ γ ι : Type}

namespace Core

variable {cfg : Config φ γ ι} {c c' c₀ : Core φ γ}

/-- How many interrupts of a type have been scheduled and have not occurred. -/
def pendingOf (type : IntType) (l : List (PendingInterrupt × Bool)) : ℤ :=
  (l.map fun x => if x.1.type = type then (if x.2 then -1 else 1) else 0).sum

@[simp] theorem pendingOf_nil (type : IntType) : pendingOf type [] = 0 := rfl

@[simp] theorem pendingOf_append (type : IntType) (l l' : List (PendingInterrupt × Bool)) :
    pendingOf type (l ++ l') = pendingOf type l + pendingOf type l' := by
  simp [pendingOf]

@[simp] theorem pendingOf_singleton (type : IntType) (x : PendingInterrupt × Bool) :
    pendingOf type [x] = if x.1.type = type then (if x.2 then -1 else 1) else 0 := by
  simp [pendingOf]

theorem pendingOf_eq_zero {type : IntType} {l : List (PendingInterrupt × Bool)}
    (h : ∀ x ∈ l, x.1.type ≠ type) : pendingOf type l = 0 := by
  refine List.sum_eq_zero fun n hn => ?_
  obtain ⟨x, hx, rfl⟩ := List.mem_map.mp hn
  exact if_neg (h x hx)

theorem timing_append (log es : List (Event φ)) : timing (log ++ es) = timing log ++ timing es :=
  List.filterMap_append

theorem tasks_pending (c : Core φ γ) (type : IntType) :
    c.tasks.pending type = pendingOf type (timing c.log) := by
  have hsum : ∀ log : List (Event φ),
      (log.map (Event.pending type)).sum = pendingOf type (timing log) := by
    intro log
    induction log with
    | nil => rfl
    | cons e log ih =>
        have hcons : timing (e :: log) = timing [e] ++ timing log := timing_append [e] log
        rw [List.map_cons, List.sum_cons, ih, hcons, pendingOf_append]
        congr 1
        cases e <;> simp [Event.pending, timing, List.filterMap_cons]
  exact hsum c.log

theorem occurred_eq (log : List (Event φ)) :
    occurred log = (timing log).filterMap fun x => if x.2 then some x.1 else none := rfl

theorem Still.timing_eq (h : Still c c') : timing c'.log = timing c.log := by
  cases h with
  | quiet => rfl
  | check => simp [timing]

theorem Own.timing_cases (h : Own cfg c₀ c c') :
    timing c'.log = timing c.log ∨ ∃ p, timing c'.log = timing c.log ++ [(p, false)] := by
  cases h with
  | step _ _ _ ht => exact .inl ht
  | @schedule _ _ _ p => exact .inr ⟨p, by simp [timing]⟩
  | still h => exact .inl h.timing_eq

/-- What a handler schedules. -/
theorem Handled.timing_eq {schedPriority : Bool} {acts : List HandlerAct}
    (h : Handled schedPriority acts c c') : ∃ ps : List PendingInterrupt,
      timing c'.log = timing c.log ++ ps.map (·, false) ∧
      ∀ p ∈ ps, ∃ n, .schedule n p.type ∈ acts := by
  induction h with
  | nil => exact ⟨[], by simp, by simp⟩
  | @schedule fromNow type acts c c' p hp _ ih =>
      obtain ⟨ps, hlog, hps⟩ := ih
      refine ⟨p :: ps, ?_, fun q hq => ?_⟩
      · rw [hlog, emit_log, timing_append, List.append_assoc]
        rfl
      · rcases List.mem_cons.mp hq with rfl | hq
        · exact ⟨fromNow, hp ▸ List.mem_cons_self⟩
        · obtain ⟨n, hn⟩ := hps q hq
          exact ⟨n, List.mem_cons_of_mem _ hn⟩
  | up _ _ ih | upWake _ _ ih =>
      obtain ⟨ps, hlog, hps⟩ := ih
      refine ⟨ps, ?_, fun q hq => ?_⟩
      · rw [hlog]
        simp [timing, List.filterMap_cons]
      · obtain ⟨n, hn⟩ := hps q hq
        exact ⟨n, List.mem_cons_of_mem _ hn⟩
  | yieldOnReturn _ ih =>
      obtain ⟨ps, hlog, hps⟩ := ih
      refine ⟨ps, hlog, fun q hq => ?_⟩
      obtain ⟨n, hn⟩ := hps q hq
      exact ⟨n, List.mem_cons_of_mem _ hn⟩

end Core

namespace Kernel

variable {cfg : Config φ γ ι} {env : Env ι} {k k' : Kernel φ γ}

/-! ## The interrupt that occurs -/

/-- `CheckIfDue` fires the first of the pending interrupts. -/
theorem checkIfDue_occurred {schedPriority advanceClock fired : Bool} {acts : List HandlerAct}
    (h : k.checkIfDue schedPriority advanceClock acts = .ok (fired, k')) :
    Core.occurred k'.log = Core.occurred k.log ∨ ∃ e rest, k.interrupt.pending = e :: rest ∧
      Core.occurred k'.log = Core.occurred k.log ++ [e.item] := by
  have hcheck : Core.occurred (k.emit (.checkIfDue k.level)).log = Core.occurred k.log := by
    simp [emit, Core.occurred, Core.timing]
  unfold checkIfDue at h
  obtain ⟨u, hassert, h⟩ := bind_eq_ok.mp h
  have hoff : k.level = .off := of_assert hassert
  split at h
  · rw [← (Prod.mk.inj (Except.ok.inj h)).2]
    exact .inl hcheck
  · rename_i e pending hpending
    split at h
    · rw [← (Prod.mk.inj (Except.ok.inj h)).2]
      exact .inl hcheck
    · dsimp only at h
      split at h
      · rw [← (Prod.mk.inj (Except.ok.inj h)).2]
        exact .inl hcheck
      · obtain ⟨k₁, hfire, h⟩ := bind_eq_ok.mp h
        obtain ⟨now, hhandled⟩ := fire_handled hfire hoff
        have hlog := hhandled.occurred_eq
        rw [Core.emit_log, Core.occurred_append] at hlog
        rw [← (Prod.mk.inj (Except.ok.inj h)).2]
        exact .inr ⟨e, pending, hpending, hlog.trans (congrArg (· ++ [e.item]) hcheck)⟩

theorem firing_of_still {c c₁ : Core φ γ} (h : Relation.ReflTransGen Core.Still c c₁) {f : Frame φ}
    {rest : List (Frame φ)} (hs : c₁.stack c₁.current = f :: rest) (hf : Core.Firing f) :
    ∃ f rest, c.stack c.current = f :: rest ∧ Core.Firing f := by
  rcases h.cases_head with rfl | ⟨c₂, hstill, -⟩
  · exact ⟨f, rest, hs, hf⟩
  · cases hstill with
    | quiet hs hf | check hs hf => exact ⟨_, _, hs, hf⟩

/-- An interrupt that occurs in a step was the first of those that were pending. -/
theorem pending_of_occurred (hlegal : k.Legal) (h : k.step cfg env = .ok k')
    {p : PendingInterrupt} (hp : Core.occurred k'.log = Core.occurred k.log ++ [p]) :
    ∃ e rest, k.interrupt.pending = e :: rest ∧ e.item = p := by
  have hne : Core.occurred k'.log ≠ Core.occurred k.log := by simp [hp]
  have hcheck : ∀ k₁ : Kernel φ γ, k₁.interrupt.pending = k.interrupt.pending →
      k₁.log = k.log → ∀ advanceClock fired k₂,
      k₁.checkIfDue cfg.schedPriority advanceClock env.handler = .ok (fired, k₂) →
      k'.log = k₂.log → ∃ e rest, k.interrupt.pending = e :: rest ∧ e.item = p := by
    intro k₁ hpending hlog advanceClock fired k₂ hcheck hlog'
    rcases checkIfDue_occurred hcheck with hsame | ⟨e, rest, he, happend⟩
    · exact absurd (by rw [hlog', hsame, hlog]) hne
    · refine ⟨e, rest, hpending ▸ he, ?_⟩
      rw [hlog', happend, hlog] at hp
      simpa using hp
  have hfiring : ∃ f rest, k.current.stack = f :: rest ∧ Core.Firing f := by
    cases step_moves hlegal h with
    | own hown =>
        refine absurd (steps_invariant (I := fun c : Core φ γ => Core.occurred c.log =
          Core.occurred k.log) (fun _ _ hc hs => hs.occurred_eq.trans hc) hown rfl) hne
    | fired hpre hs hf => exact firing_of_still hpre hs hf
  obtain ⟨f, rest, hs, hf⟩ := hfiring
  unfold step at h
  rw [hs] at h
  cases f with
  | fireLoop =>
      obtain ⟨⟨fired, k₂⟩, hdue, h⟩ := bind_eq_ok.mp h
      refine hcheck (k.setStack rest) rfl rfl _ _ _ hdue ?_
      cases fired <;> cases h <;> rfl
  | idle =>
      obtain ⟨⟨fired, k₂⟩, hdue, h⟩ := bind_eq_ok.mp h
      refine hcheck ((k.setStack rest).changeStatus .idle) rfl rfl _ _ _ hdue ?_
      cases fired <;> cases h <;> rfl
  | idleLoop =>
      obtain ⟨⟨fired, k₂⟩, hdue, h⟩ := bind_eq_ok.mp h
      refine hcheck (k.setStack rest) rfl rfl _ _ _ hdue ?_
      cases fired <;> cases h <;> rfl
  | _ => exact hf.elim

/-- What is pending is what has been scheduled and has not occurred. -/
theorem pending_eq_countP (h : k.clock.Timed) (type : IntType) :
    k.core.tasks.pending type = k.interrupt.pending.countP (·.item.type = type) := by
  have hsplit : ∀ log : List (Event φ), (log.map (Event.pending type)).sum =
      ((log.filterMap Event.scheduled?).countP (·.type = type) : ℤ) -
        (log.filterMap Event.fired?).countP (·.1.type = type) := by
    intro log
    induction log with
    | nil => rfl
    | cons e log ih =>
        rw [List.map_cons, List.sum_cons, ih]
        cases e with
        | scheduled p | fired p now =>
            by_cases hp : p.type = type
            · simp [Event.pending, List.filterMap_cons, hp]
              omega
            · simp [Event.pending, List.filterMap_cons, hp]
        | _ => simp [Event.pending, List.filterMap_cons]
  have hcount := h.kept.countP_eq (·.type = type)
  rw [List.countP_append, List.countP_map, List.countP_map] at hcount
  have hlog : k.core.tasks.pending type = (k.clock.scheduled.countP (·.type = type) : ℤ) -
      k.clock.fired.countP (·.1.type = type) := hsplit k.log
  rw [hlog, hcount, Nat.cast_add]
  exact add_sub_cancel_left _ _

/-- An interrupt that occurs has been pending. -/
theorem one_le_pending (htimed : k.clock.Timed) (hlegal : k.Legal) (h : k.step cfg env = .ok k')
    {p : PendingInterrupt} (hp : Core.occurred k'.log = Core.occurred k.log ++ [p]) :
    1 ≤ k.core.tasks.pending p.type := by
  obtain ⟨e, rest, hpending, rfl⟩ := pending_of_occurred hlegal h hp
  rw [pending_eq_countP htimed, hpending]
  simp

/-! ## Invariants -/

theorem still_timing {c c' : Core φ γ} (h : Relation.ReflTransGen Core.Still c c') :
    Core.timing c'.log = Core.timing c.log :=
  steps_invariant (I := fun c' : Core φ γ => Core.timing c'.log = Core.timing c.log)
    (fun _ _ hc hs => hs.timing_eq.trans hc) h rfl

theorem own_timing {I : List (PendingInterrupt × Bool) → Tasks φ γ → Prop}
    (hmove : ∀ t l l' T T', T.Proper → T'.Proper → I l T → T.Free t →
      Tasks.Step cfg.program t T T' → (∀ type, T'.pending type = Core.pendingOf type l') →
      (l' = l ∨ ∃ p, l' = l ++ [(p, false)]) → I l' T')
    {c₀ c c' : Core φ γ} (hsound : c.Sound) (hI : I (Core.timing c.log) c.tasks)
    (h : Relation.ReflTransGen (Core.Own cfg c₀) c c') : I (Core.timing c'.log) c'.tasks := by
  have hinv := steps_invariant (I := fun c : Core φ γ => c.Sound ∧ I (Core.timing c.log) c.tasks)
    ?_ h ⟨hsound, hI⟩
  · exact hinv.2
  · rintro c₁ c₂ ⟨hsound, hI⟩ hown
    have hsound' := sound_own hsound hown
    refine ⟨hsound', ?_⟩
    rcases hown.seen hsound.shaped hsound.queued.choose_spec hsound.lock with heq | ⟨hfree, hstep⟩
    · rcases hown.timing_cases with hsame | ⟨p, happend⟩
      · rw [heq, hsame]
        exact hI
      · -- something that has been scheduled is pending
        have hpending := c₂.tasks_pending p.type
        rw [heq, Core.tasks_pending, happend, Core.pendingOf_append] at hpending
        simp at hpending
    · exact hmove _ _ _ _ _ hsound.proper hsound'.proper hI hfree hstep c₂.tasks_pending
        hown.timing_cases

/-- An invariant of what threads have to do and of the interrupts so far. -/
theorem timing_invariant {init : Kernel φ γ → Prop} {P : Kernel φ γ → Env ι → Prop}
    {I : List (PendingInterrupt × Bool) → Tasks φ γ → Prop} (hinit : ∀ k, init k → Initial k)
    (hstart : ∀ k, init k → I [] k.core.tasks)
    (hmove : ∀ t l l' T T', T.Proper → T'.Proper → I l T → T.Free t →
      Tasks.Step cfg.program t T T' → (∀ type, T'.pending type = Core.pendingOf type l') →
      (l' = l ∨ ∃ p, l' = l ++ [(p, false)]) → I l' T')
    (hfired : ∀ (k : Kernel φ γ) env e rest (ps : List PendingInterrupt) l' T', P k env →
      k.interrupt.pending = e :: rest → 1 ≤ k.core.tasks.pending e.item.type →
      (∀ p ∈ ps, ∃ n, .schedule n p.type ∈ env.handler) → k.core.tasks.Proper → T'.Proper →
      (∀ type, T'.pending type = Core.pendingOf type l') → I (Core.timing k.log) k.core.tasks →
      l' = Core.timing k.log ++ (e.item, true) :: ps.map (·, false) →
      T' = env.handler.foldl Tasks.act (k.core.tasks.occur e.item.type) → I l' T')
    (h : (systemWhere cfg init P).Reachable k) :
    k.core.tasks.Proper ∧ I (Core.timing k.log) k.core.tasks := by
  have hinv := h.invariant (I := fun k : Kernel φ γ => k.core.Sound ∧ k.clock.Timed ∧
    I (Core.timing k.log) k.core.tasks) ?_ ?_
  · exact ⟨hinv.1.proper, hinv.2.2⟩
  · intro k hk
    obtain ⟨main, client, values, machine, -, rfl⟩ := hinit k hk
    exact ⟨sound_of_initial (hinit _ hk), timed_start main client values machine, hstart _ hk⟩
  · rintro k env - k' ⟨hsound, htimed, hI⟩ ⟨hP, -, hlegal, hstep⟩
    have hsound' := sound_step hsound hlegal hstep
    refine ⟨hsound', steps_invariant (fun _ _ hc hs => hc.step hs)
      (step_clock (Q := fun _ => True) hstep fun _ => trivial).steps htimed, ?_⟩
    cases step_moves hlegal hstep with
    | own hown => exact own_timing hmove hsound hI hown
    | @fired p now c₁ c₂ f rest hpre hs hf hl hhandled hpost =>
        obtain ⟨ps, hlog, hps⟩ := hhandled.timing_eq
        have htiming : Core.timing k'.log = Core.timing k.log ++ (p, true) :: ps.map (·, false) := by
          have hlog' := (still_timing hpost).trans hlog
          rw [Core.emit_log, Core.timing_append, still_timing hpre, List.append_assoc] at hlog'
          exact hlog'
        have hoccurred : Core.occurred k'.log = Core.occurred k.log ++ [p] := by
          rw [Core.occurred_eq, htiming, List.filterMap_append, Core.occurred_eq]
          simp [List.filterMap_map]
        obtain ⟨e, rest', hpending, rfl⟩ := pending_of_occurred hlegal hstep hoccurred
        have htasks : k'.core.tasks =
            env.handler.foldl Tasks.act (k.core.tasks.occur e.item.type) := by
          rcases step_tasks hsound hlegal hstep with ⟨hsame, -⟩ | ⟨p, hp, htasks⟩
          · simp [hoccurred] at hsame
          · obtain rfl : e.item = p := by simpa [hoccurred] using hp
            exact htasks
        have hone := one_le_pending htimed hlegal hstep hoccurred
        exact hfired k env e rest' ps _ _ hP hpending hone hps hsound.proper hsound'.proper
          k'.core.tasks_pending hI htiming htasks

end Kernel

end Nachos
