import Nachos.Verification.Kernel.Progress
import Nachos.Verification.Tasks.Stuck

/-! # The end of a run

The machine halts by itself when it idles and no interrupt but the next time slice is left.
Then no thread can go on. -/

namespace Nachos

open Library

variable {φ γ ι : Type}

namespace Core

variable {c : Core φ γ} {place : ℕ → Option Place}

/-- In `Idle`, threads that can go on are on the ready list. -/
theorem Queued.not_alive (hq : Queued c place) (hready : c.ready = []) {rest : List (Frame φ)}
    (hs : c.stack c.current = .idle :: rest) : ¬ Alive c := by
  rintro ⟨t, ht, hph, hst⟩
  have hnone : place t ≠ some .ready := by
    intro hp
    have hmem := (hq.placed.mem_iff t .ready).mpr hp
    simp [hq.ready, hready] at hmem
  cases hq.stands t ht with
  | unstarted _ hst' | blocked _ hst' | asleep _ hst' => simp [hst'] at hst
  | ready _ _ hp | woken _ _ _ _ hp => exact hnone hp
  | done _ _ _ hph' => exact hph' hph
  | running hcurrent _ hs' =>
      rw [hcurrent, hs] at hs'
      exact hs' trivial
  | tired hcurrent _ hs' =>
      rw [hcurrent, hs] at hs'
      cases hs'

end Core

namespace Kernel

variable {cfg : Config φ γ ι} {env : Env ι} {k k' : Kernel φ γ} {schedPriority : Bool}

/-- There is nothing to wait for but the next time slice. -/
def Exhausted (k : Kernel φ γ) : Prop :=
  k.interrupt.pending = [] ∨ ∃ e, k.interrupt.pending = [e] ∧ e.item.type = .timer

/-- If nothing is due although the clock is advanced, then there is nothing to wait for. -/
theorem exhausted_of_checkIfDue {acts : List HandlerAct}
    (h : k.checkIfDue schedPriority true acts = .ok (false, k')) :
    k'.Exhausted ∧ k'.readyList = k.readyList := by
  unfold checkIfDue at h
  obtain ⟨u, -, h⟩ := bind_eq_ok.mp h
  split at h
  next hpending =>
      obtain ⟨-, rfl⟩ := Prod.mk.inj (Except.ok.inj h)
      exact ⟨.inl hpending, rfl⟩
  next e pending hpending =>
      rw [if_neg (by simp)] at h
      dsimp only at h
      split at h
      next hlast =>
          obtain ⟨-, rfl⟩ := Prod.mk.inj (Except.ok.inj h)
          obtain ⟨-, htimer, rfl⟩ := hlast
          exact ⟨.inr ⟨e, rfl, htimer⟩, rfl⟩
      next =>
          obtain ⟨k₁, -, h⟩ := bind_eq_ok.mp h
          cases (Prod.mk.inj (Except.ok.inj h)).1

/-- In `Idle` no thread is ready, and it halts only if there is nothing to wait for. -/
def Idles (k : Kernel φ γ) : Prop :=
  ∀ rest, k.current.stack = .idle :: rest →
    k.readyList = [] ∧ (k.halted = true → k.Exhausted)

theorem idles_push {f : Frame φ} (hf : f ≠ .idle) : (k.push [f]).Idles := by
  intro rest hs
  rw [stack_push] at hs
  exact absurd (List.cons.inj hs).1 hf

theorem idle_idles {acts : List HandlerAct} (hready : k.readyList = [])
    (h : k.idle schedPriority acts = .ok k') : k'.Idles := by
  unfold idle at h
  obtain ⟨⟨fired, k₁⟩, hcheck, h⟩ := bind_eq_ok.mp h
  cases fired with
  | true => exact Except.ok.inj h ▸ idles_push (by simp)
  | false =>
      obtain ⟨hexhausted, hsame⟩ := exhausted_of_checkIfDue hcheck
      rw [← Except.ok.inj h]
      exact fun rest hs => ⟨hsame.trans hready, fun _ => hexhausted⟩

theorem halted_run {next : ℕ} (h : k.run next = .ok k') : k'.halted = k.halted := by
  unfold run at h
  obtain ⟨k₁, hsave, h⟩ := bind_eq_ok.mp h
  rw [← Except.ok.inj h]
  unfold saveUser at hsave
  split at hsave
  · rw [← Except.ok.inj hsave]
    rfl
  · cases hsave
  · obtain ⟨m, -, hsave⟩ := bind_eq_ok.mp hsave
    rw [← Except.ok.inj hsave]
    rfl

theorem halted_apart : Apart (halted : Kernel φ γ → Bool) where
  emit _ _ _ := rfl
  modifyThread _ _ _ _ _ := rfl
  interrupt _ _ _ := rfl
  update _ _ _ _ _ _ := rfl

theorem halted_sleepLoop (h : k.sleepLoop schedPriority = .ok k') : k'.halted = k.halted := by
  unfold sleepLoop at h
  split at h
  next k₁ hfind =>
      rw [← Except.ok.inj h, ← halted_apart.findNextToRun hfind]
      rfl
  next next k₁ hfind => exact (halted_run h).trans (halted_apart.findNextToRun hfind)

/-- A thread gets to `Idle` only from the loop of `Sleep`, with no thread ready. -/
theorem exec_idles {f : Frame φ} {rest : List (Frame φ)} (hshape : k.core.Shaped)
    (hlegal : k.Legal) (hrunning : k.halted = false) (hidles : k.Idles)
    (hs : k.current.stack = f :: rest) (h : (k.setStack rest).exec cfg env f = .ok k') :
    k'.Idles := by
  have hcore : (k.setStack rest).core.goto (f :: rest) = k.core := by
    rw [core_setStack, Core.goto_goto, ← hs]
    exact Core.goto_self k.core
  have hrest : (k.setStack rest).core.stack (k.setStack rest).core.current = rest := by
    rw [core_setStack]
    exact Core.stack_goto _ _
  -- what is left on the stack is not `Idle`
  have hpop : (∀ l, f ≠ .assertOwner l) → k'.core.stack k'.core.current = rest → k'.Idles := by
    intro hf hstack rest' hs'
    have htop : rest = .idle :: rest' := hstack.symm.trans hs'
    exact (Core.outer_of_valid (hshape.top hs) hf .idle (by simp [htop])).elim
  have hsimple : Simple f → k'.Idles := by
    intro hf rest' hs'
    have hstep := (exec_step rest hrest h (by
      rintro t g rfl
      rw [core_setStack]
      exact hlegal t g rest hs) hf).1
    rw [hcore] at hstep
    rcases hstep.inner hshape hs' id with ⟨⟨rest'', htop⟩, -⟩ | ⟨x, l, heq, -⟩ |
      ⟨-, hready, rest'', htop⟩
    · cases hs.symm.trans htop
      exact hf.elim
    · cases heq
    · cases hs.symm.trans htop
      have hhalted : k'.halted = false := (halted_sleepLoop h).trans hrunning
      exact ⟨hready, by simp [hhalted]⟩
  cases f with
  | cmd x =>
      cases x with
      | schedule fromNow type =>
          obtain ⟨p, -, hcore'⟩ := (k.setStack rest).core_schedule h
          exact hpop (by simp) (by rw [hcore']; exact hrest)
      | _ => exact hsimple trivial
  | broadcastBody x l =>
      have hloop : (k.setStack rest).broadcastLoop cfg.schedPriority x l
          ((k.setStack rest).cond x) = .ok k' := h
      exact hpop (by simp) ((broadcastLoop_own rest k.core hloop rfl).2.trans hrest)
  | fireLoop =>
      obtain ⟨⟨fired, k₁⟩, hcheck, h⟩ := bind_eq_ok.mp h
      have hstack := (checkIfDue_stack hcheck).trans hrest
      cases fired with
      | true => exact Except.ok.inj h ▸ idles_push (by simp)
      | false => exact hpop (by simp) (by rw [← Except.ok.inj h]; exact hstack)
  | idleLoop =>
      obtain ⟨⟨fired, k₁⟩, hcheck, h⟩ := bind_eq_ok.mp h
      have hstack := (checkIfDue_stack hcheck).trans hrest
      cases fired with
      | true => exact Except.ok.inj h ▸ idles_push (by simp)
      | false => exact hpop (by simp) (by rw [← Except.ok.inj h]; exact hstack)
  | idle => exact idle_idles (k := k.setStack rest) (hidles rest hs).1 h
  | _ => exact hsimple trivial

theorem idles (h : (system cfg Initial).Reachable k) : k.Idles := by
  refine (h.invariant (I := fun k : Kernel φ γ => k.core.Sound ∧ k.Idles) ?_ ?_).2
  · intro k hk
    refine ⟨sound_of_initial hk, fun rest hs => ?_⟩
    obtain ⟨main, client, values, machine, -, rfl⟩ := hk
    cases hs
  · rintro k env - k' ⟨hsound, hidles⟩ ⟨hrunning, hlegal, hstep⟩
    refine ⟨sound_step hsound hlegal hstep, ?_⟩
    unfold step at hstep
    split at hstep
    next => cases hstep
    next f rest hs => exact exec_idles hsound.shaped hlegal hrunning hidles hs hstep

/-- When the machine halts in `Idle`, each thread has come to its end or waits for something
that no thread can give it. -/
theorem halts_when_stuck (h : (system cfg Initial).Reachable k) (hhalted : k.halted = true)
    {rest : List (Frame φ)} (hs : k.current.stack = .idle :: rest) :
    k.Exhausted ∧ k.core.tasks.Stuck := by
  obtain ⟨place, hq⟩ := queued h
  obtain ⟨hready, hexhausted⟩ := idles h rest hs
  exact ⟨hexhausted hhalted, stuck_of_not_alive (fun _ => id) h (hq.not_alive hready hs)⟩

/-- The main thread waits for a semaphore that no one increments. -/
def waitForever : Config ℕ Unit Unit :=
  .scripted false [[.call (.p (.user 0))]] (by decide)

theorem halts_when_stuck_waitForever : ∃ k : Kernel ℕ Unit,
    (system waitForever Initial).Reachable k ∧ k.halted = true ∧ k.Exhausted ∧
      k.core.tasks.Stuck := by
  have hidle : ∀ stack : List (Frame ℕ),
      stack.head?.map (·.ctorIdx) = some (Frame.idle : Frame ℕ).ctorIdx →
        ∃ rest, stack = .idle :: rest := by
    rintro (- | ⟨f, rest⟩) htop
    · cases htop
    · cases f <;> first | exact ⟨rest, rfl⟩ | cases htop
  obtain ⟨k, hobs, hk⟩ := exists_reachable waitForever (calm 10)
    (start 0 () (fun _ => 0) none) (fun k => (k.halted, k.current.stack.head?.map (·.ctorIdx)))
    (true, some (Frame.idle : Frame ℕ).ctorIdx) (by decide +kernel)
  obtain ⟨hhalted, htop⟩ := Prod.mk.inj hobs
  obtain ⟨rest, hs⟩ := hidle _ htop
  have hreach := hk _ (initial_start 0 ())
  exact ⟨k, hreach, hhalted, halts_when_stuck hreach hhalted hs⟩

end Kernel

end Nachos
