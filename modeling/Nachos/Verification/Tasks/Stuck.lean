import Nachos.Verification.Tasks.Refinement

/-! # Threads that cannot go on

If no thread is running or ready, then each one waits for something that is not there. -/

namespace Nachos

open Library

variable {φ γ ι : Type} {rest : List (Frame φ)}

/-- A call in which a thread has been on a queue is not nested in another one of that kind. -/
theorem Caller.marks_retest {x : Call φ} {ℓ : IntStatus} (h : Caller x ℓ rest) :
    marks Frame.retest? rest = [] := by
  induction h with
  | code _ h => exact h.marks inert_retest?
  | tick _ h => exact h.marks inert_retest?
  | acquire _ ih | release _ ih | waitRelease _ ih | waitAcquire _ ih | tickRet _ _ ih => exact ih

theorem Ending.marks_retest {x : Call φ} {stack : List (Frame φ)} (h : Ending x stack) :
    marks Frame.retest? stack = [] := by
  obtain ⟨ℓ, rest, rfl, hcaller⟩ := h
  exact hcaller.marks_retest

theorem Waiting.retest {q : Option Place} {s : SemId} (h : Waiting q rest)
    (hs : s ∈ marks Frame.retest? rest) : q = some (.sem s) := by
  cases h with
  | finished => cases hs
  | sem h =>
      rw [marks_cons, h.marks_retest] at hs
      simp only [Frame.retest?, Option.toList_some, List.append_nil, List.mem_singleton] at hs
      rw [hs]
  | cond h =>
      rw [marks_cons, h.marks_retest] at hs
      cases hs

namespace Core

variable {cfg : Config φ γ ι} {c c' : Core φ γ} {place : ℕ → Option Place}

/-- Nothing is left of a thread that has finished and been switched out. -/
def Gone (c : Core φ γ) : Prop :=
  ∀ t, c.phase t ≠ .unfinished → t ≠ c.current → c.stack t = [.afterSwitch]

theorem Gone.congr (h : Gone c) (hphase : c'.phase = c.phase) (hcurrent : c'.current = c.current)
    (hstack : ∀ t, t ≠ c.current → c'.stack t = c.stack t) : Gone c' := by
  intro t ht hne
  rw [hcurrent] at hne
  rw [hstack t hne]
  exact h t (hphase ▸ ht) hne

/-- A thread that has finished has nothing to do after `Sleep`. -/
theorem Queued.asleep_finished (hq : Queued c place) (hs : c.stack c.current = .sleepLoop :: rest)
    (hph : c.phase c.current ≠ .unfinished) : rest = [] := by
  cases hq.stands c.current hq.current_lt with
  | unstarted ht | ready ht | blocked ht | done ht => exact absurd rfl ht
  | running _ _ _ _ hph' | woken _ _ _ _ _ hph' => exact absurd hph' hph
  | tired _ _ hs' =>
      rw [hs] at hs'
      cases hs'
  | @asleep q rest' _ _ hs' hw _ hph' =>
      obtain rfl : rest = rest' := hs'.rest_eq (.inl hs)
      cases q with
      | some q => exact absurd (hph'.mpr (by simp)) hph
      | none =>
          cases hw
          rfl

theorem Gone.step (h : Gone c) (hq : Queued c place) (hstep : Step cfg c c') : Gone c' := by
  cases hstep with
  | remark => exact h
  | @startThread t f rest hs hlt hst =>
      intro u hu hne
      have hut : u ≠ t := by
        rintro rfl
        refine hu ?_
        cases hq.stands u hlt with
        | unstarted _ _ _ _ hph => exact hph
        | ready _ hst' | blocked _ hst' | done _ hst' | running _ hst' | tired _ hst'
        | asleep _ hst' | woken _ hst' =>
            rw [hst] at hst'
            cases hst'
      have hgone := h u (by simpa using hu) (by simpa using hne)
      simpa [hut, show u ≠ c.current by simpa using hne] using hgone
  | newThread hs =>
      intro u hu hne
      have hut : u ≠ c.created := by
        rintro rfl
        exact hu (by simp)
      have hgone := h u (by simpa [hut] using hu) (by simpa using hne)
      simpa [hut, show u ≠ c.current by simpa using hne] using hgone
  | @yieldSwitch rest e q hs =>
      intro u hu hne
      have huc : u ≠ c.current := by
        rintro rfl
        exact hu (by simpa using (hq.runs (by rw [hs]; exact id)).2.2)
      have hgone := h u (by simpa using hu) huc
      simpa [huc] using hgone
  | @sleepSwitch rest e q hs =>
      intro u hu hne
      have hph : c.phase u ≠ .unfinished := by simpa using hu
      by_cases huc : u = c.current
      · subst huc
        rw [hq.asleep_finished hs hph]
        simp
      · simpa [huc] using h u hph huc
  | finish hs =>
      intro u hu hne
      have huc : u ≠ c.current := by simpa using hne
      simpa [huc] using h u (by simpa [huc] using hu) huc
  | @destroy rest t hs hd ht =>
      intro u hu hne
      have huc : u ≠ c.current := by simpa using hne
      by_cases hut : u = t
      · subst hut
        simpa [huc] using h u (hq.doomed u hd).2 huc
      · simpa [huc] using h u (by simpa [hut] using hu) huc
  | quiet | enter | ret | run | down | block | up | upWake | setOwner | clearOwner | enqueue
  | select | yieldNone | yieldKeep | sleep | sleepIdle =>
      exact h.congr (by simp) (by simp) fun t ht => by simp [ht]

/-- A thread that has started and not finished is running or ready. -/
def Alive (c : Core φ γ) : Prop :=
  ∃ t < c.created, c.phase t = .unfinished ∧ (c.status t = .running ∨ c.status t = .ready)

/-- Otherwise, a thread has nothing to do or waits. -/
theorem Queued.waits (hq : Queued c place) (hgone : Gone c) (hdead : ¬ Alive c) (t : ℕ) :
    ∃ q rest, place t = q ∧ Waiting q rest ∧ todo (c.stack t) = todo rest ∧
      marks Frame.retest? (c.stack t) = marks Frame.retest? rest := by
  have hnone : c.stack t = [] ∨ c.stack t = [.afterSwitch] → place t = none →
      ∃ q rest, place t = q ∧ Waiting q rest ∧ todo (c.stack t) = todo rest ∧
        marks Frame.retest? (c.stack t) = marks Frame.retest? rest := by
    rintro (hs | hs) hp
    · exact ⟨none, [], hp, .finished, by rw [hs], by rw [hs]⟩
    · exact ⟨none, [], hp, .finished, by rw [hs]; rfl, by rw [hs]; rfl⟩
  by_cases ht : t < c.created
  · cases hq.stands t ht with
    | unstarted _ _ hs hp => exact hnone (.inl hs) hp
    | ready _ hst _ hph | woken _ hst _ _ _ hph => exact absurd ⟨t, ht, hph, .inr hst⟩ hdead
    | running _ hst _ _ hph => exact absurd ⟨t, ht, hph, .inl hst⟩ hdead
    | blocked _ _ hs hw hp => exact ⟨_, _, hp, hw, by rw [hs]; rfl, by rw [hs]; rfl⟩
    | done hne _ hp hph => exact hnone (.inr (hgone t hph hne)) hp
    | tired _ _ hs hw hp => exact ⟨_, _, hp, hw, by rw [hs]; rfl, by rw [hs]; rfl⟩
    | asleep _ _ hs hw hp =>
        rcases hs with hs | hs | hs <;> exact ⟨_, _, hp, hw, by rw [hs]; rfl, by rw [hs]; rfl⟩
  · have hle := not_lt.mp ht
    exact hnone (.inl (hq.unborn t hle)) (hq.beyond t hle)

/-- If a thread waits for a semaphore, then its value is 0. -/
theorem Sound.value_eq_zero (h : Sound c) (hgone : Gone c) (hdead : ¬ Alive c) {s : SemId} {t : ℕ}
    (ht : t ∈ c.queue (.sem s)) : c.value s = 0 := by
  obtain ⟨place, hq⟩ := h.queued
  obtain ⟨v, hcounted⟩ := h.counted s
  have hwoken : c.woken s = ∅ := by
    refine Finset.eq_empty_of_forall_notMem fun u hu => ?_
    obtain ⟨-, hmark, hnot⟩ := mem_woken.mp hu
    obtain ⟨q, rest, hp, hw, -, hmarks⟩ := hq.waits hgone hdead u
    rw [hw.retest (hmarks ▸ hmark)] at hp
    exact hnot ((hq.placed.mem_iff u _).mpr hp)
  have hclaimed := hcounted.claimed (List.ne_nil_of_mem ht)
  rw [hwoken, Finset.card_empty] at hclaimed
  exact le_antisymm hclaimed hcounted.nonneg

/-- The current thread is in `Sleep`, and so in no atomic part. -/
theorem Queued.window_none (hq : Queued c place) (hdead : ¬ Alive c) :
    window (c.stack c.current) = none := by
  cases hq.stands c.current hq.current_lt with
  | unstarted ht | ready ht | blocked ht | done ht => exact absurd rfl ht
  | running _ hst _ _ hph => exact absurd ⟨_, hq.current_lt, hph, .inl hst⟩ hdead
  | woken _ hst _ _ _ hph => exact absurd ⟨_, hq.current_lt, hph, .inr hst⟩ hdead
  | tired _ _ hs => rw [hs]; rfl
  | asleep _ _ hs => rcases hs with hs | hs | hs <;> rw [hs] <;> rfl

theorem Sound.stuck (h : Sound c) (hgone : Gone c) (hdead : ¬ Alive c) : c.tasks.Stuck := by
  intro t
  obtain ⟨place, hq⟩ := h.queued
  obtain ⟨q, rest, hp, hw, htodo, -⟩ := hq.waits hgone hdead t
  rw [tasks_todo, htodo]
  have hmem : ∀ {q}, place t = some q → t ∈ c.queue q := fun hp => (hq.placed.mem_iff t _).mpr hp
  cases hw with
  | finished => exact .inl rfl
  | @sem s rest hending =>
      have hzero := h.value_eq_zero hgone hdead (hmem hp)
      cases s with
      | user n => exact .inr (.inl ⟨n, _, rfl, hzero⟩)
      | lock l =>
          obtain ⟨ℓ, rest', rfl, hcaller⟩ := hending
          cases hcaller with
          | code hx => exact hx.elim
          | acquire =>
              refine .inr (.inr (.inl ⟨l, _, rfl, ?_⟩))
              have hwindow := hq.window_none hdead
              cases h.lock l with
              | free _ hv => rw [hzero] at hv; cases hv
              | held _ _ ho => rw [show c.tasks.owner l = _ from ho]; simp
              | taking hw | giving hw | leaving hw => rw [hwindow] at hw; cases hw
  | cond => exact .inr (.inr (.inr ⟨_, hmem hp⟩))

end Core

namespace Kernel

variable {cfg : Config φ γ ι} {k : Kernel φ γ}

theorem gone (h : (system cfg Initial).Reachable k) : k.core.Gone := by
  refine (queued_invariant (I := Core.Gone) ?_ ?_ h).2
  · intro main client values _ t ht
    exact absurd (by simp) ht
  · exact fun c c' place _ hq hgone hstep => hgone.step hq hstep

/-- If no thread can go on, then this is seen. -/
theorem stuck_of_not_alive {init : Kernel φ γ → Prop} (hinit : ∀ k, init k → Initial k)
    (h : (system cfg init).Reachable k) (hdead : ¬ k.core.Alive) : k.core.tasks.Stuck := by
  have hreach : (system cfg Initial).Reachable k := h.mono hinit fun _ _ _ _ hstep => hstep
  exact (sound_of_reachable hinit h).stuck (gone hreach) hdead

end Kernel

end Nachos
