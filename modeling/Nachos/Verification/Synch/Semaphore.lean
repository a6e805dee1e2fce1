import Nachos.Verification.Kernel.Execution
import Nachos.Verification.Kernel.Marks

/-! # Semaphores

`V` wakes a thread and increments the value, but another thread may come to take what was
meant for it. Wakeups are not lost all the same: while threads wait, each unit of the value is
matched by a thread that has been woken and has yet to test the value again. -/

namespace Nachos

open Library

variable {φ γ ι : Type}

@[simp] def Event.up? : Event φ → Option SemId
  | .up s => some s
  | _ => none

@[simp] def Event.down? : Event φ → Option SemId
  | .down s => some s
  | _ => none

/-- How often a `V` has been completed. -/
def ups (s : SemId) (log : List (Event φ)) : ℕ := (log.filterMap Event.up?).count s

/-- How often a `P` has been completed. -/
def downs (s : SemId) (log : List (Event φ)) : ℕ := (log.filterMap Event.down?).count s

theorem count_filterMap_append {α β : Type} [DecidableEq β] (f : α → Option β) (b : β)
    (l : List α) (a : α) (l' : List α) : ((l ++ a :: l').filterMap f).count b =
      ((l ++ l').filterMap f).count b + if f a = some b then 1 else 0 := by
  cases ha : f a with
  | none => simp [ha]
  | some b' => simp [ha, List.count_cons, add_assoc]

@[simp] theorem ups_append (s : SemId) (log : List (Event φ)) (e : Event φ) (es : List (Event φ)) :
    ups s (log ++ e :: es) = ups s (log ++ es) + if e.up? = some s then 1 else 0 :=
  count_filterMap_append Event.up? s log e es

@[simp] theorem downs_append (s : SemId) (log : List (Event φ)) (e : Event φ)
    (es : List (Event φ)) :
    downs s (log ++ e :: es) = downs s (log ++ es) + if e.down? = some s then 1 else 0 :=
  count_filterMap_append Event.down? s log e es

/-- The semaphore whose value a thread tests again, as it has been on the queue. -/
@[simp] def Frame.retest? : Frame φ → Option SemId
  | .pLoop s true => some s
  | _ => none

theorem inert_retest? : Inert (Frame.retest? : Frame φ → Option SemId) := by
  refine ⟨fun f hf => ?_, fun _ => rfl, rfl⟩
  cases f with
  | pLoop => cases hf
  | _ => rfl

/-- The threads that have been taken off the queue of a semaphore and have yet to test its
value again. -/
def Kernel.woken (k : Kernel φ γ) (s : SemId) : Finset ℕ :=
  {t ∈ Finset.range k.created | s ∈ marks Frame.retest? (k.thread t).stack ∧ t ∉ (k.sem s).queue}

theorem retest_body (x : Call φ) (rest : List (Frame φ)) :
    marks Frame.retest? (x.body ++ rest) = marks Frame.retest? rest := by
  cases x <;> rfl

namespace Core

variable {cfg : Config φ γ ι} {c c' : Core φ γ} {place : ℕ → Option Place} {s : SemId}

def woken (c : Core φ γ) (s : SemId) : Finset ℕ :=
  {t ∈ Finset.range c.created | s ∈ marks Frame.retest? (c.stack t) ∧ t ∉ c.queue (.sem s)}

theorem mem_woken {t : ℕ} : t ∈ c.woken s ↔
    t < c.created ∧ s ∈ marks Frame.retest? (c.stack t) ∧ t ∉ c.queue (.sem s) := by
  simp [woken]

/-- Nothing is lost as long as stacks keep their marks and nobody joins the queue. -/
theorem woken_subset (hcreated : c.created ≤ c'.created)
    (hmarks : ∀ t, s ∈ marks Frame.retest? (c.stack t) → s ∈ marks Frame.retest? (c'.stack t))
    (hqueue : c'.queue (.sem s) = c.queue (.sem s)) : c.woken s ⊆ c'.woken s := by
  intro t ht
  rw [mem_woken] at ht ⊢
  rw [hqueue]
  exact ⟨ht.1.trans_le hcreated, hmarks t ht.2.1, ht.2.2⟩

/-- A thread on the queue will test the value again. -/
theorem Queued.retest (h : Queued c place) {t : ℕ} (ht : t ∈ c.queue (.sem s)) :
    s ∈ marks Frame.retest? (c.stack t) := by
  obtain ⟨rest, hw, hmarks⟩ := h.marks_waiting inert_retest? ht (by simp)
  rw [hmarks]
  cases hw
  exact List.mem_cons_self

/-- What holds of a semaphore. -/
structure Counted (initialValue : ℤ) (c : Core φ γ) (s : SemId) : Prop where
  value : c.value s = initialValue + ups s c.log - downs s c.log
  nonneg : 0 ≤ c.value s
  claimed : c.queue (.sem s) ≠ [] → c.value s ≤ (c.woken s).card

variable {initialValue : ℤ}

theorem Counted.keep (h : Counted initialValue c s)
    (hmarks : ∀ t, s ∈ marks Frame.retest? (c.stack t) → s ∈ marks Frame.retest? (c'.stack t))
    (hvalue : c'.value s = c.value s) (hups : ups s c'.log = ups s c.log)
    (hdowns : downs s c'.log = downs s c.log)
    (hqueue : c'.queue (.sem s) = c.queue (.sem s)) (hcreated : c.created ≤ c'.created) :
    Counted initialValue c' s := by
  refine ⟨?_, ?_, fun hne => ?_⟩
  · rw [hvalue, hups, hdowns]
    exact h.value
  · rw [hvalue]
    exact h.nonneg
  · rw [hqueue] at hne
    have hcard := Finset.card_le_card (woken_subset hcreated hmarks hqueue)
    have hclaimed := h.claimed hne
    rw [hvalue]
    omega

/-- A step that has nothing to do with the semaphore. -/
theorem Counted.same (h : Counted initialValue c s)
    (hmarks : ∀ t, marks Frame.retest? (c'.stack t) = marks Frame.retest? (c.stack t))
    (hvalue : c'.value s = c.value s := by simp) (hups : ups s c'.log = ups s c.log := by simp)
    (hdowns : downs s c'.log = downs s c.log := by simp)
    (hqueue : c'.queue (.sem s) = c.queue (.sem s) := by simp)
    (hcreated : c.created ≤ c'.created := by simp) : Counted initialValue c' s :=
  h.keep (fun t ht => by rw [hmarks t]; exact ht) hvalue hups hdowns hqueue hcreated

theorem retest_of_pop {s' : SemId} {b : Bool} {rest : List (Frame φ)} (hne : s' ≠ s)
    (hs : s ∈ marks Frame.retest? (.pLoop s' b :: rest)) : s ∈ marks Frame.retest? rest := by
  rw [marks_cons] at hs
  cases b with
  | false => simpa using hs
  | true => simpa [hne.symm] using hs

/-- The current thread takes a unit of the value; it may have been woken for it. -/
theorem Counted.down (h : Counted initialValue c s) {rest : List (Frame φ)} (hv : c.value s ≠ 0) :
    Counted initialValue (((c.goto rest).setValue s (c.value s - 1)).emit (.down s)) s := by
  have hvalue := h.value
  have hnonneg := h.nonneg
  refine ⟨?_, ?_, fun hne => ?_⟩
  · simp only [emit_value, setValue_value, Function.update_self, emit_log, setValue_log, goto_log,
      ups_append, downs_append, List.append_nil]
    simp
    omega
  · simp only [emit_value, setValue_value, Function.update_self]
    omega
  · have hleft : c.woken s ⊆ insert c.current
        ((((c.goto rest).setValue s (c.value s - 1)).emit (.down s)).woken s) := by
      intro t ht
      by_cases hcur : t = c.current
      · exact hcur ▸ Finset.mem_insert_self ..
      · refine Finset.mem_insert_of_mem ?_
        simpa [mem_woken, hcur] using ht
    have hcard := (Finset.card_le_card hleft).trans (Finset.card_insert_le ..)
    have hclaimed := h.claimed (by simpa using hne)
    simp only [emit_value, setValue_value, Function.update_self]
    omega

/-- `V` adds a unit, and it wakes a thread if there is one. -/
theorem Counted.up (h : Counted initialValue c s) (hvalue : c'.value s = c.value s + 1)
    (hups : ups s c'.log = ups s c.log + 1) (hdowns : downs s c'.log = downs s c.log)
    (hwoken : c'.queue (.sem s) ≠ [] → (c.woken s).card < (c'.woken s).card ∧
      c.queue (.sem s) ≠ []) : Counted initialValue c' s := by
  have hold := h.value
  have hnonneg := h.nonneg
  refine ⟨by omega, by omega, fun hne => ?_⟩
  obtain ⟨hlt, hne'⟩ := hwoken hne
  have hclaimed := h.claimed hne'
  omega

/-- The thread that `V` takes off the queue is one more that has been woken. -/
theorem Queued.woken_lt (hq : Queued c place) {t : ℕ} {q : List ℕ}
    (hcons : c.queue (.sem s) = t :: q)
    (hmarks : ∀ u, marks Frame.retest? (c'.stack u) = marks Frame.retest? (c.stack u))
    (hqueue : c'.queue (.sem s) = q) (hcreated : c'.created = c.created) :
    (c.woken s).card < (c'.woken s).card := by
  have hmem : t ∈ c.queue (.sem s) := hcons ▸ List.mem_cons_self
  have hnodup : (t :: q).Nodup := hcons ▸ hq.placed.nodup _
  refine Finset.card_lt_card (Finset.ssubset_iff_of_subset ?_ |>.mpr ⟨t, ?_, ?_⟩)
  · intro u hu
    rw [mem_woken] at hu ⊢
    rw [hmarks, hqueue, hcreated]
    exact ⟨hu.1, hu.2.1, fun hmem' => hu.2.2 (hcons ▸ List.mem_cons_of_mem t hmem')⟩
  · rw [mem_woken, hmarks, hqueue, hcreated]
    exact ⟨hq.lt_created (hq.placed.place_eq hmem), hq.retest hmem, (List.nodup_cons.mp hnodup).1⟩
  · rw [mem_woken]
    exact fun ht => ht.2.2 hmem

theorem Counted.step (h : Counted initialValue c s) (hshape : Shaped c) (hq : Queued c place)
    (hstep : Step cfg c c') : Counted initialValue c' s := by
  have hmarks := hstep.marks inert_retest? hshape hq
  cases hstep with
  | @enter x rest hs =>
      have hold : marks Frame.retest? (c.stack c.current) = marks Frame.retest? rest := by
        rcases hs with hs | hs <;> rw [hs] <;> rfl
      have hnew : marks Frame.retest? (x.body ++ .setLevel c.level :: .ret x c.level :: rest) =
          marks Frame.retest? (c.stack c.current) := by
        rw [retest_body, hold]
        rfl
      exact h.same (marks_goto _ hnew (by simp))
  | @ret x level rest hs | @setOwner l rest hs | @clearOwner l rest hs | @enqueue x rest hs =>
      exact h.same (marks_goto rest (by rw [hs]; rfl) (by simp))
  | @down s' b rest hs hv =>
      by_cases he : s' = s
      · exact he ▸ (he ▸ h : Counted initialValue c s').down hv
      · refine h.keep (fun t ht => ?_) (by simp [Ne.symm he]) (by simp) (by simp [he]) (by simp)
          (by simp)
        by_cases hcur : t = c.current
        · subst hcur
          rw [hs] at ht
          simpa using retest_of_pop he ht
        · simpa [hcur] using ht
  | @block s' b rest hs hv =>
      by_cases he : s' = s
      · subst he
        exact ⟨by simpa using h.value, by simpa using h.nonneg, fun _ => by simp [hv]⟩
      · refine h.keep (fun t ht => ?_) (by simp) (by simp) (by simp) (by simp [Ne.symm he])
          (by simp)
        by_cases hcur : t = c.current
        · subst hcur
          rw [hs] at ht
          have hrest := retest_of_pop he ht
          simp [marks_cons, hrest]
        · simpa [hcur] using ht
  | @up s' fs hs hempty =>
      by_cases he : s' = s
      · subst he
        exact h.up (by simp) (by simp) (by simp) (by simp [hempty])
      · exact h.same (hmarks hs.passive) (by simp [Ne.symm he]) (by simp [he])
  | @upWake s' fs t q hs hcons =>
      by_cases he : s' = s
      · subst he
        have hlt := hq.woken_lt hcons (hmarks hs.passive) (by simp) (by simp)
        exact h.up (by simp) (by simp) (by simp) (fun _ => ⟨hlt, by simp [hcons]⟩)
      · exact h.same (hmarks hs.passive) (by simp [Ne.symm he]) (by simp [he]) (by simp)
          (by simp [Ne.symm he])
  | @remark e he =>
      cases e with
      | up | down => exact he.elim
      | _ => exact h.same (fun _ => rfl)
  | select hs => exact h.same (hmarks hs.passive)
  | quiet hs hf => exact h.same (hmarks (passive_of_top hs hf.inactive))
  | run hs | startThread hs | newThread hs | yieldNone hs | yieldKeep hs | yieldSwitch hs
  | sleep hs | sleepIdle hs | sleepSwitch hs | finish hs | destroy hs =>
      exact h.same (hmarks (passive_of_top hs rfl))

end Core

namespace Kernel

theorem counted_start {main : φ} {client : γ} {values : ℕ → ℤ} {machine : Option Machine}
    (hvalues : ∀ n, 0 ≤ values n) (s : SemId) :
    (start main client values machine).core.Counted
      ((start main client values machine).sem s).value s := by
  refine ⟨?_, ?_, fun hne => ?_⟩
  · simp [core, start, ups, downs]
  · cases s with
    | user n => exact hvalues n
    | lock l => exact zero_le_one
  · cases s <;> exact absurd rfl hne

variable {cfg : Config φ γ ι} {k : Kernel φ γ}

/-- The value of a semaphore is its initial value and what `V` and `P` have made of it, and it
is not negative. If threads wait, then it is at most the number of threads that have been woken
and have yet to test it again; in particular, it is not positive if there is none. -/
theorem semaphore_conserved {main : φ} {client : γ} {values : ℕ → ℤ} {machine : Option Machine}
    (hvalues : ∀ n, 0 ≤ values n)
    (h : (system cfg (· = start main client values machine)).Reachable k) (s : SemId) :
    (k.sem s).value =
        ((start main client values machine).sem s).value + ups s k.log - downs s k.log ∧
      0 ≤ (k.sem s).value ∧
      ((k.sem s).queue ≠ [] → (k.sem s).value ≤ (k.woken s).card) ∧
      ¬ (0 < (k.sem s).value ∧ (k.sem s).queue ≠ [] ∧ k.woken s = ∅) := by
  have hcounted : k.core.Counted ((start main client values machine).sem s).value s := by
    refine (invariant_from (I := fun c : Core φ γ =>
      c.Counted ((start main client values machine).sem s).value s) ?_ ?_ ?_ h).2.2
    · rintro k rfl
      exact ⟨main, client, values, machine, hvalues, rfl⟩
    · rintro k rfl
      exact counted_start hvalues s
    · intro c c' place hshape hq hc hstep
      exact hc.step hshape hq hstep
  refine ⟨hcounted.value, hcounted.nonneg, hcounted.claimed, ?_⟩
  rintro ⟨hpos, hne, hnone⟩
  have hclaimed : (k.sem s).value ≤ (k.woken s).card := hcounted.claimed hne
  rw [hnone, Finset.card_empty] at hclaimed
  omega

/-- Two threads wait, and the main thread calls `V` once. -/
def wakeOne : Config ℕ Unit Unit :=
  .scripted false [[.newThread 6 0, .newThread 6 0, .call (.fork 1 1), .call (.fork 2 1),
    .call .yield, .call (.v (.user 0))], [.call (.p (.user 0))]] (by decide)

theorem semaphore_conserved_wakeOne : ∃ k : Kernel ℕ Unit,
    (k.sem (.user 0)).queue = [2] ∧ k.woken (.user 0) = {1} ∧
      (k.sem (.user 0)).value ≤ (k.woken (.user 0)).card := by
  obtain ⟨k, hobs, hk⟩ := exists_reachable wakeOne (calm 50) (start 0 () (fun _ => 0) none)
    (fun k => ((k.sem (.user 0)).queue, k.woken (.user 0))) ([2], {1}) (by decide +kernel)
  obtain ⟨hqueue, hwoken⟩ := Prod.mk.inj hobs
  have hclaimed := (semaphore_conserved (fun _ => le_rfl) (hk _ rfl) (.user 0)).2.2.1
  exact ⟨k, hqueue, hwoken, hclaimed (by simp [hqueue])⟩

end Kernel

end Nachos
