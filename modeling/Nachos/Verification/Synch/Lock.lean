import Nachos.Verification.Kernel.Marks

/-! # Locks

A lock is a semaphore with an owner. `Acquire` and `Release` change both in one atomic part;
outside of it, the value is 0 if the lock has an owner and 1 otherwise. The owner is the thread
that is inside of the critical section, or on its way in or out. -/

namespace Nachos

open Library

variable {φ γ ι : Type} {stack rest : List (Frame φ)} {x : Call φ} {ℓ : IntStatus}

/-! ## The atomic parts -/

inductive Window where
  /-- the value has been decremented, but there is no owner yet -/
  | taking
  /-- the owner is about to increment the value -/
  | giving
  /-- the value has been incremented, but there still is an owner -/
  | leaving
  deriving DecidableEq, Repr

@[simp] def Call.window : Call φ → Option (Window × ℕ)
  | .p (.lock l) => some (.taking, l)
  | .v (.lock l) => some (.leaving, l)
  | _ => none

/-- The atomic part in which the current thread is, with the lock. -/
def window : List (Frame φ) → Option (Window × ℕ)
  | .setLevel _ :: .ret x _ :: _ => x.window
  | .ret x _ :: _ => x.window
  | .setOwner l :: _ => some (.taking, l)
  | .clearOwner l :: _ => some (.leaving, l)
  | .call (.v (.lock l)) :: _ => some (.giving, l)
  | .vBody (.lock l) :: _ => some (.giving, l)
  | _ => none

@[simp] theorem window_ret (x : Call φ) (level : IntStatus) (rest : List (Frame φ)) :
    window (.ret x level :: rest) = x.window := rfl

theorem Code.window (h : Code stack) : window stack = none := by
  cases stack with
  | nil => rfl
  | cons f rest =>
      obtain ⟨x, rfl, -⟩ := h f List.mem_cons_self
      rfl

theorem Ending.window (h : Ending x stack) : window stack = x.window := by
  obtain ⟨ℓ, rest, rfl, -⟩ := h
  rfl

theorem Call.window_of_public (h : (Cmd.call x).Public) : x.window = none := by
  cases x with
  | p s | v s =>
      cases s with
      | user n => rfl
      | lock l => exact h.elim
  | _ => rfl

/-- The caller goes on in the same atomic part. -/
theorem Caller.window (h : Caller x ℓ rest) : window rest = x.window := by
  cases h with
  | code hx h => rw [h.window, Call.window_of_public hx]
  | acquire | release | waitRelease | waitAcquire | tick | tickRet => rfl

/-- Calls made with interrupts on are not parts of other calls. -/
theorem Caller.window_on (h : Caller x .on rest) : x.window = none := by
  cases h with
  | code hx => exact Call.window_of_public hx
  | tick | tickRet => rfl

theorem Ticked.window (h : Ticked stack) : window stack = none := by
  rcases h with h | ⟨x, rest, rfl, hcaller⟩
  · exact h.window
  · exact hcaller.window_on

theorem Switched.window (h : Switched stack) : window stack = none := by
  rcases h with ⟨q, hq⟩ | h
  · cases hq with
    | finished | sem | cond => rfl
  · exact h.window

theorem Suspended.window (h : Suspended stack) : window stack = none := by
  rcases h with h | ⟨rest, rfl, -⟩
  · exact h.window
  · rfl

/-- The atomic parts are executed with interrupts off. -/
theorem Valid.window_on (h : Valid .on stack) : window stack = none := by
  cases stack with
  | nil => rfl
  | cons f rest =>
      cases f with
      | call x =>
          have hx : x.window = none := Caller.window_on h.1
          cases x with
          | v s =>
              cases s with
              | user n => rfl
              | lock l => cases hx
          | _ => rfl
      | ret x level =>
          obtain ⟨rfl, hcaller⟩ := h
          exact hcaller.window_on
      | setLevel | setOwner | clearOwner | vBody => cases h.1
      | _ => rfl

namespace Core

variable {cfg : Config φ γ ι} {c c' : Core φ γ} {place : ℕ → Option Place} {l : ℕ}

/-- What holds of a lock. -/
inductive LockState (c : Core φ γ) (l : ℕ) : Prop where
  | free (hw : ∀ w, window (c.stack c.current) ≠ some (w, l)) (hv : c.value (.lock l) = 1)
      (ho : c.owner l = none)
  | held {t} (hw : ∀ w, window (c.stack c.current) ≠ some (w, l)) (hv : c.value (.lock l) = 0)
      (ho : c.owner l = some t)
  | taking (hw : window (c.stack c.current) = some (.taking, l)) (hv : c.value (.lock l) = 0)
      (ho : c.owner l = none)
  | giving (hw : window (c.stack c.current) = some (.giving, l)) (hv : c.value (.lock l) = 0)
      (ho : c.owner l = some c.current)
  | leaving (hw : window (c.stack c.current) = some (.leaving, l)) (hv : c.value (.lock l) = 1)
      (ho : c.owner l = some c.current)

/-- The current thread stays in the same part. -/
theorem LockState.same (h : LockState c l)
    (hw : window (c'.stack c'.current) = window (c.stack c.current))
    (hv : c'.value (.lock l) = c.value (.lock l) := by simp)
    (ho : c'.owner l = c.owner l := by simp)
    (hcurrent : c'.current = c.current := by simp) : LockState c' l := by
  cases h with
  | free hw' hv' ho' => exact .free (fun w => hw ▸ hw' w) (hv.trans hv') (ho.trans ho')
  | held hw' hv' ho' => exact .held (fun w => hw ▸ hw' w) (hv.trans hv') (ho.trans ho')
  | taking hw' hv' ho' => exact .taking (hw.trans hw') (hv.trans hv') (ho.trans ho')
  | giving hw' hv' ho' =>
      exact .giving (hw.trans hw') (hv.trans hv') (ho.trans (hcurrent ▸ ho'))
  | leaving hw' hv' ho' =>
      exact .leaving (hw.trans hw') (hv.trans hv') (ho.trans (hcurrent ▸ ho'))

/-- The current thread, which may change, is not in such a part for this lock. -/
theorem LockState.outside (h : LockState c l)
    (hw : ∀ w, window (c.stack c.current) ≠ some (w, l))
    (hw' : ∀ w, window (c'.stack c'.current) ≠ some (w, l))
    (hv : c'.value (.lock l) = c.value (.lock l) := by simp)
    (ho : c'.owner l = c.owner l := by simp) : LockState c' l := by
  cases h with
  | free _ hv' ho' => exact .free hw' (hv.trans hv') (ho.trans ho')
  | held _ hv' ho' => exact .held hw' (hv.trans hv') (ho.trans ho')
  | taking h | giving h | leaving h => exact absurd h (hw _)

/-- Neither the old nor the new innermost frame belongs to such a part. -/
theorem LockState.pop (h : LockState c l) {f : Frame φ} (hs : c.stack c.current = f :: rest)
    (hw : window (f :: rest) = none) (hw' : window (c'.stack c'.current) = none)
    (hv : c'.value (.lock l) = c.value (.lock l) := by simp)
    (ho : c'.owner l = c.owner l := by simp) : LockState c' l := by
  refine h.outside (fun w => ?_) (fun w => ?_) hv ho
  · simp [hs, hw]
  · simp [hw']

theorem window_dispatch (h : Shaped c) (next : ℕ) (rest : List (Frame φ)) :
    window ((c.dispatch next rest).stack next) = none := by
  by_cases hn : next = c.current
  · rw [hn]
    simp [window]
  · rw [dispatch_stack, Function.update_of_ne hn]
    exact (h.others next hn).window

/-- Frames that are replaced by others leave the thread in the same part, except for the
`ASSERT` of `Release`. -/
theorem Quiet.window {f : Frame φ} {fs : List (Frame φ)} {now : IntStatus} {mode : MachineStatus}
    (hf : Quiet c f fs now mode) (hs : c.stack c.current = f :: rest) (h : Shaped c)
    (hassert : ∀ l, f ≠ .assertOwner l) : window (fs ++ rest) = window (f :: rest) := by
  have hv := h.top hs
  cases hf with
  | assertOwner => exact absurd rfl (hassert _)
  | signalNone => exact hv.2.choose_spec.window
  | broadcastDone => exact hv.2.window
  | afterSwitch => exact hv.2.window
  | setLevel =>
      obtain ⟨-, x, rest', rfl, -⟩ := hv
      rfl
  | setLevelTick =>
      obtain ⟨-, x, rest', rfl, hcaller⟩ := hv
      exact hcaller.window_on.symm
  | cmdSetLevel | cmdSetStatus | cmd => exact hv.2.window
  | cmdSetLevelTick | cmdTick | oneTick | oneTickYield | idle | idleFired => rfl
  | fireEnd =>
      obtain ⟨-, st, rest', rfl, -⟩ := hv
      rfl
  | oneTickEnd => exact hv.2.window
  | setStatus => exact hv.2.2.window
  | idleEnd =>
      obtain ⟨-, q, rest', rfl, -⟩ := hv
      rfl
  | syscall hc =>
      refine (Code.append (fun y hy => ?_) hv.2).window
      rw [hc y hy]
      trivial

/-- After its `ASSERT`, `Release` is about to increment the value. -/
theorem LockState.assertOwner (h : LockState c l) (hshape : Shaped c) {l' : ℕ}
    (hs : c.stack c.current = .assertOwner l' :: rest) (ho : c.owner l' = some c.current)
    (hstack : c'.stack c'.current = rest) (hv' : c'.value (.lock l) = c.value (.lock l))
    (ho' : c'.owner l = c.owner l) (hcurrent : c'.current = c.current) : LockState c' l := by
  obtain ⟨-, x, fs, rest', hbody, rfl, -⟩ := hshape.top hs
  cases x with
  | p | v | acquire | fork | yield => cases hbody
  | wait | signal | broadcast =>
      cases hbody
      exact h.pop hs rfl (by rw [hstack]; rfl) hv' ho'
  | release =>
      cases hbody
      have hw : window (c'.stack c'.current) = some (.giving, l') := by rw [hstack]; rfl
      by_cases he : l' = l
      · subst he
        cases h with
        | free _ _ ho₀ => rw [ho₀] at ho; cases ho
        | held _ hv₀ _ => exact .giving hw (hv'.trans hv₀) (by rw [ho', ho, hcurrent])
        | taking hw₀ | giving hw₀ | leaving hw₀ => rw [hs] at hw₀; cases hw₀
      · refine h.outside (fun w => ?_) (fun w => ?_) hv' ho'
        · simp [hs, window]
        · simp [hw, he]

/-- `P` takes the lock if it is free. -/
theorem LockState.down (h : LockState c l) (hshape : Shaped c) {s : SemId} {b : Bool}
    (hs : c.stack c.current = .pLoop s b :: rest) (hv : c.value s ≠ 0) :
    LockState (((c.goto rest).setValue s (c.value s - 1)).emit (.down s)) l := by
  have hw := (hshape.top hs).2.window
  by_cases he : s = .lock l
  · subst he
    cases h with
    | free _ hv' ho => exact .taking (by simpa using hw) (by simp [hv']) (by simpa using ho)
    | held _ hv' => exact absurd hv' hv
    | taking hw' | giving hw' | leaving hw' => rw [hs] at hw'; cases hw'
  · refine h.outside (fun w => by simp [hs, window]) (fun w => ?_) (by simp [Ne.symm he])
    cases s with
    | user n => simp [hw, Call.window]
    | lock l' =>
        have hne : l' ≠ l := fun h => he (by rw [h])
        simp [hw, Call.window, hne]

/-- `V` gives the lock back. -/
theorem LockState.up (h : LockState c l) (hshape : Shaped c) {s : SemId} {fs : List (Frame φ)}
    (hs : UpBy c s fs) (hstack : c'.stack c'.current = fs) (hcurrent : c'.current = c.current)
    (hv : c'.value = Function.update c.value s (c.value s + 1)) (ho : c'.owner = c.owner) :
    LockState c' l := by
  cases hs with
  | @handler f rest n hs hf hl =>
      exact h.same (by rw [hstack, hs]) (by simp [hv]) (by rw [ho]) hcurrent
  | thread hs =>
      have hw := (hshape.top hs).2.window
      rw [← hstack] at hw
      cases s with
      | user n => exact h.pop hs rfl hw (by simp [hv]) (by rw [ho])
      | lock l' =>
          by_cases he : l' = l
          · subst he
            have hgiving : window (c.stack c.current) = some (.giving, l') := by rw [hs]; rfl
            cases h with
            | free hw' | held hw' => exact absurd hgiving (hw' _)
            | taking hw' | leaving hw' => rw [hgiving] at hw'; cases hw'
            | giving _ hv' ho' => exact .leaving hw (by simp [hv, hv']) (by rw [ho, ho', hcurrent])
          · refine h.outside (fun w => ?_) (fun w => ?_) (by simp [hv, Ne.symm he]) (by rw [ho])
            · simp [hs, window, he]
            · simp [hw, Call.window, he]

theorem LockState.step (h : LockState c l) (hshape : Shaped c) (hq : Queued c place)
    (hstep : Step cfg c c') : LockState c' l := by
  cases hstep with
  | @quiet f fs rest now mode hs hf =>
      by_cases hassert : ∃ l', f = .assertOwner l'
      · obtain ⟨l', rfl⟩ := hassert
        cases hf
        rename_i ho
        exact h.assertOwner hshape hs ho (by simp) (by simp) (by simp) (by simp)
      · have hw := hf.window hs hshape (fun l' he => hassert ⟨l', he⟩)
        exact h.same (by simp [hs, hw])
  | remark => exact h.same rfl
  | @enter x rest hs =>
      have hbody : window (x.body ++ .setLevel c.level :: .ret x c.level :: rest) =
          window (.call x :: rest) := by
        cases x with
        | v s => cases s <;> rfl
        | _ => rfl
      refine h.same ?_
      rcases hs with hs | hs
      · rw [hs]
        simpa using hbody
      · have hcall : window (.call x :: rest) = none := by
          cases x with
          | v s =>
              cases s with
              | user n => rfl
              | lock l' => exact (hshape.top hs).1.elim
          | _ => rfl
        rw [hcall] at hbody
        rw [hs]
        simpa [window] using hbody
  | @ret x level rest hs =>
      have hw : window rest = x.window := (hshape.top hs).2.window
      exact h.same (by rw [hs]; simpa using hw)
  | run hs hp =>
      have hpublic := cfg.program.isPublic _ _ _ _ _ _ hp
      exact h.pop hs rfl (by simpa using (Code.append hpublic (hshape.top hs).2).window)
  | down hs hv => exact h.down hshape hs hv
  | up hs | upWake hs => exact h.up hshape hs (by simp) (by simp) (by simp) (by simp)
  | @setOwner l' rest hs =>
      have hw := (hshape.top hs).2.window
      have htaking : window (c.stack c.current) = some (.taking, l') := by rw [hs]; rfl
      by_cases he : l' = l
      · subst he
        cases h with
        | free hw' | held hw' => exact absurd htaking (hw' _)
        | giving hw' | leaving hw' => rw [htaking] at hw'; cases hw'
        | taking _ hv => exact .held (t := c.current) (fun w => by simp [hw]) (by simpa using hv) (by simp)
      · exact h.outside (fun w => by simp [htaking, he]) (fun w => by simp [hw]) (by simp)
          (by simp [Ne.symm he])
  | @clearOwner l' rest hs =>
      have hw := (hshape.top hs).2.window
      have hleaving : window (c.stack c.current) = some (.leaving, l') := by rw [hs]; rfl
      by_cases he : l' = l
      · subst he
        cases h with
        | free hw' | held hw' => exact absurd hleaving (hw' _)
        | taking hw' | giving hw' => rw [hleaving] at hw'; cases hw'
        | leaving _ hv => exact .free (fun w => by simp [hw]) (by simpa using hv) (by simp)
      · exact h.outside (fun w => by simp [hleaving, he]) (fun w => by simp [hw]) (by simp)
          (by simp [Ne.symm he])
  | select hs =>
      cases hs with
      | signal hs =>
          obtain ⟨-, l', hending⟩ := hshape.top hs
          exact h.pop hs rfl (by simpa using hending.window)
      | broadcast hs => exact h.same (by simp [hs])
  | @startThread t f rest hs ht hst =>
      have hne := (hq.fresh ht hst).2
      exact h.pop hs rfl (by simpa [hne.symm] using (hshape.top hs).2.window)
  | newThread hs =>
      exact h.pop hs rfl (by simpa [hq.current_lt.ne] using (hshape.top hs).2.window)
  | enqueue hs =>
      obtain ⟨-, l', rest', rfl, -⟩ := hshape.top hs
      exact h.pop hs rfl (by simp [window])
  | yieldNone hs | yieldKeep hs | destroy hs =>
      exact h.pop hs rfl (by simpa using (hshape.top hs).2.window)
  | @yieldSwitch rest e q hs =>
      exact h.pop hs rfl (by simpa using window_dispatch hshape e.item rest)
  | @sleepSwitch rest e q hs =>
      exact h.pop hs rfl (by simpa using window_dispatch hshape e.item rest)
  | block hs | sleep hs | sleepIdle hs | finish hs => exact h.pop hs rfl (by simp [window])

theorem lockState_start (main : φ) (client : γ) (values : ℕ → ℤ) :
    LockState (start main client values) l :=
  .free (fun w => by simp [(code_root main).window]) rfl rfl

end Core

/-! ## The owner -/

inductive Stage where
  | acquiring
  /-- the lock has been taken, and all that is left is to return -/
  | returning
  | releasing
  deriving DecidableEq, Repr

@[simp] def Frame.lock? : Frame φ → Option (Stage × ℕ)
  | .setOwner l | .call (.acquire l) => some (.acquiring, l)
  | .clearOwner l | .call (.release l) => some (.releasing, l)
  | .ret (.acquire l) _ | .ret (.wait _ l) _ => some (.returning, l)
  | _ => none

theorem inert_lock? : Inert (Frame.lock? : Frame φ → Option (Stage × ℕ)) := by
  refine ⟨fun f hf => ?_, fun _ => rfl, rfl⟩
  cases f with
  | call | setOwner | clearOwner | ret => cases hf
  | _ => rfl

/-- What a thread is about to do with a lock. -/
def stage (stack : List (Frame φ)) : Option (Stage × ℕ) := (marks Frame.lock? stack).head?

/-- Whether a thread that was inside of a critical section, or not, is so after an event. -/
@[simp] def Event.inside (l t : ℕ) (was : Bool) : Event φ → Bool
  | .returned t' (.acquire l') _ | .returned t' (.wait _ l') _ =>
      if t' = t ∧ l' = l then true else was
  | .called t' (.release l') _ | .called t' (.wait _ l') _ =>
      if t' = t ∧ l' = l then false else was
  | _ => was

/-- The thread is inside of the critical section of a lock: it has returned from `Acquire` or
`Wait` and not called `Release` or `Wait` since. -/
def inside (l t : ℕ) (log : List (Event φ)) : Bool := log.foldl (Event.inside l t) false

@[simp] theorem inside_append (l t : ℕ) (log : List (Event φ)) (e : Event φ)
    (es : List (Event φ)) :
    inside l t (log ++ e :: es) = es.foldl (Event.inside l t) (Event.inside l t (inside l t log) e) := by
  simp [inside]

theorem Code.stage (h : Code stack) : stage stack = none := by
  rw [Nachos.stage, h.marks inert_lock?, List.head?_nil]

/-- What a call has to do with a lock. -/
@[simp] def Call.stage? : Call φ → Option (Stage × ℕ)
  | .acquire l => some (.acquiring, l)
  | .release l | .wait _ l => some (.releasing, l)
  | _ => none

/-- A call leaves the thread in its own stage, or in that of the caller. -/
theorem stage_body (x : Call φ) (ℓ : IntStatus) (rest : List (Frame φ)) :
    stage (x.body ++ .setLevel ℓ :: .ret x ℓ :: rest) = x.stage?.or (stage rest) := by
  cases x <;> rfl

/-- The stage of the caller before a call. -/
theorem Caller.stage_call (h : Caller x ℓ rest) :
    stage (.call x :: rest) = x.stage?.or (stage rest) ∨
      stage (.call x :: rest) = none ∧ stage rest = none := by
  cases x with
  | wait =>
      cases h with
      | code _ h => exact .inr ⟨h.stage, h.stage⟩
  | _ => exact .inl rfl

theorem inside_called (l t : ℕ) (was : Bool) (x : Call φ) (level : IntStatus) :
    Event.inside l t was (.called t x level) =
      if x.stage? = some (.releasing, l) then false else was := by
  cases x <;> simp

theorem stage_ret (x : Call φ) (level : IntStatus) (rest : List (Frame φ)) :
    stage (.ret x level :: rest) = (Frame.lock? (.ret x level)).or (stage rest) := by
  cases x <;> rfl

theorem inside_returned (l t : ℕ) (was : Bool) (x : Call φ) (level : IntStatus) :
    Event.inside l t was (.returned t x level) =
      if Frame.lock? (.ret x level) = some (.returning, l) then true else was := by
  cases x <;> simp

/-- The stage of the caller after a call that has taken a lock. -/
theorem Caller.stage_ret (h : Caller x ℓ rest) (level : IntStatus) {m : Stage × ℕ}
    (hx : Frame.lock? (.ret x level) = some m) :
    m.1 = .returning ∧ (stage rest = none ∨ stage rest = some m) := by
  cases h with
  | code _ h =>
      refine ⟨?_, .inl h.stage⟩
      cases x <;> cases hx <;> rfl
  | waitAcquire =>
      cases hx
      exact ⟨rfl, .inr rfl⟩
  | acquire | release | waitRelease | tick | tickRet => cases hx

theorem Ending.stage_acquire {l : ℕ} (h : Ending (.acquire l) stack) :
    stage stack = some (.returning, l) := by
  obtain ⟨ℓ, rest, rfl, -⟩ := h
  rfl

theorem Ending.stage_release {l : ℕ} (h : Ending (.release l) stack) :
    stage stack = none ∨ stage stack = some (.acquiring, l) := by
  obtain ⟨ℓ, rest, rfl, hcaller⟩ := h
  cases hcaller with
  | code _ h => exact .inl h.stage
  | waitRelease => exact .inr rfl

/-- Calls made with interrupts on are not made in the middle of `Release`. -/
theorem Caller.stage_on (h : Caller x ℓ rest) (hon : ℓ = .on) (level : IntStatus) (l : ℕ) :
    stage (.ret x level :: rest) ≠ some (.releasing, l) := by
  induction h generalizing level with
  | @code x ℓ rest hx hcode =>
      rw [Nachos.stage_ret, hcode.stage, Option.or_none]
      cases x <;> simp
  | acquire | release | waitRelease | waitAcquire => cases hon
  | @tick st rest _ hcode =>
      change stage rest ≠ _
      simp [hcode.stage]
  | tickRet _ _ ih => exact ih rfl .on

theorem Ticked.stage (h : Ticked stack) (l : ℕ) : stage stack ≠ some (.releasing, l) := by
  rcases h with h | ⟨x, rest, rfl, hcaller⟩
  · simp [h.stage]
  · exact hcaller.stage_on rfl .on l

/-- A thread that is releasing a lock is not switched out. -/
theorem Suspended.stage (h : Suspended stack) (l : ℕ) : stage stack ≠ some (.releasing, l) := by
  rcases h with h | ⟨rest, rfl, ⟨q, hq⟩ | ⟨ℓ, rest', rfl, hcaller⟩⟩
  · simp [h.stage]
  · change Nachos.stage rest ≠ _
    cases hq with
    | finished => simp [Nachos.stage]
    | cond => simp [Nachos.stage, marks_cons]
    | sem h =>
        obtain ⟨ℓ, rest', rfl, hcaller⟩ := h
        cases hcaller with
        | code _ h =>
            change Nachos.stage rest' ≠ _
            simp [h.stage]
        | acquire => simp [Nachos.stage, marks_cons]
  · change Nachos.stage rest' ≠ _
    cases hcaller with
    | code _ h => simp [h.stage]
    | @tick st rest _ h =>
        change Nachos.stage rest ≠ _
        simp [h.stage]
    | tickRet _ h => exact h.stage_on rfl .on l

/-- Locks are released with interrupts off. -/
theorem Valid.stage_on (h : Valid .on stack) (l : ℕ) : stage stack ≠ some (.releasing, l) := by
  cases stack with
  | nil => simp [stage]
  | cons f rest =>
      cases f with
      | cmd x =>
          change stage rest ≠ _
          simp [h.2.stage]
      | call x =>
          obtain ⟨hcaller, hcode⟩ := h
          cases hcaller with
          | code _ h => exact absurd h hcode
          | @tick st rest _ h =>
              change stage rest ≠ _
              simp [h.stage]
          | tickRet _ h => exact h.stage_on rfl .on l
      | ret x level =>
          obtain ⟨rfl, hcaller⟩ := h
          exact hcaller.stage_on rfl .on l
      | oneTick => exact Ticked.stage h l
      | oneTickEnd => exact h.2.stage l
      | setStatus => exact h.2.2.stage l
      | _ => cases h.1

/-- While the value and the owner disagree, the thread is releasing the lock. -/
theorem Valid.stage_leaving {l : ℕ} (h : Valid ℓ stack) (hw : window stack = some (.leaving, l)) :
    stage stack = some (.releasing, l) := by
  have hcall : ∀ {x : Call φ} {ℓ : IntStatus} {rest : List (Frame φ)}, Caller x ℓ rest →
      x.window = some (.leaving, l) → stage (.ret x ℓ :: rest) = some (.releasing, l) := by
    intro x ℓ rest hcaller hx
    cases hcaller with
    | code hpublic =>
        rw [Call.window_of_public hpublic] at hx
        cases hx
    | release =>
        cases hx
        rfl
    | acquire | waitRelease | waitAcquire | tick | tickRet => cases hx
  cases stack with
  | nil => cases hw
  | cons f rest =>
      cases f with
      | setLevel now =>
          obtain ⟨-, x, rest', rfl, hcaller⟩ := h
          exact hcall hcaller hw
      | ret x level => exact hcall h.2 hw
      | clearOwner l' =>
          cases hw
          rfl
      | call x =>
          cases x with
          | v s => cases s <;> cases hw
          | _ => cases hw
      | vBody s => cases s <;> cases hw
      | _ => cases hw

namespace Core

variable {cfg : Config φ γ ι} {c c' : Core φ γ} {place : ℕ → Option Place} {l : ℕ}

/-- The owner is inside, on its way in or on its way out. -/
structure Owned (c : Core φ γ) (l : ℕ) : Prop where
  inside : ∀ t, inside l t c.log = true → c.owner l = some t
  returning : ∀ t, stage (c.stack t) = some (.returning, l) → c.owner l = some t
  releasing : ∀ t, stage (c.stack t) = some (.releasing, l) → Nachos.inside l t c.log = false
  owner : ∀ t, c.owner l = some t → Nachos.inside l t c.log = true ∨
    stage (c.stack t) = some (.returning, l) ∨ stage (c.stack t) = some (.releasing, l)

/-- The current thread calls a function or returns from it. -/
theorem Owned.turn (h : Owned c l)
    (hstage : ∀ t, t ≠ c.current → stage (c'.stack t) = stage (c.stack t))
    (hlog : ∀ t, t ≠ c.current → Nachos.inside l t c'.log = Nachos.inside l t c.log)
    (howner : c'.owner l = c.owner l)
    (hinside : Nachos.inside l c.current c'.log = true → c.owner l = some c.current)
    (hreturning : stage (c'.stack c.current) = some (.returning, l) →
      c.owner l = some c.current)
    (hreleasing : stage (c'.stack c.current) = some (.releasing, l) →
      Nachos.inside l c.current c'.log = false)
    (hown : c.owner l = some c.current → Nachos.inside l c.current c'.log = true ∨
      stage (c'.stack c.current) = some (.returning, l) ∨
      stage (c'.stack c.current) = some (.releasing, l)) : Owned c' l := by
  refine ⟨fun t ht => ?_, fun t ht => ?_, fun t ht => ?_, fun t ht => ?_⟩
  · rw [howner]
    by_cases hcur : t = c.current
    · subst hcur
      exact hinside ht
    · exact h.inside t (hlog t hcur ▸ ht)
  · rw [howner]
    by_cases hcur : t = c.current
    · subst hcur
      exact hreturning ht
    · exact h.returning t (hstage t hcur ▸ ht)
  · by_cases hcur : t = c.current
    · subst hcur
      exact hreleasing ht
    · rw [hlog t hcur]
      exact h.releasing t (hstage t hcur ▸ ht)
  · rw [howner] at ht
    by_cases hcur : t = c.current
    · subst hcur
      exact hown ht
    · rw [hlog t hcur, hstage t hcur]
      exact h.owner t ht

theorem Owned.same (h : Owned c l)
    (hmarks : ∀ t, marks Frame.lock? (c'.stack t) = marks Frame.lock? (c.stack t))
    (hlog : ∀ t, Nachos.inside l t c'.log = Nachos.inside l t c.log := by simp)
    (howner : c'.owner l = c.owner l := by simp) : Owned c' l := by
  have hstage : ∀ t, stage (c'.stack t) = stage (c.stack t) := by
    intro t
    rw [stage, hmarks, stage]
  refine h.turn (fun t _ => hstage t) (fun t _ => hlog t) howner ?_ ?_ ?_ ?_
  · rw [hlog]
    exact h.inside _
  · rw [hstage]
    exact h.returning _
  · rw [hstage, hlog]
    exact h.releasing _
  · rw [hlog, hstage]
    exact h.owner _

/-- A call of `Release` or `Wait` leaves the critical section. -/
theorem Owned.enter (h : Owned c l) (hshape : Shaped c)
    (hs : c.stack c.current = .call x :: rest ∨ c.stack c.current = .cmd (.call x) :: rest) :
    Owned (((c.goto (x.body ++ .setLevel c.level :: .ret x c.level :: rest)).setLevel .off).emit
      (.called c.current x c.level)) l := by
  have hold : stage (c.stack c.current) = x.stage?.or (stage rest) ∨
      stage (c.stack c.current) = none ∧ stage rest = none := by
    rcases hs with hs | hs
    · rw [hs]
      have hcaller : Caller x c.level rest := (hshape.top hs).1
      exact hcaller.stage_call
    · rw [hs]
      exact .inr ⟨(hshape.top hs).2.stage, (hshape.top hs).2.stage⟩
  refine h.turn (fun t ht => by simp [ht]) (fun t ht => ?_) (by simp) ?_ ?_ ?_ ?_
  · cases x <;> simp [Ne.symm ht]
  all_goals simp only [emit_log, emit_stack, setLevel_log, setLevel_stack, goto_log, goto_stack,
    Function.update_self, inside_append, inside_called, List.foldl_nil, stage_body]
  · intro hin
    split at hin
    · cases hin
    · exact h.inside _ hin
  · intro hst
    rcases hold with hold | ⟨-, hnone⟩
    · exact h.returning _ (hold.trans hst)
    · rw [hnone, Option.or_none] at hst
      cases x <;> cases hst
  · intro hst
    split
    · rfl
    · rename_i hne
      rcases hold with hold | ⟨-, hnone⟩
      · exact h.releasing _ (hold.trans hst)
      · rw [hnone, Option.or_none] at hst
        exact absurd hst hne
  · intro hown
    rcases h.owner _ hown with hin | hst
    · by_cases hx : x.stage? = some (.releasing, l)
      · exact .inr (.inr (by rw [hx, Option.some_or]))
      · exact .inl (by rw [if_neg hx, hin])
    · rcases hold with hold | ⟨hnone, -⟩
      · exact .inr (hold ▸ hst)
      · rw [hnone] at hst
        rcases hst with hst | hst <;> cases hst

/-- A return from `Acquire` or `Wait` enters the critical section. -/
theorem Owned.ret (h : Owned c l) (hshape : Shaped c) {level : IntStatus}
    (hs : c.stack c.current = .ret x level :: rest) :
    Owned ((c.goto rest).emit (.returned c.current x c.level)) l := by
  obtain ⟨hlevel, hcaller⟩ := hshape.top hs
  have hold := stage_ret x c.level rest
  rw [hlevel, ← hs] at hold
  refine h.turn (fun t ht => by simp [ht]) (fun t ht => ?_) (by simp) ?_ ?_ ?_ ?_
  · cases x <;> simp [Ne.symm ht]
  all_goals simp only [emit_log, emit_stack, goto_log, goto_stack, Function.update_self,
    inside_append, inside_returned, List.foldl_nil, hlevel]
  · intro hin
    split at hin
    · rename_i hx
      exact h.returning _ (by rw [hold, hx, Option.some_or])
    · exact h.inside _ hin
  · intro hst
    refine h.returning _ ?_
    cases hx : Frame.lock? (.ret x level) with
    | none => rw [hold, hx, Option.none_or, hst]
    | some m =>
        obtain ⟨-, hnone | hsome⟩ := hcaller.stage_ret level hx
        · rw [hst] at hnone
          cases hnone
        · rw [hold, hx, Option.some_or, ← hsome, hst]
  · intro hst
    cases hx : Frame.lock? (.ret x level) with
    | none =>
        rw [if_neg (by simp)]
        exact h.releasing _ (by rw [hold, hx, Option.none_or, hst])
    | some m =>
        obtain ⟨hm, hnone | hsome⟩ := hcaller.stage_ret level hx
        · rw [hst] at hnone
          cases hnone
        · rw [hst] at hsome
          cases hsome
          cases hm
  · intro hown
    rcases h.owner _ hown with hin | hst
    · exact .inl (by rw [hin, ite_self])
    · rw [hold] at hst
      cases hx : Frame.lock? (.ret x level) with
      | none =>
          rw [hx, Option.none_or] at hst
          exact .inr hst
      | some m =>
          obtain ⟨hm, -⟩ := hcaller.stage_ret level hx
          rw [hx, Option.some_or] at hst
          rcases hst with hst | hst
          · cases hst
            simp
          · cases hst
            cases hm

/-- The lock has had no owner, so that nobody else is inside. -/
theorem Owned.setOwner (h : Owned c l) (hlock : LockState c l) (hshape : Shaped c) {l' : ℕ}
    (hs : c.stack c.current = .setOwner l' :: rest) :
    Owned ((c.goto rest).setOwner l' (some c.current)) l := by
  have hstage : stage rest = some (.returning, l') := (hshape.top hs).2.stage_acquire
  have hold : stage (c.stack c.current) = some (.acquiring, l') := by rw [hs]; rfl
  by_cases he : l' = l
  · subst he
    have hnone : c.owner l' = none := by
      cases hlock with
      | free _ _ ho | taking _ _ ho => exact ho
      | held hw => exact absurd (by rw [hs]; rfl) (hw .taking)
      | giving hw | leaving hw => rw [hs] at hw; cases hw
    have hempty : ∀ t, c.owner l' ≠ some t := by simp [hnone]
    refine ⟨fun t ht => absurd (h.inside t ht) (hempty t), fun t ht => ?_, fun t ht => ?_,
      fun t ht => ?_⟩
    · by_cases hcur : t = c.current
      · simp [hcur]
      · exact absurd (h.returning t (by simpa [hcur] using ht)) (hempty t)
    · by_cases hcur : t = c.current
      · simp [hcur, hstage] at ht
      · exact h.releasing t (by simpa [hcur] using ht)
    · have hcur : c.current = t := by simpa using ht
      exact .inr (.inl (by simp [← hcur, hstage]))
  · refine h.turn (fun t ht => by simp [ht]) (fun t ht => by simp) (by simp [Ne.symm he])
      (h.inside _) ?_ ?_ ?_
    · simp [hstage, he]
    · simp [hstage]
    · intro hown
      rcases h.owner _ hown with hin | hst
      · exact .inl hin
      · rw [hold] at hst
        rcases hst with hst | hst <;> cases hst

/-- Only the owner could be inside, but it has called `Release`. -/
theorem Owned.clearOwner (h : Owned c l) (hlock : LockState c l) (hshape : Shaped c) {l' : ℕ}
    (hs : c.stack c.current = .clearOwner l' :: rest) :
    Owned ((c.goto rest).setOwner l' none) l := by
  have hstage : stage rest = none ∨ stage rest = some (.acquiring, l') :=
    (hshape.top hs).2.stage_release
  have hold : stage (c.stack c.current) = some (.releasing, l') := by rw [hs]; rfl
  by_cases he : l' = l
  · subst he
    have hown : c.owner l' = some c.current := by
      cases hlock with
      | free hw | held hw => exact absurd (by rw [hs]; rfl) (hw .leaving)
      | taking hw | giving hw => rw [hs] at hw; cases hw
      | leaving _ _ ho => exact ho
    have hout := h.releasing _ hold
    have honly : ∀ t, c.owner l' = some t → t = c.current := by
      intro t ht
      rw [hown] at ht
      exact (Option.some.inj ht).symm
    refine ⟨fun t ht => ?_, fun t ht => ?_, fun t ht => ?_, fun t ht => ?_⟩
    · have hin : Nachos.inside l' t c.log = true := ht
      rw [honly t (h.inside t hin), hout] at hin
      cases hin
    · by_cases hcur : t = c.current
      · rcases hstage with hstage | hstage <;> simp [hcur, hstage] at ht
      · exact absurd (honly t (h.returning t (by simpa [hcur] using ht))) hcur
    · by_cases hcur : t = c.current
      · rcases hstage with hstage | hstage <;> simp [hcur, hstage] at ht
      · exact h.releasing t (by simpa [hcur] using ht)
    · simp at ht
  · refine h.turn (fun t ht => by simp [ht]) (fun t ht => by simp) (by simp [Ne.symm he])
      (h.inside _) ?_ ?_ ?_
    · rcases hstage with hstage | hstage <;> simp [hstage]
    · rcases hstage with hstage | hstage <;> simp [hstage]
    · intro hown
      rcases h.owner _ hown with hin | hst
      · exact .inl hin
      · rw [hold] at hst
        rcases hst with hst | hst
        · cases hst
        · exact absurd (by simpa using hst) he

theorem Owned.step (h : Owned c l) (hlock : LockState c l) (hshape : Shaped c)
    (hq : Queued c place) (hstep : Step cfg c c') : Owned c' l := by
  have hmarks := hstep.marks inert_lock? hshape hq
  cases hstep with
  | enter hs => exact h.enter hshape hs
  | ret hs => exact h.ret hshape hs
  | setOwner hs => exact h.setOwner hlock hshape hs
  | clearOwner hs => exact h.clearOwner hlock hshape hs
  | @down s b rest hs | @enqueue x rest hs =>
      exact h.same (marks_goto rest (by rw [hs]; rfl) (by simp))
  | @block s b rest hs =>
      exact h.same (marks_goto (.sleep :: .pLoop s true :: rest) (by rw [hs]; rfl) (by simp))
  | @remark e he =>
      cases e with
      | called | returned => exact he.elim
      | _ => exact h.same (fun _ => rfl)
  | up hs | upWake hs => exact h.same (hmarks hs.passive)
  | select hs => exact h.same (hmarks hs.passive)
  | quiet hs hf => exact h.same (hmarks (passive_of_top hs hf.inactive))
  | run hs | startThread hs | newThread hs | yieldNone hs | yieldKeep hs | yieldSwitch hs
  | sleep hs | sleepIdle hs | sleepSwitch hs | finish hs | destroy hs =>
      exact h.same (hmarks (passive_of_top hs rfl))

theorem owned_start (main : φ) (client : γ) (values : ℕ → ℤ) :
    Owned (start main client values) l := by
  have hstage : ∀ t, stage ((start main client values).stack t) = none := by
    intro t
    rw [stage, marks_start inert_lock?, List.head?_nil]
  refine ⟨fun t ht => ?_, fun t ht => ?_, fun t ht => ?_, fun t ht => ?_⟩
  · cases ht
  · rw [hstage] at ht
    cases ht
  · rfl
  · cases ht

end Core

namespace Kernel

variable {cfg : Config φ γ ι} {k : Kernel φ γ}

theorem locked (h : (system cfg Initial).Reachable k) (l : ℕ) :
    k.core.LockState l ∧ k.core.Owned l :=
  (queued_invariant (I := fun c : Core φ γ => c.LockState l ∧ c.Owned l)
    (fun main client values _ =>
      ⟨Core.lockState_start main client values, Core.owned_start main client values⟩)
    (fun _ _ _ hshape hq hc hstep =>
      ⟨hc.1.step hshape hq hstep, hc.2.step hc.1 hshape hq hstep⟩) h).2

/-- The thread is inside of the critical section of a lock, or all it has left to do before is
to return from `Acquire` or `Wait`. -/
def Inside (k : Kernel φ γ) (l t : ℕ) : Prop :=
  inside l t k.log = true ∨ stage (k.thread t).stack = some (.returning, l)

/-- The current thread is in the part of `Acquire`, `Release` or `Wait` that takes or gives
back the lock. -/
def Atomic (k : Kernel φ γ) (l : ℕ) : Prop :=
  k.level = .off ∧ (stage k.current.stack = some (.releasing, l) ∨
    ∃ w, window k.current.stack = some (w, l))

/-- A thread that is inside owns the lock. -/
theorem lock_of_inside (h : (system cfg Initial).Reachable k) {l t : ℕ} (ht : k.Inside l t) :
    k.owner l = some t ∧ (k.sem (.lock l)).value = 0 := by
  obtain ⟨hlock, howned⟩ := locked h l
  have howner : k.core.owner l = some t := ht.elim (howned.inside t) (howned.returning t)
  refine ⟨howner, ?_⟩
  cases hlock with
  | free _ _ ho | taking _ _ ho =>
      rw [howner] at ho
      cases ho
  | held _ hv | giving _ hv => exact hv
  | leaving hw _ ho =>
      have hcur : t = k.core.current := by
        rw [howner] at ho
        exact Option.some.inj ho
      have hstage := (shaped h).current.stage_leaving hw
      rw [← hcur] at hstage
      rcases ht with ht | ht
      · exact Bool.noConfusion (ht.symm.trans (howned.releasing t hstage))
      · cases ht.symm.trans hstage

/-- If nobody is inside and the current thread is not about to take or give back the lock, then
the lock is free. -/
theorem lock_of_not_inside (h : (system cfg Initial).Reachable k) {l : ℕ}
    (hnone : ∀ t, ¬ k.Inside l t) (hatomic : ¬ k.Atomic l) :
    k.owner l = none ∧ (k.sem (.lock l)).value = 1 := by
  obtain ⟨hlock, howned⟩ := locked h l
  have hshape := shaped h
  have hoff : ∀ {w}, window (k.core.stack k.core.current) = some (w, l) → k.core.level = .off := by
    intro w hw
    cases hlevel : k.core.level with
    | off => rfl
    | on =>
        have hv := hshape.current
        rw [hlevel] at hv
        rw [hv.window_on] at hw
        cases hw
  cases hlock with
  | free _ hv ho => exact ⟨ho, hv⟩
  | taking hw | giving hw | leaving hw => exact absurd ⟨hoff hw, .inr ⟨_, hw⟩⟩ hatomic
  | @held t _ _ ho =>
      rcases howned.owner t ho with hin | hst | hst
      · exact absurd (.inl hin) (hnone t)
      · exact absurd (.inr hst) (hnone t)
      · by_cases hcur : t = k.core.current
        · subst hcur
          cases hlevel : k.core.level with
          | off => exact absurd ⟨hlevel, .inl hst⟩ hatomic
          | on =>
              have hv := hshape.current
              rw [hlevel] at hv
              exact absurd hst (hv.stage_on l)
        · exact absurd hst ((hshape.others t hcur).stage l)

end Kernel

end Nachos
