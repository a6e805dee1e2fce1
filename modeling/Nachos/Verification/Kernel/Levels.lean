import Nachos.Verification.Interrupt.Clock
import Nachos.Verification.Kernel.Marks

/-! # Interrupt levels

However calls nest and threads are switched, a call returns at the level at which it was
made, the scheduler and `CheckIfDue` are called with interrupts off, and no `ASSERT` about
the level fails. -/

namespace Nachos

open Library

variable {φ γ ι : Type}

/-- The functions that need interrupts off have been called with interrupts off. -/
def Event.Off : Event φ → Prop
  | .readyToRun _ level | .findNextToRun level | .run _ level | .checkIfDue level => level = .off
  | _ => True

@[simp] def Event.isCall : Event φ → Bool
  | .called _ _ _ | .returned _ _ _ => true
  | _ => false

/-- Calls and returns in the log match, for each thread: a call returns when those made after
it have returned, at the level at which it was made. `calls` are those that are left, from the
innermost one on, with these levels. -/
inductive Nested : List (Event φ) → (ℕ → List (Call φ × IntStatus)) → Prop where
  | nil : Nested [] fun _ => []
  | called {log calls t x level} (h : Nested log calls) :
      Nested (log ++ [.called t x level]) (Function.update calls t ((x, level) :: calls t))
  | returned {log calls t x level rest} (h : Nested log calls)
      (ht : calls t = (x, level) :: rest) :
      Nested (log ++ [.returned t x level]) (Function.update calls t rest)
  | other {log calls e} (h : Nested log calls) (he : e.isCall = false) : Nested (log ++ [e]) calls

@[simp] def Frame.ret? : Frame φ → Option (Call φ × IntStatus)
  | .ret x level => some (x, level)
  | _ => none

/-- The calls in which a thread is, with the levels at which they were made. -/
def calls (stack : List (Frame φ)) : List (Call φ × IntStatus) := marks Frame.ret? stack

theorem Nested.others {log es : List (Event φ)} {open_ : ℕ → List (Call φ × IntStatus)}
    (h : Nested log open_) (hes : ∀ e ∈ es, e.isCall = false) : Nested (log ++ es) open_ := by
  induction es generalizing log with
  | nil => simpa using h
  | cons e es ih =>
      have hfirst := h.other (hes e List.mem_cons_self)
      have hrest := ih hfirst fun e' he' => hes e' (List.mem_cons_of_mem e he')
      simpa using hrest

theorem inert_ret? : Inert (Frame.ret? : Frame φ → Option (Call φ × IntStatus)) := by
  refine ⟨fun f hf => ?_, fun _ => rfl, rfl⟩
  cases f with
  | ret => cases hf
  | _ => rfl

theorem calls_body (x : Call φ) (rest : List (Frame φ)) : calls (x.body ++ rest) = calls rest := by
  cases x <;> simp [calls, marks, Call.body, List.filterMap_cons]

theorem calls_update (stack : ℕ → List (Frame φ)) (t : ℕ) (fs : List (Frame φ)) :
    (fun u => calls (Function.update stack t fs u)) =
      Function.update (fun u => calls (stack u)) t (calls fs) :=
  Function.comp_update calls stack t fs

namespace Core

variable {cfg : Config φ γ ι} {c c' : Core φ γ}

theorem UpBy.off {s : SemId} {fs : List (Frame φ)} (hs : UpBy c s fs) (h : Shaped c) :
    c.level = .off := by
  cases hs with
  | thread hs => exact (h.top hs).1
  | handler _ _ hl => exact hl

theorem SelectBy.off {x : ℕ} {fs : List (Frame φ)} (hs : SelectBy c x fs) (h : Shaped c) :
    c.level = .off := by
  cases hs with
  | signal hs => exact (h.top hs).1
  | broadcast hs => exact (h.top hs).1

/-- Every step keeps to this, as it calls these functions in calls that have turned
interrupts off. -/
theorem log_off_step (h : Shaped c) (hlog : ∀ e ∈ c.log, e.Off) (hstep : Step cfg c c') :
    ∀ e ∈ c'.log, e.Off := by
  cases hstep with
  | quiet | run | block | setOwner | clearOwner | newThread | sleep | finish | destroy =>
      simpa using hlog
  | @remark e he =>
      have hoff : e.Off := by
        cases e with
        | checkIfDue l => exact he
        | _ => trivial
      simpa [or_imp, forall_and, hoff] using hlog
  | enter | ret | down | up | enqueue => simpa [or_imp, forall_and, Event.Off] using hlog
  | upWake hs hq => simpa [or_imp, forall_and, Event.Off, hs.off h] using hlog
  | select hs hq => simpa [or_imp, forall_and, Event.Off, hs.off h] using hlog
  | startThread hs => simpa [or_imp, forall_and, Event.Off, (h.top hs).1] using hlog
  | yieldNone hs => simpa [or_imp, forall_and, Event.Off, (h.top hs).1] using hlog
  | yieldKeep hs => simpa [or_imp, forall_and, Event.Off, (h.top hs).1] using hlog
  | yieldSwitch hs => simpa [or_imp, forall_and, Event.Off, (h.top hs).1] using hlog
  | sleepIdle hs => simpa [or_imp, forall_and, Event.Off, (h.top hs).1] using hlog
  | sleepSwitch hs => simpa [or_imp, forall_and, Event.Off, (h.top hs).1] using hlog

/-- The calls of a state. -/
def Balanced (c : Core φ γ) : Prop := Nested c.log fun t => calls (c.stack t)

/-- Nothing is called and nothing returns. -/
theorem Balanced.same (h : Balanced c) {es : List (Event φ)} (hlog : c'.log = c.log ++ es)
    (hes : ∀ e ∈ es, e.isCall = false)
    (hcalls : ∀ t, marks Frame.ret? (c'.stack t) = marks Frame.ret? (c.stack t)) :
    Balanced c' := by
  unfold Balanced calls
  rw [hlog, funext hcalls]
  exact h.others hes

theorem Step.log (hstep : Step cfg c c') : c.log <+: c'.log := by
  cases hstep <;> simp

/-- All calls of a step are recorded in it. -/
theorem Balanced.step (h : Balanced c) (hshape : Shaped c) {place : ℕ → Option Place}
    (hq : Queued c place) (hstep : Step cfg c c') : Balanced c' := by
  obtain ⟨es, hlog⟩ := hstep.log
  have hquiet : c'.log.filter Event.isCall = c.log.filter Event.isCall →
      ∀ e ∈ es, e.isCall = false := by
    intro hsame
    rw [← hlog, List.filter_append, List.append_right_eq_self, List.filter_eq_nil_iff] at hsame
    simpa using hsame
  have hmarks := hstep.marks inert_ret? hshape hq
  cases hstep with
  | @enter x rest hs =>
      have hcalls : calls (c.stack c.current) = calls rest := by
        rcases hs with hs | hs <;> rw [hs] <;> rfl
      have hnested : Nested (c.log ++ [.called c.current x c.level]) _ := .called h
      unfold Balanced
      simp only [emit_log, emit_stack, setLevel_log, setLevel_stack, goto_log, goto_stack]
      rw [calls_update, calls_body]
      rw [hcalls] at hnested
      exact hnested
  | @ret x level rest hs =>
      have hopen : calls (c.stack c.current) = (x, c.level) :: calls rest := by
        rw [hs, (hshape.top hs).1]
        rfl
      have hnested : Nested (c.log ++ [.returned c.current x c.level]) _ := .returned h hopen
      unfold Balanced
      simp only [emit_log, emit_stack, goto_log, goto_stack]
      rw [calls_update]
      exact hnested
  | @remark e he =>
      refine h.same hlog.symm (hquiet ?_) (fun _ => rfl)
      cases e with
      | called | returned => exact he.elim
      | _ => simp
  | @down s b rest hs | @setOwner l rest hs | @clearOwner l rest hs | @enqueue x rest hs =>
      exact h.same hlog.symm (hquiet (by simp)) (marks_goto rest (by rw [hs]; rfl) (by simp))
  | @block s b rest hs =>
      exact h.same hlog.symm (hquiet (by simp))
        (marks_goto (.sleep :: .pLoop s true :: rest) (by rw [hs]; rfl) (by simp))
  | up hs | upWake hs | select hs =>
      exact h.same hlog.symm (hquiet (by simp)) (hmarks hs.passive)
  | quiet hs hf =>
      exact h.same hlog.symm (hquiet (by simp)) (hmarks (passive_of_top hs hf.inactive))
  | run hs | startThread hs | newThread hs | yieldNone hs | yieldKeep hs | yieldSwitch hs
  | sleep hs | sleepIdle hs | sleepSwitch hs | finish hs | destroy hs =>
      exact h.same hlog.symm (hquiet (by simp)) (hmarks (passive_of_top hs rfl))

theorem balanced_start (main : φ) (client : γ) (values : ℕ → ℤ) :
    Balanced (start main client values) := by
  have hcalls : (fun t => calls ((start main client values).stack t)) = fun _ => [] :=
    funext (marks_start inert_ret? main client values)
  unfold Balanced
  rw [hcalls]
  exact .nil

end Core

namespace Kernel

variable {cfg : Config φ γ ι} {k k' : Kernel φ γ} {acts : List HandlerAct}

theorem log_off (h : (system cfg Initial).Reachable k) : ∀ e ∈ k.log, e.Off :=
  (shaped_invariant (I := fun c : Core φ γ => ∀ e ∈ c.log, e.Off) (fun _ _ _ _ => by simp)
    (fun _ _ => Core.log_off_step) h).2

theorem balanced (h : (system cfg Initial).Reachable k) : k.core.Balanced :=
  (queued_invariant (I := Core.Balanced) (fun main client values _ => Core.balanced_start main client values)
    (fun _ _ _ hshape hq hc hstep => hc.step hshape hq hstep) h).2

theorem inHandler_eq_false (h : (system cfg Initial).Reachable k) :
    k.interrupt.inHandler = false := by
  refine h.invariant (I := fun k : Kernel φ γ => k.interrupt.inHandler = false) ?_ ?_
  · rintro k ⟨main, client, values, machine, -, rfl⟩
    rfl
  · intro k env _ k' hk hstep
    exact (step_clock (Q := fun _ => True) hstep.2.2 fun _ => trivial).inHandler hk

/-! ## The `ASSERT`s -/

/-- Frames with an `ASSERT` about the level. -/
def LevelAsserted : Frame φ → Prop
  | .sleep | .setLevel _ | .cmd (.setLevel _) | .fireLoop | .idle | .idleLoop => True
  | _ => False

/-- Handlers call `Schedule` for the future. -/
def HandlerAct.Proper : HandlerAct → Prop
  | .schedule fromNow _ => 0 < fromNow
  | _ => True

theorem schedule_ne_assertion {fromNow : ℤ} (type : IntType) (hpos : 0 < fromNow) :
    k.schedule fromNow type ≠ .error .assertion := by
  refine bind_ne_error (add32_ne_assertion _ _) fun when _ => ?_
  rw [assert_of_true hpos]
  simp

theorem vBody_ne_assertion (schedPriority : Bool) (s : SemId) :
    k.vBody schedPriority s ≠ .error .assertion :=
  bind_ne_error (add32_ne_assertion _ _) fun _ _ => by simp

/-- A handler runs with interrupts off. -/
theorem handlerAct_ne_assertion {schedPriority : Bool} {act : HandlerAct}
    (hoff : k.level = .off) (hin : k.interrupt.inHandler = true) (hact : HandlerAct.Proper act) :
    k.handlerAct schedPriority act ≠ .error .assertion := by
  cases act with
  | schedule fromNow type => exact schedule_ne_assertion type hact
  | v n =>
      refine bind_ne_error (vBody_ne_assertion _ _) fun k₁ _ => ?_
      rw [assert_of_true (.inl hoff)]
      simp
  | yieldOnReturn =>
      unfold handlerAct
      rw [assert_of_true hin]
      simp

theorem handlerActs_ne_assertion {cfg : Config φ γ ι} (hoff : k.level = .off)
    (hin : k.interrupt.inHandler = true) (hacts : ∀ act ∈ acts, HandlerAct.Proper act) :
    k.handlerActs cfg.schedPriority acts ≠ .error .assertion := by
  induction acts generalizing k with
  | nil => simp [handlerActs]
  | cons act acts ih =>
      refine bind_ne_error (handlerAct_ne_assertion hoff hin (hacts act List.mem_cons_self))
        fun k₁ hact => ih ?_ ?_ fun act' hact' => hacts act' (List.mem_cons_of_mem _ hact')
      · exact (handlerAct_handled hact hoff).1
      · exact (handlerAct_clock (Q := fun _ => True) hact).2.trans hin

theorem finishLoad_ne_assertion : k.finishLoad ≠ .error .assertion := by
  unfold finishLoad
  split
  · simp
  · refine bind_ne_error ?_ fun m _ => by simp
    unfold Machine.delayedLoad
    dsimp only
    split <;> simp

theorem fire_ne_assertion {cfg : Config φ γ ι} {p : PendingInterrupt} (hoff : k.level = .off)
    (hacts : ∀ act ∈ acts, HandlerAct.Proper act) :
    k.fire cfg.schedPriority acts p ≠ .error .assertion := by
  refine bind_ne_error finishLoad_ne_assertion fun k₁ hload => ?_
  have hoff₁ : k₁.level = .off := (congrArg Core.level (core_finishLoad hload)).trans hoff
  exact bind_ne_error (handlerActs_ne_assertion hoff₁ rfl hacts) fun _ _ => by simp

theorem checkIfDue_ne_assertion {cfg : Config φ γ ι} {advanceClock : Bool} (hoff : k.level = .off)
    (hacts : ∀ act ∈ acts, HandlerAct.Proper act) :
    k.checkIfDue cfg.schedPriority advanceClock acts ≠ .error .assertion := by
  unfold checkIfDue
  dsimp only
  rw [show (k.emit (.checkIfDue k.level)).level = .off from hoff, assert_of_true rfl, ok_bind]
  split
  · simp
  · split
    · simp
    · split
      · simp
      · exact bind_ne_error (fire_ne_assertion hoff hacts) fun _ _ => by simp

theorem setLevel_ne_assertion {now : IntStatus} (hin : k.interrupt.inHandler = false) :
    k.setLevel now ≠ .error .assertion := by
  unfold setLevel
  rw [assert_of_true (.inr hin), ok_bind]
  split <;> simp

/-- The `ASSERT`s about the level hold if the stack is a possible one. -/
theorem exec_ne_assertion {env : Env ι} {f : Frame φ} {rest : List (Frame φ)}
    (hv : Valid k.level (f :: rest)) (hin : k.interrupt.inHandler = false)
    (hacts : ∀ act ∈ env.handler, HandlerAct.Proper act) (hf : LevelAsserted f) :
    k.exec cfg env f ≠ .error .assertion := by
  cases f with
  | cmd x =>
      cases x with
      | setLevel now => exact setLevel_ne_assertion hin
      | _ => exact hf.elim
  | sleep =>
      unfold exec sleep
      rw [assert_of_true hv.1]
      simp
  | setLevel now => exact setLevel_ne_assertion hin
  | fireLoop =>
      refine bind_ne_error (checkIfDue_ne_assertion hv.1 hacts) fun ⟨fired, k₁⟩ _ => ?_
      cases fired <;> simp
  | idle =>
      refine bind_ne_error (checkIfDue_ne_assertion hv.1 hacts) fun ⟨fired, k₁⟩ _ => ?_
      cases fired <;> simp
  | idleLoop =>
      refine bind_ne_error (checkIfDue_ne_assertion hv.1 hacts) fun ⟨fired, k₁⟩ _ => ?_
      cases fired <;> simp
  | _ => exact hf.elim

theorem step_ne_assertion (hshape : k.core.Shaped) (hin : k.interrupt.inHandler = false)
    {env : Env ι} {f : Frame φ} {rest : List (Frame φ)} (hs : k.current.stack = f :: rest)
    (hf : LevelAsserted f) (hacts : ∀ act ∈ env.handler, HandlerAct.Proper act) :
    k.step cfg env ≠ .error .assertion := by
  unfold step
  rw [hs]
  exact exec_ne_assertion (hshape.top hs) hin hacts hf

/-- Calls return at the level at which they were made, however they nest and whoever runs in
between; the scheduler and `CheckIfDue` are called with interrupts off, and the `ASSERT`s in
`Sleep`, `SetLevel` and `CheckIfDue` hold. -/
theorem levels_kept (h : (system cfg Initial).Reachable k) :
    (Nested k.log fun t => calls (k.thread t).stack) ∧
      (∀ x level rest, k.current.stack = .ret x level :: rest → k.level = level) ∧
      (∀ e ∈ k.log, e.Off) ∧
      ∀ env f rest, k.current.stack = f :: rest → LevelAsserted f →
        (∀ act ∈ env.handler, HandlerAct.Proper act) → k.step cfg env ≠ .error .assertion := by
  have hshaped := shaped h
  refine ⟨balanced h, fun x level rest hs => ?_, log_off h, fun env f rest hs hf hacts => ?_⟩
  · exact (hshaped.top hs).1
  · exact step_ne_assertion hshaped (inHandler_eq_false h) hs hf hacts

theorem levels_kept_forkOne : ∃ k : Kernel ℕ Unit, k.log.length = 5 ∧ ∀ e ∈ k.log, e.Off := by
  obtain ⟨k, hobs, hk⟩ := exists_reachable (forkOne false) (calm 13)
    (start 0 () (fun _ => 0) none) (fun k => k.log.length) 5 (by decide +kernel)
  exact ⟨k, hobs, (levels_kept (hk _ (initial_start 0 ()))).2.2.1⟩

end Kernel

end Nachos
