import Nachos.Verification.Synch.Condition
import Nachos.Verification.Synch.Semaphore
import Nachos.Verification.Tasks.Basic

/-! # The kernel and what its threads have to do

Each step of the kernel is a step of the current thread through what it has to do, or a `V` by
a handler, or it is not seen. -/

namespace Nachos

open Library

variable {φ γ ι : Type} {rest : List (Frame φ)}

/-- What an event adds to the number of interrupts of a type that have been scheduled and have
not occurred. -/
def Event.pending (type : IntType) (e : Event φ) : ℤ :=
  match e.timing? with
  | some (p, occurred) => if p.type = type then (if occurred then -1 else 1) else 0
  | none => 0

namespace Tasks

theorem goto_self (T : Tasks φ γ) (t : ℕ) : T.goto t (T.todo t) = T := by
  rw [goto, Function.update_eq_self]

theorem goto_of_eq {T : Tasks φ γ} {t : ℕ} {l : List (Action φ)} (h : T.todo t = l) :
    T.goto t l = T := h ▸ T.goto_self t

end Tasks

@[simp] theorem todo_nil : todo ([] : List (Frame φ)) = [] := rfl

@[simp] theorem todo_cons (f : Frame φ) (rest : List (Frame φ)) :
    todo (f :: rest) = f.actions ++ todo rest := rfl

@[simp] theorem todo_append (fs rest : List (Frame φ)) :
    todo (fs ++ rest) = todo fs ++ todo rest := List.flatMap_append

@[simp] theorem todo_cmds (cmds : List (Cmd φ)) :
    todo (cmds.map .cmd) = cmds.flatMap Cmd.actions := by
  rw [todo, List.flatMap_map]
  rfl

/-- A call is its body and its return. -/
theorem todo_body (x : Call φ) (ℓ : IntStatus) (rest : List (Frame φ)) :
    todo (x.body ++ .setLevel ℓ :: .ret x ℓ :: rest) = x.actions ++ todo rest := by
  cases x with
  | p s | v s => cases s <;> rfl
  | _ => rfl

namespace Core

variable {cfg : Config φ γ ι} {c c' c₀ : Core φ γ} {place : ℕ → Option Place} {f : Frame φ}
  {fs : List (Frame φ)} {schedPriority : Bool} {acts : List HandlerAct}

def tasks (c : Core φ γ) : Tasks φ γ where
  created := c.created
  todo t := Nachos.todo (c.stack t)
  value n := c.value (.user n)
  owner := c.owner
  waiting x := c.queue (.cond x)
  pending type := (c.log.map (Event.pending type)).sum
  client := c.client

/-! ## Updates -/

theorem tasks_goto (c : Core φ γ) (fs : List (Frame φ)) :
    (c.goto fs).tasks = c.tasks.goto c.current (todo fs) := by
  have htodo : (fun t => todo ((c.goto fs).stack t)) =
      Function.update (fun t => todo (c.stack t)) c.current (todo fs) := by
    funext t
    rw [goto_stack]
    exact Function.apply_update (fun _ => todo) c.stack c.current fs t
  unfold tasks Tasks.goto
  rw [htodo]
  rfl

theorem tasks_setStack (c : Core φ γ) (t : ℕ) (fs : List (Frame φ)) :
    (c.setStack t fs).tasks = c.tasks.goto t (todo fs) := by
  have htodo : (fun u => todo ((c.setStack t fs).stack u)) =
      Function.update (fun u => todo (c.stack u)) t (todo fs) := by
    funext u
    rw [setStack_stack]
    exact Function.apply_update (fun _ => todo) c.stack t fs u
  unfold tasks Tasks.goto
  rw [htodo]
  rfl

theorem tasks_emit (c : Core φ γ) {e : Event φ} (he : e.timing? = none) :
    (c.emit e).tasks = c.tasks := by
  have hzero : ∀ type, e.pending type = 0 := by
    intro type
    unfold Event.pending
    rw [he]
  unfold tasks
  simp [hzero]

theorem tasks_scheduled (c : Core φ γ) (p : PendingInterrupt) :
    (c.emit (.scheduled p)).tasks = c.tasks.setPending p.type (c.tasks.pending p.type + 1) := by
  unfold tasks Tasks.setPending
  congr 1
  funext type
  by_cases htype : type = p.type
  · simp [htype, Event.pending]
  · simp [htype, Ne.symm htype, Event.pending]

theorem tasks_fired (c : Core φ γ) (p : PendingInterrupt) (now : ℤ) :
    (c.emit (.fired p now)).tasks = c.tasks.setPending p.type (c.tasks.pending p.type - 1) := by
  unfold tasks Tasks.setPending
  congr 1
  funext type
  by_cases htype : type = p.type
  · simp [htype, Event.pending, sub_eq_add_neg]
  · simp [htype, Ne.symm htype, Event.pending]

@[simp] theorem tasks_setLevel (c : Core φ γ) (now : IntStatus) :
    (c.setLevel now).tasks = c.tasks := rfl

@[simp] theorem tasks_setMode (c : Core φ γ) (mode : MachineStatus) :
    (c.setMode mode).tasks = c.tasks := rfl

@[simp] theorem tasks_setStatus (c : Core φ γ) (t : ℕ) (st : ThreadStatus) :
    (c.setStatus t st).tasks = c.tasks := rfl

@[simp] theorem tasks_setClient (c : Core φ γ) (g : γ) :
    (c.setClient g).tasks = c.tasks.setClient g := rfl

@[simp] theorem tasks_setOwner (c : Core φ γ) (l : ℕ) (t : Option ℕ) :
    (c.setOwner l t).tasks = c.tasks.setOwner l t := rfl

@[simp] theorem tasks_setValue_user (c : Core φ γ) (n : ℕ) (v : ℤ) :
    (c.setValue (.user n) v).tasks = c.tasks.setValue n v := by
  unfold tasks Tasks.setValue
  congr 1
  funext m
  by_cases hm : m = n <;> simp [hm]

@[simp] theorem tasks_setValue_lock (c : Core φ γ) (l : ℕ) (v : ℤ) :
    (c.setValue (.lock l) v).tasks = c.tasks := by
  unfold tasks
  simp

@[simp] theorem tasks_setQueue_sem (c : Core φ γ) (s : SemId) (q : List ℕ) :
    (c.setQueue (.sem s) q).tasks = c.tasks := by
  unfold tasks
  simp

@[simp] theorem tasks_setQueue_cond (c : Core φ γ) (x : ℕ) (q : List ℕ) :
    (c.setQueue (.cond x) q).tasks = c.tasks.setWaiting x q := by
  unfold tasks Tasks.setWaiting
  congr 1
  funext y
  by_cases hy : y = x <;> simp [hy]

@[simp] theorem tasks_setReady (c : Core φ γ) (l : List (Keyed ℕ)) :
    (c.setReady l).tasks = c.tasks := by
  unfold tasks
  simp

@[simp] theorem tasks_makeReady (c : Core φ γ) (schedPriority : Bool) (t : ℕ) :
    (c.makeReady schedPriority t).tasks = c.tasks := by
  unfold tasks
  simp [Event.pending]

@[simp] theorem tasks_dispatch (c : Core φ γ) (next : ℕ) (rest : List (Frame φ)) :
    (c.dispatch next rest).tasks = c.tasks.goto c.current (todo rest) := by
  have hgoto := tasks_goto c (.afterSwitch :: rest)
  rw [show todo (.afterSwitch :: rest) = todo rest from rfl] at hgoto
  rw [← hgoto]
  unfold tasks
  simp [Event.pending]

@[simp] theorem tasks_finish (c : Core φ γ) : c.finish.tasks = c.tasks.goto c.current [] :=
  tasks_goto c [.sleep]

@[simp] theorem tasks_destroy (c : Core φ γ) (t : ℕ) : (c.destroy t).tasks = c.tasks := rfl

theorem tasks_create (c : Core φ γ) (priority : ℤ) (i : Fin maxThreadsCount)
    (hnil : c.stack c.created = []) : (c.create priority i).tasks = c.tasks.create := by
  unfold tasks Tasks.create
  congr 1
  funext t
  rw [create_stack]
  by_cases ht : t = c.created
  · rw [ht, Function.update_self]
    exact congrArg todo hnil.symm
  · rw [Function.update_of_ne ht]

theorem tasks_todo (c : Core φ γ) (t : ℕ) : c.tasks.todo t = todo (c.stack t) := rfl

theorem tasks_start (main : φ) (client : γ) (values : ℕ → ℤ) :
    (start main client values).tasks = .start main client values := by
  unfold tasks Tasks.start
  congr 1
  funext t
  by_cases ht : t = 0
  · subst ht
    rfl
  · simp [ht]

/-! ## Steps -/

theorem enqueue_mem_of_todo {stack : List (Frame φ)} {x : ℕ} {rest : List (Action φ)}
    (h : todo stack = .join x :: rest) : .enqueue x ∈ stack := by
  induction stack with
  | nil => cases h
  | cons f stack ih =>
      rw [todo_cons] at h
      cases f with
      | enqueue y =>
          cases h
          exact List.mem_cons_self
      | cmd y =>
          cases y with
          | call z =>
              cases z with
              | p s | v s =>
                  cases s with
                  | user => cases h
                  | lock => exact List.mem_cons_of_mem _ (ih h)
              | yield => exact List.mem_cons_of_mem _ (ih h)
              | _ => cases h
          | setLevel | setStatus | oneTick => exact List.mem_cons_of_mem _ (ih h)
          | _ => cases h
      | call z =>
          cases z with
          | p s | v s =>
              cases s with
              | user => cases h
              | lock => exact List.mem_cons_of_mem _ (ih h)
          | yield => exact List.mem_cons_of_mem _ (ih h)
          | _ => cases h
      | pLoop s | vBody s =>
          cases s with
          | user => cases h
          | lock => exact List.mem_cons_of_mem _ (ih h)
      | ret z =>
          cases z with
          | wait => cases h
          | _ => exact List.mem_cons_of_mem _ (ih h)
      | setOwner | assertOwner | clearOwner | signalBody | broadcastBody | startThread => cases h
      | _ => exact List.mem_cons_of_mem _ (ih h)

/-- A thread on a queue is in `Sleep`. -/
theorem Queued.todo_waiting (h : Queued c place) {t : ℕ} {q : Place} (ht : t ∈ c.queue q)
    (hne : q ≠ .ready) : ∃ rest, Waiting (some q) rest ∧ todo (c.stack t) = todo rest := by
  have hplace : place t = some q := h.placed.place_eq ht
  cases h.stands t (h.lt_created hplace) with
  | unstarted _ _ _ hp | done _ _ hp | running _ _ _ hp =>
      rw [hplace] at hp
      cases hp
  | ready _ _ hp | woken _ _ _ _ hp =>
      rw [hplace] at hp
      exact absurd (Option.some.inj hp) hne
  | @blocked _ rest _ _ hs hw hp | @tired _ rest _ _ hs hw hp =>
      rw [hplace] at hp
      cases hp
      exact ⟨rest, hw, by rw [hs]; rfl⟩
  | @asleep _ rest _ _ hs hw hp =>
      rw [hplace] at hp
      cases hp
      rcases hs with hs | hs | hs <;> exact ⟨rest, hw, by rw [hs]; rfl⟩

/-- The current thread may go on, unless it is in `Sleep`. -/
theorem free_current (hshape : Shaped c) (hq : Queued c place)
    (hs : ¬ Sleepy (c.stack c.current)) : c.tasks.Free c.current where
  lt_created := hq.current_lt
  awake x hmem := by
    have hplace : place c.current = some (.cond x) := hq.placed.place_eq hmem
    rw [(hq.runs hs).2.1] at hplace
    cases hplace
  alone u x rest h := by
    by_contra hu
    exact (hshape.others u hu).not_enqueue (enqueue_mem_of_todo h)

/-- What a step of the core is to the threads. -/
def Seen (cfg : Config φ γ ι) (c c' : Core φ γ) : Prop :=
  c'.tasks = c.tasks ∨ c.tasks.Free c.current ∧
    Tasks.Step cfg.program c.current c.tasks c'.tasks

theorem tasks_todo_current (hs : c.stack c.current = f :: rest) :
    c.tasks.todo c.current = f.actions ++ todo rest := by
  rw [tasks_todo, hs, todo_cons]

/-- A step of the current thread that is not in `Sleep`. -/
theorem seen_of_step (hshape : Shaped c) (hq : Queued c place) (hs : c.stack c.current = f :: rest)
    (hf : ¬ Sleepy (f :: rest)) (h : Tasks.Step cfg.program c.current c.tasks c'.tasks) :
    Seen cfg c c' :=
  .inr ⟨free_current hshape hq (hs ▸ hf), h⟩

/-- A frame without actions is executed. -/
theorem seen_of_silent (hs : c.stack c.current = f :: rest) (hnil : f.actions = [])
    (h : c'.tasks = c.tasks.goto c.current (todo rest)) : Seen cfg c c' := by
  refine .inl (h.trans (Tasks.goto_of_eq ?_))
  rw [tasks_todo_current hs, hnil, List.nil_append]

/-- Only frames without actions change. -/
theorem tasks_goto_of_todo (h : todo fs = todo (c.stack c.current)) :
    (c.goto fs).tasks = c.tasks := by
  rw [tasks_goto, h]
  exact c.tasks.goto_self c.current

theorem Quiet.seen {now : IntStatus} {mode : MachineStatus} (h : Quiet c f fs now mode)
    (hs : c.stack c.current = f :: rest) (hshape : Shaped c) (hq : Queued c place)
    (hf : Ordinary f) :
    Seen cfg c (((c.goto (fs ++ rest)).setLevel now).setMode mode) := by
  have htodo := tasks_todo_current hs
  have hnew : (((c.goto (fs ++ rest)).setLevel now).setMode mode).tasks =
      c.tasks.goto c.current (todo fs ++ todo rest) := by
    rw [tasks_setMode, tasks_setLevel, tasks_goto, todo_append]
  have hstep : ∀ {T}, (((c.goto (fs ++ rest)).setLevel now).setMode mode).tasks = T →
      ¬ Sleepy (f :: rest) → Tasks.Step cfg.program c.current c.tasks T →
      Seen cfg c (((c.goto (fs ++ rest)).setLevel now).setMode mode) := by
    rintro T rfl hawake hT
    exact seen_of_step hshape hq hs hawake hT
  cases h with
  | assertOwner ho => exact hstep hnew id (.check htodo ho)
  | signalNone hnil => exact hstep hnew id (.notifyNone htodo hnil)
  | broadcastDone hnil => exact hstep hnew id (.notifyAllNone htodo hnil)
  | @cmd x hx =>
      cases x with
      | schedule => exact hf.elim
      | load | restoreState => exact hstep hnew id (.skip htodo trivial)
      | _ => exact hx.elim
  | syscall hc =>
      rw [todo_cmds] at hnew
      exact hstep hnew id (.syscall htodo hc)
  | _ => exact .inl (hnew.trans (Tasks.goto_of_eq htodo))

theorem seen_ret (hshape : Shaped c) (hq : Queued c place) {x : Call φ} {level : IntStatus}
    (hs : c.stack c.current = .ret x level :: rest) :
    Seen cfg c ((c.goto rest).emit (.returned c.current x c.level)) := by
  have hnew : ((c.goto rest).emit (.returned c.current x c.level)).tasks =
      c.tasks.goto c.current (todo rest) := by rw [tasks_emit _ rfl, tasks_goto]
  cases x with
  | wait => exact seen_of_step hshape hq hs id (hnew ▸ .back (tasks_todo_current hs))
  | _ => exact seen_of_silent hs rfl hnew

/-- The semaphores of locks are not seen. -/
theorem seen_down (hshape : Shaped c) (hq : Queued c place) {s : SemId} {b : Bool}
    (hs : c.stack c.current = .pLoop s b :: rest) (hv : c.value s ≠ 0) :
    Seen cfg c (((c.goto rest).setValue s (c.value s - 1)).emit (.down s)) := by
  cases s with
  | user n =>
      refine seen_of_step hshape hq hs id ?_
      rw [tasks_emit _ rfl, tasks_setValue_user, tasks_goto]
      exact .down (tasks_todo_current hs) hv
  | lock l =>
      refine seen_of_silent hs rfl ?_
      rw [tasks_emit _ rfl, tasks_setValue_lock, tasks_goto]

/-- `V`, whether a thread wakes up or not. -/
theorem UpBy.seen {s : SemId} (h : UpBy c s fs) (hshape : Shaped c) (hq : Queued c place)
    (hf : ∀ f rest, c.stack c.current = f :: rest → Ordinary f)
    (hnew : c'.tasks = ((c.goto fs).setValue s (c.value s + 1)).tasks) : Seen cfg c c' := by
  cases h with
  | @handler f _ _ hs hfiring =>
      have hordinary := hf _ _ hs
      cases f <;> first | exact hordinary.elim | exact hfiring.elim
  | thread hs =>
      cases s with
      | user n =>
          refine seen_of_step hshape hq hs id ?_
          rw [hnew, tasks_setValue_user, tasks_goto]
          exact .up (tasks_todo_current hs)
      | lock l =>
          refine seen_of_silent hs rfl ?_
          rw [hnew, tasks_setValue_lock, tasks_goto]

theorem LockState.owner_of_taking {l : ℕ} (h : LockState c l)
    (hs : c.stack c.current = .setOwner l :: rest) : c.owner l = none := by
  have htaking : window (c.stack c.current) = some (.taking, l) := by rw [hs]; rfl
  cases h with
  | free _ _ ho | taking _ _ ho => exact ho
  | held hw => exact absurd htaking (hw _)
  | giving hw | leaving hw => rw [htaking] at hw; cases hw

theorem LockState.owner_of_leaving {l : ℕ} (h : LockState c l)
    (hs : c.stack c.current = .clearOwner l :: rest) : c.owner l = some c.current := by
  have hleaving : window (c.stack c.current) = some (.leaving, l) := by rw [hs]; rfl
  cases h with
  | giving _ _ ho | leaving _ _ ho => exact ho
  | free hw | held hw => exact absurd hleaving (hw _)
  | taking hw => rw [hleaving] at hw; cases hw

theorem SelectBy.seen {x t : ℕ} {q : List ℕ} (h : SelectBy c x fs) (hshape : Shaped c)
    (hq : Queued c place) (hcons : c.queue (.cond x) = t :: q) (schedPriority : Bool) :
    Seen cfg c ((((c.goto fs).setQueue (.cond x) q).emit (.selected x t)).makeReady
      schedPriority t) := by
  cases h with
  | signal hs =>
      refine seen_of_step hshape hq hs id ?_
      rw [tasks_makeReady, tasks_emit _ rfl, tasks_setQueue_cond, tasks_goto]
      exact .notify (tasks_todo_current hs) hcons
  | broadcast hs =>
      refine seen_of_step hshape hq hs id ?_
      rw [tasks_makeReady, tasks_emit _ rfl, tasks_setQueue_cond, ← hs, goto_self]
      exact .notifyAll (tasks_todo_current hs) hcons

theorem seen_newThread (hshape : Shaped c) (hq : Queued c place) {pri uninit priority : ℤ}
    {i : Fin maxThreadsCount} (hs : c.stack c.current = .cmd (.newThread pri uninit) :: rest) :
    Seen cfg c ((c.goto rest).create priority i) := by
  refine seen_of_step hshape hq hs id ?_
  have hunborn : (c.goto rest).stack (c.goto rest).created = [] := by
    rw [goto_created, goto_stack, Function.update_of_ne hq.current_lt.ne']
    exact hq.unborn _ le_rfl
  rw [tasks_create _ _ _ hunborn, tasks_goto]
  exact .newThread (tasks_todo_current hs)

theorem Step.seen (h : Step cfg c c') (hshape : Shaped c) (hq : Queued c place)
    (hlock : ∀ l, LockState c l) (hf : ∀ f rest, c.stack c.current = f :: rest → Ordinary f)
    (ht : timing c'.log = timing c.log) : Seen cfg c c' := by
  cases h with
  | quiet hs h => exact h.seen hs hshape hq (hf _ _ hs)
  | @remark e he =>
      cases e with
      | checkIfDue => exact .inl (tasks_emit c rfl)
      | scheduled | fired => simp [timing] at ht
      | _ => exact he.elim
  | @enter x rest hs =>
      refine .inl ?_
      rw [tasks_emit _ rfl, tasks_setLevel]
      refine tasks_goto_of_todo ?_
      rw [todo_body]
      rcases hs with hs | hs <;> rw [hs] <;> rfl
  | ret hs => exact seen_ret hshape hq hs
  | run hs hp =>
      refine seen_of_step hshape hq hs id ?_
      rw [tasks_setClient, tasks_goto, todo_append, todo_cmds]
      exact .run (tasks_todo_current hs) hp
  | down hs hv => exact seen_down hshape hq hs hv
  | @block s b rest hs hv =>
      refine .inl ?_
      rw [tasks_setQueue_sem]
      refine tasks_goto_of_todo ?_
      rw [hs]
      cases s <;> rfl
  | up hs => exact hs.seen hshape hq hf (tasks_emit _ rfl)
  | @upWake s fs t q hs =>
      refine hs.seen hshape hq hf ?_
      rw [tasks_emit _ rfl]
      cases s <;> simp
  | @setOwner l rest hs =>
      refine seen_of_step hshape hq hs id ?_
      rw [tasks_setOwner, tasks_goto]
      exact .take (tasks_todo_current hs) ((hlock l).owner_of_taking hs)
  | @clearOwner l rest hs =>
      refine seen_of_step hshape hq hs id ?_
      rw [tasks_setOwner, tasks_goto]
      exact .give (tasks_todo_current hs) ((hlock l).owner_of_leaving hs)
  | enqueue hs =>
      refine seen_of_step hshape hq hs id ?_
      rw [tasks_emit _ rfl, tasks_setQueue_cond, tasks_goto]
      exact .join (tasks_todo_current hs)
  | select hs hcons => exact hs.seen hshape hq hcons _
  | startThread hs hlt hst =>
      obtain ⟨hnil, hne⟩ := hq.fresh hlt hst
      refine seen_of_step hshape hq hs id ?_
      rw [tasks_makeReady, tasks_setStack, tasks_goto]
      exact .start (tasks_todo_current hs) hlt hne (by rw [tasks_todo, hnil]; rfl)
  | newThread hs => exact seen_newThread hshape hq hs
  | yieldNone hs =>
      refine seen_of_silent hs rfl ?_
      rw [tasks_emit _ rfl, tasks_goto]
  | yieldKeep hs =>
      refine seen_of_silent hs rfl ?_
      rw [tasks_setReady, tasks_emit _ rfl, tasks_goto]
  | yieldSwitch hs =>
      refine seen_of_silent hs rfl ?_
      rw [tasks_dispatch, tasks_makeReady, tasks_setReady, tasks_emit _ rfl]
      rfl
  | sleep hs =>
      refine .inl ?_
      rw [tasks_setStatus]
      exact tasks_goto_of_todo (by rw [hs]; rfl)
  | sleepIdle hs =>
      refine .inl ?_
      rw [tasks_emit _ rfl]
      exact tasks_goto_of_todo (by rw [hs]; rfl)
  | sleepSwitch hs =>
      refine seen_of_silent hs rfl ?_
      rw [tasks_dispatch, tasks_setReady, tasks_emit _ rfl]
      rfl
  | finish hs =>
      refine seen_of_step hshape hq hs id ?_
      rw [tasks_finish]
      exact .finish (tasks_todo_current hs)
  | destroy hs =>
      refine seen_of_silent hs rfl ?_
      rw [tasks_destroy, tasks_goto]

theorem Still.tasks_eq (h : Still c c') : c'.tasks = c.tasks := by
  cases h with
  | @quiet f fs rest now mode hs hf h =>
      rw [tasks_setMode, tasks_setLevel]
      refine tasks_goto_of_todo ?_
      rw [hs]
      cases h with
      | fireEnd | idle | idleFired | idleEnd => rfl
      | _ => exact hf.elim
  | check => exact tasks_emit c rfl

theorem Own.seen (h : Own cfg c₀ c c') (hshape : Shaped c) (hq : Queued c place)
    (hlock : ∀ l, LockState c l) : Seen cfg c c' := by
  cases h with
  | step _ hf h ht => exact h.seen hshape hq hlock hf ht
  | @schedule fromNow type rest p hs hp =>
      refine seen_of_step hshape hq hs id ?_
      rw [tasks_scheduled, tasks_goto, hp]
      exact .schedule (by rw [tasks_todo, hs]; rfl)
  | still h => exact .inl h.tasks_eq

theorem Handled.tasks_eq (h : Handled schedPriority acts c c') :
    c'.tasks = acts.foldl Tasks.act c.tasks := by
  induction h with
  | nil => rfl
  | schedule hp _ ih =>
      rw [ih, tasks_scheduled, hp]
      rfl
  | up _ _ ih =>
      rw [ih, tasks_emit _ rfl, tasks_setValue_user]
      rfl
  | upWake _ _ ih =>
      rw [ih, tasks_emit _ rfl, tasks_setValue_user, tasks_makeReady, tasks_setQueue_sem]
      rfl
  | yieldOnReturn _ ih => exact ih

/-! ## Runs -/

/-- What holds in every state that can be reached. -/
structure Sound (c : Core φ γ) : Prop where
  shaped : Shaped c
  queued : ∃ place, Queued c place
  lock : ∀ l, LockState c l
  counted : ∀ s, ∃ v, Counted v c s

theorem Sound.step (h : Sound c) (hstep : Step cfg c c') : Sound c' := by
  obtain ⟨place, hq⟩ := h.queued
  refine ⟨h.shaped.step hstep, hq.step h.shaped hstep, fun l => (h.lock l).step h.shaped hq hstep,
    fun s => ?_⟩
  obtain ⟨v, hv⟩ := h.counted s
  exact ⟨v, hv.step h.shaped hq hstep⟩

theorem sound_start (main : φ) (client : γ) {values : ℕ → ℤ} (hvalues : ∀ n, 0 ≤ values n) :
    Sound (start main client values) where
  shaped := shaped_start main client values
  queued := ⟨_, queued_start main client values⟩
  lock l := lockState_start main client values
  counted s := by
    have hcounted : (Kernel.start main client values none).core.Counted _ s :=
      Kernel.counted_start hvalues s
    rw [Kernel.core_start] at hcounted
    exact ⟨_, hcounted⟩

theorem Sound.proper (h : Sound c) : c.tasks.Proper := by
  obtain ⟨place, hq⟩ := h.queued
  refine ⟨fun t ht => congrArg todo (hq.unborn t ht), fun n => ?_, fun x => hq.placed.nodup _,
    fun x t ht => ?_⟩
  · obtain ⟨v, hv⟩ := h.counted (.user n)
    exact hv.nonneg
  · obtain ⟨rest, hw, htodo⟩ := hq.todo_waiting ht (by simp)
    cases hw with
    | @cond _ l rest hending =>
        obtain ⟨ℓ, rest', rfl, -⟩ := hending
        exact ⟨l, todo rest', htodo⟩

/-- The interrupts that have occurred. -/
def occurred (log : List (Event φ)) : List PendingInterrupt :=
  (timing log).filterMap fun x => if x.2 then some x.1 else none

theorem occurred_append (log es : List (Event φ)) :
    occurred (log ++ es) = occurred log ++ occurred es := by
  simp [occurred, timing]

theorem Still.occurred_eq (h : Still c c') : occurred c'.log = occurred c.log := by
  cases h with
  | quiet => rfl
  | check => simp [occurred, timing]

theorem Own.occurred_eq (h : Own cfg c₀ c c') : occurred c'.log = occurred c.log := by
  cases h with
  | step _ _ _ ht => rw [occurred, occurred, ht]
  | schedule => simp [occurred, timing]
  | still h => exact h.occurred_eq

theorem Handled.occurred_eq (h : Handled schedPriority acts c c') :
    occurred c'.log = occurred c.log := by
  induction h with
  | nil => rfl
  | yieldOnReturn _ ih => exact ih
  | schedule _ _ ih | up _ _ ih | upWake _ _ ih =>
      rw [ih]
      simp [occurred, timing, List.filterMap_cons]

theorem Handled.client_eq (h : Handled schedPriority acts c c') : c'.client = c.client := by
  induction h with
  | nil => rfl
  | schedule _ _ ih | up _ _ ih | upWake _ _ ih | yieldOnReturn _ ih => exact ih

end Core

namespace Kernel

variable {cfg : Config φ γ ι} {env : Env ι} {k k' : Kernel φ γ}

theorem sound_own {c₀ c c' : Core φ γ} (h : c.Sound) (hown : Core.Own cfg c₀ c c') : c'.Sound :=
  steps_invariant (fun _ _ hc hs => hc.step hs.1) (own_steps hown) h

/-- What a thread does in a step of the kernel. -/
theorem own_tasks {c₀ c c' : Core φ γ} (h : c.Sound)
    (hown : Relation.ReflTransGen (Core.Own cfg c₀) c c') :
    Relation.ReflTransGen (Tasks.Move cfg.program) c.tasks c'.tasks ∧
      Core.occurred c'.log = Core.occurred c.log := by
  have hinv := steps_invariant (I := fun c' : Core φ γ => c'.Sound ∧
      Relation.ReflTransGen (Tasks.Move cfg.program) c.tasks c'.tasks ∧
      Core.occurred c'.log = Core.occurred c.log) ?_ hown ⟨h, .refl, rfl⟩
  · exact hinv.2
  · rintro c₁ c₂ ⟨hsound, hmoves, hlog⟩ hstep
    have hsound' := sound_own hsound hstep
    refine ⟨hsound', ?_, hstep.occurred_eq.trans hlog⟩
    rcases hstep.seen hsound.shaped hsound.queued.choose_spec hsound.lock with heq | ⟨hfree, hT⟩
    · exact heq ▸ hmoves
    · exact hmoves.tail ⟨hsound.proper, hsound'.proper, _, hfree, hT⟩

/-- A step of the kernel, seen from outside: threads go on, or an interrupt occurs and its
handler is executed. -/
theorem step_tasks (hsound : k.core.Sound) (hlegal : k.Legal) (h : k.step cfg env = .ok k') :
    (Core.occurred k'.log = Core.occurred k.log ∧
      Relation.ReflTransGen (Tasks.Move cfg.program) k.core.tasks k'.core.tasks) ∨
    ∃ p, Core.occurred k'.log = Core.occurred k.log ++ [p] ∧
      k'.core.tasks = env.handler.foldl Tasks.act (k.core.tasks.occur p.type) := by
  have hstill : ∀ {c c' : Core φ γ}, Relation.ReflTransGen Core.Still c c' →
      c'.tasks = c.tasks ∧ Core.occurred c'.log = Core.occurred c.log := by
    intro c c' hsteps
    refine steps_invariant (I := fun c' : Core φ γ => c'.tasks = c.tasks ∧
      Core.occurred c'.log = Core.occurred c.log) ?_ hsteps ⟨rfl, rfl⟩
    rintro c₁ c₂ ⟨htasks, hlog⟩ hs
    exact ⟨hs.tasks_eq.trans htasks, hs.occurred_eq.trans hlog⟩
  cases step_moves hlegal h with
  | own hown =>
      obtain ⟨hmoves, hlog⟩ := own_tasks hsound hown
      exact .inl ⟨hlog, hmoves⟩
  | @fired p now c₁ c₂ f rest hpre hs hf hl hhandled hpost =>
      obtain ⟨hpre, hprelog⟩ := hstill hpre
      obtain ⟨hpost, hpostlog⟩ := hstill hpost
      refine .inr ⟨p, ?_, ?_⟩
      · have hlog := hpostlog.trans hhandled.occurred_eq
        rw [Core.emit_log, Core.occurred_append, hprelog] at hlog
        exact hlog
      · rw [hpost, hhandled.tasks_eq, Core.tasks_fired, hpre]
        rfl

theorem sound_step (hsound : k.core.Sound) (hlegal : k.Legal) (h : k.step cfg env = .ok k') :
    k'.core.Sound :=
  steps_invariant (fun _ _ hc hs => hc.step hs) (step_steps hlegal h) hsound

theorem sound_of_initial (h : Initial k) : k.core.Sound := by
  obtain ⟨main, client, values, machine, hvalues, rfl⟩ := h
  rw [core_start]
  exact Core.sound_start main client hvalues

theorem sound_of_reachable {init : Kernel φ γ → Prop} (hinit : ∀ k, init k → Initial k)
    (h : (system cfg init).Reachable k) : k.core.Sound :=
  h.invariant (fun k hk => sound_of_initial (hinit k hk))
    fun _ _ _ _ hsound hstep => sound_step hsound hstep.2.1 hstep.2.2

/-- Code that fails whenever it is executed. -/
def noCode : Program φ γ ι where
  step _ _ _ _ := .error .assertion
  isPublic _ _ _ _ _ _ h := nomatch h

/-- The program matters only to steps that execute its code. -/
theorem step_noCode (hs : ∀ f rest, k.current.stack ≠ .cmd (.run f) :: rest) :
    k.step { cfg with program := noCode } env = k.step cfg env := by
  unfold step
  split
  · rfl
  next f rest hstack =>
    cases f with
    | cmd x =>
        cases x with
        | run f => exact absurd hstack (hs f rest)
        | _ => rfl
    | _ => rfl

/-- What a thread does that executes no code of the program. -/
theorem moves_noCode (hsound : k.core.Sound) (hlegal : k.Legal) (h : k.step cfg env = .ok k')
    (hs : ∀ f rest, k.current.stack ≠ .cmd (.run f) :: rest)
    (hquiet : Core.occurred k'.log = Core.occurred k.log) :
    Relation.ReflTransGen (Tasks.Move (noCode : Program φ γ ι)) k.core.tasks k'.core.tasks := by
  rw [← step_noCode hs] at h
  rcases step_tasks hsound hlegal h with ⟨-, hmoves⟩ | ⟨p, hp, -⟩
  · exact hmoves
  · simp [hp] at hquiet

/-- What a thread does that executes code of the program. -/
theorem step_run {f : φ} (h : k.step cfg env = .ok k')
    (hs : k.current.stack = .cmd (.run f) :: rest) :
    ∃ g cmds, cfg.program.step f env.choice k.client k.currentThread = .ok (g, cmds) ∧
      k'.core.tasks = (k.core.tasks.goto k.currentThread
        (cmds.flatMap Cmd.actions ++ todo rest)).setClient g := by
  unfold step at h
  rw [hs] at h
  obtain ⟨⟨g, cmds⟩, hcode, h⟩ := bind_eq_ok.mp h
  refine ⟨g, cmds, hcode, ?_⟩
  have hcore : ({ k.setStack rest with client := g } : Kernel φ γ).core =
      (k.core.goto rest).setClient g := congrArg (Core.setClient · g) (core_setStack k rest)
  rw [← Except.ok.inj h, core_push, hcore, Core.tasks_goto, Core.tasks_setClient, Core.tasks_goto,
    todo_append, todo_cmds]
  have hrest : ((k.core.goto rest).setClient g).stack ((k.core.goto rest).setClient g).current =
      rest := Core.stack_goto k.core rest
  rw [hrest]
  exact congrArg (fun todo => { (k.core.tasks.setClient g) with todo := todo })
    (Function.update_idem ..)

/-- The client's state changes only when a piece of its code is executed. -/
theorem client_step (hlegal : k.Legal) (h : k.step cfg env = .ok k') :
    k'.client = k.client ∨ ∃ f rest i cmds,
      k.core.stack k.core.current = .cmd (.run f) :: rest ∧
      cfg.program.step f i k.client k.core.current = .ok (k'.client, cmds) := by
  have hstill : ∀ {c c' : Core φ γ}, Relation.ReflTransGen Core.Still c c' → c'.client = c.client :=
    fun hsteps => steps_invariant (I := fun c' : Core φ γ => c'.client = _)
      (fun _ _ hc hs => by cases hs <;> exact hc) hsteps rfl
  cases step_moves hlegal h with
  | own hown =>
      refine steps_invariant (I := fun c : Core φ γ => c.client = k.client ∨ ∃ f rest i cmds,
        k.core.stack k.core.current = .cmd (.run f) :: rest ∧
        cfg.program.step f i k.client k.core.current = .ok (c.client, cmds)) ?_ hown (.inl rfl)
      intro c c' hc hs
      cases hs with
      | still hs =>
          rw [hstill (.single hs)]
          exact hc
      | schedule => exact hc
      | step hfrom _ hs =>
          cases hs with
          | @run f rest i g cmds hstack hp =>
              -- the first step is the only one that may execute code
              rcases hfrom with rfl | ⟨x, l, rest', hstack'⟩
              · exact .inr ⟨f, rest, i, cmds, hstack, hp⟩
              · cases hstack.symm.trans hstack'
          | _ => exact hc
  | @fired p now c₁ c₂ f rest hpre hs hf hl hhandled hpost =>
      exact .inl ((hstill hpost).trans (hhandled.client_eq.trans (hstill hpre)))

/-- An invariant of what threads have to do. -/
theorem tasks_invariant {init : Kernel φ γ → Prop} {P : Kernel φ γ → Env ι → Prop}
    {I : Tasks φ γ → Prop} (hinit : ∀ k, init k → Initial k)
    (hstart : ∀ k, init k → I k.core.tasks)
    (hmove : ∀ t T T', T.Proper → T'.Proper → I T → T.Free t → Tasks.Step cfg.program t T T' →
      I T')
    (hfired : ∀ k env T type, P k env → I T → I (env.handler.foldl Tasks.act (T.occur type)))
    (h : (systemWhere cfg init P).Reachable k) : k.core.tasks.Proper ∧ I k.core.tasks := by
  have hinv := h.invariant (I := fun k : Kernel φ γ => k.core.Sound ∧ I k.core.tasks) ?_ ?_
  · exact ⟨hinv.1.proper, hinv.2⟩
  · exact fun k hk => ⟨sound_of_initial (hinit k hk), hstart k hk⟩
  · rintro k env - k' ⟨hsound, hI⟩ ⟨hP, -, hlegal, hstep⟩
    refine ⟨sound_step hsound hlegal hstep, ?_⟩
    rcases step_tasks hsound hlegal hstep with ⟨-, hmoves⟩ | ⟨p, -, htasks⟩
    · refine steps_invariant (fun T T' hT hmove' => ?_) hmoves hI
      obtain ⟨hproper, hproper', t, hfree, hstep⟩ := hmove'
      exact hmove t T T' hproper hproper' hT hfree hstep
    · rw [htasks]
      exact hfired k env _ _ hP hI

end Kernel

end Nachos
