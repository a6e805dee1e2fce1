import Nachos.Model.SynchDisk
import Nachos.Verification.Disk.Timing
import Nachos.Verification.Kernel.Execution
import Nachos.Verification.Tasks.Callers
import Nachos.Verification.Tasks.Interrupts

/-! # Requests to the disk

Requests are served one at a time. The thread whose request it is has the lock, and it goes on
once the interrupt of this request has occurred. -/

namespace Nachos.SynchDisk

open Library

/-! ## Requests -/

/-- What has been written last, or what was there before. -/
def latest (disk : Disk) (history : List Transfer) (s : Fin NumSectors) : Sector :=
  match history.reverse.find? fun x => x.writing ∧ x.sectorNumber = s with
  | some x => x.data
  | none => disk s

@[simp] theorem latest_nil (disk : Disk) : latest disk [] = disk := rfl

variable {x : Transfer}

theorem latest_read (disk : Disk) (history : List Transfer) (hx : x.writing = false) :
    latest disk (history ++ [x]) = latest disk history := by
  funext s
  simp [latest, hx]

theorem latest_write (disk : Disk) (history : List Transfer) (hx : x.writing = true) :
    latest disk (history ++ [x]) = Function.update (latest disk history) x.sectorNumber x.data := by
  funext s
  by_cases hs : x.sectorNumber = s
  · subst hs
    simp [latest, hx]
  · simp [latest, hx, hs, Ne.symm hs]

/-- What is read is what has been written last. -/
structure Device.Sound (disk : Disk) (g : Device) : Prop where
  contents : g.disk = latest disk g.history
  read : ∀ (i : ℕ) (x : Transfer), g.history[i]? = some x → x.writing = false →
    x.data = latest disk (g.history.take i) x.sectorNumber

theorem sound_new (disk : Disk) : Device.Sound disk ⟨.new, disk, []⟩ := ⟨rfl, by simp⟩

/-- A request to a disk that is not active. -/
theorem request_eq {disk : Disk} {g : Device} (h : g.Sound disk) {r : Readings}
    (hr : r.active = false) (t : ℕ) (op : Op) :
    ∃ g' ticks x, request g r t op = .ok (g', [.schedule ticks .disk]) ∧ g'.Sound disk ∧
      g'.history = g.history ++ [x] ∧ x.thread = t := by
  have hsound : ∀ (timing : DiskDevice) (disk' : Disk) (x : Transfer),
      disk' = latest disk (g.history ++ [x]) →
      (x.writing = false → x.data = latest disk g.history x.sectorNumber) →
      Device.Sound disk ⟨timing, disk', g.history ++ [x]⟩ := by
    intro timing disk' x hdisk hx
    refine ⟨hdisk, fun i y hy hwriting => ?_⟩
    rcases lt_trichotomy i g.history.length with hi | rfl | hi
    · rw [List.take_append_of_le_length hi.le]
      rw [List.getElem?_append_left hi] at hy
      exact h.read i y hy hwriting
    · obtain rfl : x = y := by simpa using hy
      rw [List.take_left]
      exact hx hwriting
    · rw [List.getElem?_eq_none (by simp; omega)] at hy
      cases hy
  have htiming := DiskDevice.request_eq (d := { g.timing with active := r.active })
    (t := r.totalTicks) hr op.sectorNumber op.writing
  cases op with
  | readSector s =>
      refine ⟨_, _, ⟨t, s, false, g.disk s⟩,
        bind_eq_ok.mpr ⟨_, htiming, bind_eq_ok.mpr ⟨_, Disk.readSector_natCast _ s, rfl⟩⟩,
        hsound _ _ _ ?_ ?_, rfl, rfl⟩
      · rw [latest_read disk g.history rfl]
        exact h.contents
      · exact fun _ => congrFun h.contents s
  | writeSector s data =>
      refine ⟨_, _, ⟨t, s, true, data⟩,
        bind_eq_ok.mpr ⟨_, htiming, bind_eq_ok.mpr ⟨_, Disk.writeSector_natCast _ s data, rfl⟩⟩,
        hsound _ _ _ ?_ (by simp), rfl, rfl⟩
      rw [latest_write disk g.history rfl, h.contents]

theorem active_of_request {g g' : Device} {r : Readings} {t : ℕ} {op : Op}
    {cmds : List (Cmd Routine)} (h : request g r t op = .ok (g', cmds)) : r.active = false := by
  obtain ⟨x, htiming, -⟩ := bind_eq_ok.mp h
  obtain ⟨u, hassert, -⟩ := bind_eq_ok.mp htiming
  simpa using of_assert hassert

/-! ## Where a thread is -/

/-- The semaphore, the interrupts of the disk that are pending and that have occurred, and the
requests. -/
structure View where
  value : ℤ
  pending : ℤ
  completed : ℕ
  history : List Transfer

namespace View

/-- No request is being served. -/
structure Idle (v : View) : Prop where
  value : v.value = 0
  pending : v.pending = 0
  completed : v.completed = v.history.length

def Last (v : View) (t : ℕ) : Prop := v.history.getLast?.map Transfer.thread = some t

/-- The request has been made; its interrupt has yet to be scheduled. -/
structure Made (v : View) (t : ℕ) : Prop where
  value : v.value = 0
  pending : v.pending = 0
  completed : v.completed + 1 = v.history.length
  last : v.Last t

/-- The thread is about to wait, or waits, for its interrupt. -/
structure Served (v : View) (t : ℕ) : Prop where
  nonneg : 0 ≤ v.pending
  one : v.value + v.pending = 1
  completed : v.completed + v.pending = v.history.length
  last : v.Last t

end View

/-- The end of both operations. -/
def ending (l : List (Action Routine)) : List (Action Routine) := .check lock :: .give lock :: l

inductive Spot (v : View) (t : ℕ) : List (Action Routine) → Prop where
  | outside {l} (h : component.Outer l) : Spot v t l
  | enter {op l} (h : component.Outer l) :
      Spot v t (.take lock :: .cmd (.run (.request op)) :: .down semaphore :: ending l)
  | request {op l} (h : component.Outer l) (hv : v.Idle) :
      Spot v t (.cmd (.run (.request op)) :: .down semaphore :: ending l)
  | schedule {ticks l} (h : component.Outer l) (hv : v.Made t) :
      Spot v t (.cmd (.schedule ticks .disk) :: .down semaphore :: ending l)
  | wait {l} (h : component.Outer l) (hv : v.Served t) : Spot v t (.down semaphore :: ending l)
  | release {l} (h : component.Outer l) (hv : v.Idle) (hlast : v.Last t) : Spot v t (ending l)
  | give {l} (h : component.Outer l) (hv : v.Idle) (hlast : v.Last t) : Spot v t (.give lock :: l)

/-- A thread that does not have the lock does not know about the disk. -/
theorem Spot.free {v : View} {t : ℕ} {l : List (Action Routine)} (h : Spot v t l)
    (hl : brackets lock false l = true) (v' : View) : Spot v' t l := by
  cases h with
  | outside h => exact .outside h
  | enter h => exact .enter h
  | _ => cases hl

variable {T T' : Tasks Routine Device} {t n : ℕ} {disk : Disk} {l : List (PendingInterrupt × Bool)}
  {rest : List (Frame Routine)}

def view (n : ℕ) (T : Tasks Routine Device) : View :=
  ⟨T.value semaphore, T.pending .disk, n, T.client.history⟩

structure Working (disk : Disk) (n : ℕ) (T : Tasks Routine Device) : Prop where
  spot : ∀ t, Spot (view n T) t (T.todo t)
  exclusive : T.Exclusive lock
  idle : T.owner lock = none → (view n T).Idle
  sound : T.client.Sound disk

/-- A thread is outside, or it is in one of the operations and goes on there. -/
theorem Working.next (h : Working disk n T) (hproper : T'.Proper)
    (hstep : Tasks.Step program t T T') :
    component.Outer (T.todo t) ∨
      Spot (view n T') t (T'.todo t) ∧ (T'.owner lock = none → (view n T').Idle) ∧
      T'.client.Sound disk ∧ (∀ u, u ≠ t → T.owner lock ≠ some u) ∧
      (∀ u f rest, T.todo t ≠ .start u f :: rest) ∧
      ∀ x rest, T.todo t = .cmd x :: rest → ∀ inside, brackets lock inside rest = true →
        brackets lock inside (T'.todo t) = true := by
  have hout := hstep.outcome
  have hspot := h.spot t
  have hinside : brackets lock false (T.todo t) = false → T.owner lock = some t :=
    h.exclusive.owner_of_inside
  have howner : brackets lock false (T.todo t) = false → ∀ u, u ≠ t → T.owner lock ≠ some u := by
    intro hb u hu heq
    exact hu (Option.some.inj (heq.symm.trans (hinside hb)))
  generalize hs : T.todo t = l at hspot hout hinside howner
  cases hspot with
  | outside h => exact .inl h
  | enter hl =>
      obtain ⟨hfree, rfl⟩ := hout
      rw [Tasks.setOwner_todo, Tasks.goto_todo, Function.update_self]
      exact .inr ⟨.request hl (h.idle hfree), by simp, h.sound, by simp [hfree], by simp, by simp⟩
  | @request op l hl hv =>
      obtain ⟨i, g, cmds, hcode, rfl⟩ := hout
      obtain ⟨g', ticks, x, heq, hsound, hhistory, hx⟩ :=
        request_eq h.sound (active_of_request hcode) t op
      cases heq.symm.trans hcode
      have hcompleted : n = T.client.history.length := hv.completed
      rw [Tasks.setClient_todo, Tasks.goto_todo, Function.update_self]
      refine .inr ⟨.schedule hl ⟨hv.value, hv.pending, ?_, ?_⟩, ?_, hsound, howner rfl, by simp, ?_⟩
      · simp [view, hhistory, hcompleted]
      · simp [View.Last, view, hhistory, hx]
      · intro howner
        cases (hinside rfl).symm.trans howner
      · rintro y rest hrest inside hb
        cases hrest
        exact hb
  | @schedule ticks l hl hv =>
      obtain rfl := hout
      have hvalue : T.value semaphore = 0 := hv.value
      have hpending : T.pending .disk = 0 := hv.pending
      have hcompleted : n + 1 = T.client.history.length := hv.completed
      rw [Tasks.setPending_todo, Tasks.goto_todo, Function.update_self]
      refine .inr ⟨.wait hl ⟨?_, ?_, ?_, hv.last⟩, ?_, h.sound, howner rfl, by simp, ?_⟩
      · simp [view, hpending]
      · simp [view, hpending, hvalue]
      · simp [view, hpending, ← hcompleted]
      · intro howner
        cases (hinside rfl).symm.trans howner
      · rintro y rest hrest inside hb
        cases hrest
        exact hb
  | @wait l hl hv =>
      obtain ⟨hne, rfl⟩ := hout
      have hnonneg : 0 ≤ Function.update T.value semaphore (T.value semaphore - 1) semaphore :=
        hproper.nonneg semaphore
      have hpending : 0 ≤ T.pending .disk := hv.nonneg
      have hone : T.value semaphore + T.pending .disk = 1 := hv.one
      have hcompleted : n + T.pending .disk = T.client.history.length := hv.completed
      rw [Function.update_self] at hnonneg
      rw [Tasks.setValue_todo, Tasks.goto_todo, Function.update_self]
      have hidle : View.Idle (view n ((T.goto t (ending l)).setValue semaphore
          (T.value semaphore - 1))) := by
        refine ⟨?_, ?_, ?_⟩
        · simp only [view, Tasks.setValue_value, Function.update_self]
          omega
        · simp only [view, Tasks.setValue_pending, Tasks.goto_pending]
          omega
        · simp only [view, Tasks.setValue_client, Tasks.goto_client]
          omega
      exact .inr ⟨.release hl hidle hv.last, fun _ => hidle, h.sound, howner rfl, by simp, by simp⟩
  | release hl hv hlast =>
      obtain ⟨-, rfl⟩ := hout
      rw [Tasks.goto_todo, Function.update_self]
      exact .inr ⟨.give hl hv hlast, fun _ => hv, h.sound, howner rfl, by simp [ending],
        by simp [ending]⟩
  | give hl hv hlast =>
      obtain ⟨-, rfl⟩ := hout
      rw [Tasks.setOwner_todo, Tasks.goto_todo, Function.update_self]
      exact .inr ⟨.outside hl, fun _ => hv, h.sound, howner rfl, by simp, by simp⟩

/-- Operations begin with the lock. -/
theorem spot_of_caller {g g' : Device} {i : Use component Op × Readings}
    {cmds : List (Cmd Routine)} {rest : List (Action Routine)}
    (h : step g t .caller i = .ok (g', cmds)) (hrest : component.Outer rest) :
    g' = g ∧ (∀ v, Spot v t (cmds.flatMap Cmd.actions ++ rest)) ∧
      brackets lock false (cmds.flatMap Cmd.actions ++ rest) = true := by
  have hcaller : component.Outer (.cmd (.run .caller) :: rest) := Component.outer_caller hrest
  have houter : ∀ l, component.Outer l → (∀ v, Spot v t l) ∧ brackets lock false l = true :=
    fun l hl => ⟨fun v => .outside hl, hl.brackets (List.mem_singleton_self _) _⟩
  obtain ⟨use, r⟩ := i
  cases use with
  | call op =>
      cases h
      exact ⟨rfl, fun v => .enter hcaller, hcaller.brackets (List.mem_singleton_self _) _⟩
  | other x =>
      cases h
      exact ⟨rfl, houter _ (Component.outer_other x.2 hcaller)⟩
  | leave =>
      cases h
      exact ⟨rfl, houter _ hrest⟩

/-! ## The invariant -/

theorem Working.step (h : Working disk n T) (hproper : T'.Proper)
    (hstep : Tasks.Step program t T T') : Working disk n T' := by
  rcases h.next hproper hstep with houter | ⟨hspot, hidle, hsound, howner, hstart, hcode⟩
  · have huntouched := houter.step hstep fun i g cmds hcode =>
      (spot_of_caller hcode Component.outer_nil).1
    have hview : view n T' = view n T := by
      simp only [view, huntouched.value semaphore (List.mem_singleton_self _),
        huntouched.pending .disk (List.mem_singleton_self _), huntouched.client]
    have hown : Spot (view n T) t (T'.todo t) ∧ brackets lock false (T'.todo t) = true := by
      rcases huntouched.own with hout | ⟨i, cmds, rest, -, hrest, hcode, htodo⟩
      · exact ⟨.outside hout, hout.brackets (List.mem_singleton_self _) _⟩
      · obtain ⟨-, hspot, hb⟩ := spot_of_caller hcode hrest
        rw [htodo]
        exact ⟨hspot _, hb⟩
    refine ⟨fun u => ?_, houter.exclusive h.exclusive (List.mem_singleton_self _) hstep hown.2,
      fun hnone => ?_, huntouched.client ▸ h.sound⟩
    · rw [hview]
      by_cases hu : u = t
      · exact hu ▸ hown.1
      · rcases huntouched.others u hu with hsame | hnew
        · exact hsame ▸ h.spot u
        · rw [hnew]
          exact .outside Component.outer_start
    · rw [huntouched.owner lock (List.mem_singleton_self _)] at hnone
      exact hview ▸ h.idle hnone
  · have hexcl := h.exclusive.step hstep hcode
    refine ⟨fun u => ?_, hexcl, hidle, hsound⟩
    by_cases hu : u = t
    · exact hu ▸ hspot
    · -- no other thread has the lock
      rw [hstep.others_eq hstart hu]
      exact (h.spot u).free (h.exclusive.outside (howner u hu)) _

/-- The interrupt of the disk calls `RequestDone`. -/
theorem Working.requestDone (h : Working disk n T) (hone : 1 ≤ T.pending .disk) :
    Working disk (n + 1) ([HandlerAct.v semaphore].foldl Tasks.act (T.occur .disk)) := by
  have hidle : ¬ (view n T).Idle := by
    intro hidle
    have hzero : T.pending .disk = 0 := hidle.pending
    omega
  refine ⟨fun t => ?_, h.exclusive, fun hnone => absurd (h.idle hnone) hidle, h.sound⟩
  have hspot := h.spot t
  change Spot _ t (T.todo t)
  generalize T.todo t = l at hspot
  cases hspot with
  | outside hl => exact .outside hl
  | enter hl => exact .enter hl
  | request hl hv | release hl hv | give hl hv => exact absurd hv hidle
  | schedule hl hv =>
      have hzero : T.pending .disk = 0 := hv.pending
      omega
  | wait hl hv =>
      have hsum : T.value semaphore + T.pending .disk = 1 := hv.one
      have hcompleted : n + T.pending .disk = T.client.history.length := hv.completed
      refine .wait hl ⟨?_, ?_, ?_, hv.last⟩
      · simp only [view, List.foldl_cons, List.foldl_nil, Tasks.act, Tasks.up, Tasks.occur,
          Tasks.setValue_pending, Tasks.setPending_pending, Function.update_self]
        omega
      · simp only [view, List.foldl_cons, List.foldl_nil, Tasks.act, Tasks.up, Tasks.occur,
          Tasks.setValue_pending, Tasks.setPending_pending, Tasks.setValue_value,
          Tasks.setPending_value, Function.update_self]
        omega
      · simp only [view, List.foldl_cons, List.foldl_nil, Tasks.act, Tasks.up, Tasks.occur,
          Tasks.setValue_pending, Tasks.setPending_pending, Tasks.setValue_client,
          Tasks.setPending_client, Function.update_self]
        omega

theorem outside_of_apart {act : HandlerAct} (h : Apart act) : act.Outside component := by
  cases act with
  | schedule | v => simpa [Apart, HandlerAct.Outside, component] using h
  | yieldOnReturn => trivial

/-- Other handlers leave the disk alone. -/
theorem Working.apart (h : Working disk n T) {acts : List HandlerAct}
    (hacts : ∀ act ∈ acts, Apart act) {type : IntType} (htype : type ≠ .disk) :
    Working disk n (acts.foldl Tasks.act (T.occur type)) := by
  have hout : component.Unhandled T (acts.foldl Tasks.act (T.occur type)) :=
    Component.unhandled_of_outside (fun act hact => outside_of_apart (hacts act hact))
      (Component.unhandled_occur (by simpa [component] using htype))
  have hview : view n (acts.foldl Tasks.act (T.occur type)) = view n T := by
    rw [view, hout.value _ (List.mem_singleton_self _), hout.pending _ (List.mem_singleton_self _),
      hout.client]
    rfl
  refine ⟨fun t => ?_, fun t => ?_, fun hnone => ?_, ?_⟩
  · rw [hview, hout.todo]
    exact h.spot t
  · rw [hout.todo, hout.owner]
    exact h.exclusive t
  · rw [hout.owner] at hnone
    exact hview ▸ h.idle hnone
  · rw [hout.client]
    exact h.sound

theorem working_start (values : ℕ → ℤ) (hvalue : values semaphore = 0) :
    Working disk 0 (.start .caller ⟨.new, disk, []⟩ values) :=
  ⟨fun t => .outside (Component.outer_tasksStart t),
    fun t => (Component.outer_tasksStart (r := component) t).brackets (List.mem_singleton_self _) _,
    fun _ => ⟨hvalue, rfl, rfl⟩, sound_new disk⟩

/-- If a request is being served, then that of the thread that has the lock. -/
theorem Working.cases (h : Working disk n T) : (view n T).Idle ∨
    ∃ t, T.owner lock = some t ∧ ((view n T).Made t ∨ (view n T).Served t) := by
  cases howner : T.owner lock with
  | none => exact .inl (h.idle howner)
  | some t =>
      have hinside := h.exclusive.inside howner
      have hspot := h.spot t
      generalize T.todo t = l at hspot hinside
      cases hspot with
      | outside hl =>
          rw [hl.brackets (List.mem_singleton_self _)] at hinside
          cases hinside
      | enter hl => cases hinside
      | request hl hv | release hl hv | give hl hv => exact .inl hv
      | schedule hl hv => exact .inr ⟨t, rfl, .inl hv⟩
      | wait hl hv => exact .inr ⟨t, rfl, .inr hv⟩

/-- At most one request is outstanding, and no completion is left behind. -/
theorem Working.bounds (h : Working disk n T) (hproper : T.Proper) :
    0 ≤ T.pending .disk ∧ T.value semaphore + T.pending .disk ≤ 1 ∧
      n ≤ T.client.history.length ∧ T.client.history.length ≤ n + 1 := by
  have hnonneg := hproper.nonneg semaphore
  rcases h.cases with hidle | ⟨t, -, hmade | hserved⟩
  · have hvalue : T.value semaphore = 0 := hidle.value
    have hpending : T.pending .disk = 0 := hidle.pending
    have hcompleted : n = T.client.history.length := hidle.completed
    omega
  · have hvalue : T.value semaphore = 0 := hmade.value
    have hpending : T.pending .disk = 0 := hmade.pending
    have hcompleted : n + 1 = T.client.history.length := hmade.completed
    omega
  · have hpending : 0 ≤ T.pending .disk := hserved.nonneg
    have hone : T.value semaphore + T.pending .disk = 1 := hserved.one
    have hcompleted : n + T.pending .disk = T.client.history.length := hserved.completed
    omega

/-! ## The device -/

def activeOf (l : List (PendingInterrupt × Bool)) : Bool :=
  l.foldl (fun active x => if x.1.type = .disk then !x.2 else active) false

theorem active_eq (log : List (Event Routine)) : active log = activeOf (Core.timing log) := by
  induction log using List.reverseRecOn with
  | nil => rfl
  | append_singleton log e ih =>
      rw [active, List.foldl_append, ← active, ih, Core.timing_append]
      cases e <;> simp [activeOf, Core.timing, noteActive, List.filterMap_cons]

/-- How many interrupts of the disk have occurred. -/
def completed (l : List (PendingInterrupt × Bool)) : ℕ :=
  l.countP fun x => x.2 && x.1.type = .disk

theorem completed_append (l l' : List (PendingInterrupt × Bool)) :
    completed (l ++ l') = completed l + completed l' := List.countP_append

/-- The device is active while an interrupt is pending. -/
theorem activeOf_append {x : PendingInterrupt × Bool}
    (h : activeOf l = decide (Core.pendingOf .disk l = 1)) (hnonneg : 0 ≤ Core.pendingOf .disk l)
    (hle : Core.pendingOf .disk l ≤ 1) (hnonneg' : 0 ≤ Core.pendingOf .disk (l ++ [x]))
    (hle' : Core.pendingOf .disk (l ++ [x]) ≤ 1) :
    activeOf (l ++ [x]) = decide (Core.pendingOf .disk (l ++ [x]) = 1) := by
  rw [Core.pendingOf_append, Core.pendingOf_singleton] at *
  obtain ⟨p, b⟩ := x
  rw [activeOf, List.foldl_append, ← activeOf, h]
  by_cases hp : p.type = .disk
  · cases b with
    | true =>
        simp only [hp, if_true, List.foldl_cons, List.foldl_nil] at *
        simp
        omega
    | false =>
        simp only [hp, if_true, List.foldl_cons, List.foldl_nil] at *
        simp at *
        omega
  · simp [hp]

/-- Other interrupts do not change that. -/
theorem activeOf_of_ne {l' : List (PendingInterrupt × Bool)} (h : ∀ x ∈ l', x.1.type ≠ .disk) :
    activeOf (l ++ l') = activeOf l := by
  induction l' using List.reverseRecOn with
  | nil => rw [List.append_nil]
  | append_singleton l' x ih =>
      have hx : x.1.type ≠ .disk := h x (by simp)
      rw [← List.append_assoc, activeOf, List.foldl_append, ← activeOf,
        ih fun y hy => h y (List.mem_append_left _ hy)]
      exact if_neg hx

/-! ## Runs -/

/-- The invariant, with the interrupts so far. -/
structure Serial (disk : Disk) (l : List (PendingInterrupt × Bool)) (T : Tasks Routine Device) :
    Prop where
  working : Working disk (completed l) T
  pending : T.pending .disk = Core.pendingOf .disk l
  active : activeOf l = decide (T.pending .disk = 1)

theorem Serial.append {x : PendingInterrupt × Bool} (h : Serial disk l T) (hproper : T.Proper)
    (hworking : Working disk (completed (l ++ [x])) T') (hproper' : T'.Proper)
    (hpending : T'.pending .disk = Core.pendingOf .disk (l ++ [x])) :
    Serial disk (l ++ [x]) T' := by
  refine ⟨hworking, hpending, ?_⟩
  have hactive := h.active
  obtain ⟨hnonneg, hle, -⟩ := h.working.bounds hproper
  obtain ⟨hnonneg', hle', -⟩ := hworking.bounds hproper'
  have hvalue := hproper.nonneg semaphore
  have hvalue' := hproper'.nonneg semaphore
  rw [hpending]
  rw [h.pending] at hactive
  exact activeOf_append hactive (h.pending ▸ hnonneg) (by rw [← h.pending]; omega)
    (hpending ▸ hnonneg') (by rw [← hpending]; omega)

section

variable {build : Build} {schedPriority : Bool} {values : ℕ → ℤ} {machine : Option Machine}
  {k : Kernel Routine Device}

theorem initial_start (hvalues : ∀ n, 0 ≤ values n) : (start disk values machine).Initial :=
  ⟨_, _, values, machine, hvalues, rfl⟩

theorem serial (hvalues : ∀ n, 0 ≤ values n) (hvalue : values semaphore = 0)
    (h : (Kernel.systemWhere (config build schedPriority) (· = start disk values machine)
      Serves).Reachable k) :
    k.core.tasks.Proper ∧ Serial disk (Core.timing k.log) k.core.tasks := by
  refine Kernel.timing_invariant ?_ ?_ ?_ ?_ h
  · rintro k rfl
    exact initial_start hvalues
  · rintro k rfl
    rw [start, Kernel.core_start, Core.tasks_start]
    exact ⟨working_start values hvalue, rfl, rfl⟩
  · rintro t l l' T T' hproper hproper' hserial hfree hstep hpending hl
    have hworking := hserial.working.step hproper' hstep
    rcases hl with rfl | ⟨p, rfl⟩
    · refine ⟨hworking, hpending .disk, ?_⟩
      rw [hpending .disk, ← hserial.pending]
      exact hserial.active
    · refine hserial.append hproper ?_ hproper' (hpending .disk)
      rw [completed_append]
      exact hworking
  · rintro k env e rest ps l' T' ⟨-, hhandler⟩ hhead hone hps hproper hproper' hpending hserial
      rfl rfl
    have hhandler := hhandler e (by rw [hhead]; rfl)
    by_cases htype : e.item.type = .disk
    · rw [if_pos htype] at hhandler
      rw [htype] at hone
      obtain rfl : ps = [] := by
        refine List.eq_nil_iff_forall_not_mem.mpr fun p hp => ?_
        obtain ⟨m, hm⟩ := hps p hp
        rw [hhandler] at hm
        simp at hm
      refine hserial.append hproper ?_ hproper' (hpending .disk)
      have hworking := hserial.working.requestDone hone
      rw [hhandler, htype, completed_append]
      simpa [completed, htype] using hworking
    · rw [if_neg htype] at hhandler
      have hne : ∀ x ∈ (e.item, true) :: ps.map (·, false), x.1.type ≠ .disk := by
        intro x hx
        rcases List.mem_cons.mp hx with rfl | hx
        · exact htype
        · obtain ⟨p, hp, rfl⟩ := List.mem_map.mp hx
          obtain ⟨m, hm⟩ := hps p hp
          simpa [Apart] using hhandler _ hm
      have hcompleted : completed (Core.timing k.log ++ (e.item, true) :: ps.map (·, false)) =
          completed (Core.timing k.log) := by
        rw [completed_append]
        simp [completed, htype]
      refine ⟨?_, hpending .disk, ?_⟩
      · rw [hcompleted]
        exact hserial.working.apart hhandler htype
      · rw [activeOf_of_ne hne, hserial.active, hpending, Core.pendingOf_append,
          Core.pendingOf_eq_zero hne, hserial.pending, add_zero]

theorem todo_of_stack {f : Frame Routine} (hs : k.current.stack = f :: rest) :
    k.core.tasks.todo k.currentThread = f.actions ++ todo rest := congrArg todo hs

/-- Requests are made by the thread that has the lock, when no other one is being served. -/
theorem Working.request (h : Working disk n k.core.tasks) {op : Op}
    (hs : k.current.stack = .cmd (.run (.request op)) :: rest) :
    k.owner lock = some k.currentThread ∧ (view n k.core.tasks).Idle := by
  have hspot := h.spot k.currentThread
  have hexcl := h.exclusive.owner_of_inside (t := k.currentThread)
  rw [todo_of_stack hs] at hspot hexcl
  generalize hl : (Frame.cmd (Cmd.run (Routine.request op))).actions ++ todo rest = acts
    at hspot hexcl
  cases hspot with
  | outside houter =>
      subst hl
      cases houter _ List.mem_cons_self
  | request houter hv => exact ⟨hexcl rfl, hv⟩
  | _ => cases hl

/-- A thread that is about to release the lock has it, and its request has been completed. -/
theorem Working.ending (h : Working disk n T) {rest : List (Action Routine)}
    (hs : T.todo t = ending rest) :
    T.owner lock = some t ∧ (view n T).Last t ∧ (view n T).Idle := by
  have hspot := h.spot t
  have hexcl := h.exclusive.owner_of_inside (t := t)
  rw [hs] at hspot hexcl
  generalize hl : SynchDisk.ending rest = acts at hspot hexcl
  cases hspot with
  | outside houter =>
      subst hl
      exact absurd (List.mem_singleton_self _) (houter _ List.mem_cons_self)
  | release houter hv hlast => exact ⟨hexcl rfl, hlast, hv⟩
  | _ => cases hl

theorem Working.owner_of_check (h : Working disk n k.core.tasks)
    (hs : k.current.stack = .assertOwner lock :: rest) : k.owner lock = some k.currentThread := by
  have hspot := h.spot k.currentThread
  have hexcl := h.exclusive.owner_of_inside (t := k.currentThread)
  rw [todo_of_stack hs] at hspot hexcl
  generalize hl : (Frame.assertOwner lock : Frame Routine).actions ++ todo rest = acts
    at hspot hexcl
  cases hspot with
  | outside houter =>
      subst hl
      exact absurd (List.mem_singleton_self _) (houter _ List.mem_cons_self)
  | release => exact hexcl rfl
  | _ => cases hl

/-- A request that has not been completed is that of the thread that has the lock. -/
theorem Working.owner_of_request (h : Working disk n T) (hproper : T.Proper) {i : ℕ}
    (hx : T.client.history[i]? = some x) (hi : n ≤ i) : T.owner lock = some x.thread := by
  have hlt : i < T.client.history.length := (List.getElem?_eq_some_iff.mp hx).1
  have hlast : ∀ t, (view n T).Last t → T.client.history.length ≤ i + 1 → t = x.thread := by
    intro t ht hle
    have hi : i = T.client.history.length - 1 := by omega
    have hlast : T.client.history.getLast?.map Transfer.thread = some t := ht
    rw [List.getLast?_eq_getElem?, ← hi, hx] at hlast
    exact (Option.some.inj hlast).symm
  have hle := (h.bounds hproper).2.2.2
  rcases h.cases with hidle | ⟨t, howner, hmade | hserved⟩
  · have hcompleted : n = T.client.history.length := hidle.completed
    omega
  · rw [howner, hlast t hmade.last (by omega)]
  · rw [howner, hlast t hserved.last (by omega)]

end

/-- No code fails, given what it finds in the device. -/
theorem run_returns {k : Kernel Routine Device} (h : Serial disk l k.core.tasks) {f : Routine}
    (hs : k.current.stack = .cmd (.run f) :: rest) {i : Use component Op × Readings}
    (hactive : i.2.active = activeOf l) :
    ∃ g cmds, step k.client k.currentThread f i = .ok (g, cmds) := by
  cases f with
  | caller =>
      obtain ⟨use, r⟩ := i
      cases use with
      | call | other | leave => exact ⟨_, _, rfl⟩
  | request op =>
      have hpending : k.core.tasks.pending .disk = 0 := (h.working.request hs).2.pending
      have hidle : i.2.active = false := by
        rw [hactive, h.active, hpending]
        rfl
      obtain ⟨g, ticks, x, heq, -⟩ := request_eq h.working.sound hidle k.currentThread op
      exact ⟨g, _, heq⟩

/-- The same, from the log. -/
def completions (log : List (Event Routine)) : ℕ := (Core.occurred log).countP (·.type = .disk)

theorem completed_timing (log : List (Event Routine)) :
    completed (Core.timing log) = completions log := by
  rw [completions, Core.occurred_eq]
  induction Core.timing log with
  | nil => rfl
  | cons x l ih =>
      obtain ⟨p, occurred⟩ := x
      unfold completed at ih ⊢
      cases occurred with
      | false => simpa using ih
      | true => simp [List.countP_cons, ih]

/-- Threads use the disk as an array of sectors. No assertion fails, at most one request is
outstanding, and the semaphore keeps no completion for later. A thread that is about to release
the lock has it, and the last request is its own and completed; a request that has not been
completed is that of the thread that has the lock. Requests take effect one at a time, each in
the hands of the thread that has the lock, and what is read is what has been written last. -/
theorem sectors_linearizable (build : Build) (schedPriority : Bool) (disk : Disk)
    (values : ℕ → ℤ) (machine : Option Machine) (hvalues : ∀ n, 0 ≤ values n)
    (hvalue : values semaphore = 0) (k : Kernel Routine Device)
    (h : (Kernel.systemWhere (config build schedPriority) (· = start disk values machine)
      Serves).Reachable k) :
    (∀ f rest env, Serves k env → k.current.stack = .cmd (.run f) :: rest →
      ∃ k', k.step (config build schedPriority) env = .ok k') ∧
    (∀ rest, k.current.stack = .assertOwner lock :: rest →
      k.owner lock = some k.currentThread) ∧
    (k.sem (.user semaphore)).value + k.interrupt.pending.countP (·.item.type = .disk) ≤ 1 ∧
    (∀ t rest, todo (k.thread t).stack = ending rest → k.owner lock = some t ∧
      k.client.history.getLast?.map Transfer.thread = some t ∧
      completions k.log = k.client.history.length ∧ (k.sem (.user semaphore)).value = 0) ∧
    (∀ i x, k.client.history[i]? = some x → completions k.log ≤ i →
      k.owner lock = some x.thread) ∧
    (∀ env k', k.Legal → k.step (config build schedPriority) env = .ok k' →
      k'.client ≠ k.client → k.owner lock = some k.currentThread ∧
      ∃ x, k'.client.history = k.client.history ++ [x] ∧ x.thread = k.currentThread) ∧
    (∀ i x, k.client.history[i]? = some x → x.writing = false →
      x.data = latest disk (k.client.history.take i) x.sectorNumber) := by
  obtain ⟨hproper, hserial⟩ := serial hvalues hvalue h
  have hworking := hserial.working
  rw [completed_timing] at hworking
  have htimed := Kernel.timed ((Kernel.reachable_of_where h).mono (fun k hk =>
    hk ▸ initial_start hvalues) fun _ _ _ _ hstep => hstep)
  refine ⟨fun f rest env hserves hs => ?_, fun rest hs => hworking.owner_of_check hs, ?_,
    fun t rest hs => ?_, fun i x hx hi => hworking.owner_of_request hproper hx hi,
    fun env k' hlegal hstep hne => ?_, hworking.sound.read⟩
  · obtain ⟨g, cmds, hcode⟩ := run_returns hserial hs (i := env.choice) (by
      rw [hserves.1, ← active_eq])
    rw [Kernel.step, hs]
    exact ⟨_, bind_eq_ok.mpr ⟨_, hcode, rfl⟩⟩
  · rw [← Kernel.pending_eq_countP htimed]
    exact (hworking.bounds hproper).2.1
  · obtain ⟨howner, hlast, hidle⟩ := hworking.ending hs
    exact ⟨howner, hlast, hidle.completed, hidle.value⟩
  · rcases Kernel.client_step hlegal hstep with hsame | ⟨f, rest, i, cmds, hs, hcode⟩
    · exact absurd hsame hne
    · cases f with
      | caller => exact absurd (spot_of_caller hcode Component.outer_nil).1 hne
      | request op =>
          obtain ⟨g, ticks, x, heq, -, hhistory, hx⟩ :=
            request_eq hworking.sound (active_of_request hcode) k.currentThread op
          have hg : g = k'.client := (Prod.mk.inj (Except.ok.inj (heq.symm.trans hcode))).1
          exact ⟨(hworking.request hs).1, x, hg ▸ hhistory, hx⟩

/-- A step as the device allows it, in which a handler of another interrupt does nothing. -/
def follow (use : Use component Op) (k : Kernel Routine Device) :
    Env (Use component Op × Readings) where
  choice := (use, ⟨k.stats.totalTicks, active k.log⟩)
  handler :=
    match k.interrupt.pending with
    | [] => []
    | e :: _ => if e.item.type = .disk then [.v semaphore] else []

theorem serves_follow (use : Use component Op) (k : Kernel Routine Device) :
    Serves k (follow use k) := by
  refine ⟨rfl, fun e he => ?_⟩
  obtain ⟨rest, hpending⟩ := List.head?_eq_some_iff.mp he
  have hhandler : (follow use k).handler = if e.item.type = .disk then [.v semaphore] else [] := by
    rw [follow, hpending]
  rw [hhandler]
  split <;> simp

/-- A thread has written a sector, and the main thread waits for its contents. -/
def writeThenRead : List (Use component Op) :=
  let turns : List (Use component Op × ℕ) :=
    [(.other ⟨.newThread 6 0, trivial⟩, 6), (.other ⟨.call (.fork 1 .caller), rfl⟩, 8),
      (.other ⟨.call .yield, trivial⟩, 7), (.call (.writeSector 3 fun _ => 7), 24),
      (.call (.readSector 3), 28), (.leave, 17)]
  turns.flatMap fun turn => List.replicate turn.2 turn.1

theorem sectors_linearizable_writeThenRead : ∃ k : Kernel Routine Device,
    (k.client.history.map fun x => (x.thread, x.data 0), completions k.log) =
      ([(1, 7), (0, 7)], 1) ∧ k.owner lock = some 0 := by
  obtain ⟨k, hk, hreach⟩ := Kernel.exists_reachable_by (config ⟨false, false, false⟩ false)
    serves_follow writeThenRead (start (fun _ _ => 0) (fun _ => 0) none)
    (fun k => (k.client.history.map fun x => (x.thread, x.data 0), completions k.log))
    ([(1, 7), (0, 7)], 1) (by decide +kernel)
  obtain ⟨-, -, -, -, howner, -⟩ := sectors_linearizable _ _ _ _ _ (fun _ => le_rfl) rfl k
    (hreach _ rfl)
  obtain ⟨hhistory, hcompleted⟩ := Prod.mk.inj hk
  have hlast : (k.client.history.map fun x => (x.thread, x.data 0))[1]? = some (0, 7) := by
    rw [hhistory]
    rfl
  rw [List.getElem?_map] at hlast
  obtain ⟨x, hx, hthread⟩ := Option.map_eq_some_iff.mp hlast
  refine ⟨k, hk, ?_⟩
  rw [howner 1 x hx hcompleted.le, (Prod.mk.inj hthread).1]

end Nachos.SynchDisk
