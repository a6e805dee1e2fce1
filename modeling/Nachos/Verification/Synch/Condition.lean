import Nachos.Verification.Kernel.Execution
import Nachos.Verification.Synch.Lock

/-! # Conditions

`Wait` gives the lock back, joins the queue of the condition and sleeps without being
interrupted, so that no `Signal` comes in between. A thread that returns has been selected
since, in the order in which threads have joined, and has the lock again. -/

namespace Nachos

open Library

variable {φ γ ι : Type} {l : ℕ} {ℓ : IntStatus} {rest stack : List (Frame φ)} {f : Call φ}

/-! ## Rounds -/

/-- What happens to a thread that waits. -/
inductive WaitStep where
  | called
  | joined
  | selected
  | returned
  deriving DecidableEq, Repr

@[simp] def Event.wait? (x t : ℕ) : Event φ → Option WaitStep
  | .called t' (.wait x' _) _ => if t' = t ∧ x' = x then some .called else none
  | .joined x' t' => if t' = t ∧ x' = x then some .joined else none
  | .selected x' t' => if t' = t ∧ x' = x then some .selected else none
  | .returned t' (.wait x' _) _ => if t' = t ∧ x' = x then some .returned else none
  | _ => none

/-- What has happened to a thread at a condition. -/
def waits (x t : ℕ) (log : List (Event φ)) : List WaitStep := log.filterMap (Event.wait? x t)

@[simp] theorem waits_append (x t : ℕ) (log log' : List (Event φ)) :
    waits x t (log ++ log') = waits x t log ++ waits x t log' := List.filterMap_append ..

@[simp] theorem waits_cons (x t : ℕ) (e : Event φ) (es : List (Event φ)) :
    waits x t (e :: es) = (Event.wait? x t e).toList ++ waits x t es := by
  unfold waits
  cases he : Event.wait? x t e with
  | none => simp [List.filterMap_cons_none he]
  | some s => simp [List.filterMap_cons_some he]

@[simp] theorem waits_nil (x t : ℕ) : waits x t ([] : List (Event φ)) = [] := rfl

/-- One call of `Wait`. -/
def round : List WaitStep := [.called, .joined, .selected, .returned]

/-- Whole rounds, and a part of another one. -/
def Rounds (history part : List WaitStep) : Prop :=
  ∃ n, history = (List.replicate n round).flatten ++ part

theorem Rounds.snoc {history part : List WaitStep} (h : Rounds history part) (s : WaitStep) :
    Rounds (history ++ [s]) (part ++ [s]) := by
  obtain ⟨n, rfl⟩ := h
  exact ⟨n, by rw [List.append_assoc]⟩

theorem Rounds.close {history : List WaitStep} (h : Rounds history round) :
    Rounds history [] := by
  obtain ⟨n, rfl⟩ := h
  exact ⟨n + 1, by simp [List.replicate_succ']⟩

/-- A call of `Wait` that has not joined the queue, or that has. -/
@[simp] def Frame.wait? : Frame φ → Option (Bool × ℕ)
  | .enqueue x => some (false, x)
  | .ret (.wait x _) _ => some (true, x)
  | _ => none

theorem inert_wait? : Inert (Frame.wait? : Frame φ → Option (Bool × ℕ)) := by
  refine ⟨fun f hf => ?_, fun _ => rfl, rfl⟩
  cases f with
  | enqueue | ret => cases hf
  | _ => rfl

/-- How far the round has come: the thread is in `Wait`, and it may be on the queue. -/
def partOf (x : ℕ) (mark : Option (Bool × ℕ)) (queued : Bool) : List WaitStep :=
  if mark = some (false, x) then [.called]
  else if mark = some (true, x) then
    if queued then [.called, .joined] else [.called, .joined, .selected]
  else []

theorem partOf_isPrefix (x : ℕ) (mark : Option (Bool × ℕ)) (queued : Bool) :
    partOf x mark queued <+: round := by
  unfold partOf
  split
  · decide
  · split
    · split <;> decide
    · decide

/-- `Wait` is called by the program only. -/
theorem Caller.code_of_wait {x : ℕ} (h : Caller (.wait x l) ℓ rest) : Code rest := by
  cases h with
  | code _ h => exact h

theorem Ending.marks_wait {x : ℕ} (h : Ending (.wait x l) stack) :
    marks Frame.wait? stack = [(true, x)] := by
  obtain ⟨ℓ, rest, rfl, hcaller⟩ := h
  have hcode : marks Frame.wait? rest = [] := hcaller.code_of_wait.marks inert_wait?
  simp [marks_cons, hcode]

namespace Core

variable {cfg : Config φ γ ι} {c c' : Core φ γ} {place : ℕ → Option Place} {x t : ℕ}

/-- The part of the round in which a thread is. -/
def part (c : Core φ γ) (x t : ℕ) : List WaitStep :=
  partOf x (marks Frame.wait? (c.stack t)).head? (t ∈ c.queue (.cond x))

/-- Each call of `Wait` goes through its round. -/
def Waited (c : Core φ γ) (x t : ℕ) : Prop := Rounds (waits x t c.log) (c.part x t)

theorem Waited.same (h : Waited c x t)
    (hmarks : marks Frame.wait? (c'.stack t) = marks Frame.wait? (c.stack t))
    (hlog : waits x t c'.log = waits x t c.log := by simp)
    (hqueue : (t ∈ c'.queue (.cond x)) ↔ t ∈ c.queue (.cond x) := by simp) : Waited c' x t := by
  unfold Waited part
  rw [hlog, hmarks, decide_eq_decide.mpr hqueue]
  exact h

/-- A thread on the queue of a condition has joined it in a call of `Wait`. -/
theorem Queued.marks_wait (h : Queued c place) (ht : t ∈ c.queue (.cond x)) :
    marks Frame.wait? (c.stack t) = [(true, x)] := by
  obtain ⟨rest, hw, hmarks⟩ := h.marks_waiting inert_wait? ht (by simp)
  rw [hmarks]
  cases hw with
  | cond hending => exact hending.marks_wait

/-- A thread that is not in `Sleep` is on no queue. -/
theorem Queued.not_mem (h : Queued c place) (hs : ¬ Sleepy (c.stack c.current)) (q : Place) :
    c.current ∉ c.queue q := by
  intro hmem
  have hp := h.placed.place_eq hmem
  rw [(h.runs hs).2.1] at hp
  cases hp

theorem Waited.enter (h : Waited c x t) (hshape : Shaped c)
    (hs : c.stack c.current = .call f :: rest ∨ c.stack c.current = .cmd (.call f) :: rest) :
    Waited (((c.goto (f.body ++ .setLevel c.level :: .ret f c.level :: rest)).setLevel .off).emit
      (.called c.current f c.level)) x t := by
  have hpop : marks Frame.wait? (c.stack c.current) = marks Frame.wait? rest := by
    rcases hs with hs | hs <;> rw [hs] <;> rfl
  by_cases hf : ∃ y l, f = .wait y l
  · obtain ⟨y, l, rfl⟩ := hf
    have hrest : marks Frame.wait? rest = [] := by
      rcases hs with hs | hs
      · have hcaller : Caller (.wait y l) c.level rest := (hshape.top hs).1
        exact hcaller.code_of_wait.marks inert_wait?
      · exact (hshape.top hs).2.marks inert_wait?
    by_cases ht : t = c.current
    · subst ht
      have hpart : c.part x c.current = [] := by simp [part, partOf, hpop, hrest]
      have hbegin : Rounds (waits x c.current c.log) [] := hpart ▸ h
      by_cases hy : y = x
      · subst hy
        simpa [Waited, part, partOf, Call.body, marks_cons] using hbegin.snoc .called
      · simpa [Waited, part, partOf, Call.body, marks_cons, hy] using hbegin
    · exact h.same (by simp [ht]) (by simp [Ne.symm ht])
  · have hbody : marks Frame.wait? (f.body ++ .setLevel c.level :: .ret f c.level :: rest) =
        marks Frame.wait? (c.stack c.current) := by
      rw [hpop]
      cases f with
      | wait y l => exact absurd ⟨y, l, rfl⟩ hf
      | _ => rfl
    refine h.same (marks_goto _ hbody (by simp) t) ?_
    cases f with
    | wait y l => exact absurd ⟨y, l, rfl⟩ hf
    | _ => simp

/-- A thread that returns from `Wait` is on no queue, so that it has been selected. -/
theorem Queued.part_ret (hq : Queued c place) {level : IntStatus}
    (hs : c.stack c.current = .ret (.wait x l) level :: rest) :
    c.part x c.current = [.called, .joined, .selected] := by
  have hout : c.current ∉ c.queue (.cond x) := hq.not_mem (by rw [hs]; exact id) _
  simp [part, partOf, hs, marks_cons, hout]

theorem Waited.ret (h : Waited c x t) (hshape : Shaped c) (hq : Queued c place) {level : IntStatus}
    (hs : c.stack c.current = .ret f level :: rest) :
    Waited ((c.goto rest).emit (.returned c.current f c.level)) x t := by
  by_cases hf : ∃ y l, f = .wait y l
  · obtain ⟨y, l, rfl⟩ := hf
    have hcaller : Caller (.wait y l) level rest := (hshape.top hs).2
    have hrest : marks Frame.wait? rest = [] := hcaller.code_of_wait.marks inert_wait?
    by_cases ht : t = c.current
    · subst ht
      by_cases hy : y = x
      · subst hy
        have hselected : Rounds (waits y c.current c.log) [.called, .joined, .selected] :=
          hq.part_ret hs ▸ h
        simpa [Waited, part, partOf, hrest] using (hselected.snoc .returned).close
      · have hpart : c.part x c.current = [] := by simp [part, partOf, hs, marks_cons, hy]
        have hnone : Rounds (waits x c.current c.log) [] := hpart ▸ h
        simpa [Waited, part, partOf, hrest, hy] using hnone
    · exact h.same (by simp [ht]) (by simp [Ne.symm ht])
  · refine h.same (marks_goto rest ?_ (by simp) t) ?_
    · rw [hs]
      cases f with
      | wait y l => exact absurd ⟨y, l, rfl⟩ hf
      | _ => rfl
    · cases f with
      | wait y l => exact absurd ⟨y, l, rfl⟩ hf
      | _ => simp

theorem Waited.enqueue (h : Waited c x t) (hshape : Shaped c) {y : ℕ}
    (hs : c.stack c.current = .enqueue y :: rest) :
    Waited (((c.goto rest).setQueue (.cond y) (c.queue (.cond y) ++ [c.current])).emit
      (.joined y c.current)) x t := by
  obtain ⟨-, l, rest', rfl, hending⟩ := hshape.top hs
  have hmarks : marks Frame.wait? (.sleep :: .call (.acquire l) :: rest') = [(true, y)] :=
    hending.marks_wait
  by_cases ht : t = c.current
  · subst ht
    by_cases hy : y = x
    · subst hy
      have hpart : c.part y c.current = [.called] := by simp [part, partOf, hs, marks_cons]
      have hcalled : Rounds (waits y c.current c.log) [.called] := hpart ▸ h
      simpa [Waited, part, partOf, hmarks] using hcalled.snoc .joined
    · have hpart : c.part x c.current = [] := by simp [part, partOf, hs, marks_cons, hy]
      have hnone : Rounds (waits x c.current c.log) [] := hpart ▸ h
      simpa [Waited, part, partOf, hmarks, hy] using hnone
  · refine h.same (by simp [ht]) (by simp [Ne.symm ht]) ?_
    by_cases hy : y = x
    · subst hy
      simp [ht]
    · simp [Ne.symm hy]

theorem Waited.select (h : Waited c x t) (hq : Queued c place) {y u : ℕ} {q : List ℕ}
    (hcons : c.queue (.cond y) = u :: q)
    (hmarks : marks Frame.wait? (c'.stack t) = marks Frame.wait? (c.stack t))
    (hlog : waits x t c'.log =
      waits x t c.log ++ if u = t ∧ y = x then [.selected] else [])
    (hqueue : c'.queue (.cond x) = if y = x then q else c.queue (.cond x)) : Waited c' x t := by
  by_cases hy : y = x
  · subst hy
    have hnodup : (u :: q).Nodup := hcons ▸ hq.placed.nodup _
    by_cases ht : u = t
    · subst ht
      have hmem : u ∈ c.queue (.cond y) := hcons ▸ List.mem_cons_self
      have hmarks' := hq.marks_wait hmem
      have hpart : c.part y u = [.called, .joined] := by simp [part, partOf, hmarks', hmem]
      have hjoined : Rounds (waits y u c.log) [.called, .joined] := hpart ▸ h
      have hout : u ∉ q := (List.nodup_cons.mp hnodup).1
      simpa [Waited, part, partOf, hmarks, hmarks', hlog, hqueue, hout] using
        hjoined.snoc .selected
    · refine h.same hmarks (by simp [hlog, ht]) ?_
      simp [hqueue, hcons, Ne.symm ht]
  · exact h.same hmarks (by simp [hlog, hy]) (by simp [hqueue, hy])

theorem Waited.step (h : Waited c x t) (hshape : Shaped c) (hq : Queued c place)
    (hstep : Step cfg c c') : Waited c' x t := by
  have hmarks := hstep.marks inert_wait? hshape hq
  cases hstep with
  | enter hs => exact h.enter hshape hs
  | ret hs => exact h.ret hshape hq hs
  | enqueue hs => exact h.enqueue hshape hs
  | @select y fs u q hs hcons =>
      refine h.select hq hcons (hmarks hs.passive t) ?_ ?_
      · by_cases he : u = t ∧ y = x <;> simp [he]
      · by_cases hy : y = x
        · simp [hy]
        · simp [hy, Ne.symm hy]
  | @down s b rest hs | @setOwner l rest hs | @clearOwner l rest hs =>
      exact h.same (marks_goto rest (by rw [hs]; rfl) (by simp) t)
  | @block s b rest hs =>
      exact h.same (marks_goto (.sleep :: .pLoop s true :: rest) (by rw [hs]; rfl) (by simp) t)
  | @remark e he =>
      cases e with
      | called | returned | joined | selected => exact he.elim
      | _ => exact h.same rfl
  | up hs | upWake hs => exact h.same (hmarks hs.passive t)
  | quiet hs hf => exact h.same (hmarks (passive_of_top hs hf.inactive) t)
  | run hs | startThread hs | newThread hs | yieldNone hs | yieldKeep hs | yieldSwitch hs
  | sleep hs | sleepIdle hs | sleepSwitch hs | finish hs | destroy hs =>
      exact h.same (hmarks (passive_of_top hs rfl) t)

theorem waited_start (main : φ) (client : γ) (values : ℕ → ℤ) :
    Waited (start main client values) x t := by
  refine ⟨0, ?_⟩
  rw [part, marks_start inert_wait?]
  rfl

end Core

/-! ## The order of selection -/

@[simp] def Event.joined? (x : ℕ) : Event φ → Option ℕ
  | .joined x' t => if x' = x then some t else none
  | _ => none

@[simp] def Event.selected? (x : ℕ) : Event φ → Option ℕ
  | .selected x' t => if x' = x then some t else none
  | _ => none

/-- The threads that have joined the queue of a condition, in this order. -/
def joinedAt (x : ℕ) (log : List (Event φ)) : List ℕ := log.filterMap (Event.joined? x)

/-- The threads that have been selected, in this order. -/
def selectedAt (x : ℕ) (log : List (Event φ)) : List ℕ := log.filterMap (Event.selected? x)

namespace Core

variable {cfg : Config φ γ ι} {c c' : Core φ γ}

/-- Threads are selected in the order in which they have joined the queue. -/
def InLine (c : Core φ γ) (x : ℕ) : Prop :=
  joinedAt x c.log = selectedAt x c.log ++ c.queue (.cond x)

theorem InLine.step {x : ℕ} (h : InLine c x) (hstep : Step cfg c c') : InLine c' x := by
  unfold InLine joinedAt selectedAt at *
  cases hstep with
  | @enqueue y rest hs =>
      by_cases hy : y = x
      · subst hy
        simp [h]
      · simp [h, hy, Ne.symm hy]
  | @select y fs t q hs hcons =>
      by_cases hy : y = x
      · subst hy
        simp [h, hcons, List.filterMap_cons]
      · simp [h, hy, Ne.symm hy, List.filterMap_cons]
  | @remark e he =>
      cases e with
      | joined | selected => exact he.elim
      | _ => simpa [List.filterMap_cons] using h
  | _ => simpa [List.filterMap_cons] using h

end Core

/-! ## No wakeup between -/

/-- Only `Release` in `Wait` is followed by joining the queue. -/
theorem Caller.off_of_enqueue {x : ℕ} (h : Caller f ℓ rest) (hmem : .enqueue x ∈ rest) :
    ℓ = .off ∧ ∃ l, f = .release l ∨ f = .v (.lock l) := by
  induction h with
  | code _ hcode | tick _ hcode =>
      obtain ⟨y, hy, -⟩ := hcode _ (by simpa using hmem)
      cases hy
  | acquire _ ih | waitAcquire _ ih =>
      obtain ⟨-, l, hl | hl⟩ := ih (by simpa using hmem) <;> cases hl
  | release => exact ⟨rfl, _, .inr rfl⟩
  | waitRelease => exact ⟨rfl, _, .inl rfl⟩
  | tickRet _ _ ih =>
      obtain ⟨hoff, -⟩ := ih (by simpa using hmem)
      cases hoff

theorem Ticked.not_enqueue {x : ℕ} (h : Ticked stack) : .enqueue x ∉ stack := by
  intro hmem
  rcases h with h | ⟨f, rest, rfl, hcaller⟩
  · obtain ⟨y, hy, -⟩ := h _ hmem
    cases hy
  · obtain ⟨hoff, -⟩ := hcaller.off_of_enqueue (by simpa using hmem)
    cases hoff

theorem Suspended.not_enqueue {x : ℕ} (h : Suspended stack) : .enqueue x ∉ stack := by
  intro hmem
  rcases h with h | ⟨rest, rfl, ⟨q, hq⟩ | ⟨ℓ, rest', rfl, hcaller⟩⟩
  · obtain ⟨y, hy, -⟩ := h _ hmem
    cases hy
  · cases hq with
    | finished => simp at hmem
    | sem h =>
        obtain ⟨ℓ, rest', rfl, hcaller⟩ := h
        obtain ⟨-, l, hl | hl⟩ := hcaller.off_of_enqueue (by simpa using hmem) <;> cases hl
    | cond h =>
        obtain ⟨ℓ, rest', rfl, hcaller⟩ := h
        obtain ⟨-, l, hl | hl⟩ := hcaller.off_of_enqueue (by simpa using hmem) <;> cases hl
  · obtain ⟨-, l, hl | hl⟩ := hcaller.off_of_enqueue (by simpa using hmem) <;> cases hl

theorem Valid.off_of_enqueue {x : ℕ} (h : Valid ℓ stack) (hmem : .enqueue x ∈ stack) :
    ℓ = .off := by
  cases stack with
  | nil => cases hmem
  | cons f rest =>
      cases f with
      | cmd y =>
          obtain ⟨z, hz, -⟩ := h.2 _ (by simpa using hmem)
          cases hz
      | call f => exact (h.1.off_of_enqueue (by simpa using hmem)).1
      | ret f level =>
          obtain ⟨rfl, hcaller⟩ := h
          exact (hcaller.off_of_enqueue (by simpa using hmem)).1
      | oneTick => exact absurd (by simpa using hmem) (Ticked.not_enqueue h)
      | oneTickEnd => exact absurd (by simpa using hmem) h.2.not_enqueue
      | setStatus => exact h.1 ▸ absurd (by simpa using hmem) h.2.2.not_enqueue
      | _ => exact h.1

namespace Kernel

variable {cfg : Config φ γ ι} {k k' : Kernel φ γ} {e₁ e₂ : Env ι}

/-! ## `Signal` and `Broadcast` -/

theorem signalBody_select (schedPriority : Bool) (x : ℕ) (k : Kernel φ γ) :
    selectedAt x (k.signalBody schedPriority x).log =
        selectedAt x k.log ++ (k.cond x).take 1 ∧
      (k.signalBody schedPriority x).cond x = (k.cond x).drop 1 := by
  unfold signalBody selectedAt
  cases hx : k.cond x with
  | nil => simp [hx]
  | cons t rest =>
      simp [readyToRun, emit, modifyThread, List.filterMap_cons]

theorem broadcastLoop_select {schedPriority : Bool} {x : ℕ} {waiting : List ℕ}
    (hlen : waiting.length = (k.cond x).length)
    (h : broadcastLoop schedPriority x l waiting k = .ok k') :
    selectedAt x k'.log = selectedAt x k.log ++ k.cond x ∧ k'.cond x = [] := by
  induction waiting generalizing k with
  | nil =>
      have hnil : k.cond x = [] := List.length_eq_zero_iff.mp hlen.symm
      cases h
      simp [hnil]
  | cons u waiting ih =>
      obtain ⟨_, -, hrest⟩ := bind_eq_ok.mp h
      obtain ⟨hlog, hcond⟩ := signalBody_select schedPriority x k
      obtain ⟨hlog', hcond'⟩ := ih (by rw [hcond]; simp [← hlen]) hrest
      refine ⟨?_, hcond'⟩
      rw [hlog', hlog, hcond, List.append_assoc, List.take_append_drop]

/-- The first two steps of `Signal` and `Broadcast`, after which the queue is as before. -/
theorem call_steps {body : Frame φ} {envs : List (Env ι)} (hbody : f.body = [.assertOwner l, body])
    (hs : k.current.stack = .cmd (.call f) :: rest)
    (h : execute cfg (e₁ :: e₂ :: envs) k = some k') :
    ∃ k₂ : Kernel φ γ, execute cfg envs k₂ = some k' ∧ (∃ rest', k₂.current.stack = body :: rest') ∧
      k₂.log = k.log ++ [.called k.currentThread f k.level] ∧ k₂.cond = k.cond := by
  obtain ⟨k₁, ⟨-, -, h₁⟩, hrest⟩ := execute_cons h
  obtain ⟨k₂, ⟨-, -, h₂⟩, hrest⟩ := execute_cons hrest
  unfold step at h₁
  rw [hs] at h₁
  have hk₁ : k₁ = (k.setStack rest).enter f := (Except.ok.inj h₁).symm
  have hs₁ : k₁.current.stack =
      .assertOwner l :: body :: .setLevel k.level :: .ret f k.level :: rest := by
    rw [hk₁, enter, stack_push, hbody]
    exact congrArg _ (stack_setStack k rest)
  unfold step at h₂
  rw [hs₁] at h₂
  obtain ⟨_, -, h₂⟩ := bind_eq_ok.mp h₂
  have hk₂ := (Except.ok.inj h₂).symm
  subst hk₂
  exact ⟨_, hrest, ⟨_, stack_setStack _ _⟩, by rw [hk₁]; rfl, by rw [hk₁]; rfl⟩

theorem selectedAt_called (x t : ℕ) (f : Call φ) (level : IntStatus) (log : List (Event φ)) :
    selectedAt x (log ++ [.called t f level]) = selectedAt x log := by
  simp [selectedAt]

theorem signal_steps {x : ℕ} {e₃ : Env ι}
    (hs : k.current.stack = .cmd (.call (.signal x l)) :: rest)
    (h : execute cfg [e₁, e₂, e₃] k = some k') :
    selectedAt x k'.log = selectedAt x k.log ++ (k.cond x).take 1 ∧
      k'.cond x = (k.cond x).drop 1 := by
  obtain ⟨k₂, hrest, ⟨rest', hs₂⟩, hlog, hcond⟩ := call_steps rfl hs h
  obtain ⟨k₃, ⟨-, -, h₃⟩, hrest⟩ := execute_cons hrest
  unfold step at h₃
  rw [hs₂] at h₃
  have hk₃ : k₃ = (k₂.setStack rest').signalBody cfg.schedPriority x := (Except.ok.inj h₃).symm
  obtain ⟨hselected, hqueue⟩ := signalBody_select cfg.schedPriority x (k₂.setStack rest')
  rw [← hk₃, Option.some.inj hrest] at hselected hqueue
  rw [hselected, hqueue]
  change selectedAt x k₂.log ++ (k₂.cond x).take 1 = _ ∧ (k₂.cond x).drop 1 = _
  rw [hlog, hcond, selectedAt_called]
  exact ⟨rfl, rfl⟩

theorem broadcast_steps {x : ℕ} {e₃ : Env ι}
    (hs : k.current.stack = .cmd (.call (.broadcast x l)) :: rest)
    (h : execute cfg [e₁, e₂, e₃] k = some k') :
    selectedAt x k'.log = selectedAt x k.log ++ k.cond x ∧ k'.cond x = [] := by
  obtain ⟨k₂, hrest, ⟨rest', hs₂⟩, hlog, hcond⟩ := call_steps rfl hs h
  obtain ⟨k₃, ⟨-, -, h₃⟩, hrest⟩ := execute_cons hrest
  unfold step at h₃
  rw [hs₂] at h₃
  obtain ⟨hselected, hqueue⟩ := broadcastLoop_select rfl h₃
  rw [Option.some.inj hrest] at hselected hqueue
  rw [hselected, hqueue]
  change selectedAt x k₂.log ++ k₂.cond x = _ ∧ _
  rw [hlog, hcond, selectedAt_called]
  exact ⟨rfl, rfl⟩

/-- `Lock` and `Condition` make a monitor. -/
theorem monitor (h : (system cfg Initial).Reachable k) :
    (∀ l t, k.Inside l t → k.owner l = some t ∧ (k.sem (.lock l)).value = 0) ∧
      (∀ l, (∀ t, ¬ k.Inside l t) → ¬ k.Atomic l →
        k.owner l = none ∧ (k.sem (.lock l)).value = 1) ∧
      (∀ x l level rest, k.current.stack = .ret (.wait x l) level :: rest →
        k.owner l = some k.currentThread ∧
          Rounds (waits x k.currentThread k.log) [.called, .joined, .selected]) ∧
      (∀ x t, ∃ part, part <+: round ∧ Rounds (waits x t k.log) part) ∧
      (∀ x, joinedAt x k.log = selectedAt x k.log ++ k.cond x) ∧
      (∀ x l rest e₁ e₂ e₃ k', k.current.stack = .cmd (.call (.signal x l)) :: rest →
        execute cfg [e₁, e₂, e₃] k = some k' →
          selectedAt x k'.log = selectedAt x k.log ++ (k.cond x).take 1 ∧
            k'.cond x = (k.cond x).drop 1) ∧
      (∀ x l rest e₁ e₂ e₃ k', k.current.stack = .cmd (.call (.broadcast x l)) :: rest →
        execute cfg [e₁, e₂, e₃] k = some k' →
          selectedAt x k'.log = selectedAt x k.log ++ k.cond x ∧ k'.cond x = []) ∧
      ∀ t x, .enqueue x ∈ (k.thread t).stack → t = k.currentThread ∧ k.level = .off := by
  have hshape := shaped h
  obtain ⟨place, hq⟩ := queued h
  have hwaited : ∀ x t, k.core.Waited x t := fun x t =>
    (queued_invariant (I := fun c : Core φ γ => c.Waited x t)
      (fun main client values _ => Core.waited_start main client values)
      (fun _ _ _ hshape hq hc hstep => hc.step hshape hq hstep) h).2
  refine ⟨fun l t => lock_of_inside h, fun l => lock_of_not_inside h, ?_, ?_, ?_, ?_, ?_, ?_⟩
  · intro x l level rest hs
    have hinside : k.Inside l k.currentThread := .inr (by
      rw [show (k.thread k.currentThread).stack = _ from hs]
      rfl)
    refine ⟨(lock_of_inside h hinside).1, ?_⟩
    have hpart := hq.part_ret (x := x) hs
    exact hpart ▸ hwaited x k.core.current
  · intro x t
    exact ⟨_, partOf_isPrefix _ _ _, hwaited x t⟩
  · intro x
    exact invariant_of_start (I := fun c : Core φ γ => c.InLine x) (fun _ _ _ _ => rfl)
      (fun _ _ hc hstep => hc.step hstep) h
  · intro x l rest e₁ e₂ e₃ k' hs he
    exact signal_steps hs he
  · intro x l rest e₁ e₂ e₃ k' hs he
    exact broadcast_steps hs he
  · intro t x hmem
    by_cases ht : t = k.currentThread
    · subst ht
      exact ⟨rfl, hshape.current.off_of_enqueue hmem⟩
    · exact absurd hmem (hshape.others t ht).not_enqueue

/-- A thread waits until the main thread calls `Signal`. -/
def signalled : Config ℕ Unit Unit :=
  .scripted false [[.newThread 6 0, .call (.fork 1 1), .call .yield, .call (.acquire 0),
    .call (.signal 0 0), .call (.release 0), .call .yield],
    [.call (.acquire 0), .call (.wait 0 0), .call (.release 0)]] (by decide)

theorem monitor_signalled : ∃ k : Kernel ℕ Unit,
    waits 0 1 k.log = round ∧ k.owner 0 = some 1 ∧ (k.sem (.lock 0)).value = 0 := by
  obtain ⟨k, hobs, hk⟩ := exists_reachable signalled (calm 98) (start 0 () (fun _ => 0) none)
    (fun k => (waits 0 1 k.log, inside 0 1 k.log)) (round, true) (by decide +kernel)
  obtain ⟨hround, hinside⟩ := Prod.mk.inj hobs
  exact ⟨k, hround, (monitor (hk _ (initial_start 0 ()))).1 0 1 (.inl hinside)⟩

end Kernel

end Nachos
