import Nachos.Verification.Kernel.Refinement

/-! # The stacks of threads

Calls nest in a few ways only: a lock calls its semaphore, `Wait` calls its lock, and a tick
at the end of a call or in the program may call `Yield`. The stacks that are possible are
described here, from the outermost call on, together with the levels at which the calls were
made. A thread that does not run either has not started or is in `Scheduler::Run`. -/

namespace Nachos

open Library

variable {φ γ ι : Type} {stack rest fs : List (Frame φ)} {f : Frame φ} {x : Call φ}

/-- A stack with code of the program only. -/
def Code (stack : List (Frame φ)) : Prop := ∀ f ∈ stack, ∃ x : Cmd φ, f = .cmd x ∧ x.Public

/-- What is left to do when the call, made at the given level, has returned. -/
inductive Caller : Call φ → IntStatus → List (Frame φ) → Prop where
  | code {x ℓ rest} (hx : (Cmd.call x).Public) (h : Code rest) : Caller x ℓ rest
  | acquire {l ℓ rest} (h : Caller (.acquire l) ℓ rest) :
      Caller (.p (.lock l)) .off (.setOwner l :: .setLevel ℓ :: .ret (.acquire l) ℓ :: rest)
  | release {l ℓ rest} (h : Caller (.release l) ℓ rest) :
      Caller (.v (.lock l)) .off (.clearOwner l :: .setLevel ℓ :: .ret (.release l) ℓ :: rest)
  | waitRelease {c l ℓ rest} (h : Caller (.wait c l) ℓ rest) :
      Caller (.release l) .off (.enqueue c :: .sleep :: .call (.acquire l) :: .setLevel ℓ ::
        .ret (.wait c l) ℓ :: rest)
  | waitAcquire {c l ℓ rest} (h : Caller (.wait c l) ℓ rest) :
      Caller (.acquire l) .off (.setLevel ℓ :: .ret (.wait c l) ℓ :: rest)
  | tick {st rest} (hst : st ≠ .idle) (h : Code rest) : Caller .yield .on (.setStatus st :: rest)
  | tickRet {x st rest} (hst : st ≠ .idle) (h : Caller x .on rest) :
      Caller .yield .on (.setStatus st :: .ret x .on :: rest)

/-- All that is left of the call is to restore the level. -/
def Ending (x : Call φ) (stack : List (Frame φ)) : Prop :=
  ∃ ℓ rest, stack = .setLevel ℓ :: .ret x ℓ :: rest ∧ Caller x ℓ rest

/-- What is left to do after a tick. -/
def Ticked (stack : List (Frame φ)) : Prop :=
  Code stack ∨ ∃ x rest, stack = .ret x .on :: rest ∧ Caller x .on rest

/-- What is left to do after `Sleep`, with the queue on which the thread has been. -/
inductive Waiting : Option Place → List (Frame φ) → Prop where
  | finished : Waiting none []
  | sem {s rest} (h : Ending (.p s) rest) : Waiting (some (.sem s)) (.pLoop s true :: rest)
  | cond {c l rest} (h : Ending (.wait c l) rest) :
      Waiting (some (.cond c)) (.call (.acquire l) :: rest)

/-- What is left to do after `Scheduler::Run`. -/
def Switched (stack : List (Frame φ)) : Prop := (∃ q, Waiting q stack) ∨ Ending .yield stack

/-- The stacks of a running thread, with the level at which the innermost frame is executed. -/
def Valid (ℓ : IntStatus) : List (Frame φ) → Prop
  | [] => True
  | .cmd x :: rest => x.Public ∧ Code rest
  | .call x :: rest => Caller x ℓ rest ∧ ¬ Code rest
  | .pLoop s _ :: rest => ℓ = .off ∧ Ending (.p s) rest
  | .vBody s :: rest => ℓ = .off ∧ Ending (.v s) rest
  | .setOwner l :: rest => ℓ = .off ∧ Ending (.acquire l) rest
  | .assertOwner l :: rest => ℓ = .off ∧ ∃ x fs rest',
      Call.body x = .assertOwner l :: fs ∧ rest = fs ++ rest' ∧ Ending x rest'
  | .clearOwner l :: rest => ℓ = .off ∧ Ending (.release l) rest
  | .enqueue c :: rest => ℓ = .off ∧ ∃ l rest',
      rest = .sleep :: .call (.acquire l) :: rest' ∧ Ending (.wait c l) rest'
  | .signalBody c :: rest => ℓ = .off ∧ ∃ l, Ending (.signal c l) rest
  | .broadcastBody c l :: rest => ℓ = .off ∧ Ending (.broadcast c l) rest
  | .startThread t f :: rest => ℓ = .off ∧ Ending (.fork t f) rest
  | .yieldBody :: rest => ℓ = .off ∧ Ending .yield rest
  | .sleep :: rest => ℓ = .off ∧ ∃ q, Waiting q rest
  | .sleepLoop :: rest => ℓ = .off ∧ ∃ q, Waiting q rest
  | .afterSwitch :: rest => ℓ = .off ∧ Switched rest
  | .setLevel now :: rest => ℓ = .off ∧ ∃ x rest', rest = .ret x now :: rest' ∧ Caller x now rest'
  | .ret x level :: rest => ℓ = level ∧ Caller x level rest
  | .oneTick :: rest => Ticked rest
  | .fireLoop :: rest => ℓ = .off ∧ ∃ st rest',
      rest = .oneTickEnd st :: rest' ∧ st ≠ .idle ∧ Ticked rest'
  | .oneTickEnd st :: rest => st ≠ .idle ∧ Ticked rest
  | .setStatus st :: rest => ℓ = .on ∧ st ≠ .idle ∧ Ticked rest
  | .idle :: rest => ℓ = .off ∧ ∃ q rest', rest = .sleepLoop :: rest' ∧ Waiting q rest'
  | .idleLoop :: rest => ℓ = .off ∧ ∃ q rest', rest = .sleepLoop :: rest' ∧ Waiting q rest'

/-- The machine idles. -/
def Idling : List (Frame φ) → Prop
  | .idle :: _ | .idleLoop :: _ => True
  | _ => False

/-- The stacks of the other threads. -/
def Suspended (stack : List (Frame φ)) : Prop :=
  Code stack ∨ ∃ rest, stack = .afterSwitch :: rest ∧ Switched rest

/-! ## Stacks after a frame -/

theorem Code.valid (h : Code stack) (ℓ : IntStatus) : Valid ℓ stack := by
  cases stack with
  | nil => trivial
  | cons f rest =>
      obtain ⟨x, rfl, hx⟩ := h f List.mem_cons_self
      exact ⟨hx, fun g hg => h g (List.mem_cons_of_mem _ hg)⟩

theorem not_code (hf : ∀ x, f ≠ .cmd x) : ¬ Code (f :: rest) := by
  intro h
  obtain ⟨x, hx, -⟩ := h f List.mem_cons_self
  exact hf x hx

theorem Code.append {fs : List (Cmd φ)} (hfs : ∀ x ∈ fs, x.Public) (h : Code rest) :
    Code (fs.map .cmd ++ rest) := by
  intro f hf
  rcases List.mem_append.mp hf with hf | hf
  · obtain ⟨x, hx, rfl⟩ := List.mem_map.mp hf
    exact ⟨x, rfl, hfs x hx⟩
  · exact h f hf

theorem code_root (f : φ) : Code (Kernel.root f) := by
  intro g hg
  simp only [Kernel.root, List.mem_cons, List.not_mem_nil, or_false] at hg
  rcases hg with rfl | rfl | rfl
  · exact ⟨_, rfl, trivial⟩
  · exact ⟨_, rfl, trivial⟩
  · exact ⟨_, rfl, trivial⟩

theorem Ending.valid (h : Ending x stack) : Valid .off stack := by
  obtain ⟨ℓ, rest, rfl, hcaller⟩ := h
  exact ⟨rfl, x, rest, rfl, hcaller⟩

theorem Ticked.valid (h : Ticked stack) : Valid .on stack := by
  rcases h with h | ⟨x, rest, rfl, hcaller⟩
  · exact h.valid _
  · exact ⟨rfl, hcaller⟩

theorem Waiting.valid {q : Option Place} (h : Waiting q stack) : Valid .off stack := by
  cases h with
  | finished => trivial
  | sem h => exact ⟨rfl, h⟩
  | cond h =>
      obtain ⟨ℓ, rest, rfl, hcaller⟩ := h
      exact ⟨.waitAcquire hcaller, not_code nofun⟩

theorem Switched.valid (h : Switched stack) : Valid .off stack := by
  rcases h with ⟨q, hq⟩ | h
  · exact hq.valid
  · exact h.valid

theorem Suspended.valid (h : Suspended stack) : Valid .off stack := by
  rcases h with h | ⟨rest, rfl, hrest⟩
  · exact h.valid _
  · exact ⟨rfl, hrest⟩

/-- The caller goes on at the level at which it made the call. -/
theorem Caller.valid {ℓ : IntStatus} (h : Caller x ℓ rest) : Valid ℓ rest := by
  cases h with
  | code _ h => exact h.valid _
  | acquire h => exact ⟨rfl, _, _, rfl, h⟩
  | release h => exact ⟨rfl, _, _, rfl, h⟩
  | waitRelease h => exact ⟨rfl, _, _, rfl, _, _, rfl, h⟩
  | waitAcquire h => exact ⟨rfl, _, _, rfl, h⟩
  | tick hst h => exact ⟨rfl, hst, .inl h⟩
  | tickRet hst h => exact ⟨rfl, hst, .inr ⟨_, _, rfl, h⟩⟩

/-- The start of a call. -/
theorem Caller.enter {ℓ : IntStatus} (h : Caller x ℓ rest) :
    Valid .off (x.body ++ .setLevel ℓ :: .ret x ℓ :: rest) := by
  have hending : Ending x (.setLevel ℓ :: .ret x ℓ :: rest) := ⟨ℓ, rest, rfl, h⟩
  cases x with
  | p s | v s | fork t f | yield => exact ⟨rfl, hending⟩
  | acquire l => exact ⟨.acquire h, not_code nofun⟩
  | release l | wait c l | signal c l | broadcast c l =>
      exact ⟨rfl, _, _, _, rfl, rfl, hending⟩

/-- What is left of a call after `ASSERT(isHeldByCurrentThread())`. -/
theorem valid_of_body {l : ℕ} (hbody : x.body = .assertOwner l :: fs) (h : Ending x rest) :
    Valid .off (fs ++ rest) := by
  obtain ⟨ℓ, rest, rfl, hcaller⟩ := h
  cases x with
  | release l' =>
      cases hbody
      exact ⟨.release hcaller, not_code nofun⟩
  | wait c l' =>
      cases hbody
      exact ⟨.waitRelease hcaller, not_code nofun⟩
  | signal c l' =>
      cases hbody
      exact ⟨rfl, _, ℓ, rest, rfl, hcaller⟩
  | broadcast c l' =>
      cases hbody
      exact ⟨rfl, ℓ, rest, rfl, hcaller⟩
  | p | v | acquire | fork | yield => cases hbody

namespace Core

variable {cfg : Config φ γ ι} {c c' : Core φ γ}

/-- All stacks are possible ones. -/
structure Shaped (c : Core φ γ) : Prop where
  current : Valid c.level (c.stack c.current)
  others : ∀ t, t ≠ c.current → Suspended (c.stack t)
  mode : c.mode = .idle → Idling (c.stack c.current)

theorem Shaped.top (h : Shaped c) (hs : c.stack c.current = f :: rest) :
    Valid c.level (f :: rest) := hs ▸ h.current

theorem Shaped.awake (h : Shaped c) (hs : c.stack c.current = f :: rest)
    (hf : ¬ Idling (f :: rest)) :
    c.mode ≠ .idle :=
  fun hm => hf (hs ▸ h.mode hm)

theorem Shaped.congr (h : Shaped c) (hstack : c'.stack = c.stack)
    (hcurrent : c'.current = c.current) (hlevel : c'.level = c.level)
    (hmode : c'.mode = c.mode) : Shaped c' := by
  refine ⟨?_, fun t ht => ?_, ?_⟩
  · rw [hstack, hcurrent, hlevel]
    exact h.current
  · rw [hcurrent] at ht
    rw [hstack]
    exact h.others t ht
  · rw [hstack, hcurrent, hmode]
    exact h.mode

/-- Only the stack of the current thread changes. -/
theorem Shaped.goto (h : Shaped c) (hv : Valid c'.level fs) (hm : c'.mode = .idle → Idling fs)
    (hstack : c'.stack = Function.update c.stack c.current fs) (hcurrent : c'.current = c.current) :
    Shaped c' where
  current := by
    rw [hstack, hcurrent, Function.update_self]
    exact hv
  others t ht := by
    rw [hcurrent] at ht
    rw [hstack, Function.update_of_ne ht]
    exact h.others t ht
  mode := by
    rw [hstack, hcurrent, Function.update_self]
    exact hm

/-- The current thread, which does not idle, goes on. -/
theorem Shaped.next (h : Shaped c) (hs : c.stack c.current = f :: rest) (hf : ¬ Idling (f :: rest))
    (hv : Valid c'.level fs) (hstack : c'.stack = Function.update c.stack c.current fs)
    (hcurrent : c'.current = c.current) (hmode : c'.mode = c.mode) : Shaped c' := by
  refine h.goto hv (fun hm => ?_) hstack hcurrent
  rw [hmode] at hm
  exact absurd hm (h.awake hs hf)

theorem Shaped.pop (h : Shaped c) (hs : c.stack c.current = f :: rest) (hf : ¬ Idling (f :: rest))
    (hoff : c.level = .off) (hv : Valid .off fs)
    (hstack : c'.stack = Function.update c.stack c.current fs) (hcurrent : c'.current = c.current)
    (hmode : c'.mode = c.mode) (hlevel : c'.level = c.level) : Shaped c' :=
  h.next hs hf (by rw [hlevel, hoff]; exact hv) hstack hcurrent hmode

/-- The current thread, which may be the next one as well, is switched out. -/
theorem Shaped.dispatch (h : Shaped c) {next : ℕ} (hoff : c.level = .off) (hm : c.mode ≠ .idle)
    (hrest : Switched rest) : Shaped (c.dispatch next rest) := by
  have hsuspended : ∀ t, Suspended ((c.dispatch next rest).stack t) := by
    intro t
    rw [dispatch_stack]
    by_cases ht : t = c.current
    · subst ht
      rw [Function.update_self]
      exact .inr ⟨rest, rfl, hrest⟩
    · rw [Function.update_of_ne ht]
      exact h.others t ht
  refine ⟨?_, fun t _ => hsuspended t, fun hidle => absurd hidle ?_⟩
  · rw [dispatch_level, hoff]
    exact (hsuspended _).valid
  · rw [dispatch_mode]
    exact hm

/-- A thread gets a new stack. -/
theorem Shaped.put (h : Shaped c) (hm : c.mode ≠ .idle) (t : ℕ) (hfs : Code fs)
    (hstack : c'.stack = Function.update c.stack t fs) (hcurrent : c'.current = c.current)
    (hlevel : c'.level = c.level) (hmode : c'.mode = c.mode) : Shaped c' := by
  have hcases : ∀ u, c'.stack u = fs ∨ c'.stack u = c.stack u := by
    intro u
    rw [hstack]
    by_cases hu : u = t
    · subst hu
      exact .inl (Function.update_self ..)
    · exact .inr (Function.update_of_ne hu ..)
  refine ⟨?_, fun u hu => ?_, fun hidle => absurd (hmode ▸ hidle) hm⟩
  · rw [hcurrent, hlevel]
    rcases hcases c.current with hnew | hold
    · rw [hnew]
      exact hfs.valid _
    · rw [hold]
      exact h.current
  · rw [hcurrent] at hu
    rcases hcases u with hnew | hold
    · rw [hnew]
      exact .inl hfs
    · rw [hold]
      exact h.others u hu

/-- The frames that take the place of a quiet frame. -/
theorem Quiet.valid {now : IntStatus} {mode : MachineStatus} (hf : Quiet c f fs now mode)
    (hs : c.stack c.current = f :: rest) (h : Shaped c) : Valid now (fs ++ rest) := by
  have hv := h.top hs
  cases hf with
  | assertOwner =>
      obtain ⟨hoff, x, fs, rest', hbody, rfl, hending⟩ := hv
      rw [hoff, List.nil_append]
      exact valid_of_body hbody hending
  | signalNone =>
      obtain ⟨hoff, l, hending⟩ := hv
      rw [hoff]
      exact hending.valid
  | broadcastDone =>
      obtain ⟨hoff, hending⟩ := hv
      rw [hoff]
      exact hending.valid
  | afterSwitch =>
      obtain ⟨hoff, hrest⟩ := hv
      rw [hoff]
      exact hrest.valid
  | setLevel hl =>
      obtain ⟨hoff, x, rest', rfl, hcaller⟩ := hv
      exact ⟨rfl, hcaller⟩
  | setLevelTick hl =>
      obtain ⟨hoff, x, rest', rfl, hcaller⟩ := hv
      exact .inr ⟨x, rest', rfl, hcaller⟩
  | cmdSetLevel hl => exact hv.2.valid _
  | cmdSetLevelTick hl => exact .inl hv.2
  | cmdTick => exact .inl hv.2
  | oneTick => exact ⟨rfl, _, rest, rfl, h.awake hs id, hv⟩
  | fireEnd =>
      obtain ⟨hoff, st, rest', rfl, hst, hticked⟩ := hv
      exact ⟨hst, hticked⟩
  | oneTickEnd => exact hv.2.valid
  | oneTickYield =>
      obtain ⟨hst, hcode | ⟨x, rest', rfl, hcaller⟩⟩ := hv
      · exact ⟨.tick hst hcode, not_code nofun⟩
      · exact ⟨.tickRet hst hcaller, not_code nofun⟩
  | setStatus =>
      obtain ⟨hon, -, hticked⟩ := hv
      rw [hon]
      exact hticked.valid
  | idle => exact hv
  | idleFired => exact hv
  | idleEnd =>
      obtain ⟨hoff, q, rest', rfl, hwaiting⟩ := hv
      exact ⟨hoff, q, hwaiting⟩
  | cmdSetStatus => exact hv.2.valid _
  | cmd => exact hv.2.valid _
  | syscall hc _ =>
      refine (Code.append (fun y hy => ?_) hv.2).valid _
      rw [hc y hy]
      trivial

/-- The mode is idle only where `Idle` is executed. -/
theorem Quiet.mode {now : IntStatus} {mode : MachineStatus} (hf : Quiet c f fs now mode)
    (hs : c.stack c.current = f :: rest) (h : Shaped c) (hm : mode = .idle) :
    Idling (fs ++ rest) := by
  cases hf with
  | idle => trivial
  | idleFired => trivial
  | idleEnd | oneTickYield => cases hm
  | setStatus => exact absurd hm (h.top hs).2.1
  | cmdSetStatus =>
      rw [hm] at hs
      exact (h.top hs).1.elim
  | syscall _ hmode => exact absurd hm hmode
  | cmd hx => exact absurd hm (h.awake hs id)
  | _ => exact absurd hm (h.awake hs id)

theorem UpBy.valid {s : SemId} (hs : UpBy c s fs) (h : Shaped c) :
    Valid c.level fs ∧ (c.mode = .idle → Idling fs) := by
  cases hs with
  | thread hs =>
      obtain ⟨hoff, hending⟩ := h.top hs
      rw [hoff]
      exact ⟨hending.valid, fun hm => absurd hm (h.awake hs id)⟩
  | handler hs => exact ⟨h.top hs, fun hm => hs ▸ h.mode hm⟩

theorem SelectBy.valid {x : ℕ} (hs : SelectBy c x fs) (h : Shaped c) :
    Valid c.level fs ∧ (c.mode = .idle → Idling fs) := by
  cases hs with
  | signal hs =>
      obtain ⟨hoff, l, hending⟩ := h.top hs
      rw [hoff]
      exact ⟨hending.valid, fun hm => absurd hm (h.awake hs id)⟩
  | broadcast hs => exact ⟨h.top hs, fun hm => hs ▸ h.mode hm⟩

theorem Shaped.step (h : Shaped c) (hstep : Step cfg c c') : Shaped c' := by
  cases hstep with
  | quiet hs hf => exact h.goto (hf.valid hs h) (hf.mode hs h) (by simp) (by simp)
  | remark => exact h.congr (by simp) (by simp) (by simp) (by simp)
  | enter hs =>
      rename_i x rest
      rcases hs with hs | hs
      · have hcaller : Caller x c.level rest := (h.top hs).1
        exact h.next hs id hcaller.enter (by simp) (by simp) (by simp)
      · have hcaller : Caller x c.level rest := .code (h.top hs).1 (h.top hs).2
        exact h.next hs id hcaller.enter (by simp) (by simp) (by simp)
  | ret hs =>
      obtain ⟨hlevel, hcaller⟩ := h.top hs
      rw [← hlevel] at hcaller
      exact h.next hs id hcaller.valid (by simp) (by simp) (by simp)
  | run hs hp =>
      have hpublic := cfg.program.isPublic _ _ _ _ _ _ hp
      exact h.next hs id ((Code.append hpublic (h.top hs).2).valid _) (by simp) (by simp) (by simp)
  | down hs hv =>
      obtain ⟨hoff, hending⟩ := h.top hs
      exact h.pop hs id hoff hending.valid (by simp) (by simp) (by simp) (by simp)
  | block hs hv =>
      obtain ⟨hoff, hending⟩ := h.top hs
      have hv : Valid .off (.sleep :: .pLoop _ true :: _) := ⟨rfl, _, .sem hending⟩
      exact h.pop hs id hoff hv (by simp) (by simp) (by simp) (by simp)
  | up hs hq =>
      obtain ⟨hv, hm⟩ := hs.valid h
      exact h.goto hv hm (by simp) (by simp)
  | upWake hs hq =>
      obtain ⟨hv, hm⟩ := hs.valid h
      exact h.goto hv hm (by simp) (by simp)
  | setOwner hs =>
      obtain ⟨hoff, hending⟩ := h.top hs
      exact h.pop hs id hoff hending.valid (by simp) (by simp) (by simp) (by simp)
  | clearOwner hs =>
      obtain ⟨hoff, hending⟩ := h.top hs
      exact h.pop hs id hoff hending.valid (by simp) (by simp) (by simp) (by simp)
  | enqueue hs =>
      obtain ⟨hoff, l, rest', rfl, hending⟩ := h.top hs
      have hv : Valid .off (.sleep :: .call (.acquire l) :: rest') := ⟨rfl, _, .cond hending⟩
      exact h.pop hs id hoff hv (by simp) (by simp) (by simp) (by simp)
  | select hs hq =>
      obtain ⟨hv, hm⟩ := hs.valid h
      exact h.goto hv hm (by simp) (by simp)
  | @startThread t f rest hs ht hst =>
      obtain ⟨hoff, hending⟩ := h.top hs
      have hpop : Shaped (c.goto rest) :=
        h.pop hs id hoff hending.valid (by simp) (by simp) (by simp) (by simp)
      exact hpop.put (h.awake hs id) t (code_root f) (by simp) (by simp) (by simp) (by simp)
  | @newThread _ _ rest _ hs hi =>
      have hpop : Shaped (c.goto rest) :=
        h.next hs id ((h.top hs).2.valid _) (by simp) (by simp) (by simp)
      exact hpop.put (h.awake hs id) c.created (List.forall_mem_nil _) (by simp) (by simp)
        (by simp) (by simp)
  | yieldNone hs hq =>
      obtain ⟨hoff, hending⟩ := h.top hs
      exact h.pop hs id hoff hending.valid (by simp) (by simp) (by simp) (by simp)
  | yieldKeep hs hq hp hkeep =>
      obtain ⟨hoff, hending⟩ := h.top hs
      exact h.pop hs id hoff hending.valid (by simp) (by simp) (by simp) (by simp)
  | @yieldSwitch rest e q hs hq hp =>
      obtain ⟨hoff, hending⟩ := h.top hs
      have hready : Shaped (((c.emit (.findNextToRun c.level)).setReady q).makeReady
        cfg.schedPriority c.current) := h.congr (by simp) (by simp) (by simp) (by simp)
      exact hready.dispatch hoff (h.awake hs id) (.inr hending)
  | sleep hs hl =>
      obtain ⟨hoff, q, hwaiting⟩ := h.top hs
      have hv : Valid .off (.sleepLoop :: _) := ⟨rfl, q, hwaiting⟩
      exact h.pop hs id hoff hv (by simp) (by simp) (by simp) (by simp)
  | sleepIdle hs hq =>
      obtain ⟨hoff, q, hwaiting⟩ := h.top hs
      have hv : Valid .off (.idle :: .sleepLoop :: _) := ⟨rfl, q, _, rfl, hwaiting⟩
      exact h.pop hs id hoff hv (by simp) (by simp) (by simp) (by simp)
  | @sleepSwitch rest e q hs hq =>
      obtain ⟨hoff, hwaiting⟩ := h.top hs
      have hready : Shaped ((c.emit (.findNextToRun c.level)).setReady q) :=
        h.congr (by simp) (by simp) (by simp) (by simp)
      exact hready.dispatch hoff (h.awake hs id) (.inl hwaiting)
  | finish hs =>
      have hv : Valid .off ([.sleep] : List (Frame φ)) := ⟨rfl, _, .finished⟩
      exact h.next hs id hv (by simp) (by simp) (by simp)
  | destroy hs hd ht =>
      obtain ⟨hoff, hrest⟩ := h.top hs
      exact h.pop hs id hoff hrest.valid (by simp) (by simp) (by simp) (by simp)

theorem shaped_start (main : φ) (client : γ) (values : ℕ → ℤ) :
    Shaped (start main client values) where
  current := (code_root main).valid _
  others t ht := by
    rw [start_current] at ht
    rw [start_stack, Function.update_of_ne ht]
    exact .inl (List.forall_mem_nil _)
  mode hm := by cases hm

end Core

namespace Kernel

variable {cfg : Config φ γ ι} {k : Kernel φ γ}

/-- An invariant of the core may be proved for stacks that are possible. -/
theorem shaped_invariant {I : Core φ γ → Prop}
    (hstart : ∀ main client values, (∀ n, 0 ≤ values n) → I (Core.start main client values))
    (hstep : ∀ c c', c.Shaped → I c → Core.Step cfg c c' → I c')
    (h : (system cfg Initial).Reachable k) : k.core.Shaped ∧ I k.core := by
  refine invariant_of_start (I := fun c : Core φ γ => c.Shaped ∧ I c) ?_ ?_ h
  · intro main client values hvalues
    exact ⟨Core.shaped_start main client values, hstart main client values hvalues⟩
  · intro c c' hc hs
    exact ⟨hc.1.step hs, hstep c c' hc.1 hc.2 hs⟩

theorem shaped (h : (system cfg Initial).Reachable k) : k.core.Shaped :=
  (shaped_invariant (I := fun _ => True) (fun _ _ _ _ => trivial) (fun _ _ _ _ _ => trivial) h).1

end Kernel

end Nachos
