import Nachos.Verification.Kernel.Levels

/-! # Progress

The running thread always has something to do, and no `ASSERT` of the kernel fires but those
that check its callers. -/

namespace Nachos

open Library

variable {φ γ ι : Type}

/-! ## Stacks end with `Finish` -/

namespace Core

variable {cfg : Config φ γ ι} {c c' : Core φ γ} {place : ℕ → Option Place} {t : ℕ}
  {stack : List (Frame φ)}

/-- A thread that has started and not finished gets to `Finish` in the end. -/
def Rooted (c : Core φ γ) : Prop :=
  ∀ t < c.created, c.status t ≠ .justCreated → c.phase t = .unfinished →
    (c.stack t).getLast? = some (.cmd .finish)

theorem getLast?_of_pop {f : Frame φ} {fs rest : List (Frame φ)}
    (h : (f :: rest).getLast? = some (.cmd .finish)) (hf : f ≠ .cmd .finish) :
    (fs ++ rest).getLast? = some (.cmd .finish) := by
  cases rest with
  | nil => exact absurd (by simpa using h) hf
  | cons g rest =>
      rw [List.getLast?_cons_cons] at h
      rw [List.getLast?_append, h]
      rfl

theorem Queued.started (h : Queued c place) {q : Place} (hp : place t = some q) :
    c.status t ≠ .justCreated := by
  intro hst
  cases h.stands t (h.lt_created hp) with
  | unstarted _ _ _ hp' => cases hp.symm.trans hp'
  | ready _ hst' | blocked _ hst' | done _ hst' | running _ hst' | tired _ hst' | asleep _ hst'
  | woken _ hst' => cases hst.symm.trans hst'

theorem Queued.current_started (h : Queued c place) : c.status c.current ≠ .justCreated := by
  intro hst
  cases h.stands c.current h.current_lt with
  | unstarted ht => exact ht rfl
  | ready _ hst' | blocked _ hst' | done _ hst' | running _ hst' | tired _ hst' | asleep _ hst'
  | woken _ hst' => cases hst.symm.trans hst'

/-- The current thread goes on; threads that have started stay so. -/
theorem Rooted.pop (h : Rooted c) {f : Frame φ} (fs : List (Frame φ)) {rest : List (Frame φ)}
    (hs : c.stack c.current = f :: rest) (hf : f ≠ .cmd .finish)
    (hstack : c'.stack = Function.update c.stack c.current (fs ++ rest))
    (hstatus : ∀ t, c'.status t ≠ .justCreated → c.status t ≠ .justCreated)
    (hphase : c'.phase = c.phase) (hcreated : c'.created = c.created) : Rooted c' := by
  intro t ht hst hph
  rw [hcreated] at ht
  rw [hphase] at hph
  have hlast := h t ht (hstatus t hst) hph
  rw [hstack]
  by_cases hcurrent : t = c.current
  · subst hcurrent
    rw [hs] at hlast
    rw [Function.update_self]
    exact getLast?_of_pop hlast hf
  · rw [Function.update_of_ne hcurrent]
    exact hlast

theorem Rooted.same (h : Rooted c) (hstack : c'.stack = c.stack)
    (hstatus : ∀ t, c'.status t ≠ .justCreated → c.status t ≠ .justCreated)
    (hphase : c'.phase = c.phase) (hcreated : c'.created = c.created) : Rooted c' := by
  intro t ht hst hph
  rw [hcreated] at ht
  rw [hphase] at hph
  rw [hstack]
  exact h t ht (hstatus t hst) hph

theorem Quiet.ne_finish {f : Frame φ} {fs : List (Frame φ)} {now : IntStatus}
    {mode : MachineStatus} (h : Quiet c f fs now mode) : f ≠ .cmd .finish := by
  rintro rfl
  cases h with
  | cmd hx => exact hx

/-- A thread on a queue becomes ready. -/
theorem started_of_update (hq : Queued c place) {q : Place} (hmem : t ∈ c.queue q)
    (st : ThreadStatus) (u : ℕ) (hu : Function.update c.status t st u ≠ .justCreated) :
    c.status u ≠ .justCreated := by
  by_cases hut : u = t
  · subst hut
    exact hq.started (hq.placed.place_eq hmem)
  · rwa [Function.update_of_ne hut] at hu

theorem Rooted.step (h : Rooted c) (hq : Queued c place) (hstep : Step cfg c c') : Rooted c' := by
  cases hstep with
  | quiet hs hf => exact h.pop _ hs hf.ne_finish rfl (fun _ => id) rfl rfl
  | remark => exact h.same rfl (fun _ => id) rfl rfl
  | @enter x rest hs =>
      rcases hs with hs | hs
      · exact h.pop (x.body ++ [.setLevel c.level, .ret x c.level]) hs (by simp)
          (by simp) (fun _ => id) rfl rfl
      · exact h.pop (x.body ++ [.setLevel c.level, .ret x c.level]) hs (by simp)
          (by simp) (fun _ => id) rfl rfl
  | ret hs => exact h.pop [] hs (by simp) rfl (fun _ => id) rfl rfl
  | run hs => exact h.pop _ hs (by simp) rfl (fun _ => id) rfl rfl
  | down hs => exact h.pop [] hs (by simp) rfl (fun _ => id) rfl rfl
  | @block s b rest hs =>
      exact h.pop [.sleep, .pLoop s true] hs (by simp) rfl (fun _ => id) rfl rfl
  | up hs =>
      cases hs with
      | thread hs => exact h.pop [] hs (by simp) rfl (fun _ => id) rfl rfl
      | handler hs => exact h.same (by simp [← hs]) (fun _ => id) rfl rfl
  | @upWake s fs t q hs hqueue =>
      have hmem : t ∈ c.queue (.sem s) := by simp [hqueue]
      cases hs with
      | thread hs =>
          exact h.pop [] hs (by simp) rfl (started_of_update hq hmem _) rfl rfl
      | handler hs => exact h.same (by simp [← hs]) (started_of_update hq hmem _) rfl rfl
  | setOwner hs | clearOwner hs | enqueue hs =>
      exact h.pop [] hs (by simp) rfl (fun _ => id) rfl rfl
  | @select x fs t q hs hqueue =>
      have hmem : t ∈ c.queue (.cond x) := by simp [hqueue]
      cases hs with
      | signal hs => exact h.pop [] hs (by simp) rfl (started_of_update hq hmem _) rfl rfl
      | broadcast hs => exact h.same (by simp [← hs]) (started_of_update hq hmem _) rfl rfl
  | @startThread t f rest hs ht hst =>
      have hpop : Rooted (c.goto rest) :=
        h.pop [] hs (by simp) rfl (fun _ => id) rfl rfl
      intro u hu hust hph
      by_cases hut : u = t
      · subst hut
        simp [Kernel.root]
      · have hlast := hpop u hu (by simpa [hut] using hust) hph
        simpa [hut] using hlast
  | @newThread pri uninit rest i hs hi =>
      have hpop : Rooted (c.goto rest) :=
        h.pop [] hs (by simp) rfl (fun _ => id) rfl rfl
      intro u hu hust hph
      by_cases huc : u = c.created
      · subst huc
        simp at hust
      · have hlt : u < c.created := by
          simp only [create_created, goto_created] at hu
          omega
        have hlast := hpop u hlt (by simpa [huc] using hust) (by simpa [huc] using hph)
        simpa [huc] using hlast
  | yieldNone hs | yieldKeep hs => exact h.pop [] hs (by simp) rfl (fun _ => id) rfl rfl
  | @yieldSwitch rest e q hs hready hp =>
      have hmem : e.item ∈ c.queue .ready := by simp [hq.ready, hready]
      refine h.pop [.afterSwitch] hs (by simp) rfl (fun u hu => ?_) rfl rfl
      by_cases hut : u = c.current
      · exact hut ▸ hq.current_started
      · refine started_of_update hq hmem .running u fun heq => hu ?_
        by_cases hue : u = e.item
        · simp [hue] at heq
        · simpa [hut, hue] using heq
  | @sleep rest hs hl =>
      refine h.pop [.sleepLoop] hs (by simp) rfl (fun u hu => ?_) rfl rfl
      by_cases hut : u = c.current
      · exact hut ▸ hq.current_started
      · simpa [hut] using hu
  | @sleepIdle rest hs hready =>
      exact h.pop [.idle, .sleepLoop] hs (by simp) rfl (fun _ => id) rfl rfl
  | @sleepSwitch rest e q hs hready =>
      have hmem : e.item ∈ c.queue .ready := by simp [hq.ready, hready]
      exact h.pop [.afterSwitch] hs (by simp) rfl (started_of_update hq hmem _) rfl rfl
  | finish hs =>
      intro u hu hust hph
      by_cases hut : u = c.current
      · simp [hut] at hph
      · simpa [hut] using h u hu hust (by simpa [hut] using hph)
  | @destroy rest t hs hd ht =>
      have hpop : Rooted (c.goto rest) :=
        h.pop [] hs (by simp) rfl (fun _ => id) rfl rfl
      intro u hu hust hph
      by_cases hut : u = t
      · simp [hut] at hph
      · exact hpop u hu hust (by simpa [hut] using hph)

theorem rooted_start (main : φ) (client : γ) (values : ℕ → ℤ) :
    Rooted (start main client values) := by
  intro t ht _ _
  obtain rfl : t = 0 := Nat.lt_one_iff.mp ht
  rfl

/-- The current thread has a frame to execute. -/
theorem Rooted.stack_ne_nil (h : Rooted c) (hq : Queued c place) : c.stack c.current ≠ [] := by
  intro hnil
  cases hq.stands c.current hq.current_lt with
  | unstarted ht | ready ht | blocked ht | done ht => exact ht rfl
  | running _ hst _ _ hph =>
      have hlast := h c.current hq.current_lt (by simp [hst]) hph
      rw [hnil] at hlast
      cases hlast
  | tired _ _ hs => cases hnil.symm.trans hs
  | asleep _ _ hs | woken _ _ hs =>
      rw [hnil] at hs
      exact hs.sleepy

/-! ## `Broadcast` -/

/-- Frames that are not in the middle of `Broadcast` or of `Sleep`. -/
def Outer : Frame φ → Prop
  | .idle | .broadcastBody _ _ => False
  | _ => True

theorem outer_of_code (h : Code stack) : ∀ f ∈ stack, Outer f := by
  intro f hf
  obtain ⟨x, rfl, -⟩ := h f hf
  trivial

theorem outer_of_caller {x : Call φ} {ℓ : IntStatus} {rest : List (Frame φ)}
    (h : Caller x ℓ rest) : ∀ f ∈ rest, Outer f := by
  induction h with
  | code _ h => exact outer_of_code h
  | tick _ h => simpa [Outer] using outer_of_code h
  | acquire _ ih | release _ ih | waitRelease _ ih | waitAcquire _ ih | tickRet _ _ ih =>
      simpa [Outer] using ih

theorem outer_of_ending {x : Call φ} (h : Ending x stack) : ∀ f ∈ stack, Outer f := by
  obtain ⟨ℓ, rest, rfl, hcaller⟩ := h
  simpa [Outer] using outer_of_caller hcaller

theorem outer_of_ticked (h : Ticked stack) : ∀ f ∈ stack, Outer f := by
  rcases h with h | ⟨x, rest, rfl, hcaller⟩
  · exact outer_of_code h
  · simpa [Outer] using outer_of_caller hcaller

theorem outer_of_waiting {q : Option Place} (h : Waiting q stack) : ∀ f ∈ stack, Outer f := by
  cases h with
  | finished => simp
  | sem h | cond h => simpa [Outer] using outer_of_ending h

theorem outer_of_switched (h : Switched stack) : ∀ f ∈ stack, Outer f := by
  rcases h with ⟨q, h⟩ | h
  · exact outer_of_waiting h
  · exact outer_of_ending h

theorem outer_of_suspended (h : Suspended stack) : ∀ f ∈ stack, Outer f := by
  rcases h with h | ⟨rest, rfl, h⟩
  · exact outer_of_code h
  · simpa [Outer] using outer_of_switched h

/-- `Broadcast` goes on after the check of the owner; `Idle` is called by the innermost frame. -/
theorem outer_of_valid {ℓ : IntStatus} {f : Frame φ} {rest : List (Frame φ)}
    (h : Valid ℓ (f :: rest)) (hf : ∀ l, f ≠ .assertOwner l) : ∀ g ∈ rest, Outer g := by
  cases f with
  | cmd x => exact outer_of_code h.2
  | call x => exact outer_of_caller h.1
  | assertOwner l => exact absurd rfl (hf l)
  | pLoop | vBody | setOwner | clearOwner | broadcastBody | startThread | yieldBody =>
      exact outer_of_ending h.2
  | enqueue c =>
      obtain ⟨-, l, rest', rfl, h⟩ := h
      simpa [Outer] using outer_of_ending h
  | signalBody c =>
      obtain ⟨-, l, h⟩ := h
      exact outer_of_ending h
  | sleep | sleepLoop =>
      obtain ⟨-, q, h⟩ := h
      exact outer_of_waiting h
  | afterSwitch => exact outer_of_switched h.2
  | setLevel now =>
      obtain ⟨-, x, rest', rfl, h⟩ := h
      simpa [Outer] using outer_of_caller h
  | ret => exact outer_of_caller h.2
  | oneTick => exact outer_of_ticked h
  | fireLoop =>
      obtain ⟨-, st, rest', rfl, -, h⟩ := h
      simpa [Outer] using outer_of_ticked h
  | oneTickEnd => exact outer_of_ticked h.2
  | setStatus => exact outer_of_ticked h.2.2
  | idle | idleLoop =>
      obtain ⟨-, q, rest', rfl, h⟩ := h
      simpa [Outer] using outer_of_waiting h

/-- How a thread gets into the middle of `Broadcast` or `Sleep`: it has been there, it has
passed the check of the owner, or it has found the ready list empty. -/
theorem Step.inner (hstep : Step cfg c c') (hshape : Shaped c) {g : Frame φ}
    {rest' : List (Frame φ)} (hs' : c'.stack c'.current = g :: rest') (hg : ¬ Outer g) :
    ((∃ rest, c.stack c.current = g :: rest) ∧ c'.owner = c.owner ∧ c'.current = c.current) ∨
    (∃ x l, g = .broadcastBody x l ∧ c.owner l = some c.current ∧ c'.owner = c.owner ∧
      c'.current = c.current) ∨
    g = .idle ∧ c'.ready = [] ∧ ∃ rest, c.stack c.current = .sleepLoop :: rest := by
  -- a frame that is taken off leaves outer ones
  have hpop : ∀ (fs : List (Frame φ)) {f : Frame φ} {rest : List (Frame φ)},
      c.stack c.current = f :: rest → (∀ l, f ≠ .assertOwner l) → (∀ f ∈ fs, Outer f) →
      fs ++ rest = g :: rest' → False := by
    intro fs f rest hs hf hfs heq
    have hmem : g ∈ fs ++ rest := by simp [heq]
    rcases List.mem_append.mp hmem with hmem | hmem
    · exact hg (hfs g hmem)
    · exact hg (outer_of_valid (hshape.top hs) hf g hmem)
  have hnone : ∀ {f : Frame φ} {rest : List (Frame φ)}, c.stack c.current = f :: rest →
      (∀ l, f ≠ .assertOwner l) → rest = g :: rest' → False :=
    fun hs hf heq => hpop [] hs hf (by simp) heq
  have hother : ∀ t, t ≠ c.current → c.stack t = g :: rest' → False := by
    intro t ht heq
    exact hg (outer_of_suspended (hshape.others t ht) g (by simp [heq]))
  cases hstep with
  | @quiet f fs rest now mode hs hf =>
      have heq : fs ++ rest = g :: rest' := by simpa using hs'
      cases hf with
      | @assertOwner l ho =>
          obtain ⟨-, x, fs, rest'', hbody, rfl, hend⟩ := hshape.top hs
          have hrest := outer_of_ending hend
          cases x with
          | broadcast c l' =>
              cases hbody
              cases heq
              exact .inr (.inl ⟨_, _, rfl, ho, rfl, rfl⟩)
          | release | wait | signal =>
              cases hbody
              cases heq
              exact absurd trivial hg
          | _ => cases hbody
      | idle =>
          cases heq
          exact .inl ⟨⟨_, hs⟩, rfl, rfl⟩
      | syscall hc =>
          refine (hpop _ hs (by simp) (fun f hf => ?_) heq).elim
          obtain ⟨y, -, rfl⟩ := List.mem_map.mp hf
          trivial
      | _ => exact (hpop _ hs (by simp) (by simp [Outer]) heq).elim
  | remark => exact .inl ⟨⟨_, hs'⟩, rfl, rfl⟩
  | @enter x rest hs =>
      have heq : x.body ++ [.setLevel c.level, .ret x c.level] ++ rest = g :: rest' := by
        simpa using hs'
      have hbody : x.body ≠ [] := by
        cases x <;> simp [Call.body]
      obtain ⟨f, fs, hfs⟩ := List.exists_cons_of_ne_nil hbody
      rw [hfs] at heq
      cases heq
      cases x <;> cases hfs <;> exact absurd trivial hg
  | ret hs | down hs | setOwner hs | clearOwner hs | enqueue hs | yieldNone hs | yieldKeep hs =>
      exact (hnone hs (by simp) (by simpa using hs')).elim
  | run hs =>
      refine (hpop _ hs (by simp) (fun f hf => ?_) (by simpa using hs')).elim
      obtain ⟨y, -, rfl⟩ := List.mem_map.mp hf
      trivial
  | @block s b rest hs =>
      have heq : .sleep :: .pLoop s true :: rest = g :: rest' := by simpa using hs'
      cases heq
      exact absurd trivial hg
  | up hs | upWake hs =>
      cases hs with
      | thread hs => exact (hnone hs (by simp) (by simpa using hs')).elim
      | handler hs =>
          refine .inl ⟨⟨rest', ?_⟩, rfl, rfl⟩
          rw [hs]
          simpa using hs'
  | select hs =>
      cases hs with
      | signal hs => exact (hnone hs (by simp) (by simpa using hs')).elim
      | broadcast hs =>
          refine .inl ⟨⟨rest', ?_⟩, rfl, rfl⟩
          rw [hs]
          simpa using hs'
  | @startThread t f rest hs ht hst =>
      by_cases htc : t = c.current
      · have heq : Kernel.root f = g :: rest' := by simpa [htc] using hs'
        cases heq
        exact absurd trivial hg
      · exact (hnone hs (by simp) (by simpa [Ne.symm htc] using hs')).elim
  | @newThread pri uninit rest i hs hi =>
      by_cases hcc : c.current = c.created
      · simp [hcc] at hs'
      · exact (hnone hs (by simp) (by simpa [hcc] using hs')).elim
  | @yieldSwitch rest e q hs | @sleepSwitch rest e q hs =>
      by_cases he : e.item = c.current
      · have heq : .afterSwitch :: rest = g :: rest' := by simpa [he] using hs'
        cases heq
        exact absurd trivial hg
      · exact (hother e.item he (by simpa [he] using hs')).elim
  | @sleep rest hs hl =>
      have heq : .sleepLoop :: rest = g :: rest' := by simpa using hs'
      cases heq
      exact absurd trivial hg
  | @sleepIdle rest hs hready =>
      have heq : .idle :: .sleepLoop :: rest = g :: rest' := by simpa using hs'
      cases heq
      exact .inr (.inr ⟨rfl, hready, rest, hs⟩)
  | finish hs =>
      have heq : [.sleep] = g :: rest' := by simpa using hs'
      cases heq
      exact absurd trivial hg
  | destroy hs => exact (hnone hs (by simp) (by simpa using hs')).elim

/-- In the loop of `Broadcast` the current thread is the owner. -/
def Checked (c : Core φ γ) : Prop :=
  ∀ x l rest, c.stack c.current = .broadcastBody x l :: rest → c.owner l = some c.current

theorem Checked.step (h : Checked c) (hshape : Shaped c) (hstep : Step cfg c c') : Checked c' := by
  intro x l rest hs
  rcases hstep.inner hshape hs id with ⟨⟨rest', hs'⟩, howner, hcurrent⟩ |
    ⟨x', l', heq, ho, howner, hcurrent⟩ | ⟨heq, -⟩
  · rw [howner, hcurrent]
    exact h x l rest' hs'
  · cases heq
    rw [howner, hcurrent]
    exact ho
  · cases heq

end Core

namespace Kernel

variable {cfg : Config φ γ ι} {env : Env ι} {k k' : Kernel φ γ}

theorem rooted (h : (system cfg Initial).Reachable k) : k.core.Rooted :=
  (queued_invariant (I := Core.Rooted) (fun main client values _ => Core.rooted_start main client values)
    (fun _ _ _ _ hq hc hstep => hc.step hq hstep) h).2

theorem checked (h : (system cfg Initial).Reachable k) : k.core.Checked :=
  (queued_invariant (I := Core.Checked) (fun main client values _ => by
      intro x l rest hs
      cases hs)
    (fun _ _ _ hshape _ hc hstep => hc.step hshape hstep) h).2

/-! ## The `ASSERT`s -/

/-- Commands that start or serve a user program. -/
def UserCmd : Cmd φ → Prop
  | .load _ _ _ | .restoreState _ | .syscall => True
  | _ => False

/-- What may make an `ASSERT` fire: one in the code of the program, too many threads, a lock that
the caller does not have, an interrupt for the past, or a user program. -/
inductive Blamed (cfg : Config φ γ ι) (env : Env ι) (k : Kernel φ γ) : Prop where
  | program {f rest} (hs : k.current.stack = .cmd (.run f) :: rest)
      (h : cfg.program.step f env.choice k.client k.currentThread = .error .assertion)
  | threadIds {pri uninit rest} (hs : k.current.stack = .cmd (.newThread pri uninit) :: rest)
      (h : ∀ i, k.threadIds i = true)
  | owner {l rest} (hs : k.current.stack = .assertOwner l :: rest)
      (h : k.owner l ≠ some k.currentThread)
  | past {fromNow type rest} (hs : k.current.stack = .cmd (.schedule fromNow type) :: rest)
      (h : fromNow ≤ 0)
  | handler {f rest act} (hs : k.current.stack = f :: rest) (hf : Core.Firing f)
      (hact : act ∈ env.handler) (h : ¬ HandlerAct.Proper act)
  | user {x rest} (hs : k.current.stack = .cmd x :: rest) (hx : UserCmd x)
  | space {t rest} (hs : k.current.stack = .afterSwitch :: rest)
      (ht : k.threadToBeDestroyed = some t) (hne : t ≠ k.currentThread)
      (h : (k.thread t).space ≠ none)

theorem add32_bind_ne_assertion {α : Type} {x y : ℤ} {f : ℤ → Exec α}
    (hf : ∀ z, f z ≠ .error .assertion) : (add32 x y >>= f) ≠ .error .assertion :=
  bind_ne_error (add32_ne_assertion x y) fun z _ => hf z

theorem saveUser_ne_assertion : k.saveUser ≠ .error .assertion := by
  unfold saveUser
  split
  · simp
  · simp
  · refine bind_ne_error ?_ fun _ _ => by simp
    unfold AddrSpace.saveState
    split
    · simp
    · refine bind_ne_error ?_ fun _ _ => bind_ne_error ?_ fun _ _ => by simp
      · unfold Machine.table
        split <;> simp
      · unfold Machine.entryAt
        split <;> simp

theorem run_ne_assertion {next : ℕ} : k.run next ≠ .error .assertion :=
  bind_ne_error saveUser_ne_assertion fun _ _ => by simp

theorem broadcastLoop_ne_assertion {schedPriority : Bool} {x l : ℕ} {waiting : List ℕ}
    (h : k.owner l = some k.currentThread) :
    k.broadcastLoop schedPriority x l waiting ≠ .error .assertion := by
  induction waiting generalizing k with
  | nil => simp [broadcastLoop]
  | cons t waiting ih =>
      unfold broadcastLoop
      rw [assert_of_true h, ok_bind]
      refine ih ?_
      unfold signalBody
      split <;> exact h

theorem pLoop_ne_assertion (s : SemId) : k.pLoop s ≠ .error .assertion := by
  unfold pLoop
  split
  · simp
  · exact add32_bind_ne_assertion fun _ => by simp

theorem yieldBody_ne_assertion (schedPriority : Bool) :
    k.yieldBody schedPriority ≠ .error .assertion := by
  unfold yieldBody
  split
  · simp
  · exact run_ne_assertion

theorem sleepLoop_ne_assertion (schedPriority : Bool) :
    k.sleepLoop schedPriority ≠ .error .assertion := by
  unfold sleepLoop
  split
  · simp
  · exact run_ne_assertion

theorem oneTick_ne_assertion : k.oneTick ≠ .error .assertion := by
  refine bind_ne_error ?_ fun _ _ => by simp
  unfold advance
  split
  · exact add32_bind_ne_assertion fun _ => add32_bind_ne_assertion fun _ => by simp
  · exact add32_bind_ne_assertion fun _ => add32_bind_ne_assertion fun _ => by simp

/-- The thread that has finished is not the one that deletes it. -/
theorem afterSwitch_ne_assertion {build : Build}
    (hne : ∀ t, k.threadToBeDestroyed = some t → t ≠ k.currentThread ∧ (k.thread t).space = none) :
    k.afterSwitch build ≠ .error .assertion := by
  refine bind_ne_error ?_ fun k₁ _ => ?_
  · unfold destroyFinished
    split
    · simp
    · rename_i t ht
      obtain ⟨hcurrent, hspace⟩ := hne t ht
      refine bind_ne_error ?_ fun _ _ => by simp
      unfold delete
      dsimp only
      rw [assert_of_true hcurrent, ok_bind]
      simp [modifyThread, hspace]
  · unfold restoreUser
    split <;> simp

theorem threadIds_of_none (h : k.allocatedThreadID = none) (i : Fin maxThreadsCount) :
    k.threadIds i = true := by
  have hall := List.find?_eq_none.mp h i (List.mem_finRange i)
  simpa using hall

theorem exec_assertion (hshape : k.core.Shaped) (hchecked : k.core.Checked)
    (hin : k.interrupt.inHandler = false)
    (hdoomed : ∀ t rest, k.current.stack = .afterSwitch :: rest →
      k.threadToBeDestroyed = some t → t ≠ k.currentThread)
    {f : Frame φ} {rest : List (Frame φ)} (hs : k.current.stack = f :: rest)
    (h : (k.setStack rest).exec cfg env f = .error .assertion) : Blamed cfg env k := by
  have hlevel := hshape.top hs
  have hfire : Core.Firing f → LevelAsserted f → Blamed cfg env k := by
    intro hf hasserted
    by_contra hblame
    refine exec_ne_assertion (k := k.setStack rest) hlevel hin (fun act hact => ?_) hasserted h
    by_contra hproper
    exact hblame (.handler hs hf hact hproper)
  cases f with
  | cmd x =>
      cases x with
      | run f =>
          refine .program hs ?_
          by_contra hne
          refine bind_ne_error hne (fun a _ => ?_) h
          simp
      | newThread pri uninit =>
          refine .threadIds hs fun i => ?_
          have h : (k.setStack rest).newThread pri uninit = .error .assertion := h
          unfold newThread at h
          split at h
          next hnone => exact threadIds_of_none hnone i
          next => cases h
      | setLevel now => exact absurd h (setLevel_ne_assertion hin)
      | schedule fromNow type =>
          refine .past hs ?_
          by_contra hpos
          exact schedule_ne_assertion type (not_le.mp hpos) h
      | load | restoreState | syscall => exact .user hs trivial
      | _ => cases h
  | pLoop s b => exact absurd h (pLoop_ne_assertion s)
  | vBody s => exact absurd h (vBody_ne_assertion _ _)
  | assertOwner l =>
      refine .owner hs fun howner => ?_
      have howner : (k.setStack rest).owner l = some (k.setStack rest).currentThread := howner
      have h : (k.setStack rest).assertOwner l = .error .assertion := h
      rw [assertOwner, assert_of_true howner] at h
      cases h
  | broadcastBody x l =>
      exact absurd h (broadcastLoop_ne_assertion (hchecked x l rest hs))
  | yieldBody => exact absurd h (yieldBody_ne_assertion _)
  | sleep =>
      have h : (k.setStack rest).sleep = .error .assertion := h
      have hoff : (k.setStack rest).level = .off := hlevel.1
      rw [sleep, assert_of_true hoff] at h
      cases h
  | sleepLoop => exact absurd h (sleepLoop_ne_assertion _)
  | afterSwitch =>
      by_contra hblame
      refine afterSwitch_ne_assertion (k := k.setStack rest) (fun t ht => ?_) h
      have hother : t ≠ k.currentThread := hdoomed t rest hs ht
      refine ⟨hother, ?_⟩
      by_contra hspace
      refine hblame (.space hs ht hother fun hnone => hspace ?_)
      simp [setStack, modifyThread, hother, hnone]
  | setLevel now => exact absurd h (setLevel_ne_assertion hin)
  | oneTick => exact absurd h oneTick_ne_assertion
  | fireLoop | idle | idleLoop => exact hfire trivial trivial
  | _ => cases h

/-- In every state, the current thread has something to do next, and if an `ASSERT` fires then
it is not one of the kernel's own. -/
theorem asserts_hold (h : (system cfg Initial).Reachable k) :
    k.current.stack ≠ [] ∧ ∀ env, k.step cfg env = .error .assertion → Blamed cfg env k := by
  obtain ⟨place, hq⟩ := queued h
  have hne : k.current.stack ≠ [] := (rooted h).stack_ne_nil hq
  refine ⟨hne, fun env herror => ?_⟩
  obtain ⟨f, rest, hs⟩ := List.exists_cons_of_ne_nil hne
  rw [step, hs] at herror
  refine exec_assertion (shaped h) (checked h) (inHandler_eq_false h) (fun t rest hs ht => ?_) hs
    herror
  have hsleepy : ¬ Sleepy (k.core.stack k.core.current) := by
    rw [show k.core.stack k.core.current = _ from hs]
    exact id
  rintro rfl
  exact (hq.doomed _ ht).2 (hq.runs hsleepy).2.2

/-- The lock that the current thread has to have now. -/
def checkedLock (k : Kernel φ γ) : Option ℕ :=
  match k.current.stack with
  | .assertOwner l :: _ => some l
  | _ => none

theorem stack_of_checkedLock {l : ℕ} (h : k.checkedLock = some l) :
    ∃ rest, k.current.stack = .assertOwner l :: rest := by
  unfold checkedLock at h
  split at h
  next rest hs =>
    obtain rfl := Option.some.inj h
    exact ⟨rest, hs⟩
  next => cases h

/-- A thread releases a lock that another one has. -/
def releaseOther : Config ℕ Unit Unit :=
  .scripted false [[.newThread 6 0, .call (.acquire 0), .call (.fork 1 1), .call .yield],
    [.call (.release 0)]] (by decide)

/-- The `ASSERT` in `Release` fires, and the caller does not have the lock. -/
theorem asserts_hold_releaseOther : ∃ k : Kernel ℕ Unit, ∃ rest,
    k.currentThread = 1 ∧ k.owner 0 = some 0 ∧ k.current.stack = .assertOwner 0 :: rest ∧
      k.step releaseOther ⟨(), []⟩ = .error .assertion ∧ Blamed releaseOther ⟨(), []⟩ k := by
  obtain ⟨k, hobs, hk⟩ := exists_reachable releaseOther (calm 32) (start 0 () (fun _ => 0) none)
    (fun k => (k.checkedLock, k.currentThread, k.owner 0)) (some 0, 1, some 0) (by decide +kernel)
  obtain ⟨hlock, hcurrent, howner⟩ : _ ∧ _ ∧ _ := by simpa using hobs
  obtain ⟨rest, hs⟩ := stack_of_checkedLock hlock
  have herror : k.step releaseOther ⟨(), []⟩ = .error .assertion := by
    have hother : ¬ (k.setStack rest).owner 0 = some (k.setStack rest).currentThread := by
      change ¬ k.owner 0 = some k.currentThread
      rw [hcurrent, howner]
      decide
    rw [step, hs]
    change (k.setStack rest).assertOwner 0 = _
    rw [assertOwner, assert_of_false hother]
    rfl
  have hblame := (asserts_hold (hk _ (initial_start 0 ()))).2 ⟨(), []⟩ herror
  exact ⟨k, rest, hcurrent, howner, hs, herror, hblame⟩

end Kernel

end Nachos
