import Nachos.Verification.Kernel.Execution
import Nachos.Verification.Kernel.Stacks

/-! # Threads on queues

Every thread that has started and not finished is the current one or on exactly one queue.
Between joining a queue and the switch to another thread, the current thread is on a queue
as well, and `Sleep` may even find it on the ready list again. -/

namespace Nachos

open Library

variable {φ γ ι : Type} {stack rest : List (Frame φ)}

/-- The innermost frame belongs to `Sleep`. -/
def Sleepy : List (Frame φ) → Prop
  | .sleep :: _ | .sleepLoop :: _ | .idle :: _ | .idleLoop :: _ => True
  | _ => False

/-- The stack of a thread in the loop of `Sleep`. -/
def Asleep (stack rest : List (Frame φ)) : Prop :=
  stack = .sleepLoop :: rest ∨ stack = .idle :: .sleepLoop :: rest ∨
    stack = .idleLoop :: .sleepLoop :: rest

theorem Code.not_sleepy (h : Code stack) : ¬ Sleepy stack := by
  cases stack with
  | nil => exact id
  | cons f rest =>
      obtain ⟨x, rfl, -⟩ := h f List.mem_cons_self
      exact id

theorem Ending.not_sleepy {x : Call φ} (h : Ending x stack) : ¬ Sleepy stack := by
  obtain ⟨ℓ, rest, rfl, -⟩ := h
  exact id

theorem Ticked.not_sleepy (h : Ticked stack) : ¬ Sleepy stack := by
  rcases h with h | ⟨x, rest, rfl, -⟩
  · exact h.not_sleepy
  · exact id

theorem Waiting.not_sleepy {q : Option Place} (h : Waiting q stack) : ¬ Sleepy stack := by
  cases h with
  | finished | sem | cond => exact id

theorem Waiting.ne_ready {q : Place} (h : Waiting (some q) stack) : q ≠ .ready := by
  cases h with
  | sem | cond => simp

theorem Caller.not_sleepy {x : Call φ} {ℓ : IntStatus} (h : Caller x ℓ rest) : ¬ Sleepy rest := by
  cases h with
  | code _ h => exact h.not_sleepy
  | acquire | release | waitRelease | waitAcquire | tick | tickRet => exact id

theorem Suspended.not_sleepy (h : Suspended stack) : ¬ Sleepy stack := by
  rcases h with h | ⟨rest, rfl, -⟩
  · exact h.not_sleepy
  · exact id

theorem Asleep.sleepy (h : Asleep stack rest) : Sleepy stack := by
  rcases h with rfl | rfl | rfl <;> trivial

theorem Asleep.rest_eq {rest' : List (Frame φ)} (h : Asleep stack rest) (h' : Asleep stack rest') :
    rest' = rest := by
  rcases h with rfl | rfl | rfl <;> rcases h' with h' | h' | h' <;> cases h' <;> rfl

namespace Core

variable {cfg : Config φ γ ι} {c c' : Core φ γ} {place place' : ℕ → Option Place}

/-- Where a thread stands. -/
inductive Stands (c : Core φ γ) (place : ℕ → Option Place) (t : ℕ) : Prop where
  | unstarted (ht : t ≠ c.current) (hst : c.status t = .justCreated) (hs : c.stack t = [])
      (hp : place t = none) (hph : c.phase t = .unfinished)
  | ready (ht : t ≠ c.current) (hst : c.status t = .ready) (hp : place t = some .ready)
      (hph : c.phase t = .unfinished)
  | blocked {q rest} (ht : t ≠ c.current) (hst : c.status t = .blocked)
      (hs : c.stack t = .afterSwitch :: rest) (hw : Waiting (some q) rest)
      (hp : place t = some q) (hph : c.phase t = .unfinished)
  | done (ht : t ≠ c.current) (hst : c.status t = .blocked) (hp : place t = none)
      (hph : c.phase t ≠ .unfinished)
  | running (ht : t = c.current) (hst : c.status t = .running) (hs : ¬ Sleepy (c.stack t))
      (hp : place t = none) (hph : c.phase t = .unfinished)
  /-- about to call `Sleep` -/
  | tired {q rest} (ht : t = c.current) (hst : c.status t = .running)
      (hs : c.stack t = .sleep :: rest) (hw : Waiting q rest) (hp : place t = q)
      (hph : c.phase t = .unfinished ↔ q ≠ none)
  | asleep {q rest} (ht : t = c.current) (hst : c.status t = .blocked)
      (hs : Asleep (c.stack t) rest) (hw : Waiting q rest) (hp : place t = q)
      (hph : c.phase t = .unfinished ↔ q ≠ none)
  /-- in `Sleep`, but on the ready list again -/
  | woken {q rest} (ht : t = c.current) (hst : c.status t = .ready)
      (hs : Asleep (c.stack t) rest) (hw : Waiting (some q) rest) (hp : place t = some .ready)
      (hph : c.phase t = .unfinished)

theorem Stands.congr {t : ℕ} (h : Stands c place t) (hcurrent : t = c'.current ↔ t = c.current)
    (hst : c'.status t = c.status t) (hs : c'.stack t = c.stack t)
    (hph : c'.phase t = c.phase t) (hp : place' t = place t) : Stands c' place' t := by
  cases h with
  | unstarted ht hst' hs' hp' hph' =>
      exact .unstarted (fun he => ht (hcurrent.mp he)) (hst.trans hst') (hs.trans hs')
        (hp.trans hp') (hph.trans hph')
  | ready ht hst' hp' hph' =>
      exact .ready (fun he => ht (hcurrent.mp he)) (hst.trans hst') (hp.trans hp')
        (hph.trans hph')
  | blocked ht hst' hs' hw hp' hph' =>
      exact .blocked (fun he => ht (hcurrent.mp he)) (hst.trans hst') (hs.trans hs') hw
        (hp.trans hp') (hph.trans hph')
  | done ht hst' hp' hph' =>
      exact .done (fun he => ht (hcurrent.mp he)) (hst.trans hst') (hp.trans hp') (hph ▸ hph')
  | running ht hst' hs' hp' hph' =>
      exact .running (hcurrent.mpr ht) (hst.trans hst') (hs ▸ hs') (hp.trans hp')
        (hph.trans hph')
  | tired ht hst' hs' hw hp' hph' =>
      exact .tired (hcurrent.mpr ht) (hst.trans hst') (hs.trans hs') hw (hp.trans hp')
        (hph ▸ hph')
  | asleep ht hst' hs' hw hp' hph' =>
      exact .asleep (hcurrent.mpr ht) (hst.trans hst') (hs ▸ hs') hw (hp.trans hp') (hph ▸ hph')
  | woken ht hst' hs' hw hp' hph' =>
      exact .woken (hcurrent.mpr ht) (hst.trans hst') (hs ▸ hs') hw (hp.trans hp')
        (hph.trans hph')

/-- All threads stand where `place` says. -/
structure Queued (c : Core φ γ) (place : ℕ → Option Place) : Prop where
  placed : Placed c.queue place
  ready : c.queue .ready = c.ready.map Keyed.item
  current_lt : c.current < c.created
  stands : ∀ t, t < c.created → Stands c place t
  beyond : ∀ t, c.created ≤ t → place t = none
  unborn : ∀ t, c.created ≤ t → c.stack t = []
  doomed : ∀ t, c.toBeDestroyed = some t → t < c.created ∧ c.phase t ≠ .unfinished

variable {t : ℕ} {q : List (Keyed ℕ)} {fs : List (Frame φ)} {e : Keyed ℕ}

theorem Queued.lt_created (h : Queued c place) {q : Place} (hp : place t = some q) :
    t < c.created := by
  by_contra hle
  rw [h.beyond t (not_lt.mp hle)] at hp
  cases hp

/-- The current thread runs if it is not in `Sleep`. -/
theorem Queued.runs (h : Queued c place) (hs : ¬ Sleepy (c.stack c.current)) :
    c.status c.current = .running ∧ place c.current = none ∧
      c.phase c.current = .unfinished := by
  cases h.stands c.current h.current_lt with
  | unstarted ht | ready ht | blocked ht | done ht => exact absurd rfl ht
  | running _ hst _ hp hph => exact ⟨hst, hp, hph⟩
  | tired _ _ hs' => exact absurd (by rw [hs']; trivial) hs
  | asleep _ _ hs' => exact absurd hs'.sleepy hs
  | woken _ _ hs' => exact absurd hs'.sleepy hs

/-- The states differ in stacks, levels and the like only. -/
structure Alike (c c' : Core φ γ) : Prop where
  queue : c'.queue = c.queue
  ready : c'.ready = c.ready
  current : c'.current = c.current
  created : c'.created = c.created
  status : c'.status = c.status
  phase : c'.phase = c.phase
  toBeDestroyed : c'.toBeDestroyed = c.toBeDestroyed

/-- The stack of the current thread changes, and it still stands where it stood. -/
theorem Queued.alike (h : Queued c place) (ha : Alike c c')
    (hstack : c'.stack = Function.update c.stack c.current fs)
    (hstands : Stands c' place c.current) :
    Queued c' place where
  placed := ha.queue ▸ h.placed
  ready := by rw [ha.queue, ha.ready, h.ready]
  current_lt := by
    rw [ha.current, ha.created]
    exact h.current_lt
  stands t ht := by
    rw [ha.created] at ht
    by_cases hc : t = c.current
    · exact hc ▸ hstands
    · refine (h.stands t ht).congr (by rw [ha.current]) (by rw [ha.status]) ?_ (by rw [ha.phase]) rfl
      rw [hstack, Function.update_of_ne hc]
  beyond t ht := h.beyond t (ha.created ▸ ht)
  unborn t ht := by
    rw [ha.created] at ht
    rw [hstack, Function.update_of_ne (h.current_lt.trans_le ht).ne']
    exact h.unborn t ht
  doomed t ht := by
    rw [ha.toBeDestroyed] at ht
    rw [ha.created, ha.phase]
    exact h.doomed t ht

theorem Queued.congr (h : Queued c place) (ha : Alike c c') (hstack : c'.stack = c.stack) :
    Queued c' place := by
  have hsame : c'.stack = Function.update c.stack c.current (c.stack c.current) := by
    rw [Function.update_eq_self, hstack]
  exact h.alike ha hsame ((h.stands _ h.current_lt).congr (by rw [ha.current])
    (by rw [ha.status]) (by rw [hstack]) (by rw [ha.phase]) rfl)

/-- The current thread, which is not in `Sleep`, goes on. -/
theorem Queued.goto (h : Queued c place) (hs : ¬ Sleepy (c.stack c.current)) (hfs : ¬ Sleepy fs)
    (ha : Alike c c') (hstack : c'.stack = Function.update c.stack c.current fs) :
    Queued c' place := by
  obtain ⟨hrun, hp, hph⟩ := h.runs hs
  refine h.alike ha hstack (.running ha.current.symm (by rw [ha.status, hrun]) ?_ hp
    (by rw [ha.phase, hph]))
  rw [hstack, Function.update_self]
  exact hfs

/-- The current thread goes on in the loop of `Sleep`. -/
theorem Queued.doze (h : Queued c place) (hs : Asleep (c.stack c.current) rest)
    (hfs : Asleep fs rest) (ha : Alike c c')
    (hstack : c'.stack = Function.update c.stack c.current fs) : Queued c' place := by
  refine h.alike ha hstack ?_
  have hnew : c'.stack c.current = fs := by rw [hstack, Function.update_self]
  cases h.stands c.current h.current_lt with
  | unstarted ht | ready ht | blocked ht | done ht => exact absurd rfl ht
  | running _ _ hs' => exact absurd hs.sleepy hs'
  | tired _ _ hs' =>
      rw [hs'] at hs
      rcases hs with hs | hs | hs <;> cases hs
  | asleep _ hst hs' hw hp hph =>
      obtain rfl := hs.rest_eq hs'
      exact .asleep ha.current.symm (by rw [ha.status, hst]) (by rw [hnew]; exact hfs) hw hp
        (by rw [ha.phase]; exact hph)
  | woken _ hst hs' hw hp hph =>
      obtain rfl := hs.rest_eq hs'
      exact .woken ha.current.symm (by rw [ha.status, hst]) (by rw [hnew]; exact hfs) hw hp
        (by rw [ha.phase]; exact hph)

theorem joinReady_perm (c : Core φ γ) (schedPriority : Bool) (t : ℕ) :
    ((c.joinReady schedPriority t).map Keyed.item).Perm (t :: c.ready.map Keyed.item) := by
  unfold joinReady
  cases schedPriority with
  | true => exact (Keyed.sortedInsert_perm _ _).map Keyed.item
  | false =>
      rw [if_neg Bool.false_ne_true, List.map_append]
      exact List.perm_append_comm

/-- The part of a state that stays the same when one thread changes its place. -/
structure Same (c c' : Core φ γ) : Prop where
  current : c'.current = c.current
  created : c'.created = c.created
  phase : c'.phase = c.phase
  toBeDestroyed : c'.toBeDestroyed = c.toBeDestroyed

section

variable (h : Queued c place)

include h

/-- One thread changes its place. -/
theorem Queued.move {p : Option Place} (ht : t < c.created) (hsame : Same c c')
    (hplaced : Placed c'.queue (Function.update place t p))
    (hready : c'.queue .ready = c'.ready.map Keyed.item)
    (hstatus : ∀ u, u ≠ t → c'.status u = c.status u) (hstack : ∀ u, u ≠ t → c'.stack u = c.stack u)
    (hstands : Stands c' (Function.update place t p) t) :
    Queued c' (Function.update place t p) where
  placed := hplaced
  ready := hready
  current_lt := by
    rw [hsame.current, hsame.created]
    exact h.current_lt
  stands u hu := by
    rw [hsame.created] at hu
    by_cases hut : u = t
    · exact hut ▸ hstands
    · exact (h.stands u hu).congr (by rw [hsame.current]) (hstatus u hut) (hstack u hut)
        (by rw [hsame.phase]) (Function.update_of_ne hut ..)
  beyond u hu := by
    rw [hsame.created] at hu
    rw [Function.update_of_ne (ht.trans_le hu).ne']
    exact h.beyond u hu
  unborn u hu := by
    rw [hsame.created] at hu
    rw [hstack u (ht.trans_le hu).ne']
    exact h.unborn u hu
  doomed u hu := by
    rw [hsame.toBeDestroyed] at hu
    rw [hsame.created, hsame.phase]
    exact h.doomed u hu

/-- A blocked thread moves to the ready list. -/
theorem Queued.wake {q : Place} {rest : List ℕ} (hq : c.queue q = t :: rest) (hne : q ≠ .ready)
    (htop : ∀ fs, c.stack c.current ≠ .sleep :: fs) (hsame : Same c c')
    (hqueue : c'.queue = Function.update (Function.update c.queue q rest) .ready (c'.ready.map Keyed.item))
    (hready : (c'.ready.map Keyed.item).Perm (t :: c.ready.map Keyed.item))
    (hstatus : c'.status = Function.update c.status t .ready) (hstack : c'.stack = c.stack) :
    Queued c' (Function.update place t (some .ready)) := by
  have hp : place t = some q := h.placed.place_eq (by rw [hq]; exact List.mem_cons_self)
  have hleft : Placed (Function.update c.queue q rest) (Function.update place t none) :=
    h.placed.leave (by rw [hq])
  have hentered := hleft.enter (a := t) (q := .ready) (l := c'.ready.map Keyed.item)
    (Function.update_self ..) (by
      rw [Function.update_of_ne hne.symm, h.ready]
      exact hready)
  rw [Function.update_idem, ← hqueue] at hentered
  refine h.move (h.lt_created hp) hsame hentered (by rw [hqueue, Function.update_self])
    (fun u hu => by rw [hstatus, Function.update_of_ne hu]) (fun u _ => by rw [hstack]) ?_
  have hst : c'.status t = .ready := by rw [hstatus, Function.update_self]
  have hplace : Function.update place t (some .ready) t = some .ready := Function.update_self ..
  cases h.stands t (h.lt_created hp) with
  | unstarted _ _ _ hp' | done _ _ hp' | running _ _ _ hp' =>
      rw [hp] at hp'
      cases hp'
  | ready _ _ hp' | woken _ _ _ _ hp' =>
      rw [hp] at hp'
      exact absurd (Option.some.inj hp') hne
  | blocked ht _ _ _ _ hph =>
      exact .ready (hsame.current ▸ ht) hst hplace (by rw [hsame.phase, hph])
  | tired ht _ hs => exact absurd (ht ▸ hs) (htop _)
  | asleep ht _ hs hw hp' hph =>
      rw [hp] at hp'
      subst hp'
      exact .woken (ht.trans hsame.current.symm) hst (by rw [hstack]; exact hs) hw hplace
        (by rw [hsame.phase]; exact hph.mpr (by simp))

/-- The current thread joins the queue of a semaphore or condition. -/
theorem Queued.block {q : Place} (hs : ¬ Sleepy (c.stack c.current)) (hw : Waiting (some q) rest)
    (hsame : Same c c') (hstack : c'.stack = Function.update c.stack c.current (.sleep :: rest))
    (hqueue : c'.queue = Function.update c.queue q (c.queue q ++ [c.current]))
    (hready : c'.ready = c.ready) (hstatus : c'.status = c.status) :
    Queued c' (Function.update place c.current (some q)) := by
  obtain ⟨hrun, hp, hph⟩ := h.runs hs
  have hentered := h.placed.enter (a := c.current) (q := q) hp
    (l := c.queue q ++ [c.current]) List.perm_append_comm
  rw [← hqueue] at hentered
  refine h.move h.current_lt hsame hentered ?_ (fun u _ => by rw [hstatus])
    (fun u hu => by rw [hstack, Function.update_of_ne hu]) ?_
  · rw [hqueue, Function.update_of_ne hw.ne_ready.symm, hready, h.ready]
  · refine .tired hsame.current.symm (by rw [hstatus, hrun]) ?_ hw (Function.update_self ..) ?_
    · rw [hstack, Function.update_self]
    · rw [hsame.phase, hph]
      simp

/-- A new thread is put on the ready list for the first time. -/
theorem Queued.start (ht : t < c.created) (hst : c.status t = .justCreated) (hsame : Same c c')
    (hstack : ∀ u, u ≠ t → c'.stack u = c.stack u)
    (hqueue : c'.queue = Function.update c.queue .ready (c'.ready.map Keyed.item))
    (hready : (c'.ready.map Keyed.item).Perm (t :: c.ready.map Keyed.item))
    (hstatus : c'.status = Function.update c.status t .ready) :
    Queued c' (Function.update place t (some .ready)) := by
  have hfresh : t ≠ c.current ∧ place t = none ∧ c.phase t = .unfinished := by
    cases h.stands t ht with
    | unstarted ht _ _ hp hph => exact ⟨ht, hp, hph⟩
    | ready _ hst' | blocked _ hst' | done _ hst' | running _ hst' | tired _ hst'
    | asleep _ hst' | woken _ hst' =>
        rw [hst] at hst'
        cases hst'
  obtain ⟨hne, hp, hph⟩ := hfresh
  have hentered := h.placed.enter (a := t) (q := .ready) (l := c'.ready.map Keyed.item) hp
    (by rw [h.ready]; exact hready)
  rw [← hqueue] at hentered
  refine h.move ht hsame hentered (by rw [hqueue, Function.update_self])
    (fun u hu => by rw [hstatus, Function.update_of_ne hu]) hstack ?_
  exact .ready (hsame.current ▸ hne) (by rw [hstatus, Function.update_self])
    (Function.update_self ..) (by rw [hsame.phase, hph])

/-- `Sleep` marks the current thread as blocked. -/
theorem Queued.sleep (hs : c.stack c.current = .sleep :: rest) :
    Queued ((c.goto (.sleepLoop :: rest)).setStatus c.current .blocked) place := by
  have hsame : Same c ((c.goto (.sleepLoop :: rest)).setStatus c.current .blocked) :=
    ⟨rfl, rfl, rfl, rfl⟩
  have hmove := h.move (t := c.current) (p := place c.current) h.current_lt hsame
    (by rw [Function.update_eq_self]; exact h.placed) h.ready
    (fun u hu => by simp [hu]) (fun u hu => by simp [hu])
  rw [Function.update_eq_self] at hmove
  apply hmove
  have hasleep : Asleep (((c.goto (.sleepLoop :: rest)).setStatus c.current .blocked).stack
      c.current) rest := .inl (by simp)
  cases h.stands c.current h.current_lt with
  | unstarted ht | ready ht | blocked ht | done ht => exact absurd rfl ht
  | running _ _ hs' =>
      rw [hs] at hs'
      exact absurd trivial hs'
  | tired _ _ hs' hw hp hph =>
      rw [hs] at hs'
      obtain ⟨-, rfl⟩ := List.cons.inj hs'
      exact .asleep (by simp) (by simp) hasleep hw hp (by simpa using hph)
  | asleep _ _ hs' | woken _ _ hs' =>
      rw [hs] at hs'
      rcases hs' with hs' | hs' | hs' <;> cases hs'

/-- The first thread of the ready list is put back. -/
theorem Queued.permute {l : List (Keyed ℕ)} (hl : (l.map Keyed.item).Perm (c.ready.map Keyed.item)) :
    Queued (c.setReady l) place where
  placed := h.placed.permute (by rw [h.ready]; exact hl)
  ready := by simp
  current_lt := h.current_lt
  stands t ht := (h.stands t ht).congr Iff.rfl rfl rfl rfl rfl
  beyond := h.beyond
  unborn := h.unborn
  doomed := h.doomed

theorem Queued.create (priority : ℤ) (i : Fin maxThreadsCount) :
    Queued (c.create priority i) place := by
  refine ⟨h.placed, h.ready, ?_, ?_, ?_, ?_, ?_⟩
  · rw [create_current, create_created]
    exact h.current_lt.trans (Nat.lt_succ_self _)
  · intro t ht
    rw [create_created] at ht
    rcases Nat.lt_succ_iff_lt_or_eq.mp ht with hlt | rfl
    · have hne : t ≠ c.created := hlt.ne
      exact (h.stands t hlt).congr (by simp) (by simp [hne]) (by simp [hne]) (by simp [hne]) rfl
    · exact .unstarted (by simpa using h.current_lt.ne') (by simp) (by simp)
        (h.beyond _ le_rfl) (by simp)
  · intro t ht
    rw [create_created] at ht
    exact h.beyond t (by omega)
  · intro t ht
    rw [create_created] at ht
    rw [create_stack, Function.update_of_ne (by omega)]
    exact h.unborn t (by omega)
  · intro t ht
    obtain ⟨hlt, hph⟩ := h.doomed t ht
    rw [create_created, create_phase, Function.update_of_ne hlt.ne]
    exact ⟨hlt.trans (Nat.lt_succ_self _), hph⟩

theorem Queued.finish (hs : ¬ Sleepy (c.stack c.current)) : Queued c.finish place := by
  obtain ⟨hrun, hp, -⟩ := h.runs hs
  refine ⟨h.placed, h.ready, h.current_lt, ?_, h.beyond, ?_, ?_⟩
  · intro t ht
    by_cases hc : t = c.current
    · subst hc
      exact .tired (by simp) hrun (by simp) .finished hp (by simp)
    · exact (h.stands t ht).congr (by simp) (by simp) (by simp [hc]) (by simp [hc]) rfl
  · intro t ht
    rw [finish_stack, Function.update_of_ne (h.current_lt.trans_le ht).ne']
    exact h.unborn t ht
  · intro t ht
    rw [finish_toBeDestroyed, Option.some.injEq] at ht
    subst ht
    exact ⟨h.current_lt, by simp⟩

/-- The thread that has been recorded is deleted. -/
theorem Queued.destroy (hd : c.toBeDestroyed = some t) (ht : t ≠ c.current) :
    Queued (c.destroy t) place := by
  obtain ⟨hlt, hph⟩ := h.doomed t hd
  refine ⟨h.placed, h.ready, h.current_lt, ?_, h.beyond, h.unborn, by simp⟩
  intro u hu
  by_cases hut : u = t
  · subst hut
    have hdone : c.status u = .blocked ∧ place u = none := by
      cases h.stands u hlt with
      | unstarted _ _ _ _ hph' | ready _ _ _ hph' | blocked _ _ _ _ _ hph' => exact absurd hph' hph
      | done _ hst hp => exact ⟨hst, hp⟩
      | running hc | tired hc | asleep hc | woken hc => exact absurd hc ht
    exact .done ht hdone.1 hdone.2 (by simp)
  · exact (h.stands u hu).congr (by simp) (by simp) (by simp) (by simp [hut]) rfl

/-- The first thread of the ready list runs instead of the current one. -/
theorem Queued.switch (rest : List (Frame φ)) (hq : c.ready = e :: q)
    (hplaced : Placed c'.queue place') (hready : c'.queue .ready = c'.ready.map Keyed.item)
    (hcurrent : c'.current = e.item) (hcreated : c'.created = c.created)
    (hphase : c'.phase = c.phase) (hdoomed : c'.toBeDestroyed = c.toBeDestroyed)
    (hstack : c'.stack = Function.update c.stack c.current (.afterSwitch :: rest))
    (hsuspended : e.item ≠ c.current → Suspended (c.stack e.item))
    (hrun : c'.status e.item = .running) (hnext : place' e.item = none)
    (hstatus : ∀ t, t ≠ e.item → t ≠ c.current → c'.status t = c.status t)
    (hplace : ∀ t, t ≠ e.item → t ≠ c.current → place' t = place t)
    (hold : e.item ≠ c.current → Stands c' place' c.current) : Queued c' place' := by
  have hp : place e.item = some .ready := h.placed.place_eq (by rw [h.ready, hq]; simp)
  have hlt := h.lt_created hp
  refine ⟨hplaced, hready, by rw [hcurrent, hcreated]; exact hlt, ?_, ?_, ?_, ?_⟩
  · intro t ht
    rw [hcreated] at ht
    by_cases hte : t = e.item
    · subst hte
      have hph : c.phase e.item = .unfinished := by
        cases h.stands _ hlt with
        | unstarted _ _ _ _ hph | ready _ _ _ hph | blocked _ _ _ _ _ hph
        | running _ _ _ _ hph | woken _ _ _ _ _ hph => exact hph
        | done _ _ hp' =>
            rw [hp] at hp'
            cases hp'
        | tired _ _ _ hw hp' | asleep _ _ _ hw hp' =>
            rw [hp] at hp'
            subst hp'
            exact absurd rfl hw.ne_ready
      refine .running hcurrent.symm hrun ?_ hnext (by rw [hphase, hph])
      rw [hstack]
      by_cases hec : e.item = c.current
      · rw [hec, Function.update_self]
        exact id
      · rw [Function.update_of_ne hec]
        exact (hsuspended hec).not_sleepy
    · by_cases htc : t = c.current
      · subst htc
        exact hold fun he => hte he.symm
      · refine (h.stands t ht).congr ?_ (hstatus t hte htc) ?_ (by rw [hphase]) (hplace t hte htc)
        · rw [hcurrent]
          exact ⟨fun he => absurd he hte, fun he => absurd he htc⟩
        · rw [hstack, Function.update_of_ne htc]
  · intro t ht
    rw [hcreated] at ht
    have hte : t ≠ e.item := by omega
    have htc : t ≠ c.current := (h.current_lt.trans_le ht).ne'
    rw [hplace t hte htc]
    exact h.beyond t ht
  · intro t ht
    rw [hcreated] at ht
    rw [hstack, Function.update_of_ne (h.current_lt.trans_le ht).ne']
    exact h.unborn t ht
  · intro t ht
    rw [hdoomed] at ht
    rw [hcreated, hphase]
    exact h.doomed t ht

/-- A thread in the loop of `Sleep` is switched out. -/
theorem Queued.sleepSwitch (hshape : Shaped c) (hs : c.stack c.current = .sleepLoop :: rest)
    (hq : c.ready = e :: q) :
    Queued (((c.emit (.findNextToRun c.level)).setReady q).dispatch e.item rest)
      (Function.update place e.item none) := by
  have hplaced := h.placed.leave (a := e.item) (q := .ready) (l := q.map Keyed.item)
    (by rw [h.ready, hq]; rfl)
  refine h.switch rest hq hplaced (by simp) (by simp) (by simp) (by simp) (by simp) (by simp)
    (fun hne => hshape.others _ hne) (by simp) (by simp) (fun t ht _ => by simp [ht])
    (fun t ht _ => by simp [ht]) ?_
  intro hne
  have hcur : c.current ≠ e.item := fun he => hne he.symm
  have hasleep : Asleep (c.stack c.current) rest := .inl hs
  cases h.stands c.current h.current_lt with
  | unstarted ht | ready ht | blocked ht | done ht => exact absurd rfl ht
  | running _ _ hs' => exact absurd hasleep.sleepy hs'
  | tired _ _ hs' =>
      rw [hs] at hs'
      cases hs'
  | @asleep p _ _ hst hs' hw hp hph =>
      obtain rfl := hasleep.rest_eq hs'
      cases p with
      | none =>
          exact .done (by simpa using hcur) (by simp [hcur, hst]) (by simp [hcur, hp])
            (by simpa using hph)
      | some p =>
          exact .blocked (by simpa using hcur) (by simp [hcur, hst]) (by simp) hw
            (by simp [hcur, hp]) (by simpa using hph)
  | woken _ hst hs' hw hp hph =>
      exact .ready (by simpa using hcur) (by simp [hcur, hst]) (by simp [hcur, hp])
        (by simpa using hph)

/-- The current thread goes to the ready list. -/
theorem Queued.yieldSwitch (hshape : Shaped c) (hs : ¬ Sleepy (c.stack c.current))
    (hq : c.ready = e :: q) (schedPriority : Bool) :
    Queued ((((c.emit (.findNextToRun c.level)).setReady q).makeReady schedPriority
        c.current).dispatch e.item rest)
      (Function.update (Function.update place e.item none) c.current (some .ready)) := by
  obtain ⟨hrun, hp, hph⟩ := h.runs hs
  have hne : e.item ≠ c.current := by
    intro he
    have hready : place e.item = some .ready := h.placed.place_eq (by rw [h.ready, hq]; simp)
    rw [he, hp] at hready
    cases hready
  have hleft := h.placed.leave (a := e.item) (q := .ready) (l := q.map Keyed.item)
    (by rw [h.ready, hq]; rfl)
  have hjoin := joinReady_perm ((c.emit (.findNextToRun c.level)).setReady q) schedPriority
    c.current
  have hentered := hleft.enter (a := c.current) (q := .ready) (by simp [hne.symm, hp])
    (by simpa using hjoin)
  refine h.switch rest hq (by simpa using hentered) (by simp) (by simp) (by simp) (by simp) (by simp)
    (by simp) (fun hne => hshape.others _ hne) (by simp) (by simp [hne])
    (fun t ht htc => by simp [ht, htc]) (fun t ht htc => by simp [ht, htc]) ?_
  intro _
  exact .ready (by simpa using hne.symm) (by simp [hne.symm]) (by simp) (by simpa using hph)

end

/-! ## Steps -/

/-- A frame outside of `Sleep` is not followed by one inside. -/
theorem Quiet.not_sleepy {f : Frame φ} {now : IntStatus} {mode : MachineStatus}
    (hf : Quiet c f fs now mode) (hshape : Shaped c) (hs : c.stack c.current = f :: rest)
    (hsleepy : ¬ Sleepy (f :: rest)) : ¬ Sleepy (fs ++ rest) := by
  have hv := hshape.top hs
  cases hf with
  | assertOwner =>
      obtain ⟨-, x, fs, rest', hbody, rfl, hending⟩ := hv
      cases x with
      | release | wait | signal | broadcast =>
          cases hbody
          exact id
      | p | v | acquire | fork | yield => cases hbody
  | signalNone => exact hv.2.choose_spec.not_sleepy
  | broadcastDone => exact hv.2.not_sleepy
  | afterSwitch =>
      rcases hv.2 with ⟨q, hw⟩ | hending
      · exact hw.not_sleepy
      · exact hending.not_sleepy
  | setLevel =>
      obtain ⟨-, x, rest', rfl, -⟩ := hv
      exact id
  | setLevelTick | cmdSetLevelTick | cmdTick | oneTick | oneTickYield => exact id
  | cmdSetLevel | cmdSetStatus | cmd => exact hv.2.not_sleepy
  | fireEnd =>
      obtain ⟨-, st, rest', rfl, -⟩ := hv
      exact id
  | oneTickEnd => exact hv.2.not_sleepy
  | setStatus => exact hv.2.2.not_sleepy
  | idle | idleFired | idleEnd => exact absurd trivial hsleepy
  | syscall hc _ =>
      refine (Code.append (fun y hy => ?_) hv.2).not_sleepy
      rw [hc y hy]
      trivial

/-- In `Sleep`, the stack below stays. -/
theorem Quiet.asleep {f : Frame φ} {now : IntStatus} {mode : MachineStatus}
    (hf : Quiet c f fs now mode) (hshape : Shaped c) (hs : c.stack c.current = f :: rest)
    (hsleepy : Sleepy (f :: rest)) :
    ∃ rest', Asleep (f :: rest) rest' ∧ Asleep (fs ++ rest) rest' := by
  have hv := hshape.top hs
  cases hf with
  | idle =>
      obtain ⟨-, q, rest', rfl, -⟩ := hv
      exact ⟨rest', .inr (.inl rfl), .inr (.inl rfl)⟩
  | idleFired =>
      obtain ⟨-, q, rest', rfl, -⟩ := hv
      exact ⟨rest', .inr (.inl rfl), .inr (.inr rfl)⟩
  | idleEnd =>
      obtain ⟨-, q, rest', rfl, -⟩ := hv
      exact ⟨rest', .inr (.inr rfl), .inl rfl⟩
  | _ => exact hsleepy.elim

/-- The stack of the thread that calls `V`, or during whose time a handler does. -/
theorem Queued.upBy (h : Queued c place) (hshape : Shaped c) {s : SemId} (hs : UpBy c s fs) :
    Queued (c.goto fs) place ∧
      ∀ gs, (c.goto fs).stack (c.goto fs).current ≠ .sleep :: gs := by
  cases hs with
  | thread hs =>
      have hrest := (hshape.top hs).2.not_sleepy
      refine ⟨h.goto (by rw [hs]; exact id) hrest (by constructor <;> simp) (by simp), ?_⟩
      rintro gs hgs
      rw [goto_current, goto_stack, Function.update_self] at hgs
      rw [hgs] at hrest
      exact hrest trivial
  | @handler f rest _ hs hf =>
      rw [← hs, goto_self]
      refine ⟨h, ?_⟩
      rintro gs hgs
      rw [hs] at hgs
      obtain ⟨rfl, -⟩ := List.cons.inj hgs
      exact hf

theorem Queued.selectBy (h : Queued c place) (hshape : Shaped c) {x : ℕ} (hs : SelectBy c x fs) :
    Queued (c.goto fs) place ∧
      ∀ gs, (c.goto fs).stack (c.goto fs).current ≠ .sleep :: gs := by
  cases hs with
  | signal hs =>
      have hrest := (hshape.top hs).2.choose_spec.not_sleepy
      refine ⟨h.goto (by rw [hs]; exact id) hrest (by constructor <;> simp) (by simp), ?_⟩
      rintro gs hgs
      rw [goto_current, goto_stack, Function.update_self] at hgs
      rw [hgs] at hrest
      exact hrest trivial
  | broadcast hs =>
      rw [← hs, goto_self]
      refine ⟨h, fun gs hgs => ?_⟩
      rw [hs] at hgs
      cases hgs

theorem Queued.step (h : Queued c place) (hshape : Shaped c) (hstep : Step cfg c c') :
    ∃ place', Queued c' place' := by
  cases hstep with
  | @quiet f fs rest now mode hs hf =>
      refine ⟨place, ?_⟩
      by_cases hsleepy : Sleepy (f :: rest)
      · obtain ⟨rest', hold, hnew⟩ := hf.asleep hshape hs hsleepy
        exact h.doze (hs ▸ hold) hnew (by constructor <;> simp) (by simp)
      · exact h.goto (hs ▸ hsleepy) (hf.not_sleepy hshape hs hsleepy) (by constructor <;> simp)
          (by simp)
  | remark he => exact ⟨place, h.congr (by constructor <;> simp) (by simp)⟩
  | @enter x rest hs =>
      have hawake : ¬ Sleepy (c.stack c.current) := by
        rcases hs with hs | hs <;> rw [hs] <;> exact id
      have hbody : ¬ Sleepy (x.body ++ .setLevel c.level :: .ret x c.level :: rest) := by
        cases x <;> exact id
      exact ⟨place, h.goto hawake hbody (by constructor <;> simp) (by simp)⟩
  | ret hs =>
      exact ⟨place, h.goto (by rw [hs]; exact id) (hshape.top hs).2.not_sleepy
        (by constructor <;> simp) (by simp)⟩
  | run hs hp =>
      have hpublic := cfg.program.isPublic _ _ _ _ _ _ hp
      exact ⟨place, h.goto (by rw [hs]; exact id) (Code.append hpublic (hshape.top hs).2).not_sleepy
        (by constructor <;> simp) (by simp)⟩
  | down hs hv =>
      exact ⟨place, h.goto (by rw [hs]; exact id) (hshape.top hs).2.not_sleepy
        (by constructor <;> simp) (by simp)⟩
  | block hs hv =>
      exact ⟨_, h.block (by rw [hs]; exact id) (.sem (hshape.top hs).2) (by constructor <;> simp)
        (by simp) (by simp) (by simp) (by simp)⟩
  | up hs hq =>
      obtain ⟨hgoto, -⟩ := h.upBy hshape hs
      exact ⟨place, hgoto.congr (by constructor <;> simp) (by simp)⟩
  | @upWake s fs t q hs hq =>
      obtain ⟨hgoto, htop⟩ := h.upBy hshape hs
      have hjoin := joinReady_perm ((c.goto fs).setQueue (.sem s) q) cfg.schedPriority t
      exact ⟨_, hgoto.wake hq (by simp) htop (by constructor <;> simp) (by simp)
        (by simpa using hjoin) (by simp) (by simp)⟩
  | setOwner hs =>
      exact ⟨place, h.goto (by rw [hs]; exact id) (hshape.top hs).2.not_sleepy
        (by constructor <;> simp) (by simp)⟩
  | clearOwner hs =>
      exact ⟨place, h.goto (by rw [hs]; exact id) (hshape.top hs).2.not_sleepy
        (by constructor <;> simp) (by simp)⟩
  | enqueue hs =>
      obtain ⟨-, l, rest', rfl, hending⟩ := hshape.top hs
      exact ⟨_, h.block (by rw [hs]; exact id) (.cond hending) (by constructor <;> simp)
        (by simp) (by simp) (by simp) (by simp)⟩
  | @select x fs t q hs hq =>
      obtain ⟨hgoto, htop⟩ := h.selectBy hshape hs
      have hjoin := joinReady_perm (((c.goto fs).setQueue (.cond x) q).emit (.selected x t))
        cfg.schedPriority t
      exact ⟨_, hgoto.wake hq (by simp) htop (by constructor <;> simp) (by simp)
        (by simpa using hjoin) (by simp) (by simp)⟩
  | @startThread t f rest hs ht hst =>
      have hgoto : Queued (c.goto rest) place :=
        h.goto (by rw [hs]; exact id) (hshape.top hs).2.not_sleepy (by constructor <;> simp)
          (by simp)
      have hjoin := joinReady_perm ((c.goto rest).setStack t (Kernel.root f)) cfg.schedPriority t
      exact ⟨_, hgoto.start (t := t) ht hst (by constructor <;> simp) (fun u hu => by simp [hu])
        (by simp) (by simpa using hjoin) (by simp)⟩
  | @newThread _ _ rest _ hs hi =>
      have hgoto : Queued (c.goto rest) place :=
        h.goto (by rw [hs]; exact id) (hshape.top hs).2.not_sleepy (by constructor <;> simp)
          (by simp)
      exact ⟨place, hgoto.create _ _⟩
  | yieldNone hs hq =>
      exact ⟨place, h.goto (by rw [hs]; exact id) (hshape.top hs).2.not_sleepy
        (by constructor <;> simp) (by simp)⟩
  | @yieldKeep rest e q hs hq hp hkeep =>
      have hgoto : Queued ((c.goto rest).emit (.findNextToRun c.level)) place :=
        h.goto (by rw [hs]; exact id) (hshape.top hs).2.not_sleepy (by constructor <;> simp)
          (by simp)
      refine ⟨place, hgoto.permute ?_⟩
      have hperm := (Keyed.sortedInsert_perm ⟨c.priority e.item, e.item⟩ q).map Keyed.item
      rw [emit_ready, goto_ready, hq]
      exact hperm
  | yieldSwitch hs hq hp => exact ⟨_, h.yieldSwitch hshape (by rw [hs]; exact id) hq _⟩
  | sleep hs hl => exact ⟨place, h.sleep hs⟩
  | sleepIdle hs hq =>
      exact ⟨place, h.doze (.inl hs) (.inr (.inl rfl)) (by constructor <;> simp) (by simp)⟩
  | sleepSwitch hs hq => exact ⟨_, h.sleepSwitch hshape hs hq⟩
  | finish hs => exact ⟨place, h.finish (by rw [hs]; exact id)⟩
  | @destroy rest t hs hd ht =>
      have hrest : ¬ Sleepy rest := by
        rcases (hshape.top hs).2 with ⟨q, hw⟩ | hending
        · exact hw.not_sleepy
        · exact hending.not_sleepy
      have hgoto : Queued (c.goto rest) place :=
        h.goto (by rw [hs]; exact id) hrest (by constructor <;> simp) (by simp)
      exact ⟨place, hgoto.destroy hd ht⟩

theorem queued_start (main : φ) (client : γ) (values : ℕ → ℤ) :
    Queued (start main client values) fun _ => none where
  placed := ⟨by simp, by simp⟩
  ready := by simp
  current_lt := by simp
  stands t ht := by
    rw [start_created, Nat.lt_one_iff] at ht
    subst ht
    exact .running (by simp) (by simp) (by simpa using (code_root main).not_sleepy) rfl (by simp)
  beyond _ _ := rfl
  unborn t ht := by
    rw [start_created] at ht
    rw [start_stack, Function.update_of_ne (by omega)]
  doomed t ht := by simp at ht

end Core

/-! ## The order of dispatching -/

@[simp] def Event.readied? : Event φ → Option ℕ
  | .readyToRun t _ => some t
  | _ => none

@[simp] def Event.dispatched? : Event φ → Option ℕ
  | .run t _ => some t
  | _ => none

/-- The threads that have been put on the ready list, in this order. -/
def readied (log : List (Event φ)) : List ℕ := log.filterMap Event.readied?

/-- The threads that have been dispatched, in this order. -/
def dispatched (log : List (Event φ)) : List ℕ := log.filterMap Event.dispatched?

namespace Core

variable {cfg : Config φ γ ι} {c c' : Core φ γ}

/-- What a step does to the ready list. -/
inductive Traffic (schedPriority : Bool) (c c' : Core φ γ) : Prop where
  | stay (hready : c'.ready = c.ready) (hin : readied c'.log = readied c.log)
      (hout : dispatched c'.log = dispatched c.log)
  | join (t : ℕ) (hready : c'.ready = c.joinReady schedPriority t)
      (hin : readied c'.log = readied c.log ++ [t]) (hout : dispatched c'.log = dispatched c.log)
  | leave {e q} (hq : c.ready = e :: q) (hready : c'.ready = q)
      (hin : readied c'.log = readied c.log)
      (hout : dispatched c'.log = dispatched c.log ++ [e.item])
  | swap {e q} (hq : c.ready = e :: q)
      (hready : c'.ready = (c.setReady q).joinReady schedPriority c.current)
      (hin : readied c'.log = readied c.log ++ [c.current])
      (hout : dispatched c'.log = dispatched c.log ++ [e.item])
  | rotate {e q rest} (hs : c.stack c.current = .yieldBody :: rest) (hp : schedPriority = true)
      (hq : c.ready = e :: q) (hkeep : c.priority c.current ≤ c.priority e.item)
      (hready : c'.ready = Keyed.sortedInsert ⟨c.priority e.item, e.item⟩ q)
      (hin : readied c'.log = readied c.log) (hout : dispatched c'.log = dispatched c.log)

theorem Step.traffic (hstep : Step cfg c c') : Traffic cfg.schedPriority c c' := by
  cases hstep with
  | @remark e he =>
      refine .stay (by simp) ?_ ?_
      · cases e with
        | readyToRun => exact he.elim
        | _ => simp [readied]
      · cases e with
        | run => exact he.elim
        | _ => simp [dispatched]
  | quiet | enter | ret | run | down | block | up | setOwner | clearOwner | enqueue | newThread
  | yieldNone | sleep | sleepIdle | finish | destroy =>
      exact .stay (by simp) (by simp [readied, List.filterMap_cons])
        (by simp [dispatched, List.filterMap_cons])
  | @upWake s fs t q | @select x fs t q =>
      exact .join t (by simp [joinReady]) (by simp [readied, List.filterMap_cons])
        (by simp [dispatched, List.filterMap_cons])
  | @startThread t =>
      exact .join t (by simp [joinReady]) (by simp [readied]) (by simp [dispatched])
  | yieldKeep hs hq hp hkeep =>
      exact .rotate hs hp hq hkeep (by simp) (by simp [readied, List.filterMap_cons])
        (by simp [dispatched, List.filterMap_cons])
  | yieldSwitch hs hq hp =>
      exact .swap hq (by simp [joinReady]) (by simp [readied, List.filterMap_cons])
        (by simp [dispatched, List.filterMap_cons])
  | sleepSwitch hs hq =>
      exact .leave hq (by simp) (by simp [readied])
        (by simp [dispatched, List.filterMap_cons])

/-- Without `SCHED_PRIORITY`, the ready list is first in, first out. -/
def Fifo (c : Core φ γ) : Prop :=
  readied c.log = dispatched c.log ++ c.ready.map Keyed.item

theorem Fifo.step (hfifo : cfg.schedPriority = false) (h : Fifo c) (hstep : Step cfg c c') :
    Fifo c' := by
  unfold Fifo at h ⊢
  have ht := hstep.traffic
  rw [hfifo] at ht
  cases ht with
  | stay hready hin hout => rw [hready, hin, hout, h]
  | join t hready hin hout => simp [hready, hin, hout, h, joinReady]
  | leave hq hready hin hout =>
      rw [hq] at h
      simp [hready, hin, hout, h]
  | swap hq hready hin hout =>
      rw [hq] at h
      simp [hready, hin, hout, h, joinReady]
  | rotate _ hp => cases hp

end Core

namespace Kernel

variable {cfg : Config φ γ ι} {k : Kernel φ γ} {init : Kernel φ γ → Prop} {I : Core φ γ → Prop}

theorem stands_start (hinit : ∀ k, init k → Initial k) (hk : init k) :
    k.core.Shaped ∧ ∃ place, k.core.Queued place := by
  obtain ⟨main, client, values, machine, -, rfl⟩ := hinit k hk
  rw [core_start]
  exact ⟨Core.shaped_start main client values, _, Core.queued_start main client values⟩

/-- An invariant of the core may be proved for threads that stand where they may. -/
theorem invariant_from (hinit : ∀ k, init k → Initial k) (hstart : ∀ k, init k → I k.core)
    (hstep : ∀ c c' place, c.Shaped → c.Queued place → I c → Core.Step cfg c c' → I c')
    (h : (system cfg init).Reachable k) :
    k.core.Shaped ∧ (∃ place, k.core.Queued place) ∧ I k.core := by
  refine core_invariant (I := fun c : Core φ γ => c.Shaped ∧ (∃ place, c.Queued place) ∧ I c)
    (fun k hk => ?_) ?_ h
  · obtain ⟨hshape, hq⟩ := stands_start hinit hk
    exact ⟨hshape, hq, hstart k hk⟩
  · rintro c c' ⟨hshape, ⟨place, hq⟩, hc⟩ hs
    exact ⟨hshape.step hs, hq.step hshape hs, hstep c c' place hshape hq hc hs⟩

/-- The same for the runs in which every step satisfies `P`. -/
theorem invariant_where {P : Kernel φ γ → Env ι → Prop} (hinit : ∀ k, init k → Initial k)
    (hstart : ∀ k, init k → I k.core)
    (hstep : ∀ k env, P k env → ∀ c c' place, c.Shaped → c.Queued place → I c →
      Core.StepFrom cfg k.core c c' → I c')
    (h : (systemWhere cfg init P).Reachable k) :
    k.core.Shaped ∧ (∃ place, k.core.Queued place) ∧ I k.core := by
  refine h.invariant
    (I := fun k => k.core.Shaped ∧ (∃ place, k.core.Queued place) ∧ I k.core) ?_ ?_
  · intro k hk
    obtain ⟨hshape, hq⟩ := stands_start hinit hk
    exact ⟨hshape, hq, hstart k hk⟩
  · rintro k env - k' hk ⟨hP, -, hlegal, hrun⟩
    refine steps_invariant (I := fun c : Core φ γ => c.Shaped ∧ (∃ place, c.Queued place) ∧ I c)
      ?_ (step_from hlegal hrun) hk
    rintro c c' ⟨hshape, ⟨place, hq⟩, hI⟩ hs
    exact ⟨hshape.step hs.1, hq.step hshape hs.1, hstep k env hP c c' place hshape hq hI hs⟩

theorem queued_invariant
    (hstart : ∀ main client values, (∀ n, 0 ≤ values n) → I (Core.start main client values))
    (hstep : ∀ c c' place, c.Shaped → c.Queued place → I c → Core.Step cfg c c' → I c')
    (h : (system cfg Initial).Reachable k) : (∃ place, k.core.Queued place) ∧ I k.core := by
  refine (invariant_from (fun _ => id) (fun k hk => ?_) hstep h).2
  obtain ⟨main, client, values, machine, hvalues, rfl⟩ := hk
  rw [core_start]
  exact hstart main client values hvalues

theorem queued (h : (system cfg Initial).Reachable k) : ∃ place, k.core.Queued place :=
  (queued_invariant (I := fun _ => True) (fun _ _ _ _ => trivial)
    (fun _ _ _ _ _ _ _ => trivial) h).1

theorem fifo (hfifo : cfg.schedPriority = false) (h : (system cfg Initial).Reachable k) :
    k.core.Fifo :=
  invariant_of_start (I := Core.Fifo) (fun _ _ _ _ => by simp [Core.Fifo, readied, dispatched])
    (fun _ _ hc hstep => hc.step hfifo hstep) h

/-- With interrupts on, the current thread is not in `Sleep`. -/
theorem not_sleepy_of_on (hshape : k.core.Shaped) (hon : k.level = .on) :
    ¬ Sleepy (k.core.stack k.core.current) := by
  intro hsleepy
  have hv : Valid k.core.level (k.core.stack k.core.current) := hshape.current
  rw [show k.core.level = .on from hon] at hv
  cases hs : k.core.stack k.core.current with
  | nil =>
      rw [hs] at hsleepy
      exact hsleepy
  | cons f rest =>
      rw [hs] at hsleepy hv
      cases f with
      | sleep | sleepLoop | idle | idleLoop => cases hv.1
      | _ => exact hsleepy

/-- No thread is lost or duplicated: when interrupts are on, the current thread is the only
one that runs and is on no queue, and every other thread that has started and not finished is
on exactly one queue. Threads are dispatched in the order in which they became ready. -/
theorem threads_kept (hfifo : cfg.schedPriority = false)
    (h : (system cfg Initial).Reachable k) (hon : k.level = .on) :
    (∀ t < k.created, (k.thread t).status = .running ↔ t = k.currentThread) ∧
      (∀ q, k.currentThread ∉ k.queue q) ∧
      (∀ t < k.created, t ≠ k.currentThread → (k.thread t).status ≠ .justCreated →
        (k.thread t).phase = .unfinished →
          ∃ q, (k.queue q).count t = 1 ∧ (∀ q', q' ≠ q → t ∉ k.queue q') ∧
            (q = .ready ↔ (k.thread t).status = .ready) ∧
            (q ≠ .ready ↔ (k.thread t).status = .blocked)) ∧
      readied k.log = dispatched k.log ++ k.readyList.map Keyed.item := by
  obtain ⟨place, hq⟩ := queued h
  obtain ⟨hrun, hnone, -⟩ := hq.runs (not_sleepy_of_on (shaped h) hon)
  refine ⟨fun t ht => ⟨fun hst => ?_, ?_⟩, ?_, ?_, fifo hfifo h⟩
  · cases hq.stands t ht with
    | unstarted _ hst' | ready _ hst' | blocked _ hst' | done _ hst' | asleep _ hst'
    | woken _ hst' =>
        have hst : k.core.status t = .running := hst
        rw [hst'] at hst
        cases hst
    | running ht | tired ht => exact ht
  · rintro rfl
    exact hrun
  · intro q hmem
    have hplace : place k.currentThread = some q := hq.placed.place_eq hmem
    rw [show place k.currentThread = none from hnone] at hplace
    cases hplace
  · intro t ht hne hstarted hph
    have hone : ∀ q, place t = some q →
        (k.queue q).count t = 1 ∧ ∀ q', q' ≠ q → t ∉ k.queue q' := by
      intro q hp
      refine ⟨List.count_eq_one_of_mem (hq.placed.nodup q) ((hq.placed.mem_iff t q).mpr hp), ?_⟩
      intro q' hne' hmem
      have hplace : place t = some q' := hq.placed.place_eq hmem
      rw [hp] at hplace
      exact hne' (Option.some.inj hplace).symm
    cases hq.stands t ht with
    | unstarted _ hst => exact absurd hst hstarted
    | ready _ hst hp =>
        have hst : (k.thread t).status = .ready := hst
        exact ⟨.ready, (hone _ hp).1, (hone _ hp).2, by simp [hst], by simp [hst]⟩
    | @blocked q _ _ hst _ hw hp =>
        have hst : (k.thread t).status = .blocked := hst
        exact ⟨q, (hone _ hp).1, (hone _ hp).2, by simp [hst, hw.ne_ready],
          by simp [hst, hw.ne_ready]⟩
    | done _ _ _ hph' => exact absurd hph hph'
    | running ht | tired ht | asleep ht | woken ht => exact absurd ht hne

/-- The main thread starts another one. -/
def forkOne (schedPriority : Bool) : Config ℕ Unit Unit :=
  .scripted schedPriority [[.newThread 6 0, .call (.fork 1 1), .call .yield]] (by decide)

theorem threads_kept_forkOne : ∃ k : Kernel ℕ Unit,
    k.level = .on ∧ (k.thread 1).status = .ready ∧ ∀ q, k.currentThread ∉ k.queue q := by
  obtain ⟨k, hobs, hk⟩ := exists_reachable (forkOne false) (calm 13)
    (start 0 () (fun _ => 0) none) (fun k => (k.level, (k.thread 1).status)) (.on, .ready)
    (by decide +kernel)
  obtain ⟨hon, hready⟩ := Prod.mk.inj hobs
  exact ⟨k, hon, hready, (threads_kept rfl (hk _ (initial_start 0 ())) hon).2.1⟩

end Kernel

end Nachos
