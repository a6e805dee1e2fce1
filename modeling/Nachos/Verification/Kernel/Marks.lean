import Nachos.Verification.Kernel.Queues

/-! # Marked frames

Most steps put frames on a stack, or take them off, that say nothing about the calls in which
the thread is. Whatever is read off the other frames stays the same in these steps. -/

namespace Nachos

open Library

variable {φ γ ι β : Type}

/-- Frames that are part of a call. -/
def Frame.active : Frame φ → Bool
  | .cmd (.call _) | .call _ | .pLoop _ _ | .setOwner _ | .clearOwner _ | .enqueue _
  | .ret _ _ => true
  | _ => false

/-- Nothing is read off code and frames that are not part of a call. -/
structure Inert (p : Frame φ → Option β) : Prop where
  frame : ∀ f : Frame φ, f.active = false → p f = none
  cmd : ∀ x, p (.cmd x) = none
  yield : p (.call .yield) = none

/-- What is read off a stack, from the innermost frame on. -/
def marks (p : Frame φ → Option β) (stack : List (Frame φ)) : List β := stack.filterMap p

variable {p : Frame φ → Option β} {f : Frame φ}

@[simp] theorem marks_nil : marks p [] = [] := rfl

theorem marks_cons (f : Frame φ) (rest : List (Frame φ)) :
    marks p (f :: rest) = (p f).toList ++ marks p rest := by
  unfold marks
  cases hf : p f with
  | none => simp [hf]
  | some b => simp [hf]

theorem marks_skip (hf : p f = none) (rest : List (Frame φ)) :
    marks p (f :: rest) = marks p rest := List.filterMap_cons_none hf

theorem Inert.marks_cons (hp : Inert p) (hf : f.active = false) (rest : List (Frame φ)) :
    marks p (f :: rest) = marks p rest := marks_skip (hp.frame f hf) rest

theorem Inert.marks_cmds (hp : Inert p) (cmds : List (Cmd φ)) (rest : List (Frame φ)) :
    marks p (cmds.map .cmd ++ rest) = marks p rest := by
  induction cmds with
  | nil => rfl
  | cons x cmds ih => exact (marks_skip (hp.cmd x) _).trans ih

theorem Code.marks {stack : List (Frame φ)} (h : Code stack) (hp : Inert p) :
    marks p stack = [] := by
  refine List.filterMap_eq_nil_iff.mpr fun f hf => ?_
  obtain ⟨x, rfl, -⟩ := h f hf
  exact hp.cmd x

namespace Core

variable {cfg : Config φ γ ι} {c c' : Core φ γ} {place : ℕ → Option Place}
  {rest fs : List (Frame φ)}

/-- The current thread is not about to execute a part of a call. -/
def Passive (c : Core φ γ) : Prop :=
  ∀ f rest, c.stack c.current = f :: rest → f.active = false

theorem passive_of_top (hs : c.stack c.current = f :: rest) (hf : f.active = false) :
    Passive c := by
  intro g rest' hs'
  rw [hs] at hs'
  cases hs'
  exact hf

theorem UpBy.passive {s : SemId} (hs : UpBy c s fs) : Passive c := by
  cases hs with
  | thread hs => exact passive_of_top hs rfl
  | @handler f rest n hs hf hl =>
      refine passive_of_top hs ?_
      cases f with
      | fireLoop | idle | idleLoop => rfl
      | _ => exact hf.elim

theorem SelectBy.passive {x : ℕ} (hs : SelectBy c x fs) : Passive c := by
  cases hs with
  | signal hs => exact passive_of_top hs rfl
  | broadcast hs => exact passive_of_top hs rfl

/-- The current stack changes in frames off which nothing is read. -/
theorem marks_goto (fs : List (Frame φ)) (hfs : marks p fs = marks p (c.stack c.current))
    (hstack : c'.stack = Function.update c.stack c.current fs) (t : ℕ) :
    marks p (c'.stack t) = marks p (c.stack t) := by
  rw [hstack]
  by_cases ht : t = c.current
  · rw [ht, Function.update_self, hfs]
  · rw [Function.update_of_ne ht]

theorem marks_pop (hp : Inert p) (hs : c.stack c.current = f :: rest) (hf : f.active = false)
    (hstack : c'.stack = Function.update c.stack c.current rest) (t : ℕ) :
    marks p (c'.stack t) = marks p (c.stack t) :=
  marks_goto rest (by rw [hs, hp.marks_cons hf]) hstack t

theorem Quiet.inactive {now : IntStatus} {mode : MachineStatus} (hf : Quiet c f fs now mode) :
    f.active = false := by
  cases hf with
  | @cmd x hx =>
      cases x with
      | schedule | load | restoreState => rfl
      | _ => exact hx.elim
  | _ => rfl

theorem Quiet.marks {now : IntStatus} {mode : MachineStatus} (hf : Quiet c f fs now mode)
    (hp : Inert p) : marks p (fs ++ rest) = marks p (f :: rest) := by
  cases hf with
  | syscall => rw [hp.marks_cmds, marks_skip (hp.cmd _)]
  | cmdSetLevel | cmdSetStatus | cmd => exact (marks_skip (hp.cmd _) rest).symm
  | cmdSetLevelTick | cmdTick =>
      exact (hp.marks_cons rfl rest).trans (marks_skip (hp.cmd _) rest).symm
  | oneTick =>
      rw [hp.marks_cons rfl]
      exact (hp.marks_cons rfl _).trans (hp.marks_cons rfl rest)
  | oneTickYield =>
      rw [hp.marks_cons rfl]
      exact (marks_skip hp.yield _).trans (hp.marks_cons rfl rest)
  | setLevelTick | idle | idleFired =>
      exact (hp.marks_cons rfl rest).trans (hp.marks_cons rfl rest).symm
  | assertOwner | signalNone | broadcastDone | afterSwitch | setLevel | fireEnd | oneTickEnd
  | setStatus | idleEnd => exact (hp.marks_cons rfl rest).symm

theorem UpBy.marks {s : SemId} (hs : UpBy c s fs) (hp : Inert p) :
    marks p fs = marks p (c.stack c.current) := by
  cases hs with
  | thread hs => rw [hs, hp.marks_cons rfl]
  | handler hs => rw [hs]

theorem SelectBy.marks {x : ℕ} (hs : SelectBy c x fs) (hp : Inert p) :
    marks p fs = marks p (c.stack c.current) := by
  cases hs with
  | signal hs => rw [hs, hp.marks_cons rfl]
  | broadcast hs => rw [hs]

/-- A thread that may be forked has an empty stack. -/
theorem Queued.fresh (h : Queued c place) {t : ℕ} (ht : t < c.created)
    (hst : c.status t = .justCreated) : c.stack t = [] ∧ t ≠ c.current := by
  cases h.stands t ht with
  | unstarted hne _ hs => exact ⟨hs, hne⟩
  | ready _ hst' | blocked _ hst' | done _ hst' | running _ hst' | tired _ hst'
  | asleep _ hst' | woken _ hst' =>
      rw [hst] at hst'
      cases hst'

/-- What is left to do after `Sleep` for a thread on the queue of a semaphore or condition. -/
theorem Queued.marks_waiting (h : Queued c place) (hp : Inert p) {t : ℕ} {q : Place}
    (ht : t ∈ c.queue q) (hne : q ≠ .ready) :
    ∃ rest, Waiting (some q) rest ∧ marks p (c.stack t) = marks p rest := by
  have hplace : place t = some q := h.placed.place_eq ht
  cases h.stands t (h.lt_created hplace) with
  | unstarted _ _ _ hplace' | done _ _ hplace' | running _ _ _ hplace' =>
      rw [hplace] at hplace'
      cases hplace'
  | ready _ _ hplace' | woken _ _ _ _ hplace' =>
      rw [hplace] at hplace'
      exact absurd (Option.some.inj hplace') hne
  | @blocked _ rest _ _ hs hw hplace' =>
      rw [hplace] at hplace'
      cases hplace'
      exact ⟨rest, hw, by rw [hs, hp.marks_cons rfl]⟩
  | @tired _ rest _ _ hs hw hplace' =>
      rw [hplace] at hplace'
      cases hplace'
      exact ⟨rest, hw, by rw [hs, hp.marks_cons rfl]⟩
  | @asleep _ rest _ _ hs hw hplace' =>
      rw [hplace] at hplace'
      cases hplace'
      refine ⟨rest, hw, ?_⟩
      rcases hs with hs | hs | hs
      · rw [hs, hp.marks_cons rfl]
      · rw [hs, hp.marks_cons rfl, hp.marks_cons rfl]
      · rw [hs, hp.marks_cons rfl, hp.marks_cons rfl]

/-- Where no part of a call is executed, the marks stay. -/
theorem Step.marks (hstep : Step cfg c c') (hp : Inert p) (hshape : Shaped c)
    (hq : Queued c place) (hc : Passive c) (u : ℕ) : marks p (c'.stack u) = marks p (c.stack u) := by
  cases hstep with
  | @quiet f fs rest now mode hs hf =>
      exact marks_goto (fs ++ rest) (hs ▸ hf.marks hp) (by simp) u
  | remark => rfl
  | enter hs => rcases hs with hs | hs <;> cases hc _ _ hs
  | ret hs | down hs | block hs | setOwner hs | clearOwner hs | enqueue hs => cases hc _ _ hs
  | @run f rest i g cmds hs =>
      have hcmds : marks p (cmds.map .cmd ++ rest) = marks p (c.stack c.current) := by
        rw [hp.marks_cmds, hs, marks_skip (hp.cmd _)]
      exact marks_goto _ hcmds (by simp) u
  | @up s fs hs => exact marks_goto fs (hs.marks hp) (by simp) u
  | @upWake s fs t q hs => exact marks_goto fs (hs.marks hp) (by simp) u
  | @select x fs t q hs => exact marks_goto fs (hs.marks hp) (by simp) u
  | @startThread t f rest hs ht hst =>
      have hpop : marks p ((c.goto rest).stack u) = marks p (c.stack u) :=
        marks_pop hp hs rfl (by simp) u
      rw [← hpop]
      obtain ⟨hnil, hne⟩ := hq.fresh ht hst
      by_cases hu : u = t
      · subst hu
        simp [hnil, hne, (code_root f).marks hp]
      · simp [hu]
  | @newThread pri uninit rest i hs hi =>
      have hpop : marks p ((c.goto rest).stack u) = marks p (c.stack u) :=
        marks_pop hp hs rfl (by simp) u
      rw [← hpop]
      by_cases hu : u = c.created
      · subst hu
        simp [hq.unborn c.created le_rfl, hq.current_lt.ne']
      · simp [hu]
  | yieldNone hs | yieldKeep hs | destroy hs => exact marks_pop hp hs rfl (by simp) u
  | @yieldSwitch rest e q hs | @sleepSwitch rest e q hs =>
      have hswitch : marks p (.afterSwitch :: rest) = marks p (c.stack c.current) := by
        rw [hs, hp.marks_cons rfl, hp.marks_cons rfl]
      exact marks_goto _ hswitch (by simp) u
  | @sleep rest hs =>
      have hloop : marks p (.sleepLoop :: rest) = marks p (c.stack c.current) := by
        rw [hs, hp.marks_cons rfl, hp.marks_cons rfl]
      exact marks_goto _ hloop (by simp) u
  | @sleepIdle rest hs =>
      have hidle : marks p (.idle :: .sleepLoop :: rest) = marks p (c.stack c.current) := by
        rw [hs, hp.marks_cons rfl]
      exact marks_goto _ hidle (by simp) u
  | @finish rest hs =>
      have hcode : marks p rest = [] := (hshape.top hs).2.marks hp
      have hfinish : marks p [.sleep] = marks p (c.stack c.current) := by
        rw [hs, hp.marks_cons rfl, marks_skip (hp.cmd _), hcode, marks_nil]
      exact marks_goto _ hfinish (by simp) u

theorem marks_start (hp : Inert p) (main : φ) (client : γ) (values : ℕ → ℤ) (t : ℕ) :
    marks p ((start main client values).stack t) = [] := by
  by_cases ht : t = 0
  · subst ht
    simpa using (code_root main).marks hp
  · simp [ht]

end Core

end Nachos
