import Nachos.Verification.Kernel.Core

/-! # Parts of the kernel

The functions for threads, semaphores, locks and conditions leave most of the kernel alone. That
they leave a part of it alone follows from what a few updates do to this part. -/

namespace Nachos.Kernel

open Library

variable {φ γ ι α : Type} {k k' : Kernel φ γ} {schedPriority : Bool} {s : SemId}

/-- Queues, levels and the status and stacks of threads do not belong to the part. -/
structure Apart (part : Kernel φ γ → α) : Prop where
  emit : ∀ k e, e.timing? = none → part (k.emit e) = part k
  modifyThread : ∀ k t f, (f (k.thread t)).space = (k.thread t).space →
    (f (k.thread t)).phase = (k.thread t).phase → part (k.modifyThread t f) = part k
  interrupt : ∀ k now yieldOnReturn, part { k with interrupt := { k.interrupt with
    level := now, yieldOnReturn := yieldOnReturn } } = part k
  update : ∀ k sem owner cond readyList client, part { k with
    sem := sem, owner := owner, cond := cond, readyList := readyList, client := client } = part k

/-- Frames of these functions. -/
def Plain : Frame φ → Prop
  | .cmd x => match x with
    | .call _ | .run _ | .setLevel _ | .oneTick => True
    | _ => False
  | .call _ | .pLoop _ _ | .vBody _ | .setOwner _ | .assertOwner _ | .clearOwner _ | .enqueue _
  | .signalBody _ | .broadcastBody _ _ | .startThread _ _ | .sleep | .setLevel _ | .ret _ _ => True
  | _ => False

namespace Apart

variable {part : Kernel φ γ → α}

theorem changeLevel (h : Apart part) (k : Kernel φ γ) (now : IntStatus) :
    part (k.changeLevel now) = part k := h.interrupt k now k.interrupt.yieldOnReturn

theorem push (h : Apart part) (k : Kernel φ γ) (frames : List (Frame φ)) :
    part (k.push frames) = part k := by
  rw [Kernel.push, setStack, h.modifyThread _ _ _ rfl rfl]

theorem setSem (h : Apart part) (k : Kernel φ γ) (x : Semaphore) :
    part (k.setSem s x) = part k := h.update k _ k.owner k.cond k.readyList k.client

theorem setReady (h : Apart part) (k : Kernel φ γ) (readyList : List (Keyed ℕ)) :
    part { k with readyList := readyList } = part k :=
  h.update k k.sem k.owner k.cond readyList k.client

theorem setCond (h : Apart part) (k : Kernel φ γ) (cond : ℕ → List ℕ) :
    part { k with cond := cond } = part k := h.update k k.sem k.owner cond k.readyList k.client

theorem readyToRun (h : Apart part) (k : Kernel φ γ) (t : ℕ) :
    part (k.readyToRun schedPriority t) = part k := by
  refine (h.emit { k.modifyThread t (fun th => { th with status := .ready }) with
    readyList := (k.readyToRun schedPriority t).readyList } (.readyToRun t k.level) rfl).trans ?_
  rw [h.setReady, h.modifyThread _ _ _ rfl rfl]

theorem findNextToRun (h : Apart part) {bySleep : Bool} {next : Option ℕ}
    (hfind : k.findNextToRun schedPriority bySleep = (next, k')) : part k' = part k := by
  have hemit := h.emit k (.findNextToRun k.level) rfl
  rw [← hemit, ← show _ = k' from congrArg Prod.snd hfind]
  unfold Kernel.findNextToRun
  dsimp only
  split
  · rfl
  · split
    · exact h.setReady _ _
    · split <;> exact h.setReady _ _

theorem signalBody (h : Apart part) (k : Kernel φ γ) (x : ℕ) :
    part (k.signalBody schedPriority x) = part k := by
  unfold Kernel.signalBody
  split
  · rfl
  · rw [h.readyToRun, h.emit _ _ rfl, h.setCond]

theorem enter (h : Apart part) (k : Kernel φ γ) (x : Call φ) : part (k.enter x) = part k := by
  rw [Kernel.enter, h.push, h.emit _ _ rfl, h.changeLevel]

theorem vBody (h : Apart part) (hv : k.vBody schedPriority s = .ok k') : part k' = part k := by
  unfold Kernel.vBody at hv
  obtain ⟨value, -, hv⟩ := bind_eq_ok.mp hv
  rw [← Except.ok.inj hv, h.emit _ _ rfl, h.setSem]
  split
  · rfl
  · rw [h.readyToRun, h.setSem]

/-- A handler schedules an interrupt, or it leaves the part alone. -/
theorem handlerAct (h : Apart part) {act : HandlerAct}
    (hact : k.handlerAct schedPriority act = .ok k') :
    (∃ fromNow type, k.schedule fromNow type = .ok k') ∨ part k' = part k := by
  cases act with
  | schedule fromNow type => exact .inl ⟨fromNow, type, hact⟩
  | v n =>
      obtain ⟨k₁, hv, hact⟩ := bind_eq_ok.mp hact
      obtain ⟨u, -, hact⟩ := bind_eq_ok.mp hact
      rw [← Except.ok.inj hact, h.changeLevel, h.vBody hv, h.changeLevel]
      exact .inr rfl
  | yieldOnReturn =>
      obtain ⟨u, -, hact⟩ := bind_eq_ok.mp hact
      rw [← Except.ok.inj hact]
      exact .inr (h.interrupt k k.interrupt.level true)

theorem pLoop (h : Apart part) (hp : k.pLoop s = .ok k') : part k' = part k := by
  unfold Kernel.pLoop at hp
  split at hp
  · rw [← Except.ok.inj hp, h.push, h.setSem]
  · obtain ⟨value, -, hp⟩ := bind_eq_ok.mp hp
    rw [← Except.ok.inj hp, h.emit _ _ rfl, h.setSem]

theorem broadcastLoop (h : Apart part) {x l : ℕ} {waiting : List ℕ}
    (hloop : k.broadcastLoop schedPriority x l waiting = .ok k') : part k' = part k := by
  induction waiting generalizing k with
  | nil => rw [← Except.ok.inj hloop]
  | cons t waiting ih =>
      obtain ⟨u, -, hloop⟩ := bind_eq_ok.mp hloop
      rw [ih hloop, h.signalBody]

theorem setLevel (h : Apart part) {now : IntStatus} (hset : k.setLevel now = .ok k') :
    part k' = part k := by
  unfold Kernel.setLevel at hset
  obtain ⟨u, -, hset⟩ := bind_eq_ok.mp hset
  split at hset
  · rw [← Except.ok.inj hset, h.push, h.changeLevel]
  · rw [← Except.ok.inj hset, h.changeLevel]

variable {cfg : Config φ γ ι} {env : Env ι}

theorem execCmd (h : Apart part) {x : Cmd φ} (hexec : k.execCmd cfg env x = .ok k')
    (hx : Plain (.cmd x)) : part k' = part k := by
  cases x with
  | call x =>
      rw [← Except.ok.inj hexec]
      exact h.enter k x
  | run f =>
      obtain ⟨⟨g, cmds⟩, -, hexec⟩ := bind_eq_ok.mp hexec
      rw [← Except.ok.inj hexec, h.push]
      exact h.update k k.sem k.owner k.cond k.readyList g
  | setLevel now => exact h.setLevel hexec
  | oneTick =>
      rw [← Except.ok.inj hexec]
      exact h.push k _
  | _ => exact hx.elim

/-- What the execution of such a frame leaves alone. -/
theorem exec (h : Apart part) {f : Frame φ} (hexec : k.exec cfg env f = .ok k') (hf : Plain f) :
    part k' = part k := by
  cases f with
  | cmd x => exact h.execCmd hexec hf
  | call x =>
      rw [← Except.ok.inj hexec]
      exact h.enter k x
  | pLoop s b => exact h.pLoop hexec
  | vBody s => exact h.vBody hexec
  | setOwner l | clearOwner l =>
      rw [← Except.ok.inj hexec]
      exact h.update k k.sem _ k.cond k.readyList k.client
  | assertOwner l =>
      obtain ⟨u, -, hexec⟩ := bind_eq_ok.mp hexec
      rw [← Except.ok.inj hexec]
  | enqueue x =>
      rw [← Except.ok.inj hexec, Kernel.enqueue, h.emit _ _ rfl, h.setCond]
  | signalBody x =>
      rw [← Except.ok.inj hexec]
      exact h.signalBody k x
  | broadcastBody x l => exact h.broadcastLoop hexec
  | startThread t f =>
      rw [← Except.ok.inj hexec, Kernel.startThread, h.readyToRun, h.modifyThread _ _ _ rfl rfl]
  | sleep =>
      obtain ⟨u, -, hexec⟩ := bind_eq_ok.mp hexec
      rw [← Except.ok.inj hexec, h.push, h.modifyThread _ _ _ rfl rfl]
  | setLevel now => exact h.setLevel hexec
  | ret x level =>
      rw [← Except.ok.inj hexec]
      exact h.emit _ _ rfl
  | _ => exact hf.elim

end Apart

end Nachos.Kernel
