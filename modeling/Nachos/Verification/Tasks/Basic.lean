import Nachos.Model.Kernel

/-! # What threads have to do

The kernel seen from outside: a thread has a list of actions ahead of it, each of which is
atomic. Semaphores are numbers, a lock is its owner, and a condition is the list of the threads
that wait. How threads are switched and put to sleep is not seen any more. -/

namespace Nachos

variable {φ γ ι : Type}

inductive Action (φ : Type) where
  | cmd (x : Cmd φ)
  | down (n : ℕ)
  | up (n : ℕ)
  | take (l : ℕ)
  | check (l : ℕ)
  | give (l : ℕ)
  | join (c : ℕ)
  /-- the thread returns from `Wait` -/
  | back (c : ℕ)
  | notify (c : ℕ)
  | notifyAll (c : ℕ)
  | start (t : ℕ) (f : φ)

def Call.actions : Call φ → List (Action φ)
  | .p (.user n) => [.down n]
  | .v (.user n) => [.up n]
  | .p (.lock _) | .v (.lock _) | .yield => []
  | .acquire l => [.take l]
  | .release l => [.check l, .give l]
  | .wait c l => [.check l, .check l, .give l, .join c, .take l, .back c]
  | .signal c l => [.check l, .notify c]
  | .broadcast c l => [.check l, .notifyAll c]
  | .fork t f => [.start t f]

def Cmd.actions : Cmd φ → List (Action φ)
  | .call x => x.actions
  | .setLevel _ | .setStatus _ | .oneTick => []
  | x => [.cmd x]

def Frame.actions : Frame φ → List (Action φ)
  | .cmd x => x.actions
  | .call x => x.actions
  | .pLoop (.user n) _ => [.down n]
  | .vBody (.user n) => [.up n]
  | .setOwner l => [.take l]
  | .assertOwner l => [.check l]
  | .clearOwner l => [.give l]
  | .enqueue c => [.join c]
  | .signalBody c => [.notify c]
  | .broadcastBody c _ => [.notifyAll c]
  | .startThread t f => [.start t f]
  | .ret (.wait c _) _ => [.back c]
  | _ => []

def todo (stack : List (Frame φ)) : List (Action φ) := stack.flatMap Frame.actions

structure Tasks (φ γ : Type) where
  created : ℕ
  todo : ℕ → List (Action φ)
  value : ℕ → ℤ
  owner : ℕ → Option ℕ
  waiting : ℕ → List ℕ
  /-- how many interrupts of a type have been scheduled and have not occurred -/
  pending : IntType → ℤ
  client : γ

namespace Tasks

@[simps -fullyApplied]
def goto (T : Tasks φ γ) (t : ℕ) (l : List (Action φ)) : Tasks φ γ :=
  { T with todo := Function.update T.todo t l }

@[simps -fullyApplied]
def setValue (T : Tasks φ γ) (n : ℕ) (v : ℤ) : Tasks φ γ :=
  { T with value := Function.update T.value n v }

@[simps -fullyApplied]
def setOwner (T : Tasks φ γ) (l : ℕ) (t : Option ℕ) : Tasks φ γ :=
  { T with owner := Function.update T.owner l t }

@[simps -fullyApplied]
def setWaiting (T : Tasks φ γ) (c : ℕ) (q : List ℕ) : Tasks φ γ :=
  { T with waiting := Function.update T.waiting c q }

@[simps -fullyApplied]
def setClient (T : Tasks φ γ) (g : γ) : Tasks φ γ := { T with client := g }

@[simps -fullyApplied]
def setPending (T : Tasks φ γ) (type : IntType) (n : ℤ) : Tasks φ γ :=
  { T with pending := Function.update T.pending type n }

@[simps -fullyApplied]
def create (T : Tasks φ γ) : Tasks φ γ := { T with created := T.created + 1 }

/-- `V`, called by a thread or by a handler. -/
def up (T : Tasks φ γ) (n : ℕ) : Tasks φ γ := T.setValue n (T.value n + 1)

/-- Commands that are seen, but that do nothing here. -/
def Skipped : Cmd φ → Prop
  | .load _ _ _ | .restoreState _ => True
  | _ => False

/-- The thread `t` does the first thing that it has to do. -/
inductive Step (program : Program φ γ ι) (t : ℕ) (T : Tasks φ γ) : Tasks φ γ → Prop where
  | run {f i g cmds rest} (h : T.todo t = .cmd (.run f) :: rest)
      (hp : program.step f i T.client t = .ok (g, cmds)) :
      Step program t T ((T.goto t (cmds.flatMap Cmd.actions ++ rest)).setClient g)
  | finish {rest} (h : T.todo t = .cmd .finish :: rest) : Step program t T (T.goto t [])
  | newThread {pri uninit rest} (h : T.todo t = .cmd (.newThread pri uninit) :: rest) :
      Step program t T (T.goto t rest).create
  | schedule {fromNow type rest} (h : T.todo t = .cmd (.schedule fromNow type) :: rest) :
      Step program t T ((T.goto t rest).setPending type (T.pending type + 1))
  | syscall {cmds : List (Cmd φ)} {rest} (h : T.todo t = .cmd .syscall :: rest)
      (hc : ∀ x ∈ cmds, x = .finish) :
      Step program t T (T.goto t (cmds.flatMap Cmd.actions ++ rest))
  | skip {x rest} (h : T.todo t = .cmd x :: rest) (hx : Skipped x) : Step program t T (T.goto t rest)
  | down {n rest} (h : T.todo t = .down n :: rest) (hv : T.value n ≠ 0) :
      Step program t T ((T.goto t rest).setValue n (T.value n - 1))
  | up {n rest} (h : T.todo t = .up n :: rest) : Step program t T ((T.goto t rest).up n)
  | take {l rest} (h : T.todo t = .take l :: rest) (ho : T.owner l = none) :
      Step program t T ((T.goto t rest).setOwner l (some t))
  | check {l rest} (h : T.todo t = .check l :: rest) (ho : T.owner l = some t) :
      Step program t T (T.goto t rest)
  | give {l rest} (h : T.todo t = .give l :: rest) (ho : T.owner l = some t) :
      Step program t T ((T.goto t rest).setOwner l none)
  | join {c rest} (h : T.todo t = .join c :: rest) :
      Step program t T ((T.goto t rest).setWaiting c (T.waiting c ++ [t]))
  | back {c rest} (h : T.todo t = .back c :: rest) : Step program t T (T.goto t rest)
  | notifyNone {c rest} (h : T.todo t = .notify c :: rest) (hq : T.waiting c = []) :
      Step program t T (T.goto t rest)
  | notify {c rest u q} (h : T.todo t = .notify c :: rest) (hq : T.waiting c = u :: q) :
      Step program t T ((T.goto t rest).setWaiting c q)
  | notifyAllNone {c rest} (h : T.todo t = .notifyAll c :: rest) (hq : T.waiting c = []) :
      Step program t T (T.goto t rest)
  | notifyAll {c rest u q} (h : T.todo t = .notifyAll c :: rest) (hq : T.waiting c = u :: q) :
      Step program t T (T.setWaiting c q)
  | start {u f rest} (h : T.todo t = .start u f :: rest) (hu : u < T.created)
      (hne : u ≠ t) (hnil : T.todo u = []) :
      Step program t T ((T.goto t rest).goto u [.cmd (.run f), .cmd .finish])

/-- What a step can be, by what the thread has to do. -/
def Outcome (program : Program φ γ ι) (t : ℕ) (T T' : Tasks φ γ) : List (Action φ) → Prop
  | .cmd (.run f) :: rest => ∃ i g cmds, program.step f i T.client t = .ok (g, cmds) ∧
      T' = (T.goto t (cmds.flatMap Cmd.actions ++ rest)).setClient g
  | .cmd .finish :: _ => T' = T.goto t []
  | .cmd (.newThread _ _) :: rest => T' = (T.goto t rest).create
  | .cmd (.schedule _ type) :: rest => T' = (T.goto t rest).setPending type (T.pending type + 1)
  | .cmd .syscall :: rest => ∃ cmds : List (Cmd φ), (∀ x ∈ cmds, x = .finish) ∧
      T' = T.goto t (cmds.flatMap Cmd.actions ++ rest)
  | .cmd x :: rest => Skipped x ∧ T' = T.goto t rest
  | .down n :: rest => T.value n ≠ 0 ∧ T' = (T.goto t rest).setValue n (T.value n - 1)
  | .up n :: rest => T' = (T.goto t rest).up n
  | .take l :: rest => T.owner l = none ∧ T' = (T.goto t rest).setOwner l (some t)
  | .check l :: rest => T.owner l = some t ∧ T' = T.goto t rest
  | .give l :: rest => T.owner l = some t ∧ T' = (T.goto t rest).setOwner l none
  | .join c :: rest => T' = (T.goto t rest).setWaiting c (T.waiting c ++ [t])
  | .back _ :: rest => T' = T.goto t rest
  | .notify c :: rest => T' = (T.goto t rest).setWaiting c (T.waiting c).tail
  | .notifyAll c :: rest => (T.waiting c = [] ∧ T' = T.goto t rest) ∨
      ∃ u q, T.waiting c = u :: q ∧ T' = T.setWaiting c q
  | .start u f :: rest => u < T.created ∧ u ≠ t ∧ T.todo u = [] ∧
      T' = (T.goto t rest).goto u [.cmd (.run f), .cmd .finish]
  | [] => False

variable {T : Tasks φ γ}

theorem Step.outcome {program : Program φ γ ι} {t : ℕ} {T' : Tasks φ γ} (h : Step program t T T') :
    Outcome program t T T' (T.todo t) := by
  cases h with
  | run h hp => rw [h]; exact ⟨_, _, _, hp, rfl⟩
  | finish h => rw [h]; rfl
  | newThread h => rw [h]; rfl
  | schedule h => rw [h]; rfl
  | syscall h hc => rw [h]; exact ⟨_, hc, rfl⟩
  | @skip x rest h hx =>
      rw [h]
      cases x with
      | load | restoreState => exact ⟨hx, rfl⟩
      | _ => exact hx.elim
  | down h hv => rw [h]; exact ⟨hv, rfl⟩
  | up h => rw [h]; rfl
  | take h ho => rw [h]; exact ⟨ho, rfl⟩
  | check h ho => rw [h]; exact ⟨ho, rfl⟩
  | give h ho => rw [h]; exact ⟨ho, rfl⟩
  | join h => rw [h]; rfl
  | back h => rw [h]; rfl
  | @notifyNone c rest h hq =>
      rw [h]
      have hsame : (T.goto t rest).setWaiting c (T.waiting c).tail = T.goto t rest := by
        rw [hq, List.tail_nil, ← hq]
        exact congrArg (fun w => { T.goto t rest with waiting := w }) (Function.update_eq_self ..)
      exact hsame.symm
  | notify h hq =>
      rw [h]
      change _ = _
      rw [hq, List.tail_cons]
  | notifyAllNone h hq => rw [h]; exact .inl ⟨hq, rfl⟩
  | notifyAll h hq => rw [h]; exact .inr ⟨_, _, hq, rfl⟩
  | start h hu hne hnil => rw [h]; exact ⟨hu, hne, hnil, rfl⟩

/-- Actions that are done once, by their thread alone. -/
def Once : Action φ → Prop
  | .cmd _ | .start _ _ | .notifyAll _ => False
  | _ => True

theorem Step.pop {program : Program φ γ ι} {t : ℕ} {T' : Tasks φ γ} (h : Step program t T T')
    {a : Action φ} {rest : List (Action φ)} (hs : T.todo t = a :: rest) (ha : Once a) :
    T'.client = T.client ∧ T'.todo t = rest := by
  have hout := h.outcome
  rw [hs] at hout
  cases a with
  | cmd | start | notifyAll => exact ha.elim
  | down | take | check | give =>
      obtain ⟨-, rfl⟩ := hout
      exact ⟨rfl, by simp⟩
  | up | join | back | notify =>
      obtain rfl := hout
      exact ⟨rfl, by simp [Tasks.up]⟩

/-- Threads with something to do are not changed by others. -/
theorem Step.todo_of_ne {program : Program φ γ ι} {t s : ℕ} {T' : Tasks φ γ}
    (h : Step program t T T') (hs : s ≠ t) (hne : T.todo s ≠ []) : T'.todo s = T.todo s := by
  cases h with
  | @start u f rest h hu hut hnil =>
      have hsu : s ≠ u := by
        rintro rfl
        exact hne hnil
      simp [hs, hsu]
  | notifyAll => rfl
  | _ => simp [hs, Tasks.up]

/-- What holds in every state that the kernel can be in. -/
structure Proper (T : Tasks φ γ) : Prop where
  unborn : ∀ t, T.created ≤ t → T.todo t = []
  nonneg : ∀ n, 0 ≤ T.value n
  nodup : ∀ c, (T.waiting c).Nodup
  parked : ∀ c, ∀ t ∈ T.waiting c, ∃ l rest, T.todo t = .take l :: .back c :: rest

/-- A thread may go on: it does not wait, and no other thread is about to join a queue. The
latter is so as `Wait` is atomic up to then. -/
structure Free (T : Tasks φ γ) (t : ℕ) : Prop where
  lt_created : t < T.created
  awake : ∀ c, t ∉ T.waiting c
  alone : ∀ u c rest, T.todo u = .join c :: rest → u = t

/-- No thread can go on. -/
def Stuck (T : Tasks φ γ) : Prop :=
  ∀ t, T.todo t = [] ∨ (∃ n rest, T.todo t = .down n :: rest ∧ T.value n = 0) ∨
    (∃ l rest, T.todo t = .take l :: rest ∧ T.owner l ≠ none) ∨ ∃ c, t ∈ T.waiting c

/-- A step of a thread that may go on. -/
def Move (program : Program φ γ ι) (T T' : Tasks φ γ) : Prop :=
  T.Proper ∧ T'.Proper ∧ ∃ t, T.Free t ∧ Step program t T T'

/-- An interrupt occurs. -/
def occur (T : Tasks φ γ) (type : IntType) : Tasks φ γ :=
  T.setPending type (T.pending type - 1)

/-- What a handler does. -/
def act (T : Tasks φ γ) : HandlerAct → Tasks φ γ
  | .schedule _ type => T.setPending type (T.pending type + 1)
  | .v n => T.up n
  | .yieldOnReturn => T

/-- What holds whatever is pending, and however often the given semaphores are incremented. -/
theorem handled {I : Tasks φ γ → Prop} {acts : List HandlerAct}
    (hpending : ∀ T type v, I T → I (T.setPending type v))
    (hup : ∀ T n, .v n ∈ acts → I T → I (T.up n)) (hT : I T) (type : IntType) :
    I (acts.foldl act (T.occur type)) := by
  have hoccur : I (T.occur type) := hpending _ _ _ hT
  generalize T.occur type = T at hoccur
  induction acts generalizing T with
  | nil => exact hoccur
  | cons a acts ih =>
      refine ih (fun T n hn => hup T n (List.mem_cons_of_mem a hn)) _ ?_
      cases a with
      | schedule => exact hpending _ _ _ hoccur
      | v n => exact hup _ n List.mem_cons_self hoccur
      | yieldOnReturn => exact hoccur

@[simps]
def start (main : φ) (client : γ) (values : ℕ → ℤ) : Tasks φ γ where
  created := 1
  todo := Function.update (fun _ => []) 0 [.cmd (.run main), .cmd .finish]
  value := values
  owner _ := none
  waiting _ := []
  pending _ := 0
  client := client

end Tasks

end Nachos
