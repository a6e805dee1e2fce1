import Nachos.Model.Kernel

/-! # Executions

The kernel can be run. States that an execution reaches are reachable, and what is observed of
them is found by evaluation. -/

namespace Nachos

open Library

variable {φ γ ι : Type}

instance (x : Cmd φ) : Decidable x.Public := by
  unfold Cmd.Public
  split <;> infer_instance

/-- Threads whose code is a list of commands. -/
def scripted (scripts : List (List (Cmd ℕ))) (hpublic : ∀ cmds ∈ scripts, ∀ x ∈ cmds, x.Public) :
    Program ℕ Unit Unit where
  step f _ g _ := .ok (g, scripts.getD f [])
  isPublic f _ _ _ _ cmds h x hx := by
    obtain ⟨-, rfl⟩ := Prod.mk.inj (Except.ok.inj h)
    by_cases hf : f < scripts.length
    · rw [List.getD_eq_getElem _ _ hf] at hx
      exact hpublic _ (List.getElem_mem hf) x hx
    · rw [List.getD_eq_default _ _ (not_lt.mp hf)] at hx
      cases hx

/-- A kernel without user programs whose threads have such code. -/
def Config.scripted (schedPriority : Bool) (scripts : List (List (Cmd ℕ)))
    (hpublic : ∀ cmds ∈ scripts, ∀ x ∈ cmds, x.Public) : Config ℕ Unit Unit where
  build := ⟨false, false, false⟩
  schedPriority := schedPriority
  program := Nachos.scripted scripts hpublic

namespace Kernel

variable {cfg : Config φ γ ι} {k k' : Kernel φ γ} {envs : List (Env ι)} {init : Kernel φ γ → Prop}
  {P : Kernel φ γ → Env ι → Prop}

def legal? (k : Kernel φ γ) : Bool :=
  match k.current.stack with
  | .startThread t _ :: _ => decide (t < k.created ∧ (k.thread t).status = .justCreated)
  | _ => true

theorem legal_of_legal? (h : k.legal? = true) : k.Legal := by
  intro t f rest hs
  unfold legal? at h
  rw [hs] at h
  exact of_decide_eq_true h

/-- A start without user programs. -/
theorem initial_start (main : φ) (client : γ) :
    Initial (start main client (fun _ => 0) none) :=
  ⟨main, client, fun _ => 0, none, fun _ => le_rfl, rfl⟩

/-- Steps in which no handler does anything. -/
def calm (n : ℕ) : List (Env Unit) := List.replicate n ⟨(), []⟩

/-- One step for each environment. -/
def steps (cfg : Config φ γ ι) (envs : List (Env ι)) (k : Kernel φ γ) : Exec (Kernel φ γ) :=
  envs.foldlM (fun k env => k.step cfg env) k

theorem steps_cons {env : Env ι} {k₁ : Kernel φ γ} (h : k.step cfg env = .ok k₁)
    (hrest : steps cfg envs k₁ = .ok k') : steps cfg (env :: envs) k = .ok k' := by
  unfold steps
  rw [List.foldlM_cons, h]
  exact hrest

/-- The same as long as the machine does not halt and no thread is forked twice. -/
def execute (cfg : Config φ γ ι) : List (Env ι) → Kernel φ γ → Option (Kernel φ γ)
  | [], k => some k
  | env :: envs, k =>
      if k.halted = false ∧ k.legal? = true then
        match k.step cfg env with
        | .ok k' => execute cfg envs k'
        | .error _ => none
      else none

theorem execute_cons {env : Env ι} (h : execute cfg (env :: envs) k = some k') :
    ∃ k₁, (k.halted = false ∧ k.Legal ∧ k.step cfg env = .ok k₁) ∧
      execute cfg envs k₁ = some k' := by
  unfold execute at h
  split at h
  next hgo =>
    cases hstep : k.step cfg env with
    | error e =>
        rw [hstep] at h
        cases h
    | ok k₁ =>
        rw [hstep] at h
        exact ⟨k₁, ⟨hgo.1, legal_of_legal? hgo.2, rfl⟩, h⟩
  next => cases h

theorem reachable_of_execute (h : (system cfg init).Reachable k)
    (he : execute cfg envs k = some k') :
    (system cfg init).Reachable k' := by
  induction envs generalizing k with
  | nil => exact Option.some.inj he ▸ h
  | cons env envs ih =>
      obtain ⟨k₁, hstep, hrest⟩ := execute_cons he
      exact ih (h.step (i := env) (r := ()) hstep) hrest

theorem stack_setStack (k : Kernel φ γ) (fs : List (Frame φ)) :
    (k.setStack fs).current.stack = fs := by
  simp [setStack, current, modifyThread]

theorem stack_push (k : Kernel φ γ) (fs : List (Frame φ)) :
    (k.push fs).current.stack = fs ++ k.current.stack := stack_setStack k _

/-- What is observed at the end of an execution is observed in a reachable state. -/
theorem exists_reachable (cfg : Config φ γ ι) (envs : List (Env ι)) (k : Kernel φ γ) {α : Type}
    (f : Kernel φ γ → α) (a : α) (he : (execute cfg envs k).map f = some a) :
    ∃ k', f k' = a ∧ ∀ init : Kernel φ γ → Prop, init k → (system cfg init).Reachable k' := by
  obtain ⟨k', hk', ha⟩ := Option.map_eq_some_iff.mp he
  exact ⟨k', ha, fun init hinit => reachable_of_execute (.of_init hinit) hk'⟩

/-! ## Runs with a condition -/

/-- The runs in which every step satisfies `P`. -/
def systemWhere (cfg : Config φ γ ι) (init : Kernel φ γ → Prop)
    (P : Kernel φ γ → Env ι → Prop) : System (Kernel φ γ) (Env ι) Unit where
  init := init
  step k env r k' := P k env ∧ (system cfg init).step k env r k'

theorem reachable_of_where (h : (systemWhere cfg init P).Reachable k) :
    (system cfg init).Reachable k :=
  h.mono (fun _ hinit => hinit) fun _ _ _ _ hstep => hstep.2

def executeWhere (cfg : Config φ γ ι) (P : Kernel φ γ → Env ι → Prop)
    [∀ k env, Decidable (P k env)] : List (Env ι) → Kernel φ γ → Option (Kernel φ γ)
  | [], k => some k
  | env :: envs, k => if P k env then (execute cfg [env] k).bind (executeWhere cfg P envs) else none

theorem reachable_of_executeWhere [∀ k env, Decidable (P k env)]
    (h : (systemWhere cfg init P).Reachable k) (he : executeWhere cfg P envs k = some k') :
    (systemWhere cfg init P).Reachable k' := by
  induction envs generalizing k with
  | nil => exact Option.some.inj he ▸ h
  | cons env envs ih =>
      unfold executeWhere at he
      split at he
      next hP =>
        obtain ⟨k₁, hone, hrest⟩ := Option.bind_eq_some_iff.mp he
        obtain ⟨k₂, hstep, hend⟩ := execute_cons hone
        obtain rfl : k₂ = k₁ := Option.some.inj hend
        exact ih (h.step (i := env) (r := ()) ⟨hP, hstep⟩) hrest
      next => cases he

theorem exists_reachable_where (cfg : Config φ γ ι) (P : Kernel φ γ → Env ι → Prop)
    [∀ k env, Decidable (P k env)] (envs : List (Env ι)) (k : Kernel φ γ) {α : Type}
    (f : Kernel φ γ → α) (a : α) (he : (executeWhere cfg P envs k).map f = some a) :
    ∃ k', f k' = a ∧
      ∀ init : Kernel φ γ → Prop, init k → (systemWhere cfg init P).Reachable k' := by
  obtain ⟨k', hk', ha⟩ := Option.map_eq_some_iff.mp he
  exact ⟨k', ha, fun init hinit => reachable_of_executeWhere (.of_init hinit) hk'⟩

/-- What a step may depend on follows from the state. -/
def executeBy {α : Type} (cfg : Config φ γ ι) (follow : α → Kernel φ γ → Env ι) :
    List α → Kernel φ γ → Option (Kernel φ γ)
  | [], k => some k
  | a :: as, k => (execute cfg [follow a k] k).bind (executeBy cfg follow as)

theorem exists_reachable_by {α β : Type} (cfg : Config φ γ ι) {follow : α → Kernel φ γ → Env ι}
    (hP : ∀ a k, P k (follow a k)) (as : List α) (k : Kernel φ γ) (f : Kernel φ γ → β) (b : β)
    (he : (executeBy cfg follow as k).map f = some b) :
    ∃ k', f k' = b ∧
      ∀ init : Kernel φ γ → Prop, init k → (systemWhere cfg init P).Reachable k' := by
  obtain ⟨k', hk', hb⟩ := Option.map_eq_some_iff.mp he
  refine ⟨k', hb, fun init hinit => ?_⟩
  have hreach : (systemWhere cfg init P).Reachable k := .of_init hinit
  clear hinit he
  induction as generalizing k with
  | nil => exact Option.some.inj hk' ▸ hreach
  | cons a as ih =>
      obtain ⟨k₁, hone, hrest⟩ := Option.bind_eq_some_iff.mp hk'
      obtain ⟨k₂, hstep, hend⟩ := execute_cons hone
      obtain rfl : k₂ = k₁ := Option.some.inj hend
      exact ih k₂ hrest (hreach.step (i := follow a k) (r := ()) ⟨hP a k, hstep⟩)

end Kernel

end Nachos
