import Nachos.Model.ThreadTest
import Nachos.Verification.Tasks.Monitor
import Nachos.Verification.Tasks.Stuck

/-! # Starting the tests

The main thread creates and starts the threads of a test and finishes. Each of the other
threads has one of the functions of the test, which is an endless loop. -/

namespace Nachos.ThreadTest

open Library

/-- What is left of starting the test. -/
def Setting (functions : List Routine) (a : Action Routine) : Prop :=
  a = .cmd (.run .threadTest) ∨ (∃ pri uninit, a = .cmd (.newThread pri uninit)) ∨
    ∃ u, ∃ f ∈ functions, a = .start u f

/-- What the main thread has to do. -/
inductive Preparing (functions : List Routine) : List (Action Routine) → Prop where
  | done : Preparing functions []
  | busy {p} (h : ∀ a ∈ p, Setting functions a) : Preparing functions (p ++ [.cmd .finish])

/-- A thread that is somewhere in `body`, the body of the loop of `f`. -/
def Looping (f : Routine) (body l : List (Action Routine)) : Prop :=
  ∃ p, p <:+ body ∧ l = p ++ [.cmd (.run f), .cmd .finish]

/-- An action after which there will be a thread with the function `f`. -/
def Wants (f : Routine) (a : Action Routine) : Prop :=
  a = .cmd (.run .threadTest) ∨ (∃ u, a = .start u f) ∨ a = .cmd (.run f)

/-- There will be a thread with the function `f`, or there is one. -/
def Present (f : Routine) (T : Tasks Routine Globals) : Prop := ∃ t, ∃ a ∈ T.todo t, Wants f a

variable {f : Routine} {l : List (Action Routine)} {a : Action Routine}

theorem Looping.eq_of_wants {f₀ : Routine} {body : List (Action Routine)} (h : Looping f₀ body l)
    (hbody : ∀ a ∈ body, ¬ Wants f a) (hf₀ : f₀ ≠ .threadTest) (ha : a ∈ l) (hwant : Wants f a) :
    f = f₀ := by
  obtain ⟨p, hp, rfl⟩ := h
  rcases List.mem_append.mp ha with ha | ha
  · exact absurd hwant (hbody a (hp.subset ha))
  · simp only [List.mem_cons, List.not_mem_nil, or_false] at ha
    rcases ha with rfl | rfl
    · rcases hwant with hwant | ⟨u, hwant⟩ | hwant
      · cases hwant
        exact absurd rfl hf₀
      · cases hwant
      · cases hwant
        rfl
    · simp [Wants] at hwant

theorem Looping.present {body : List (Action Routine)} {T : Tasks Routine Globals} {t : ℕ}
    (h : Looping f body (T.todo t)) : Present f T := by
  obtain ⟨p, -, hs⟩ := h
  exact ⟨t, .cmd (.run f), by simp [hs], .inr (.inr rfl)⟩

theorem setting_of_sets {functions : List Routine} {setup : List (Cmd Routine)}
    (hsetup : ∀ x ∈ setup, Sets functions x) :
    ∀ a ∈ setup.flatMap Cmd.actions, Setting functions a := by
  intro a ha
  obtain ⟨x, hx, ha⟩ := List.mem_flatMap.mp ha
  have hsets := hsetup x hx
  cases x with
  | newThread pri uninit =>
      rw [List.mem_singleton.mp ha]
      exact .inr (.inl ⟨pri, uninit, rfl⟩)
  | call y =>
      cases y with
      | fork u f =>
          rw [List.mem_singleton.mp ha]
          exact .inr (.inr ⟨u, f, hsets, rfl⟩)
      | _ => exact hsets.elim
  | _ => exact hsets.elim

theorem tasks_start (machine : Option Machine) :
    (start machine).core.tasks = .start .threadTest .new values := by
  rw [start, Kernel.core_start, Core.tasks_start]

/-- The main thread has everything to do, the others nothing. -/
theorem preparing_start (functions : List Routine) (t : ℕ) :
    Preparing functions ((Tasks.start .threadTest Globals.new values).todo t) := by
  rw [Tasks.start_todo]
  by_cases ht : t = 0
  · rw [ht, Function.update_self]
    exact .busy (p := [.cmd (.run .threadTest)]) (by simp [Setting])
  · rw [Function.update_of_ne ht]
    exact .done

theorem present_start (f : Routine) : Present f (.start .threadTest .new values) :=
  ⟨0, .cmd (.run .threadTest), by simp, .inl rfl⟩

theorem Present.handled {T : Tasks Routine Globals} (h : Present f T) (acts : List HandlerAct)
    (type : IntType) : Present f (acts.foldl Tasks.act (T.occur type)) :=
  Tasks.handled (I := Present f) (fun _ _ _ h => h) (fun _ _ _ h => h) h type

theorem initial_start (machine : Option Machine) : Kernel.Initial (start machine) := by
  refine ⟨.threadTest, .new, values, machine, fun n => ?_, rfl⟩
  unfold values
  split <;> decide

/-- Handlers leave the semaphores of the tests alone. -/
def Apart (env : Env Unit) : Prop := ∀ n < 4, .v n ∉ env.handler

instance : DecidablePred Apart := fun env =>
  inferInstanceAs (Decidable (∀ n < 4, HandlerAct.v n ∉ env.handler))

/-- What the main thread does concerns nobody but the threads that it starts. -/
structure Prepared (functions : List Routine) (setup : List (Cmd Routine)) (t : ℕ)
    (T T' : Tasks Routine Globals) : Prop where
  value : T'.value = T.value
  owner : T'.owner = T.owner
  waiting : T'.waiting = T.waiting
  client : T'.client = T.client
  todo : ∀ u, T'.todo u = T.todo u ∨ u = t ∧ Preparing functions (T'.todo u) ∨
    T.todo u = [] ∧ ∃ f ∈ functions, T'.todo u = [.cmd (.run f), .cmd .finish]
  total : ∀ w : Action Routine → ℤ, (∀ a, Setting functions a → w a = 0) →
    w (.cmd .finish) = 0 → (∀ f ∈ functions, w (.cmd (.run f)) = 0) → T'.total w = T.total w
  present : ∀ f, (∃ u, .call (.fork u f) ∈ setup) → (∃ a ∈ T.todo t, Wants f a) → Present f T'

theorem Preparing.weigh_eq_zero {functions : List Routine} (h : Preparing functions l)
    {w : Action Routine → ℤ} (hw : ∀ a, Setting functions a → w a = 0)
    (hfinish : w (.cmd .finish) = 0) : weigh w l = 0 := by
  cases h with
  | done => rfl
  | busy h => rw [weigh_append, Nachos.weigh_eq_zero fun a ha => hw a (h a ha), weigh_cons, hfinish,
      weigh_nil, add_zero, add_zero]

theorem Preparing.mem {functions : List Routine} (h : Preparing functions l) (ha : a ∈ l) :
    Setting functions a ∨ a = .cmd .finish := by
  cases h with
  | done => cases ha
  | busy h =>
      rcases List.mem_append.mp ha with ha | ha
      · exact .inl (h a ha)
      · exact .inr (List.mem_singleton.mp ha)

/-- The main thread does not wait for anything. -/
theorem Preparing.head_cases {functions : List Routine} {rest : List (Action Routine)}
    (h : Preparing functions (a :: rest)) :
    Setting functions a ∨ a = .cmd .finish := h.mem List.mem_cons_self

theorem Preparing.tail {functions : List Routine} {rest : List (Action Routine)}
    (h : Preparing functions (a :: rest)) : Preparing functions rest := by
  generalize hl : a :: rest = l at h
  cases h with
  | done => cases hl
  | @busy p hp =>
      cases p with
      | nil =>
          cases hl
          exact .done
      | cons b p =>
          cases hl
          exact .busy fun x hx => hp x (List.mem_cons_of_mem a hx)

/-- The main thread does not use locks, and does not wait. -/
theorem Preparing.brackets {functions : List Routine} (h : Preparing functions l) (m : ℕ)
    (inside : Bool) : brackets m inside l = !inside := by
  induction l with
  | nil => rfl
  | cons a rest ih =>
      rw [brackets_skip ?_, ih h.tail]
      rcases h.head_cases with (rfl | ⟨_, _, rfl⟩ | ⟨_, _, _, rfl⟩) | rfl <;> rfl

theorem Preparing.leaving {functions : List Routine} (h : Preparing functions l)
    (s : Supply Routine Globals) : s.leaving l = false := by
  cases l with
  | nil => rfl
  | cons a rest =>
      rcases h.head_cases with (rfl | ⟨_, _, rfl⟩ | ⟨_, _, _, rfl⟩) | rfl <;> rfl

section

variable {functions : List Routine} {setup : List (Cmd Routine)}
  {hsetup : ∀ x ∈ setup, Sets functions x} {T T' : Tasks Routine Globals} {t : ℕ}

theorem Prepared.goto (hfree : T.Free t) (h : Preparing functions (T.todo t))
    (hl : Preparing functions l)
    (hwants : ∀ f, (∃ u, .call (.fork u f) ∈ setup) → (∃ a ∈ T.todo t, Wants f a) →
      ∃ a ∈ l, Wants f a) :
    Prepared functions setup t T (T.goto t l) where
  value := rfl
  owner := rfl
  waiting := rfl
  client := rfl
  todo u := by
    by_cases hu : u = t
    · subst hu
      exact .inr (.inl ⟨rfl, by simpa using hl⟩)
    · exact .inl (by simp [hu])
  total w hw hfinish _ := by
    rw [Tasks.total_goto hfree.lt_created, hl.weigh_eq_zero hw hfinish,
      h.weigh_eq_zero hw hfinish, sub_zero, add_zero]
  present f hf hwant := ⟨t, by simpa using hwants f hf hwant⟩

theorem Preparing.step (h : Preparing functions (T.todo t)) (hproper : T.Proper) (hfree : T.Free t)
    (hstep : Tasks.Step (program setup hsetup) t T T') : Prepared functions setup t T T' := by
  have hout := hstep.outcome
  have hprep := h
  generalize hs : T.todo t = l at h hout
  cases h with
  | done => exact hout.elim
  | @busy p hp =>
      cases p with
      | nil =>
          cases hout
          refine .goto hfree hprep .done fun f _ hwant => ?_
          rw [hs] at hwant
          simp [Wants] at hwant
      | cons a p =>
          rw [List.cons_append] at hout hs
          have hrest : Preparing functions (p ++ [.cmd .finish]) :=
            .busy fun b hb => hp b (List.mem_cons_of_mem a hb)
          rcases hp a List.mem_cons_self with rfl | ⟨pri, uninit, rfl⟩ | ⟨u, f, hf, rfl⟩
          · obtain ⟨i, g, cmds, hcode, rfl⟩ := hout
            cases hcode
            have hall : ∀ b ∈ setup.flatMap Cmd.actions ++ p, Setting functions b := by
              intro b hb
              rcases List.mem_append.mp hb with hb | hb
              · exact setting_of_sets hsetup b hb
              · exact hp b (List.mem_cons_of_mem _ hb)
            have hnext : Prepared functions setup t T _ := .goto hfree hprep (.busy hall) (by
              rintro f ⟨u, hu⟩ -
              have hmem : .start u f ∈ setup.flatMap Cmd.actions :=
                List.mem_flatMap.mpr ⟨_, hu, List.mem_singleton_self _⟩
              exact ⟨.start u f, by simp [hmem], .inr (.inl ⟨u, rfl⟩)⟩)
            rw [List.append_assoc] at hnext
            exact hnext
          · cases hout
            have hnext : Prepared functions setup t T _ := .goto hfree hprep hrest (by
              intro f _ hwant
              simpa [hs, Wants] using hwant)
            refine ⟨hnext.value, hnext.owner, hnext.waiting, hnext.client, hnext.todo,
              fun w hw hfinish hfun => ?_, hnext.present⟩
            rw [← hnext.total w hw hfinish hfun]
            refine Tasks.total_create ?_
            simpa [hfree.lt_created.ne'] using hproper.unborn T.created le_rfl
          · obtain ⟨hlt, hne, hnil, rfl⟩ := hout
            have hnil' : (T.goto t (p ++ [.cmd .finish])).todo u = [] := by simpa [hne] using hnil
            refine ⟨rfl, rfl, rfl, rfl, fun v => ?_, fun w hw hfinish hfun => ?_, fun g _ hwant => ?_⟩
            · by_cases hv : v = u
              · subst hv
                exact .inr (.inr ⟨hnil, f, hf, by simp⟩)
              · by_cases hvt : v = t
                · subst hvt
                  exact .inr (.inl ⟨rfl, by simpa [hv] using hrest⟩)
                · exact .inl (by simp [hv, hvt])
            · rw [Tasks.total_start (by simpa using hlt) hnil', Tasks.total_goto hfree.lt_created,
                hrest.weigh_eq_zero hw hfinish, hprep.weigh_eq_zero hw hfinish, weigh_cons,
                weigh_cons, hfun f hf, hfinish, weigh_nil]
              ring
            · by_cases hg : g = f
              · exact ⟨u, .cmd (.run f), by simp, .inr (.inr (by rw [hg]))⟩
              · refine ⟨t, ?_⟩
                rw [hs] at hwant
                simpa [Wants, hne.symm, Ne.symm hg, hg] using hwant

theorem Preparing.next (h : Preparing functions (T.todo t)) (hne : T.todo t ≠ [])
    (hprep : Prepared functions setup t T T') : Preparing functions (T'.todo t) := by
  rcases hprep.todo t with hsame | ⟨-, hnext⟩ | ⟨hnil, -⟩
  · rwa [hsame]
  · exact hnext
  · exact absurd hnil hne

theorem Preparing.exclusive {m : ℕ} (h : Preparing functions (T.todo t)) (hexcl : T.Exclusive m)
    (hproper : T.Proper) (hfree : T.Free t) (hstep : Tasks.Step (program setup hsetup) t T T') :
    T'.Exclusive m := by
  refine hexcl.step hstep fun x rest hs inside hb => ?_
  have hnext := h.next (by simp [hs]) (h.step hproper hfree hstep)
  rw [hs] at h
  rwa [hnext.brackets, ← h.tail.brackets m inside]

theorem Preparing.guarded {s : Supply Routine Globals} (htest : s.test ≠ .threadTest)
    (h : Preparing functions (T.todo t)) (hproper : T.Proper) (hfree : T.Free t) :
    s.Guarded (program setup hsetup) T t where
  back rest hs := by
    rw [hs] at h
    rcases h.head_cases with (ha | ⟨_, _, ha⟩ | ⟨_, _, _, ha⟩) | ha <;> cases ha
  leave a rest hs _ hleaving := by
    rw [hs] at h
    rw [h.tail.leaving] at hleaving
    cases hleaving
  run f i g cmds rest hs hcode := by
    have hstep : Tasks.Step (program setup hsetup) t T _ := .run hs hcode
    have hnext := h.next (by simp [hs]) (h.step hproper hfree hstep)
    simp only [Tasks.setClient_todo, Tasks.goto_todo, Function.update_self] at hnext
    have hf : f = .threadTest := by
      rw [hs] at h
      rcases h.head_cases with (ha | ⟨_, _, ha⟩ | ⟨_, _, _, ha⟩) | ha <;> cases ha
      rfl
    subst hf
    cases hcode
    refine ⟨.inl rfl, .inr ?_, fun hleaving => ?_⟩
    · rw [hs, Supply.claim, if_neg htest.symm]
      exact Int.add_le_add_left (Supply.claim_nonneg _) _
    · rw [hnext.leaving] at hleaving
      cases hleaving

/-- A function that a thread is to have does not get lost. -/
theorem Present.step (hpresent : Present f T) (hstep : Tasks.Step (program setup hsetup) t T T')
    (hown : (∃ a ∈ T.todo t, Wants f a) → Present f T') : Present f T' := by
  obtain ⟨s, a, ha, hwant⟩ := hpresent
  by_cases hs : s = t
  · exact hown ⟨a, hs ▸ ha, hwant⟩
  · refine ⟨s, a, ?_, hwant⟩
    rw [hstep.todo_of_ne hs (List.ne_nil_of_mem ha)]
    exact ha

end

/-- Two threads with the given functions. -/
def twoThreads (f f' : Routine) : List (Cmd Routine) :=
  [.newThread 6 0, .newThread 6 0, .call (.fork 1 f), .call (.fork 2 f')]

theorem sets_twoThreads (f f' : Routine) : ∀ x ∈ twoThreads f f', Sets [f, f'] x := by
  simp [twoThreads, Sets]

theorem mem_twoThreads (f f' : Routine) : (∃ u, .call (.fork u f) ∈ twoThreads f f') ∧
    ∃ u, .call (.fork u f') ∈ twoThreads f f' :=
  ⟨⟨1, by simp [twoThreads]⟩, ⟨2, by simp [twoThreads]⟩⟩

/-- A run with these two threads, in which no handler does anything. -/
def runTwo (f f' : Routine) (n : ℕ) : Option (Kernel Routine Globals) :=
  Kernel.executeWhere (config ⟨false, false, false⟩ false (twoThreads f f') (sets_twoThreads f f'))
    (fun _ env => Apart env) (Kernel.calm n) (start none)

theorem reachable_of_runTwo {f' : Routine} {n : ℕ} {k : Kernel Routine Globals}
    (h : runTwo f f' n = some k) :
    (Kernel.systemWhere (config ⟨false, false, false⟩ false (twoThreads f f')
      (sets_twoThreads f f')) (· = start none) fun _ env => Apart env).Reachable k :=
  Kernel.reachable_of_executeWhere (.of_init rfl) h

end Nachos.ThreadTest
