import Nachos.Model.Barrier
import Nachos.Verification.Kernel.Execution
import Nachos.Verification.Tasks.Monitor
import Nachos.Verification.Tasks.Stuck
import Nachos.Verification.Tasks.Totals

/-! # The barrier

No thread continues before the last one has arrived, and then all of them do: no wakeup is lost. -/

namespace Nachos.Barrier

open Library

/-! ## Where threads are -/

def arriving : List (Action Routine) :=
  [.take barrLock, .cmd (.run .arrive), .check barrLock, .give barrLock, .cmd (.run .goOn),
    .cmd .finish]

def opening : List (Action Routine) :=
  [.check barrLock, .notifyAll barrCond, .check barrLock, .give barrLock, .cmd (.run .goOn),
    .cmd .finish]

def waiting : List (Action Routine) :=
  [.check barrLock, .check barrLock, .give barrLock, .join barrCond, .take barrLock,
    .back barrCond, .check barrLock, .give barrLock, .cmd (.run .goOn), .cmd .finish]

/-- What is left of `barrierFun`. -/
def places : List (List (Action Routine)) :=
  [.cmd (.run .barrierFun), .cmd .finish] :: arriving :: arriving.tail :: opening ::
    opening.tail :: waiting.tails

/-- What the main thread has to do before it finishes. -/
def Setting (a : Action Routine) : Prop :=
  a = .cmd (.run .barrierThreadTest) ∨ (∃ pri uninit, a = .cmd (.newThread pri uninit)) ∨
    ∃ u, a = .start u .barrierFun

inductive Preparing : List (Action Routine) → Prop where
  | done : Preparing []
  | busy {p} (h : ∀ a ∈ p, Setting a) : Preparing (p ++ [.cmd .finish])

def Spot (l : List (Action Routine)) : Prop := Preparing l ∨ l ∈ places

/-- How far a thread is with the barrier. -/
inductive Stage where
  | outside
  /-- it is about to wait -/
  | settling
  | parked
  /-- it wakes up the others -/
  | opening
  | through
  deriving DecidableEq

def stage : List (Action Routine) → Stage
  | .check _ :: .check _ :: _ | .check _ :: .give _ :: .join _ :: _ | .give _ :: .join _ :: _
  | .join _ :: _ => .settling
  | .take _ :: .back _ :: _ => .parked
  | .check _ :: .notifyAll _ :: _ | .notifyAll _ :: _ => .opening
  | .back _ :: _ | .check _ :: _ | .give _ :: _ | .cmd (.run .goOn) :: _ => .through
  | _ => .outside

/-- How often the piece of code `r` is still to be executed. -/
def left (r : Routine) : Action Routine → ℤ
  | .cmd (.run .barrierThreadTest) => barrierThreadNum
  | .cmd (.run .barrierFun) | .start _ _ => 1
  | .cmd (.run f) => if f = r then 1 else 0
  | _ => 0

theorem left_nonneg (r : Routine) (a : Action Routine) : 0 ≤ left r a := by
  unfold left
  split
  · decide
  · decide
  · decide
  · split <;> decide
  · decide

theorem weigh_left_nonneg (r : Routine) (l : List (Action Routine)) : 0 ≤ weigh (left r) l := by
  induction l with
  | nil => exact le_rfl
  | cons a l ih =>
      rw [weigh_cons]
      exact add_nonneg (left_nonneg r a) ih

/-! ## The main thread -/

variable {rest : List (Action Routine)}

theorem Preparing.head_cases {a : Action Routine} (h : Preparing (a :: rest)) :
    (Setting a ∧ ∃ p, rest = p ++ [.cmd .finish] ∧ ∀ b ∈ p, Setting b) ∨
      a = .cmd .finish ∧ rest = [] := by
  generalize hl : a :: rest = l at h
  cases h with
  | done => cases hl
  | @busy p hp =>
      cases p with
      | nil =>
          cases hl
          exact .inr ⟨rfl, rfl⟩
      | cons b p =>
          cases hl
          exact .inl ⟨hp a List.mem_cons_self, p, rfl, fun b hb => hp b (List.mem_cons_of_mem a hb)⟩

variable {l : List (Action Routine)}

theorem Preparing.stage_eq (h : Preparing l) : stage l = .outside := by
  cases l with
  | nil => rfl
  | cons a rest =>
      rcases h.head_cases with ⟨rfl | ⟨_, _, rfl⟩ | ⟨_, rfl⟩, -⟩ | ⟨rfl, -⟩ <;> rfl

theorem Preparing.brackets (h : Preparing l) (m : ℕ) (inside : Bool) :
    brackets m inside l = !inside := by
  induction l with
  | nil => cases inside <;> rfl
  | cons a rest ih =>
      rcases h.head_cases with ⟨ha, p, rfl, hp⟩ | ⟨rfl, rfl⟩
      · rw [brackets_skip, ih (.busy hp)]
        rcases ha with rfl | ⟨_, _, rfl⟩ | ⟨_, rfl⟩ <;> rfl
      · cases inside <;> rfl

/-- What the main thread starts the test with. -/
abbrev setup : List (Cmd Routine) := (List.range barrierThreadNum).flatMap forkBarrier

theorem setting_of_mem : ∀ a ∈ setup.flatMap Cmd.actions, Setting a := by
  intro a ha
  obtain ⟨x, hx, ha⟩ := List.mem_flatMap.mp ha
  obtain ⟨i, -, hx⟩ := List.mem_flatMap.mp hx
  simp only [forkBarrier, List.mem_cons, List.not_mem_nil, or_false] at hx
  rcases hx with rfl | rfl
  · exact .inr (.inl ⟨6, 0, List.mem_singleton.mp ha⟩)
  · exact .inr (.inr ⟨i + 1, List.mem_singleton.mp ha⟩)

/-- Each of the threads will execute each piece of code once. -/
theorem weigh_setup (r : Routine) :
    weigh (left r) (setup.flatMap Cmd.actions) = barrierThreadNum := by
  cases r <;> rfl

/-- What the main thread does concerns nobody but the threads that it starts. -/
structure Prepared (t : ℕ) (T T' : Tasks Routine Globals) : Prop where
  waiting : T'.waiting = T.waiting
  client : T'.client = T.client
  own : Preparing (T'.todo t)
  others : ∀ u, u ≠ t → T'.todo u = T.todo u ∨
    T.todo u = [] ∧ T'.todo u = [.cmd (.run .barrierFun), .cmd .finish]
  total : ∀ r, T'.total (left r) = T.total (left r)

section

variable {T T' : Tasks Routine Globals} {t : ℕ}

theorem Prepared.goto (hfree : T.Free t) (hl : Preparing l)
    (hw : ∀ r, weigh (left r) l = weigh (left r) (T.todo t)) : Prepared t T (T.goto t l) where
  waiting := rfl
  client := rfl
  own := by simpa using hl
  others u hu := .inl (by simp [hu])
  total r := by rw [Tasks.total_goto hfree.lt_created, hw, sub_self, add_zero]

theorem Preparing.step (h : Preparing (T.todo t)) (hproper : T.Proper) (hfree : T.Free t)
    (hstep : Tasks.Step program t T T') : Prepared t T T' := by
  have hout := hstep.outcome
  generalize hs : T.todo t = l at h hout
  cases l with
  | nil => exact hout.elim
  | cons a rest =>
      rcases h.head_cases with ⟨ha, p, hp, hall⟩ | ⟨rfl, rfl⟩
      · have hrest : Preparing rest := hp ▸ .busy hall
        rcases ha with rfl | ⟨pri, uninit, rfl⟩ | ⟨u, rfl⟩
        · obtain ⟨i, g, cmds, hcode, rfl⟩ := hout
          cases hcode
          have hnext : Prepared t T
              (T.goto t ((setup.flatMap Cmd.actions ++ p) ++ [.cmd .finish])) := by
            refine .goto hfree (.busy fun b hb => ?_) fun r => ?_
            · exact (List.mem_append.mp hb).elim (setting_of_mem b) (hall b)
            · rw [hs, hp]
              simp only [weigh_append, weigh_cons, weigh_nil, weigh_setup, left]
              ring
          rw [List.append_assoc, ← hp] at hnext
          exact hnext
        · cases hout
          have hnext : Prepared t T (T.goto t rest) := .goto hfree hrest (by simp [hs, left])
          refine ⟨rfl, rfl, hnext.own, hnext.others, fun r => ?_⟩
          rw [← hnext.total r]
          refine Tasks.total_create ?_
          simpa [hfree.lt_created.ne'] using hproper.unborn T.created le_rfl
        · obtain ⟨hlt, hne, hnil, rfl⟩ := hout
          have hnil' : (T.goto t rest).todo u = [] := by simpa [hne] using hnil
          refine ⟨rfl, rfl, by simpa [hne.symm] using hrest, fun v hv => ?_, fun r => ?_⟩
          · by_cases hvu : v = u
            · subst hvu
              exact .inr ⟨hnil, by simp⟩
            · exact .inl (by simp [hv, hvu])
          · rw [Tasks.total_start (by simpa using hlt) hnil', Tasks.total_goto hfree.lt_created, hs]
            simp [left]
      · cases hout
        exact .goto hfree .done (by simp [hs, left])

/-! ## Threads at the barrier -/

/-- What a step of a thread is for the barrier. -/
inductive Turn (t : ℕ) (g g' : Globals) (q q' : List ℕ) (l l' : List (Action Routine)) : Prop where
  | quiet (hg : g' = g) (hq : q' = q) (hs : stage l' = stage l)
  | settle (hs : stage l = .outside) (hin : Nachos.brackets barrLock false l = false)
      (hw : 1 ≤ weigh (left .arrive) l) (hcnt : g'.barrierCnt ≠ barrierThreadNum)
      (hc : g'.continued = g.continued) (hq : q' = q) (hs' : stage l' = .settling)
  | complete (hs : stage l = .outside) (hin : Nachos.brackets barrLock false l = false)
      (hw : 1 ≤ weigh (left .arrive) l) (hcnt : g'.barrierCnt = barrierThreadNum)
      (hq : q' = q) (hs' : stage l' = .opening)
  | park (hg : g' = g) (hq : q' = q ++ [t]) (hs : stage l = .settling) (hs' : stage l' = .parked)
  | leave (hg : g' = g) (hq : q' = q) (hs : stage l = .parked) (hs' : stage l' = .through)
  | wake (hg : g' = g) (hs : stage l = .opening) (hs' : stage l' = .opening)
  | opened (hg : g' = g) (hq : q' = []) (hs : stage l = .opening) (hs' : stage l' = .through)
  | goOn (hg : g'.barrierCnt = g.barrierCnt) (hq : q' = q) (hs : stage l = .through)
      (hs' : stage l' = .outside)

/-- A step of a thread at the barrier: it gets to the next place, and what it counts it has no
more to do. -/
structure Moved (t : ℕ) (T T' : Tasks Routine Globals) : Prop where
  place : T'.todo t ∈ places
  turn : Turn t T.client T'.client (T.waiting barrCond) (T'.waiting barrCond) (T.todo t) (T'.todo t)
  arrivals : T'.client.barrierCnt + weigh (left .arrive) (T'.todo t) =
    T.client.barrierCnt + weigh (left .arrive) (T.todo t)
  goings : T'.client.continued + weigh (left .goOn) (T'.todo t) =
    T.client.continued + weigh (left .goOn) (T.todo t)
  brackets : ∀ x rest, T.todo t = .cmd x :: rest → ∀ inside,
    Nachos.brackets barrLock inside rest = true → Nachos.brackets barrLock inside (T'.todo t) = true

/-- A thread does something that is not a piece of code. -/
theorem moved_pop {a : Action Routine} (hs : T.todo t = a :: l) (hl : l ∈ places)
    (ha : ∀ x, a ≠ .cmd x) (hleft : ∀ r, left r a = 0) (hs' : T'.todo t = l)
    (hg : T'.client = T.client)
    (hturn : Turn t T.client T.client (T.waiting barrCond) (T'.waiting barrCond) (a :: l) l) :
    Moved t T T' where
  place := hs' ▸ hl
  turn := by
    rw [hg, hs, hs']
    exact hturn
  arrivals := by rw [hg, hs, hs', weigh_cons, hleft, zero_add]
  goings := by rw [hg, hs, hs', weigh_cons, hleft, zero_add]
  brackets x rest hx := absurd (List.cons.inj (hs.symm.trans hx)).1 (ha x)

/-- A thread executes a piece of code, or finishes. -/
theorem moved_cmd {x : Cmd Routine} (hs : T.todo t = .cmd x :: rest) (hs' : T'.todo t = l)
    (hl : l ∈ places)
    (hturn : Turn t T.client T'.client (T.waiting barrCond) (T'.waiting barrCond)
      (.cmd x :: rest) l)
    (harrivals : T'.client.barrierCnt + weigh (left .arrive) l =
      T.client.barrierCnt + weigh (left .arrive) (.cmd x :: rest))
    (hgoings : T'.client.continued + weigh (left .goOn) l =
      T.client.continued + weigh (left .goOn) (.cmd x :: rest))
    (hbrackets : ∀ inside, Nachos.brackets barrLock inside rest = true →
      Nachos.brackets barrLock inside l = true) :
    Moved t T T' where
  place := hs' ▸ hl
  turn := by
    rw [hs, hs']
    exact hturn
  arrivals := by
    rw [hs, hs']
    exact harrivals
  goings := by
    rw [hs, hs']
    exact hgoings
  brackets y rest' hy := by
    cases hs.symm.trans hy
    rw [hs']
    exact hbrackets

theorem moved_arrive {g : Globals} {cmds : List (Cmd Routine)}
    (hs : T.todo t = arriving.tail) (hcode : step T.client .arrive = .ok (g, cmds)) :
    Moved t T ((T.goto t (cmds.flatMap Cmd.actions ++ arriving.tail.tail)).setClient g) := by
  obtain ⟨n, hn, hcode⟩ := bind_eq_ok.mp hcode
  have hn := add32_eq_ok hn
  by_cases hlast : n = barrierThreadNum
  · rw [if_pos hlast] at hcode
    cases hcode
    exact moved_cmd (l := opening) hs (by simp [opening, arriving, Cmd.actions, Call.actions])
      (by simp [places]) (.complete rfl rfl (by decide) hlast rfl rfl)
      (by simp [opening, left, hn]) (by simp [opening, left]) (by decide)
  · rw [if_neg hlast] at hcode
    cases hcode
    exact moved_cmd (l := waiting) hs (by simp [waiting, arriving, Cmd.actions, Call.actions])
      (by simp [places, waiting]) (.settle rfl rfl (by decide) hlast rfl rfl rfl)
      (by simp [waiting, left, hn]) (by simp [waiting, left]) (by decide)

theorem moved (h : T.todo t ∈ places) (hstep : Tasks.Step program t T T') : Moved t T T' := by
  have hout := hstep.outcome
  generalize hs : T.todo t = l at h hout
  simp only [places, arriving, opening, waiting, List.tail_cons, List.tails, List.mem_cons,
    List.not_mem_nil, or_false] at h
  rcases h with rfl | rfl | rfl | rfl | rfl | rfl | rfl | rfl | rfl | rfl | rfl | rfl | rfl | rfl |
    rfl | rfl
  · obtain ⟨i, g, cmds, hcode, rfl⟩ := hout
    cases hcode
    exact moved_cmd (l := arriving) hs (by simp [arriving, Cmd.actions, Call.actions])
      (by simp [places]) (.quiet rfl rfl rfl) (by simp [arriving, left]) (by simp [arriving, left])
      (by decide)
  · obtain ⟨-, rfl⟩ := hout
    exact moved_pop hs (by simp [places, arriving]) (by simp) (fun _ => rfl) (by simp) rfl
      (.quiet rfl rfl rfl)
  · obtain ⟨i, g, cmds, hcode, rfl⟩ := hout
    exact moved_arrive hs hcode
  · obtain ⟨-, rfl⟩ := hout
    exact moved_pop hs (by simp [places, opening]) (by simp) (fun _ => rfl) (by simp) rfl
      (.quiet rfl rfl rfl)
  · rcases hout with ⟨hq, rfl⟩ | ⟨u, q, hq, rfl⟩
    · exact moved_pop hs (by simp [places, waiting]) (by simp) (fun _ => rfl) (by simp) rfl
        (.opened rfl hq rfl rfl)
    · exact ⟨hs ▸ by simp [places, opening], .wake rfl (by rw [hs]; rfl) (by simp [hs, stage]), rfl,
        rfl, fun x rest hx => by cases hs.symm.trans hx⟩
  · obtain ⟨-, rfl⟩ := hout
    exact moved_pop hs (by simp [places, waiting]) (by simp) (fun _ => rfl) (by simp) rfl
      (.quiet rfl rfl rfl)
  · obtain ⟨-, rfl⟩ := hout
    exact moved_pop hs (by simp [places, waiting]) (by simp) (fun _ => rfl) (by simp) rfl
      (.quiet rfl rfl rfl)
  · obtain ⟨-, rfl⟩ := hout
    exact moved_pop hs (by simp [places, waiting]) (by simp) (fun _ => rfl) (by simp) rfl
      (.quiet rfl rfl rfl)
  · obtain rfl := hout
    exact moved_pop hs (by simp [places, waiting]) (by simp) (fun _ => rfl) (by simp) rfl
      (.park rfl (by simp) rfl rfl)
  · obtain ⟨-, rfl⟩ := hout
    exact moved_pop hs (by simp [places, waiting]) (by simp) (fun _ => rfl) (by simp) rfl
      (.leave rfl rfl rfl rfl)
  · obtain rfl := hout
    exact moved_pop hs (by simp [places, waiting]) (by simp) (fun _ => rfl) (by simp) rfl
      (.quiet rfl rfl rfl)
  · obtain ⟨-, rfl⟩ := hout
    exact moved_pop hs (by simp [places, waiting]) (by simp) (fun _ => rfl) (by simp) rfl
      (.quiet rfl rfl rfl)
  · obtain ⟨-, rfl⟩ := hout
    exact moved_pop hs (by simp [places, waiting]) (by simp) (fun _ => rfl) (by simp) rfl
      (.quiet rfl rfl rfl)
  · obtain ⟨i, g, cmds, hcode, rfl⟩ := hout
    cases hcode
    exact moved_cmd (l := [.cmd .finish]) hs (by simp) (by simp [places, waiting])
      (.goOn rfl rfl rfl rfl) (by simp [left]) (by simp [left]) (by decide)
  · obtain rfl := hout
    exact moved_cmd (l := []) hs (by simp) (by simp [places, waiting]) (.quiet rfl rfl rfl)
      (by simp [left]) (by simp [left]) (by decide)
  · exact hout.elim

/-! ## The barrier opens -/

/-- A thread that is past the barrier, or that nothing keeps there. -/
def Passing (T : Tasks Routine Globals) (t : ℕ) : Prop :=
  stage (T.todo t) = .opening ∨ stage (T.todo t) = .through ∨
    stage (T.todo t) = .parked ∧ t ∉ T.waiting barrCond

/-- Threads pass only once all have arrived, and then those that wait are woken up. -/
structure Gate (T : Tasks Routine Globals) : Prop where
  settling : ∀ t, stage (T.todo t) = .settling → T.client.barrierCnt ≠ barrierThreadNum
  passing : ∀ t, Passing T t → T.client.barrierCnt = barrierThreadNum
  continued : T.client.continued ≠ 0 → T.client.barrierCnt = barrierThreadNum
  opened : T.client.barrierCnt = barrierThreadNum →
    T.waiting barrCond = [] ∨ ∃ t, stage (T.todo t) = .opening

/-- Threads that are about to wait have the lock, or have just given it back. -/
theorem Spot.settling (h : Spot l) (hs : stage l = .settling) :
    Nachos.brackets barrLock false l = false ∨ ∃ c rest, l = .join c :: rest := by
  rcases h with h | h
  · rw [h.stage_eq] at hs
    cases hs
  · simp only [places, arriving, opening, waiting, List.tail_cons, List.tails, List.mem_cons,
      List.not_mem_nil, or_false] at h
    rcases h with rfl | rfl | rfl | rfl | rfl | rfl | rfl | rfl | rfl | rfl | rfl | rfl | rfl |
      rfl | rfl | rfl
    all_goals first | exact .inl rfl | exact .inr ⟨_, _, rfl⟩ | cases hs

/-- While a thread arrives, no other one is about to wait. -/
theorem not_settling (hspot : ∀ u, Spot (T.todo u)) (hexcl : T.Exclusive barrLock)
    (hfree : T.Free t) (hin : Nachos.brackets barrLock false (T.todo t) = false) {u : ℕ}
    (hu : u ≠ t) : stage (T.todo u) ≠ .settling := by
  intro hs
  rcases (hspot u).settling hs with hin' | ⟨c, rest, hjoin⟩
  · have howner := hexcl.owner_of_inside hin
    rw [hexcl.owner_of_inside hin'] at howner
    exact hu (Option.some.inj howner)
  · exact hu (hfree.alone u c rest hjoin)

/-- What a thread past the barrier does. -/
theorem Gate.of_open (h : Gate T) (hcnt : T.client.barrierCnt = barrierThreadNum)
    (hg : T'.client.barrierCnt = T.client.barrierCnt)
    (hothers : ∀ u, u ≠ t → stage (T'.todo u) = stage (T.todo u))
    (hown : stage (T'.todo t) ≠ .settling)
    (hopened : T'.waiting barrCond = [] ∨ ∃ u, stage (T'.todo u) = .opening) : Gate T' where
  settling u hu := by
    by_cases hut : u = t
    · exact absurd hu (hut ▸ hown)
    · exact absurd hcnt (h.settling u (hothers u hut ▸ hu))
  passing _ _ := hg.trans hcnt
  continued _ := hg.trans hcnt
  opened _ := hopened

theorem Gate.step (h : Gate T) (hspot : ∀ u, Spot (T.todo u)) (hexcl : T.Exclusive barrLock)
    (hfree : T.Free t) (hleft : T.client.barrierCnt + weigh (left .arrive) (T.todo t) ≤
      barrierThreadNum)
    (hothers : ∀ u, u ≠ t → stage (T'.todo u) = stage (T.todo u))
    (hturn : Turn t T.client T'.client (T.waiting barrCond) (T'.waiting barrCond) (T.todo t)
      (T'.todo t)) : Gate T' := by
  -- other threads that wake up the rest stay so
  have hopening : ∀ {s}, stage (T.todo t) = s → s ≠ .opening →
      (∃ u, stage (T.todo u) = .opening) → ∃ u, stage (T'.todo u) = .opening := by
    rintro s hs hne ⟨u, hu⟩
    refine ⟨u, (hothers u ?_).trans hu⟩
    rintro rfl
    exact hne (hs.symm.trans hu)
  have hpassing : ∀ {u}, u ≠ t → T'.waiting barrCond = T.waiting barrCond → Passing T' u →
      Passing T u := by
    intro u hu hq hp
    unfold Passing at hp ⊢
    rwa [hothers u hu, hq] at hp
  cases hturn with
  | quiet hg hq hs =>
      have hall : ∀ u, stage (T'.todo u) = stage (T.todo u) := by
        intro u
        by_cases hu : u = t
        · rw [hu, hs]
        · exact hothers u hu
      refine ⟨fun u hu => ?_, fun u hu => ?_, ?_, ?_⟩
      · rw [hg]
        exact h.settling u (hall u ▸ hu)
      · rw [hg]
        unfold Passing at hu
        rw [hall, hq] at hu
        exact h.passing u hu
      · rw [hg]
        exact h.continued
      · rw [hg, hq]
        simpa only [hall] using h.opened
  | settle hs hin hw hcnt hc hq hs' =>
      have hne : T.client.barrierCnt ≠ barrierThreadNum := by omega
      refine ⟨fun _ _ => hcnt, fun u hu => ?_, fun hne' => ?_, fun heq => absurd heq hcnt⟩
      · by_cases hut : u = t
        · subst hut
          simp [Passing, hs'] at hu
        · exact absurd (h.passing u (hpassing hut hq hu)) hne
      · exact absurd (h.continued (hc ▸ hne')) hne
  | complete hs hin hw hcnt hq hs' =>
      refine ⟨fun u hu => ?_, fun _ _ => hcnt, fun _ => hcnt, fun _ => .inr ⟨t, hs'⟩⟩
      by_cases hut : u = t
      · subst hut
        cases hs'.symm.trans hu
      · exact absurd (hothers u hut ▸ hu) (not_settling hspot hexcl hfree hin hut)
  | park hg hq hs hs' =>
      have hne := h.settling t hs
      refine ⟨fun _ _ => by rwa [hg], fun u hu => ?_, ?_, fun heq => ?_⟩
      · rw [hg]
        by_cases hut : u = t
        · subst hut
          simp [Passing, hs', hq] at hu
        · refine h.passing u ?_
          unfold Passing at hu ⊢
          rw [hothers u hut, hq] at hu
          exact hu.imp_right (Or.imp_right fun hp => ⟨hp.1, fun hmem =>
            hp.2 (List.mem_append_left _ hmem)⟩)
      · rw [hg]
        exact h.continued
      · rw [hg] at heq
        exact absurd heq hne
  | leave hg hq hs hs' =>
      have hcnt := h.passing t (.inr (.inr ⟨hs, hfree.awake barrCond⟩))
      refine h.of_open hcnt (by rw [hg]) hothers (by simp [hs']) ?_
      rw [hq]
      exact (h.opened hcnt).imp_right (hopening hs (by simp))
  | wake hg hs hs' =>
      exact h.of_open (h.passing t (.inl hs)) (by rw [hg]) hothers (by simp [hs']) (.inr ⟨t, hs'⟩)
  | opened hg hq hs hs' =>
      exact h.of_open (h.passing t (.inl hs)) (by rw [hg]) hothers (by simp [hs']) (.inl hq)
  | goOn hg hq hs hs' =>
      have hcnt := h.passing t (.inr (.inl hs))
      refine h.of_open hcnt hg hothers (by simp [hs']) ?_
      rw [hq]
      exact (h.opened hcnt).imp_right (hopening hs (by simp))

/-! ## All threads together -/

structure Met (T : Tasks Routine Globals) : Prop where
  spot : ∀ t, Spot (T.todo t)
  exclusive : T.Exclusive barrLock
  arrivals : T.client.barrierCnt + T.total (left .arrive) = barrierThreadNum
  goings : T.client.continued + T.total (left .goOn) = barrierThreadNum
  gate : Gate T

theorem Met.arrivals_le (h : Met T) (hfree : T.Free t) :
    T.client.barrierCnt + weigh (left .arrive) (T.todo t) ≤ barrierThreadNum := by
  have hle := Tasks.weigh_le_total (T := T) (fun u => weigh_left_nonneg .arrive (T.todo u))
    hfree.lt_created
  have htotal := h.arrivals
  omega

theorem ne_start_of_place (h : T.todo t ∈ places) (v : ℕ) (f : Routine)
    (rest : List (Action Routine)) : T.todo t ≠ .start v f :: rest := by
  intro hs
  rw [hs] at h
  simp [places, arriving, opening, waiting] at h

theorem ne_newThread_of_place (h : T.todo t ∈ places) (pri uninit : ℤ)
    (rest : List (Action Routine)) : T.todo t ≠ .cmd (.newThread pri uninit) :: rest := by
  intro hs
  rw [hs] at h
  simp [places, arriving, opening, waiting] at h

theorem Met.step (h : Met T) (hproper : T.Proper) (hfree : T.Free t)
    (hstep : Tasks.Step program t T T') : Met T' := by
  rcases h.spot t with hspot | hplace
  · have hprep := hspot.step hproper hfree hstep
    refine ⟨fun u => ?_, ?_, ?_, ?_, ?_⟩
    · by_cases hu : u = t
      · exact .inl (hu ▸ hprep.own)
      · rcases hprep.others u hu with hsame | ⟨-, hnew⟩
        · exact hsame ▸ h.spot u
        · exact .inr (hnew ▸ by simp [places])
    · refine h.exclusive.step hstep fun x rest hs inside hb => ?_
      rw [hs] at hspot
      rw [hprep.own.brackets, ← hspot.brackets barrLock inside, brackets_skip rfl]
      exact hb
    · rw [hprep.client, hprep.total]
      exact h.arrivals
    · rw [hprep.client, hprep.total]
      exact h.goings
    · refine h.gate.step h.spot h.exclusive hfree (h.arrivals_le hfree) (fun u hu => ?_)
        (.quiet hprep.client (by rw [hprep.waiting]) ?_)
      · rcases hprep.others u hu with hsame | ⟨hnil, hnew⟩
        · rw [hsame]
        · rw [hnil, hnew]
          rfl
      · rw [hprep.own.stage_eq, hspot.stage_eq]
  · have hmoved := moved hplace hstep
    have hothers : ∀ u, u ≠ t → T'.todo u = T.todo u := fun u hu =>
      hstep.others_eq (ne_start_of_place hplace) hu
    have hcreated := hstep.created_eq (ne_newThread_of_place hplace)
    refine ⟨fun u => ?_, h.exclusive.step hstep hmoved.brackets, ?_, ?_, ?_⟩
    · by_cases hu : u = t
      · exact .inr (hu ▸ hmoved.place)
      · exact hothers u hu ▸ h.spot u
    · rw [Tasks.total_of_others hfree.lt_created hcreated hothers]
      have hsum := h.arrivals
      have hown := hmoved.arrivals
      omega
    · rw [Tasks.total_of_others hfree.lt_created hcreated hothers]
      have hsum := h.goings
      have hown := hmoved.goings
      omega
    · exact h.gate.step h.spot h.exclusive hfree (h.arrivals_le hfree)
        (fun u hu => by rw [hothers u hu]) hmoved.turn

theorem Met.handled (h : Met T) (acts : List HandlerAct) (type : IntType) :
    Met (acts.foldl Tasks.act (T.occur type)) :=
  Tasks.handled (I := Met)
    (fun _ _ _ h => ⟨h.spot, h.exclusive, h.arrivals, h.goings,
      h.gate.settling, h.gate.passing, h.gate.continued, h.gate.opened⟩)
    (fun _ _ _ h => ⟨h.spot, h.exclusive, h.arrivals, h.goings,
      h.gate.settling, h.gate.passing, h.gate.continued, h.gate.opened⟩) h type

/-! ## Nobody is left behind -/

/-- Threads take the lock when they arrive, or when they come back from waiting. -/
theorem Spot.take {l : ℕ} (h : Spot (.take l :: rest)) :
    l = barrLock ∧ (.take l :: rest = arriving ∨ .take l :: rest = waiting.drop 4) := by
  rcases h with h | h
  · rcases h.head_cases with ⟨ha | ⟨_, _, ha⟩ | ⟨_, ha⟩, -⟩ | ⟨ha, -⟩ <;> cases ha
  · simp only [places, arriving, opening, waiting, List.tail_cons, List.tails, List.mem_cons,
      List.not_mem_nil, or_false, List.cons.injEq, reduceCtorEq, false_and, false_or,
      Action.take.injEq] at h
    rcases h with ⟨rfl, rfl⟩ | ⟨rfl, rfl⟩
    · exact ⟨rfl, .inl rfl⟩
    · exact ⟨rfl, .inr rfl⟩

theorem Spot.ne_down {n : ℕ} : ¬ Spot (.down n :: rest) := by
  rintro (h | h)
  · rcases h.head_cases with ⟨ha | ⟨_, _, ha⟩ | ⟨_, ha⟩, -⟩ | ⟨ha, -⟩ <;> cases ha
  · simp [places, arriving, opening, waiting] at h

section

variable (h : Met T) (hproper : T.Proper) (hstuck : T.Stuck)

include h hproper hstuck

/-- A thread that cannot go on has nothing to do, or is about to take the lock. -/
theorem Met.blocked (t : ℕ) :
    T.todo t = [] ∨ (∃ rest, T.todo t = .take barrLock :: rest) ∧
      (T.owner barrLock ≠ none ∨ ∃ c rest, t ∈ T.waiting c ∧
        T.todo t = .take barrLock :: .back c :: rest) := by
  have hspot := h.spot t
  rcases hstuck t with hs | ⟨n, rest, hs, -⟩ | ⟨l, rest, hs, howner⟩ | ⟨c, hc⟩
  · exact .inl hs
  · exact absurd (hs ▸ hspot) Spot.ne_down
  · obtain ⟨rfl, -⟩ := Spot.take (hs ▸ hspot)
    exact .inr ⟨⟨rest, hs⟩, .inl howner⟩
  · obtain ⟨l, rest, hs⟩ := hproper.parked c t hc
    obtain ⟨rfl, -⟩ := Spot.take (hs ▸ hspot)
    exact .inr ⟨⟨_, hs⟩, .inr ⟨c, rest, hc, hs⟩⟩

/-- If no thread can go on, none has the lock. -/
theorem Met.owner_eq_none : T.owner barrLock = none := by
  by_contra hne
  obtain ⟨u, hu⟩ := Option.ne_none_iff_exists'.mp hne
  have hinside := h.exclusive.inside hu
  rcases h.blocked hproper hstuck u with hs | ⟨⟨rest, hs⟩, -⟩
  · rw [hs] at hinside
    cases hinside
  · rw [hs, brackets_move (b := true) rfl] at hinside
    cases hinside

/-- If no thread can go on, those that have something to do wait at the barrier. -/
theorem Met.parked (t : ℕ) :
    T.todo t = [] ∨ T.todo t = waiting.drop 4 ∧ t ∈ T.waiting barrCond := by
  rcases h.blocked hproper hstuck t with hs | ⟨-, howner | ⟨c, rest, hc, hs⟩⟩
  · exact .inl hs
  · exact absurd (h.owner_eq_none hproper hstuck) howner
  · rcases (Spot.take (hs ▸ h.spot t)).2 with heq | heq
    · cases heq
    · refine .inr ⟨hs.trans heq, ?_⟩
      cases heq
      exact hc

/-- If no thread can go on, all have passed the barrier. -/
theorem Met.continued_of_stuck : T.client.continued = barrierThreadNum := by
  have hparked := h.parked hproper hstuck
  have harrived : T.total (left .arrive) = 0 := by
    refine Finset.sum_eq_zero fun t _ => ?_
    rcases hparked t with hs | ⟨hs, -⟩ <;> rw [hs] <;> rfl
  have hcnt : T.client.barrierCnt = barrierThreadNum := by
    have hsum := h.arrivals
    omega
  have hempty : T.waiting barrCond = [] := by
    refine (h.gate.opened hcnt).resolve_right ?_
    rintro ⟨t, ht⟩
    rcases hparked t with hs | ⟨hs, -⟩ <;> rw [hs] at ht <;> cases ht
  have hgone : T.total (left .goOn) = 0 := by
    refine Finset.sum_eq_zero fun t _ => ?_
    rcases hparked t with hs | ⟨-, hmem⟩
    · rw [hs]
      rfl
    · simp [hempty] at hmem
  have hsum := h.goings
  omega

end

theorem met_start : Met (.start .barrierThreadTest .new fun _ => 0) := by
  have hprep : ∀ t, Preparing ((Tasks.start .barrierThreadTest Globals.new fun _ => 0).todo t) := by
    intro t
    rw [Tasks.start_todo]
    by_cases ht : t = 0
    · rw [ht, Function.update_self]
      exact .busy (p := [.cmd (.run .barrierThreadTest)]) (by simp [Setting])
    · rw [Function.update_of_ne ht]
      exact .done
  refine ⟨fun t => .inl (hprep t), fun t => by rw [(hprep t).brackets]; rfl, rfl, rfl, ?_⟩
  refine ⟨fun t ht => ?_, fun t ht => ?_, fun h => absurd rfl h, fun _ => .inl rfl⟩
  · rw [(hprep t).stage_eq] at ht
    cases ht
  · rcases ht with ht | ht | ⟨ht, -⟩ <;> rw [(hprep t).stage_eq] at ht <;> cases ht

end

theorem initial_start (machine : Option Machine) : Kernel.Initial (start machine) :=
  ⟨.barrierThreadTest, .new, fun _ => 0, machine, fun _ => le_rfl, rfl⟩

/-- No thread continues before all have arrived, and if no thread is left that is running or
ready, then all have continued. -/
theorem barrier_opens {build : Build} {schedPriority : Bool} {machine : Option Machine}
    {k : Kernel Routine Globals}
    (h : (Kernel.system (config build schedPriority) (· = start machine)).Reachable k) :
    k.client.barrierCnt ≤ barrierThreadNum ∧ k.client.continued ≤ barrierThreadNum ∧
      (k.client.continued ≠ 0 → k.client.barrierCnt = barrierThreadNum) ∧
      (k.core.Alive ∨ k.client.continued = barrierThreadNum) := by
  have hinit : ∀ k, k = start machine → Kernel.Initial k := fun k hk => hk ▸ initial_start machine
  have hwhere : (Kernel.systemWhere (config build schedPriority) (· = start machine)
      fun _ _ => True).Reachable k :=
    h.mono (fun _ hk => hk) fun _ _ _ _ hstep => ⟨trivial, hstep⟩
  have hinv := Kernel.tasks_invariant (I := Met) hinit ?_ ?_ ?_ hwhere
  · obtain ⟨hproper, hmet⟩ := hinv
    have harrivals : k.client.barrierCnt + _ = _ := hmet.arrivals
    have hgoings : k.client.continued + _ = _ := hmet.goings
    have harrive := Tasks.total_nonneg (T := k.core.tasks) fun u =>
      weigh_left_nonneg .arrive (k.core.tasks.todo u)
    have hgo := Tasks.total_nonneg (T := k.core.tasks) fun u =>
      weigh_left_nonneg .goOn (k.core.tasks.todo u)
    refine ⟨by omega, by omega, hmet.gate.continued, ?_⟩
    by_cases halive : k.core.Alive
    · exact .inl halive
    · exact .inr (hmet.continued_of_stuck hproper (Kernel.stuck_of_not_alive hinit h halive))
  · rintro k rfl
    rw [start, Kernel.core_start, Core.tasks_start]
    exact met_start
  · exact fun t T T' hproper _ hmet hfree hstep => hmet.step hproper hfree hstep
  · exact fun k env T type _ hmet => hmet.handled env.handler type

theorem barrier_opens_first : ∃ k : Kernel Routine Globals, k.client.continued = 1 ∧
    k.client.barrierCnt = 5 ∧ k.core.Alive := by
  obtain ⟨k, hobs, hk⟩ := Kernel.exists_reachable (config ⟨false, false, false⟩ false)
    (Kernel.calm 210) (start none) (fun k => k.client.continued) 1 (by decide +kernel)
  obtain ⟨-, -, harrived, halive⟩ := barrier_opens (hk _ rfl)
  refine ⟨k, hobs, harrived (by simp [hobs]), halive.resolve_right ?_⟩
  rw [hobs]
  decide

end Nachos.Barrier
