import Nachos.Verification.ThreadTest.Semaphores

/-! # Producers and consumers with conditions

Producers and consumers do the same: each waits on its own condition until there is something
for it, a slot or an item, and then makes it into something for the other. -/

namespace Nachos.ThreadTest

open Library

variable {g g' : Globals}

namespace Role

def function : Role → Routine
  | producer => .producer1
  | customer => .customer1

def test : Role → Routine
  | producer => .produce1
  | customer => .consume1

def cond : Role → ℕ
  | producer => condp
  | customer => condc

/-- Slots for producers, and items for consumers. -/
def stock : Role → Globals → ℤ
  | producer, g => N - g.shareNum
  | customer, g => g.shareNum

def supply (r : Role) : Supply Routine Globals := ⟨pcLock, r.cond, r.test, r.stock⟩

def entering (r : Role) : List (Action Routine) :=
  [.take pcLock, .cmd (.run r.test), .check pcLock, .give pcLock]

def waiting (r : Role) : List (Action Routine) :=
  [.check pcLock, .check pcLock, .give pcLock, .join r.cond, .take pcLock, .back r.cond,
    .cmd (.run r.test), .check pcLock, .give pcLock]

def signalling (r : Role) : List (Action Routine) :=
  [.check pcLock, .notify r.other.cond, .check pcLock, .give pcLock]

/-- What is left of an iteration of the loop. -/
def places (r : Role) : List (List (Action Routine)) :=
  r.entering :: r.signalling :: r.signalling.tail :: r.waiting.tails

/-- A thread that is somewhere in its loop. -/
def At (r : Role) (l : List (Action Routine)) : Prop :=
  ∃ p ∈ r.places, l = p ++ [.cmd (.run r.function), .cmd .finish]

/-- What the test does: it waits, or it takes something and makes something for the others. -/
theorem step_test {setup cmds : List (Cmd Routine)} {r : Role}
    (h : step setup g r.test = .ok (g', cmds)) :
    (r.stock g ≤ 0 ∧ g' = g ∧ cmds.flatMap Cmd.actions ++ [.check pcLock, .give pcLock] = r.waiting) ∨
    (0 < r.stock g ∧ r.stock g' = r.stock g - 1 ∧ r.other.stock g' = r.other.stock g + 1 ∧
      cmds.flatMap Cmd.actions ++ [.check pcLock, .give pcLock] = r.signalling) := by
  cases r with
  | producer =>
      simp only [test, step] at h
      split at h
      next hfull =>
        cases h
        refine .inl ⟨by simp only [stock]; omega, rfl, rfl⟩
      next hfull =>
        obtain ⟨n, hn, h⟩ := bind_eq_ok.mp h
        cases h
        have heq := add32_eq_ok hn
        refine .inr ⟨by simp only [stock]; omega, by simp only [stock]; omega, ?_, rfl⟩
        simp only [stock, other]
        omega
  | customer =>
      simp only [test, step] at h
      split at h
      next hempty =>
        cases h
        exact .inl ⟨hempty, rfl, rfl⟩
      next hempty =>
        obtain ⟨n, hn, h⟩ := bind_eq_ok.mp h
        cases h
        have heq := add32_eq_ok hn
        refine .inr ⟨by simp only [stock]; omega, by simp only [stock]; omega, ?_, rfl⟩
        simp only [stock, other]
        omega

end Role

abbrev monitorFunctions : List Routine := [.producer1, .customer1]

def MonitorSpot (l : List (Action Routine)) : Prop :=
  Preparing monitorFunctions l ∨ ∃ r : Role, r.At l

structure Monitored (T : Tasks Routine Globals) : Prop where
  spot : ∀ t, MonitorSpot (T.todo t)
  exclusive : T.Exclusive pcLock
  supplied : ∀ r : Role, r.supply.Supplied T
  nonneg : ∀ r : Role, 0 ≤ r.stock T.client

variable {rest : List (Action Routine)}

section

variable {setup : List (Cmd Routine)} {hsetup : ∀ x ∈ setup, Sets monitorFunctions x}
  {T T' : Tasks Routine Globals} {t : ℕ} {r : Role} {a : Action Routine}
  {l l' : List (Action Routine)} {q : Role}

/-- What a thread does next in its loop. -/
inductive Role.Next (r : Role) (g g' : Globals) :
    List (Action Routine) → List (Action Routine) → Prop where
  | again (h : g' = g) : Next r g g' [.cmd (.run r.function), .cmd .finish]
      (r.entering ++ [.cmd (.run r.function), .cmd .finish])
  | wait (hle : r.stock g ≤ 0) (h : g' = g) :
      Next r g g' (r.entering.tail ++ [.cmd (.run r.function), .cmd .finish])
        (r.waiting ++ [.cmd (.run r.function), .cmd .finish])
  | pass (hlt : 0 < r.stock g) (hown : r.stock g' = r.stock g - 1)
      (hother : r.other.stock g' = r.other.stock g + 1) :
      Next r g g' (r.entering.tail ++ [.cmd (.run r.function), .cmd .finish])
        (r.signalling ++ [.cmd (.run r.function), .cmd .finish])
  | pop {a p} (hp : a :: p ∈ r.places) (ha : ∀ f, a ≠ .cmd (.run f)) (h : g' = g) :
      Next r g g' (a :: p ++ [.cmd (.run r.function), .cmd .finish])
        (p ++ [.cmd (.run r.function), .cmd .finish])

theorem Role.step_function (setup : List (Cmd Routine)) (r : Role) (g : Globals) :
    ∃ cmds, step setup g r.function = .ok (g, cmds) ∧
      cmds.flatMap Cmd.actions = r.entering ++ [.cmd (.run r.function)] := by
  cases r with
  | producer => exact ⟨_, rfl, rfl⟩
  | customer => exact ⟨_, rfl, rfl⟩

theorem Role.At.next (h : r.At (T.todo t)) (hstep : Tasks.Step (program setup hsetup) t T T') :
    r.Next T.client T'.client (T.todo t) (T'.todo t) := by
  have hout := hstep.outcome
  obtain ⟨p, hp, hs⟩ := h
  have hmem := hp
  -- the first action is not a piece of code
  have hpop : ∀ a p', p = a :: p' → Tasks.Once a →
      r.Next T.client T'.client (T.todo t) (T'.todo t) := by
    rintro a p' rfl ha
    obtain ⟨hclient, hs'⟩ := hstep.pop hs ha
    rw [hs, hs']
    exact .pop hmem (by rintro f rfl; exact ha) hclient
  rw [hs] at hout
  simp only [Role.places, Role.entering, Role.signalling, Role.waiting, List.tail_cons, List.tails,
    List.mem_cons, List.not_mem_nil, or_false] at hp
  rcases hp with rfl | rfl | rfl | rfl | rfl | rfl | rfl | rfl | rfl | rfl | rfl | rfl | rfl
  · exact hpop _ _ rfl trivial
  · exact hpop _ _ rfl trivial
  · exact hpop _ _ rfl trivial
  · exact hpop _ _ rfl trivial
  · exact hpop _ _ rfl trivial
  · exact hpop _ _ rfl trivial
  · exact hpop _ _ rfl trivial
  · exact hpop _ _ rfl trivial
  · exact hpop _ _ rfl trivial
  · obtain ⟨i, g, cmds, hcode, rfl⟩ := hout
    rcases Role.step_test hcode with ⟨hle, rfl, hacts⟩ | ⟨hlt, hown, hother, hacts⟩
    · rw [hs, Tasks.setClient_todo, Tasks.goto_todo, Function.update_self, List.append_eq,
        ← List.append_assoc, hacts]
      exact .wait hle rfl
    · rw [hs, Tasks.setClient_todo, Tasks.goto_todo, Function.update_self, List.append_eq,
        ← List.append_assoc, hacts]
      exact .pass hlt hown hother
  · exact hpop _ _ rfl trivial
  · exact hpop _ _ rfl trivial
  · obtain ⟨i, g, cmds, hcode, rfl⟩ := hout
    obtain ⟨cmds', hcode', hacts⟩ := Role.step_function setup r T.client
    cases hcode'.symm.trans hcode
    rw [hs, Tasks.setClient_todo, Tasks.goto_todo, Function.update_self, hacts, List.append_assoc]
    exact .again rfl

theorem Role.tail_mem_places {p : List (Action Routine)} (h : a :: p ∈ r.places) :
    p ∈ r.places := by
  simp only [Role.places, Role.entering, Role.signalling, Role.waiting, List.tail_cons, List.tails,
    List.mem_cons, List.not_mem_nil, or_false, List.cons.injEq] at h ⊢
  tauto

theorem Role.Next.isAt (h : r.Next g g' l l') : r.At l' := by
  cases h with
  | again => exact ⟨_, by simp [Role.places], rfl⟩
  | wait => exact ⟨_, by simp [Role.places, Role.waiting], rfl⟩
  | pass => exact ⟨_, by simp [Role.places], rfl⟩
  | pop hp => exact ⟨_, Role.tail_mem_places hp, rfl⟩

/-- The lock is taken and given back in turn, whatever a thread finds. -/
theorem Role.Next.brackets {x : Cmd Routine} (h : r.Next g g' (.cmd x :: rest) l') {inside : Bool}
    (hb : brackets pcLock inside rest = true) : brackets pcLock inside l' = true := by
  generalize hl : Action.cmd x :: rest = l at h
  cases h with
  | again | wait | pass =>
      cases hl
      cases inside
      · first | rfl | cases hb
      · first | rfl | cases hb
  | pop hp ha =>
      cases hl
      exact hb

theorem Role.subset_of_mem_places {p : List (Action Routine)} (h : p ∈ r.places) :
    p ⊆ r.entering ++ r.signalling ++ r.waiting := by
  intro a ha
  simp only [Role.places, List.mem_cons] at h
  simp only [List.mem_append]
  rcases h with rfl | rfl | rfl | h
  · exact .inl (.inl ha)
  · exact .inl (.inr ha)
  · exact .inl (.inr (List.mem_of_mem_tail ha))
  · exact .inr (((List.mem_tails _ _).mp h).subset ha)

/-- What a thread does in its loop. -/
theorem Role.At.mem (h : r.At l) (ha : a ∈ l) :
    a ∈ r.entering ++ r.signalling ++ r.waiting ∨ a = .cmd (.run r.function) ∨ a = .cmd .finish := by
  obtain ⟨p, hp, rfl⟩ := h
  rcases List.mem_append.mp ha with ha | ha
  · exact .inl (Role.subset_of_mem_places hp ha)
  · exact .inr (by simpa using ha)

theorem Role.At.ne_start (h : r.At (T.todo t)) (v : ℕ) (f : Routine) (rest : List (Action Routine)) :
    T.todo t ≠ .start v f :: rest := by
  intro hs
  have hmem := h.mem (a := .start v f) (by simp [hs])
  simp [Role.entering, Role.signalling, Role.waiting] at hmem

theorem Role.eq_or_other (q r : Role) : q = r ∨ q = r.other := by
  cases q <;> cases r <;> simp [Role.other]

@[simp] theorem Role.cond_inj {r : Role} : q.cond = r.cond ↔ q = r := by
  cases q <;> cases r <;> simp [Role.cond]

@[simp] theorem Role.test_inj {r : Role} : q.test = r.test ↔ q = r := by
  cases q <;> cases r <;> simp [Role.test]

@[simp] theorem Role.function_inj {r : Role} : q.function = r.function ↔ q = r := by
  cases q <;> cases r <;> simp [Role.function]

@[simp] theorem Role.function_ne_test (q r : Role) : q.function ≠ r.test := by
  cases q <;> cases r <;> simp [Role.function, Role.test]

@[simp] theorem Role.ne_other (r : Role) : r ≠ r.other := by
  cases r <;> simp [Role.other]

/-- What a piece of code changes is made up for, and a thread waits only for what is not there. -/
theorem Role.Next.claims {f : Routine} (h : r.Next g g' (.cmd (.run f) :: rest) l') :
    (q.stock g' ≤ 0 ∨ q.stock g' + q.supply.claim (.cmd (.run f) :: rest) ≤
      q.stock g + q.supply.claim l') ∧ (q.supply.leaving l' = true → q.stock g' ≤ 0) := by
  generalize hl : Action.cmd (Cmd.run f) :: rest = l at h
  cases h with
  | again h =>
      subst h
      simp [Supply.claim, Supply.leaving, Supply.releasing, Role.entering, Role.supply]
  | wait hle h =>
      subst h
      rcases q.eq_or_other r with rfl | rfl
      · exact ⟨.inl hle, fun _ => hle⟩
      · simp [Supply.claim, Supply.leaving, Supply.releasing, Role.entering, Role.waiting,
          Role.supply]
  | pass hlt hown hother =>
      rcases q.eq_or_other r with rfl | rfl
      · simp [Supply.claim, Supply.leaving, Supply.releasing, Role.entering, Role.signalling,
          Role.supply, hown, (Role.ne_other _).symm]
      · simp [Supply.claim, Supply.leaving, Supply.releasing, Role.entering, Role.signalling,
          Role.supply, hother]
  | pop hp ha =>
      cases hl
      exact absurd rfl (ha f)

/-- Only a thread that has the lock changes what is there. -/
theorem Role.Next.stock_eq (h : r.Next g g' l l') :
    q.stock g' = q.stock g ∨ Nachos.brackets pcLock false l = false := by
  cases h with
  | again h | wait _ h | pop _ _ h => exact .inl (congrArg q.stock h)
  | pass => exact .inr rfl

theorem Role.Next.nonneg (h : r.Next g g' l l') (hg : ∀ q : Role, 0 ≤ q.stock g) (q : Role) :
    0 ≤ q.stock g' := by
  cases h with
  | again h | wait _ h | pop _ _ h => exact h ▸ hg q
  | pass hlt hown hother =>
      rcases q.eq_or_other r with rfl | rfl
      · omega
      · have hq := hg r.other
        omega

theorem Role.At.guarded (h : r.At (T.todo t)) (hexcl : T.Exclusive pcLock) :
    q.supply.Guarded (program setup hsetup) T t where
  back rest hs := by
    obtain ⟨p, hp, hs'⟩ := h
    rw [hs'] at hs
    simp only [Role.places, Role.entering, Role.signalling, Role.waiting, List.tail_cons, List.tails,
      List.mem_cons, List.not_mem_nil, or_false] at hp
    rcases hp with rfl | rfl | rfl | rfl | rfl | rfl | rfl | rfl | rfl | rfl | rfl | rfl | rfl
    case inr.inr.inr.inr.inr.inr.inr.inr.inl =>
      simp only [Role.supply, List.cons_append, List.cons.injEq, Action.back.injEq,
        Role.cond_inj] at hs
      obtain ⟨rfl, rfl⟩ := hs
      simp [Supply.claim, Role.supply]
    all_goals cases hs
  leave a rest hs ha hleaving := by
    obtain ⟨p, hp, hs'⟩ := h
    rw [hs'] at hs
    simp only [Role.places, Role.entering, Role.signalling, Role.waiting, List.tail_cons, List.tails,
      List.mem_cons, List.not_mem_nil, or_false] at hp
    rcases hp with rfl | rfl | rfl | rfl | rfl | rfl | rfl | rfl | rfl | rfl | rfl | rfl | rfl
    all_goals
      cases hs
      simp_all [Supply.leaving, Supply.releasing, Role.supply]
  run f i g cmds rest hs hcode := by
    have hstep : Tasks.Step (program setup hsetup) t T _ := .run hs hcode
    have hnext := h.next hstep
    simp only [Tasks.setClient_client, Tasks.setClient_todo, Tasks.goto_todo,
      Function.update_self] at hnext
    refine ⟨hnext.stock_eq.imp_right hexcl.owner_of_inside, ?_⟩
    rw [hs] at hnext ⊢
    exact hnext.claims

theorem Monitored.step (h : Monitored T) (hproper : T.Proper) (hfree : T.Free t)
    (hstep : Tasks.Step (program setup hsetup) t T T') : Monitored T' := by
  rcases h.spot t with hspot | ⟨r, hspot⟩
  · have hprep := hspot.step hproper hfree hstep
    refine ⟨fun u => ?_, hspot.exclusive h.exclusive hproper hfree hstep, fun q => ?_,
      hprep.client ▸ h.nonneg⟩
    · rcases hprep.todo u with hu | ⟨-, hu⟩ | ⟨-, f, hf, hu⟩
      · exact hu ▸ h.spot u
      · exact .inl hu
      · rw [hu]
        simp only [List.mem_cons, List.not_mem_nil, or_false] at hf
        rcases hf with rfl | rfl
        · exact .inr ⟨.producer, [], by simp [Role.places], rfl⟩
        · exact .inr ⟨.customer, [], by simp [Role.places], rfl⟩
    · refine (h.supplied q).step h.exclusive hproper hfree (hspot.guarded ?_ hproper hfree) hstep
      cases q <;> simp [Role.supply, Role.test]
  · have hnext := hspot.next hstep
    refine ⟨fun u => ?_, ?_, fun q => ?_, hnext.nonneg h.nonneg⟩
    · by_cases hu : u = t
      · exact .inr ⟨r, hu ▸ hnext.isAt⟩
      · rw [hstep.others_eq hspot.ne_start hu]
        exact h.spot u
    · refine h.exclusive.step hstep fun x rest hs inside hb => ?_
      rw [hs] at hnext
      exact hnext.brackets hb
    · exact (h.supplied q).step h.exclusive hproper hfree (hspot.guarded h.exclusive) hstep

theorem Role.At.eq_of_wants (h : r.At l) (ha : a ∈ l) (hwant : Wants q.function a) : q = r := by
  have hmem := h.mem ha
  rcases hwant with rfl | ⟨u, rfl⟩ | rfl
  · cases r <;> simp [Role.entering, Role.signalling, Role.waiting, Role.test, Role.function] at hmem
  · simp [Role.entering, Role.signalling, Role.waiting] at hmem
  · simpa [Role.entering, Role.signalling, Role.waiting] using hmem

theorem Monitored.present (h : Monitored T) (hproper : T.Proper) (hfree : T.Free t)
    (hfork : ∃ u, .call (.fork u r.function) ∈ setup) (hpresent : Present r.function T)
    (hstep : Tasks.Step (program setup hsetup) t T T') : Present r.function T' := by
  refine hpresent.step hstep fun hwant => ?_
  rcases h.spot t with hspot | ⟨q, hspot⟩
  · exact (hspot.step hproper hfree hstep).present _ hfork hwant
  · obtain ⟨a, ha, hwant⟩ := hwant
    obtain rfl := hspot.eq_of_wants ha hwant
    obtain ⟨p, -, hs⟩ := (hspot.next hstep).isAt
    exact ⟨t, .cmd (.run r.function), by simp [hs], .inr (.inr rfl)⟩

end

section

variable {T : Tasks Routine Globals} {t : ℕ} {r : Role}

theorem Monitored.handled (h : Monitored T) (acts : List HandlerAct) (type : IntType) :
    Monitored (acts.foldl Tasks.act (T.occur type)) :=
  Tasks.handled (I := Monitored)
    (fun _ _ _ hT => ⟨hT.spot, hT.exclusive, fun r => ⟨(hT.supplied r).enough, (hT.supplied r).reason⟩,
      hT.nonneg⟩)
    (fun _ _ _ hT => ⟨hT.spot, hT.exclusive, fun r => ⟨(hT.supplied r).enough, (hT.supplied r).reason⟩,
      hT.nonneg⟩) h type

theorem Role.At.eq_pcLock {l : ℕ} (h : r.At (.take l :: rest)) : l = pcLock := by
  have hmem := h.mem List.mem_cons_self
  simpa [Role.entering, Role.signalling, Role.waiting] using hmem

/-- A thread that cannot go on has nothing to do, or is about to take the lock. -/
theorem Monitored.blocked (h : Monitored T) (hproper : T.Proper) (hstuck : T.Stuck) (t : ℕ) :
    T.todo t = [] ∨ (∃ r : Role, r.At (T.todo t)) ∧ (∃ rest, T.todo t = .take pcLock :: rest) ∧
      (T.owner pcLock ≠ none ∨ ∃ c, t ∈ T.waiting c) := by
  have hspot := h.spot t
  have htake : ∀ l rest, T.todo t = .take l :: rest →
      (∃ r : Role, r.At (T.todo t)) ∧ l = pcLock := by
    intro l rest hs
    rcases hspot with hprep | ⟨r, hat⟩
    · rw [hs] at hprep
      rcases hprep.head_cases with (ha | ⟨_, _, ha⟩ | ⟨_, _, _, ha⟩) | ha <;> cases ha
    · exact ⟨⟨r, hat⟩, Role.At.eq_pcLock (hs ▸ hat)⟩
  rcases hstuck t with hs | ⟨n, rest, hs, -⟩ | ⟨l, rest, hs, howner⟩ | ⟨c, hc⟩
  · exact .inl hs
  · rw [hs] at hspot
    rcases hspot with hprep | ⟨r, hat⟩
    · rcases hprep.head_cases with (ha | ⟨_, _, ha⟩ | ⟨_, _, _, ha⟩) | ha <;> cases ha
    · have hmem := hat.mem List.mem_cons_self
      simp [Role.entering, Role.signalling, Role.waiting] at hmem
  · obtain ⟨hat, rfl⟩ := htake l rest hs
    exact .inr ⟨hat, ⟨rest, hs⟩, .inl howner⟩
  · obtain ⟨l, rest, hs⟩ := hproper.parked c t hc
    obtain ⟨hat, rfl⟩ := htake l _ hs
    exact .inr ⟨hat, ⟨_, hs⟩, .inr ⟨c, hc⟩⟩

/-- If no thread can go on, none has the lock. -/
theorem Monitored.owner_eq_none (h : Monitored T) (hproper : T.Proper) (hstuck : T.Stuck) :
    T.owner pcLock = none := by
  by_contra hne
  obtain ⟨u, hu⟩ := Option.ne_none_iff_exists'.mp hne
  have hinside := h.exclusive.inside hu
  rcases h.blocked hproper hstuck u with hs | ⟨-, ⟨rest, hs⟩, -⟩
  · rw [hs] at hinside
    cases hinside
  · rw [hs, brackets_move (b := true) rfl] at hinside
    cases hinside

theorem Role.At.eq_cond {l c : ℕ} (h : r.At (.take l :: .back c :: rest)) : c = r.cond := by
  have hmem := h.mem (a := .back c) (by simp)
  simpa [Role.entering, Role.signalling, Role.waiting] using hmem

/-- If no thread can go on, those with a role wait on its condition. -/
theorem Monitored.parked (h : Monitored T) (hproper : T.Proper) (hstuck : T.Stuck) (t : ℕ) :
    T.todo t = [] ∨ ∃ r : Role, r.At (T.todo t) ∧ t ∈ T.waiting r.cond ∧
      ∃ l rest, T.todo t = .take l :: .back r.cond :: rest := by
  rcases h.blocked hproper hstuck t with hs | ⟨⟨r, hat⟩, -, howner | ⟨c, hc⟩⟩
  · exact .inl hs
  · exact absurd (h.owner_eq_none hproper hstuck) howner
  · obtain ⟨l, rest, hs⟩ := hproper.parked c t hc
    obtain rfl := Role.At.eq_cond (hs ▸ hat)
    exact .inr ⟨r, hat, hc, l, rest, hs⟩

theorem Monitored.not_stuck (h : Monitored T) (hproper : T.Proper)
    (hpresent : ∀ r : Role, Present r.function T) : ¬ T.Stuck := by
  intro hstuck
  have hparked := h.parked hproper hstuck
  have hnone : ∀ r : Role, r.stock T.client ≤ 0 := by
    intro r
    have hwaiting : T.waiting r.cond ≠ [] := by
      obtain ⟨t, a, ha, hwant⟩ := hpresent r
      rcases hparked t with hnil | ⟨q, hat, hmem, -⟩
      · rw [hnil] at ha
        cases ha
      · obtain rfl := hat.eq_of_wants ha hwant
        exact List.ne_nil_of_mem hmem
    have hclaims : r.supply.claims T = 0 := by
      refine Finset.sum_eq_zero fun t _ => ?_
      rcases hparked t with hnil | ⟨q, -, hmem, l, rest, hs⟩
      · simp [Supply.claimOf, hnil, Supply.claim]
      · by_cases hq : q = r
        · exact if_pos (hq ▸ hmem)
        · simp [Supply.claimOf, hs, Supply.claim, Role.supply, hq]
    exact hclaims ▸ (h.supplied r).enough hwaiting
  have hp := hnone .producer
  have hc := hnone .customer
  simp only [Role.stock, N] at hp hc
  omega

theorem monitored_start : Monitored (.start .threadTest .new values) where
  spot t := .inl (preparing_start _ t)
  exclusive t := by
    rw [(preparing_start monitorFunctions t).brackets]
    rfl
  supplied r := ⟨fun h => absurd rfl h, fun t h => by
    rw [(preparing_start monitorFunctions t).leaving] at h
    cases h⟩
  nonneg r := by cases r <;> decide

end

/-- What is shared is bounded, and some thread is running or ready. -/
theorem monitored_alive {build : Build} {schedPriority : Bool} {machine : Option Machine}
    {setup : List (Cmd Routine)} {hsetup : ∀ x ∈ setup, Sets monitorFunctions x}
    {P : Kernel Routine Globals → Env Unit → Prop}
    (hfork : ∀ r : Role, ∃ u, .call (.fork u r.function) ∈ setup) {k : Kernel Routine Globals}
    (h : (Kernel.systemWhere (config build schedPriority setup hsetup) (· = start machine)
      P).Reachable k) :
    0 ≤ k.client.shareNum ∧ k.client.shareNum ≤ N ∧ k.core.Alive := by
  have hinit : ∀ k, k = start machine → Kernel.Initial k := fun k hk => hk ▸ initial_start machine
  have hinv := Kernel.tasks_invariant
    (I := fun T => Monitored T ∧ ∀ r : Role, Present r.function T) hinit ?_ ?_ ?_ h
  · obtain ⟨hproper, hmonitored, hpresent⟩ := hinv
    have hroom : 0 ≤ N - k.client.shareNum := hmonitored.nonneg .producer
    refine ⟨hmonitored.nonneg .customer, by omega, ?_⟩
    by_contra hdead
    exact hmonitored.not_stuck hproper hpresent
      (Kernel.stuck_of_not_alive hinit (Kernel.reachable_of_where h) hdead)
  · rintro k rfl
    rw [tasks_start]
    exact ⟨monitored_start, fun r => present_start _⟩
  · rintro t T T' hproper - ⟨hmonitored, hpresent⟩ hfree hstep
    have hstep : Tasks.Step (program setup hsetup) t T T' := hstep
    exact ⟨hmonitored.step hproper hfree hstep, fun r =>
      hmonitored.present hproper hfree (hfork r) (hpresent r) hstep⟩
  · rintro k env T type - ⟨hmonitored, hpresent⟩
    exact ⟨hmonitored.handled env.handler type, fun r => (hpresent r).handled env.handler type⟩

/-- Both buffers are bounded, the branches for a full and an empty one are not taken, and some
thread can always go on. -/
theorem buffers_bounded (build : Build) (schedPriority : Bool) (machine : Option Machine)
    (setup : List (Cmd Routine)) :
    (∀ hsetup : ∀ x ∈ setup, Sets bufferFunctions x,
      (∃ u, .call (.fork u .producer) ∈ setup) → (∃ u, .call (.fork u .customer) ∈ setup) →
      ∀ k, (Kernel.systemWhere (config build schedPriority setup hsetup) (· = start machine)
        fun _ env => Apart env).Reachable k →
      0 ≤ k.client.msgQueue ∧ k.client.msgQueue ≤ N ∧ k.client.alreadyFull = false ∧
        k.client.alreadyEmpty = false ∧ k.core.Alive) ∧
    (∀ hsetup : ∀ x ∈ setup, Sets monitorFunctions x,
      (∃ u, .call (.fork u .producer1) ∈ setup) → (∃ u, .call (.fork u .customer1) ∈ setup) →
      ∀ k, (Kernel.systemWhere (config build schedPriority setup hsetup) (· = start machine)
        fun _ env => Apart env).Reachable k →
      0 ≤ k.client.shareNum ∧ k.client.shareNum ≤ N ∧ k.core.Alive) := by
  refine ⟨fun hsetup hp hc k hk => buffered_alive hp hc hk, fun hsetup hp hc k hk => ?_⟩
  refine monitored_alive (fun r => ?_) hk
  cases r with
  | producer => exact hp
  | customer => exact hc

theorem buffers_bounded_twoThreads :
    (∃ k : Kernel Routine Globals, k.client.msgQueue = 1 ∧ k.client.alreadyFull = false ∧
      k.client.alreadyEmpty = false ∧ k.core.Alive) ∧
    ∃ k : Kernel Routine Globals, k.client.shareNum = 1 ∧ k.core.Alive := by
  have hrun : (runTwo .producer .customer 44).map (·.client.msgQueue) = some 1 := by decide +kernel
  have hrun' : (runTwo .producer1 .customer1 41).map (·.client.shareNum) = some 1 := by
    decide +kernel
  obtain ⟨k, hk, hone⟩ := Option.map_eq_some_iff.mp hrun
  obtain ⟨k', hk', hone'⟩ := Option.map_eq_some_iff.mp hrun'
  have hbounded := (buffers_bounded _ _ _ _).1 (sets_twoThreads _ _) (mem_twoThreads _ _).1
    (mem_twoThreads _ _).2 k (reachable_of_runTwo hk)
  have hbounded' := (buffers_bounded _ _ _ _).2 (sets_twoThreads _ _) (mem_twoThreads _ _).1
    (mem_twoThreads _ _).2 k' (reachable_of_runTwo hk')
  exact ⟨⟨k, hone, hbounded.2.2⟩, k', hone', hbounded'.2.2⟩

end Nachos.ThreadTest
