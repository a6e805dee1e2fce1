import Nachos.Model.SynchList
import Nachos.Verification.Kernel.Execution
import Nachos.Verification.LinkedList.Chains
import Nachos.Verification.Tasks.Callers
import Nachos.Verification.Tasks.Stuck

/-! # Synchronized lists are channels

What is removed is what has been appended, in the same order. A thread that waits for an item
does not miss one: as long as some threads wait, enough others are on their way to the list. -/

namespace Nachos.SynchList

open Library LinkedList

/-! ## Where a thread is -/

/-- The end of both operations. -/
def ending (l : List (Action Routine)) : List (Action Routine) := .check lock :: .give lock :: l

def signalling (l : List (Action Routine)) : List (Action Routine) :=
  .check lock :: .notify listEmpty :: ending l

def testing (l : List (Action Routine)) : List (Action Routine) := .cmd (.run .remove) :: ending l

def asleep (l : List (Action Routine)) : List (Action Routine) :=
  .take lock :: .back listEmpty :: testing l

inductive Spot : List (Action Routine) → Prop where
  | outside {l} (h : component.Outer l) : Spot l
  | enterAppend {item l} (h : component.Outer l) :
      Spot (.take lock :: .cmd (.run (.append item)) :: signalling l)
  | append {item l} (h : component.Outer l) : Spot (.cmd (.run (.append item)) :: signalling l)
  | signal {l} (h : component.Outer l) : Spot (signalling l)
  | notify {l} (h : component.Outer l) : Spot (.notify listEmpty :: ending l)
  | enterRemove {l} (h : component.Outer l) : Spot (.take lock :: testing l)
  | remove {l} (h : component.Outer l) : Spot (testing l)
  | wait {l} (h : component.Outer l) :
      Spot (.check lock :: .check lock :: .give lock :: .join listEmpty :: asleep l)
  | waitRelease {l} (h : component.Outer l) :
      Spot (.check lock :: .give lock :: .join listEmpty :: asleep l)
  | waitGive {l} (h : component.Outer l) : Spot (.give lock :: .join listEmpty :: asleep l)
  | join {l} (h : component.Outer l) : Spot (.join listEmpty :: asleep l)
  | asleep {l} (h : component.Outer l) : Spot (asleep l)
  | awake {l} (h : component.Outer l) : Spot (.back listEmpty :: testing l)
  | release {l} (h : component.Outer l) : Spot (ending l)
  | give {l} (h : component.Outer l) : Spot (.give lock :: l)

/-! ## The list -/

/-- The items in the list have been appended and not yet removed. -/
structure Channel.Sound (g : Channel) : Prop where
  contents : ∃ xs, Chain g.list xs ∧ g.removed ++ xs.map (·.2.item) = g.appended
  notNull : ∀ item ∈ g.appended, item ≠ NULL

theorem sound_new : Channel.new.Sound := ⟨⟨[], chain_new, rfl⟩, by simp [Channel.new]⟩

variable {g : Channel}

theorem Channel.Sound.append (h : g.Sound) (item : Item) (i : Use component Op) :
    ∃ g', step g (.append item) i = .ok (g', []) ∧ g'.Sound ∧
      g'.list.numInList = g.list.numInList + 1 := by
  obtain ⟨xs, hchain, hitems⟩ := h.contents
  obtain ⟨l, happend, hchain'⟩ := append_chain hchain item.1
  refine ⟨_, bind_eq_ok.mpr ⟨l, happend, rfl⟩, ⟨⟨_, hchain', ?_⟩, fun x hx => ?_⟩, ?_⟩
  · rw [List.map_append, ← List.append_assoc, hitems]
    rfl
  · rcases List.mem_append.mp hx with hx | hx
    · exact h.notNull x hx
    · rw [List.mem_singleton.mp hx]
      exact item.2
  · dsimp only
    rw [hchain'.count, hchain.count]
    simp

/-- `Remove` waits, or it takes the first item, which is not null. -/
theorem Channel.Sound.remove (h : g.Sound) (i : Use component Op) :
    (g.list.numInList = 0 ∧
      step g .remove i = .ok (g, [.call (.wait listEmpty lock), .run .remove])) ∨
    (0 < g.list.numInList ∧ ∃ g', step g .remove i = .ok (g', []) ∧ g'.Sound ∧
      g'.list.numInList = g.list.numInList - 1) := by
  obtain ⟨xs, hchain, hitems⟩ := h.contents
  cases xs with
  | nil =>
      refine .inl ⟨hchain.count, ?_⟩
      have hempty : g.list.isEmpty = true := by
        rw [isEmpty, hchain.isEmpty_iff.mpr rfl]
        rfl
      rw [step, if_pos hempty]
  | cons x xs =>
      obtain ⟨l, hremove, hchain'⟩ := remove_cons hchain
      have hempty : ¬ g.list.isEmpty = true := by
        rw [hchain.isEmpty_eq_false (by simp)]
        simp
      have hmem : x.2.item ∈ g.appended := by simp [← hitems]
      refine .inr ⟨by rw [hchain.count]; simp, { g with
        list := l
        removed := g.removed ++ [x.2.item] }, ?_, ⟨⟨xs, hchain', ?_⟩, h.notNull⟩, ?_⟩
      · rw [step, if_neg hempty, hremove, ok_bind]
        dsimp only
        rw [Option.getD_some, assert_of_true (h.notNull _ hmem)]
        rfl
      · simpa using hitems
      · dsimp only
        rw [hchain'.count, hchain.count]
        simp

/-! ## Steps -/

def supply : Supply Routine Channel := ⟨lock, listEmpty, .remove, fun g => g.list.numInList⟩

variable {T T' : Tasks Routine Channel} {t : ℕ} {g' : Channel} {l' rest : List (Action Routine)}

/-- What a thread that is in one of the operations does next. -/
inductive Next (g g' : Channel) : List (Action Routine) → List (Action Routine) → Prop where
  | append {item l} (h : component.Outer l) (hg : g'.Sound)
      (hstock : g'.list.numInList = g.list.numInList + 1) :
      Next g g' (.cmd (.run (.append item)) :: signalling l) (signalling l)
  | wait {l} (h : component.Outer l) (hzero : g.list.numInList = 0) (hg : g' = g) :
      Next g g' (testing l)
        (.check lock :: .check lock :: .give lock :: .join listEmpty :: SynchList.asleep l)
  | remove {l} (h : component.Outer l) (hpos : 0 < g.list.numInList) (hg : g'.Sound)
      (hstock : g'.list.numInList = g.list.numInList - 1) : Next g g' (testing l) (ending l)
  | pop {a l} (ha : ∀ x, a ≠ .cmd x) (hstart : ∀ u f, a ≠ .start u f) (h : Spot l)
      (hg : g' = g) : Next g g' (a :: l) l

/-- A thread is outside, or it is in one of the operations and goes on there. -/
theorem Spot.next (h : Spot (T.todo t)) (hg : T.client.Sound)
    (hstep : Tasks.Step program t T T') :
    component.Outer (T.todo t) ∨ Next T.client T'.client (T.todo t) (T'.todo t) := by
  have hout := hstep.outcome
  generalize hs : T.todo t = l at h hout
  have hpop : ∀ a rest, T.todo t = a :: rest → Tasks.Once a → Spot rest →
      Next T.client T'.client (a :: rest) (T'.todo t) := by
    intro a rest hs ha hrest
    obtain ⟨hclient, htodo⟩ := hstep.pop hs ha
    rw [htodo]
    exact .pop (by rintro x rfl; exact ha) (by rintro u f rfl; exact ha) hrest hclient
  cases h with
  | outside h => exact .inl h
  | enterAppend h => exact .inr (hpop _ _ hs trivial (.append h))
  | append h =>
      obtain ⟨i, g, cmds, hcode, rfl⟩ := hout
      obtain ⟨g', hcode', hsound, hstock⟩ := hg.append _ i
      cases hcode'.symm.trans hcode
      rw [Tasks.setClient_todo, Tasks.goto_todo, Function.update_self]
      exact .inr (.append h hsound hstock)
  | signal h => exact .inr (hpop _ _ hs trivial (.notify h))
  | notify h => exact .inr (hpop _ _ hs trivial (.release h))
  | enterRemove h => exact .inr (hpop _ _ hs trivial (.remove h))
  | remove h =>
      obtain ⟨i, g, cmds, hcode, rfl⟩ := hout
      rw [Tasks.setClient_todo, Tasks.goto_todo, Function.update_self]
      rcases hg.remove i with ⟨hzero, hcode'⟩ | ⟨hpos, g', hcode', hsound, hstock⟩
      · cases hcode'.symm.trans hcode
        exact .inr (.wait h hzero rfl)
      · cases hcode'.symm.trans hcode
        exact .inr (.remove h hpos hsound hstock)
  | wait h => exact .inr (hpop _ _ hs trivial (.waitRelease h))
  | waitRelease h => exact .inr (hpop _ _ hs trivial (.waitGive h))
  | waitGive h => exact .inr (hpop _ _ hs trivial (.join h))
  | join h => exact .inr (hpop _ _ hs trivial (.asleep h))
  | asleep h => exact .inr (hpop _ _ hs trivial (.awake h))
  | awake h => exact .inr (hpop _ _ hs trivial (.remove h))
  | release h => exact .inr (hpop _ _ hs trivial (.give h))
  | give h => exact .inr (hpop _ _ hs trivial (.outside h))

theorem Next.spot {l : List (Action Routine)} (h : Next g g' l l') : Spot l' := by
  cases h with
  | append h => exact .signal h
  | wait h => exact .wait h
  | remove h => exact .release h
  | pop _ _ h => exact h

theorem Next.sound {l : List (Action Routine)} (h : Next g g' l l') (hg : g.Sound) : g'.Sound := by
  cases h with
  | append _ h | remove _ _ h => exact h
  | wait _ _ h | pop _ _ _ h => exact h ▸ hg

/-- Operations begin with the lock. -/
theorem spot_of_caller {i : Use component Op} {cmds : List (Cmd Routine)}
    (h : step g .caller i = .ok (g', cmds)) (hrest : component.Outer rest) :
    g' = g ∧ Spot (cmds.flatMap Cmd.actions ++ rest) ∧
      brackets lock false (cmds.flatMap Cmd.actions ++ rest) = true ∧
      supply.leaving (cmds.flatMap Cmd.actions ++ rest) = false := by
  have hcaller : component.Outer (.cmd (.run .caller) :: rest) := Component.outer_caller hrest
  have houter : ∀ l, component.Outer l → Spot l ∧ brackets lock false l = true ∧
      supply.leaving l = false := fun l hl =>
    ⟨.outside hl, hl.brackets (List.mem_singleton_self _) _,
      hl.leaving (List.mem_singleton_self _) (List.mem_singleton_self _)⟩
  have hb := hcaller.brackets (l := lock) (List.mem_singleton_self _) false
  cases i with
  | call op =>
      cases op with
      | append item =>
          cases h
          exact ⟨rfl, .enterAppend hcaller, hb, rfl⟩
      | remove =>
          cases h
          exact ⟨rfl, .enterRemove hcaller, hb, rfl⟩
  | other x =>
      cases h
      exact ⟨rfl, houter _ (Component.outer_other x.2 hcaller)⟩
  | leave =>
      cases h
      exact ⟨rfl, houter _ hrest⟩

/-! ## The invariant -/

structure Working (T : Tasks Routine Channel) : Prop where
  spot : ∀ t, Spot (T.todo t)
  exclusive : T.Exclusive lock
  supplied : supply.Supplied T
  sound : T.client.Sound

/-- The lock is taken and given back in turn, whatever a thread finds. -/
theorem Next.brackets {x : Cmd Routine} (h : Next g g' (.cmd x :: rest) l') {inside : Bool}
    (hb : brackets lock inside rest = true) : brackets lock inside l' = true := by
  generalize hl : Action.cmd x :: rest = l at h
  cases h with
  | append =>
      cases hl
      exact hb
  | wait | remove =>
      cases hl
      cases inside
      · cases hb
      · exact hb
  | pop ha =>
      cases hl
      exact absurd rfl (ha x)

theorem Next.ne_start {l : List (Action Routine)} (h : Next g g' l l') (u : ℕ) (f : Routine)
    (rest : List (Action Routine)) : l ≠ .start u f :: rest := by
  rintro rfl
  cases h with
  | pop _ hstart => exact hstart u f rfl

/-- A thread that gives the lock back at the end of an operation does not wait then. -/
theorem leaving_give {l : List (Action Routine)} (h : component.Outer l) :
    supply.leaving (.give lock :: l) = false := by
  cases l with
  | nil => rfl
  | cons a l =>
      cases a with
      | join c =>
          have hc : c ∉ [listEmpty] := h _ List.mem_cons_self
          have hne : c ≠ listEmpty := fun heq => hc (by simp [heq])
          simp [Supply.leaving, Supply.releasing, supply, hne]
      | _ => rfl

theorem leaving_ending {l : List (Action Routine)} (h : component.Outer l) :
    supply.leaving (ending l) = false := by
  have hgive := leaving_give h
  simpa [ending, Supply.leaving, Supply.releasing] using hgive

theorem outer_claim {l : List (Action Routine)} (h : component.Outer l) : supply.claim l = 0 :=
  h.claim (List.mem_singleton_self _) (by simp [component, supply])

theorem outer_leaving {l : List (Action Routine)} (h : component.Outer l) :
    supply.leaving l = false :=
  h.leaving (List.mem_singleton_self _) (List.mem_singleton_self _)

/-- A piece of code makes up for what it changes, and a thread waits only if the list is empty. -/
theorem Next.claims {f : Routine} (h : Next g g' (.cmd (.run f) :: rest) l') :
    (supply.stock g' = supply.stock g ∨ Nachos.brackets lock false (.cmd (.run f) :: rest) = false) ∧
    (supply.stock g' ≤ 0 ∨ supply.stock g' + supply.claim (.cmd (.run f) :: rest) ≤
      supply.stock g + supply.claim l') ∧ (supply.leaving l' = true → supply.stock g' ≤ 0) := by
  generalize hl : Action.cmd (Cmd.run f) :: rest = l at h
  cases h with
  | append h _ hstock =>
      refine ⟨.inr rfl, .inr ?_, fun hleaving => by cases hleaving⟩
      simp [supply, Supply.claim, signalling, hstock]
  | wait h hzero hg =>
      subst hg
      exact ⟨.inl rfl, .inl hzero.le, fun _ => hzero.le⟩
  | remove h hpos _ hstock =>
      refine ⟨.inr rfl, .inr ?_, fun hleaving => ?_⟩
      · simp [supply, Supply.claim, testing, ending, hstock]
      · rw [leaving_ending h] at hleaving
        cases hleaving
  | pop ha =>
      cases hl
      exact absurd rfl (ha _)

theorem Spot.guarded (h : Spot (T.todo t)) (hexcl : T.Exclusive lock) (hg : T.client.Sound) :
    supply.Guarded program T t where
  back rest hs := by
    rw [hs] at h
    generalize hl : Action.back supply.cond :: rest = l at h
    cases h with
    | outside h =>
        subst hl
        exact absurd (List.mem_singleton_self _) (h _ List.mem_cons_self)
    | awake =>
        cases hl
        rfl
    | _ => cases hl
  leave a rest hs _ hleaving := by
    rw [hs] at h
    generalize hl : a :: rest = l at h
    cases h with
    | outside h =>
        subst hl
        rw [outer_leaving h.tail] at hleaving
        cases hleaving
    | wait | waitRelease | waitGive =>
        cases hl
        rfl
    | remove h | notify h =>
        cases hl
        rw [leaving_ending h] at hleaving
        cases hleaving
    | release h =>
        cases hl
        rw [leaving_give h] at hleaving
        cases hleaving
    | give h =>
        cases hl
        rw [outer_leaving h] at hleaving
        cases hleaving
    | _ =>
        cases hl
        cases hleaving
  run f i g cmds rest hs hcode := by
    have hstep : Tasks.Step program t T _ := .run hs hcode
    rcases h.next hg hstep with houter | hnext
    · rw [hs] at houter
      obtain rfl : f = .caller := houter _ List.mem_cons_self
      obtain ⟨rfl, -, -, hleaving⟩ := spot_of_caller hcode houter.tail
      refine ⟨.inl rfl, .inr ?_, fun h => ?_⟩
      · rw [hs, outer_claim houter]
        exact Int.add_le_add_left (Supply.claim_nonneg _) _
      · rw [hleaving] at h
        cases h
    · simp only [Tasks.setClient_client, Tasks.setClient_todo, Tasks.goto_todo,
        Function.update_self] at hnext
      rw [hs] at hnext
      obtain ⟨hstock, hclaims⟩ := hnext.claims
      rw [hs]
      exact ⟨hstock.imp_right fun hb => hexcl.owner_of_inside (hs ▸ hb), hclaims⟩

theorem Working.step (h : Working T) (hproper : T.Proper) (hfree : T.Free t)
    (hstep : Tasks.Step program t T T') : Working T' := by
  have hsupplied := h.supplied.step h.exclusive hproper hfree
    ((h.spot t).guarded h.exclusive h.sound) hstep
  rcases (h.spot t).next h.sound hstep with houter | hnext
  · have huntouched := houter.step hstep fun i g cmds hcode =>
      (spot_of_caller hcode Component.outer_nil).1
    have hown : Spot (T'.todo t) ∧ (brackets lock false (T'.todo t) = true) := by
      rcases huntouched.own with hout | ⟨i, cmds, rest, -, hrest, hcode, htodo⟩
      · exact ⟨.outside hout, hout.brackets (List.mem_singleton_self _) _⟩
      · obtain ⟨-, hspot, hb, -⟩ := spot_of_caller hcode hrest
        rw [htodo]
        exact ⟨hspot, hb⟩
    refine ⟨fun u => ?_, ?_, hsupplied, huntouched.client ▸ h.sound⟩
    · by_cases hu : u = t
      · exact hu ▸ hown.1
      · rcases huntouched.others u hu with hsame | hnew
        · exact hsame ▸ h.spot u
        · rw [hnew]
          exact .outside Component.outer_start
    · exact houter.exclusive h.exclusive (List.mem_singleton_self _) hstep hown.2
  · refine ⟨fun u => ?_, ?_, hsupplied, hnext.sound h.sound⟩
    · by_cases hu : u = t
      · exact hu ▸ hnext.spot
      · rw [hstep.others_eq hnext.ne_start hu]
        exact h.spot u
    · refine h.exclusive.step hstep fun x rest hs inside hb => ?_
      rw [hs] at hnext
      exact hnext.brackets hb

theorem Working.handled (h : Working T) (acts : List HandlerAct) (type : IntType) :
    Working (acts.foldl Tasks.act (T.occur type)) :=
  Tasks.handled (I := Working)
    (fun _ _ _ hT => ⟨hT.spot, hT.exclusive, ⟨hT.supplied.enough, hT.supplied.reason⟩, hT.sound⟩)
    (fun _ _ _ hT => ⟨hT.spot, hT.exclusive, ⟨hT.supplied.enough, hT.supplied.reason⟩, hT.sound⟩)
    h type

theorem working_start (values : ℕ → ℤ) : Working (.start .caller .new values) := by
  have houter : ∀ t, component.Outer ((Tasks.start Routine.caller Channel.new values).todo t) :=
    Component.outer_tasksStart
  refine ⟨fun t => .outside (houter t), fun t => ?_, ⟨fun h => absurd rfl h, fun t h => ?_⟩,
    sound_new⟩
  · exact (houter t).brackets (List.mem_singleton_self _) _
  · rw [outer_leaving (houter t)] at h
    cases h

/-! ## Waiting -/

/-- A remover that has been woken up and has not got the lock yet. -/
def signalled (T : Tasks Routine Channel) (t : ℕ) : Bool :=
  t ∉ T.waiting listEmpty && match T.todo t with
    | .take l :: .back c :: _ => l = lock ∧ c = listEmpty
    | _ => false

/-- While nobody has the lock, those that have been woken up are the only ones on the way. -/
theorem Working.claimOf_le (h : Working T) (hfree : T.owner lock = none) (t : ℕ) :
    supply.claimOf T t ≤ if signalled T t = true then 1 else 0 := by
  have hout := h.exclusive.outside (t := t) (by rw [hfree]; simp)
  have hspot := h.spot t
  have hnonneg : (0 : ℤ) ≤ if signalled T t = true then 1 else 0 := by split <;> simp
  by_cases hmem : t ∈ T.waiting listEmpty
  · exact (if_pos hmem).trans_le hnonneg
  · refine (if_neg hmem).trans_le ?_
    unfold signalled at hnonneg ⊢
    generalize T.todo t = l at hspot hout hnonneg
    cases hspot with
    | outside hl => exact (outer_claim hl).trans_le hnonneg
    | enterAppend | enterRemove | join => exact hnonneg
    | asleep => simp [supply, Supply.claim, SynchList.asleep, hmem]
    | _ => cases hout

/-- Who has the lock can go on. -/
theorem Working.owner_eq_none (h : Working T) (hproper : T.Proper) (hstuck : T.Stuck) :
    T.owner lock = none := by
  by_contra hne
  obtain ⟨u, hu⟩ := Option.ne_none_iff_exists'.mp hne
  have hinside := h.exclusive.inside hu
  have htake : ∀ l rest, T.todo u ≠ .take l :: rest := by
    intro l rest hs
    have hspot := h.spot u
    rw [hs] at hspot hinside
    generalize hl : Action.take l :: rest = acts at hspot hinside
    cases hspot with
    | outside houter =>
        rw [houter.brackets (List.mem_singleton_self _)] at hinside
        cases hinside
    | enterAppend | enterRemove | asleep => cases hinside
    | _ => cases hl
  rcases hstuck u with hs | ⟨n, rest, hs, -⟩ | ⟨l, rest, hs, -⟩ | ⟨c, hc⟩
  · rw [hs] at hinside
    cases hinside
  · have hspot := h.spot u
    rw [hs] at hspot hinside
    generalize hl : Action.down n :: rest = acts at hspot hinside
    cases hspot with
    | outside houter =>
        rw [houter.brackets (List.mem_singleton_self _)] at hinside
        cases hinside
    | _ => cases hl
  · exact htake l rest hs
  · obtain ⟨l, rest, hs⟩ := hproper.parked c u hc
    exact htake l _ hs

section

variable {build : Build} {schedPriority : Bool} {values : ℕ → ℤ} {machine : Option Machine}
  {k : Kernel Routine Channel}

theorem initial_start (hvalues : ∀ n, 0 ≤ values n) : (start values machine).Initial :=
  ⟨_, _, values, machine, hvalues, rfl⟩

theorem working (hvalues : ∀ n, 0 ≤ values n)
    (h : (Kernel.system (config build schedPriority) (· = start values machine)).Reachable k) :
    k.core.tasks.Proper ∧ Working k.core.tasks := by
  have hwhere : (Kernel.systemWhere (config build schedPriority) (· = start values machine)
      fun _ _ => True).Reachable k := h.mono (fun _ hinit => hinit) fun _ _ _ _ hstep => ⟨trivial, hstep⟩
  refine Kernel.tasks_invariant ?_ ?_ ?_ ?_ hwhere
  · rintro k rfl
    exact initial_start hvalues
  · rintro k rfl
    rw [start, Kernel.core_start, Core.tasks_start]
    exact working_start values
  · intro t T T' hproper _ hT hfree hstep
    exact hT.step hproper hfree hstep
  · intro k env T type _ hT
    exact hT.handled env.handler type

theorem run_returns (hsound : k.client.Sound) (f : Routine) (i : Use component Op) :
    ∃ g cmds, step k.client f i = .ok (g, cmds) := by
  cases f with
  | caller =>
      cases i with
      | call op => cases op <;> exact ⟨_, _, rfl⟩
      | other | leave => exact ⟨_, _, rfl⟩
  | append item =>
      obtain ⟨g, hg, -⟩ := hsound.append item i
      exact ⟨g, _, hg⟩
  | remove =>
      rcases hsound.remove i with ⟨-, hg⟩ | ⟨-, g, hg, -⟩
      · exact ⟨_, _, hg⟩
      · exact ⟨g, _, hg⟩

end

end Nachos.SynchList
