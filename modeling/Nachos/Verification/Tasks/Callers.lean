import Nachos.Model.Component
import Nachos.Verification.Tasks.Monitor

/-! # Threads outside of a component

A thread that is not in one of the operations of a component leaves alone what belongs to it. -/

namespace Nachos

open Library

variable {φ γ ι : Type} {r : Component φ}

namespace Component

/-- An action that has nothing to do with the component. -/
def Outside (r : Component φ) : Action φ → Prop
  | .cmd (.run f) => f = r.caller
  | .cmd (.schedule _ type) => type ∉ r.interrupts
  | .cmd _ => True
  | .down n | .up n => n ∉ r.sems
  | .take l | .check l | .give l => l ∉ r.locks
  | .join c | .back c | .notify c | .notifyAll c => c ∉ r.conds
  | .start _ f => f = r.caller

def Outer (r : Component φ) (l : List (Action φ)) : Prop := ∀ a ∈ l, r.Outside a

theorem Outer.tail {a : Action φ} {l : List (Action φ)} (h : r.Outer (a :: l)) : r.Outer l :=
  fun b hb => h b (List.mem_cons_of_mem a hb)

theorem outer_nil : r.Outer [] := fun _ h => absurd h List.not_mem_nil

theorem Outer.append {l l' : List (Action φ)} (h : r.Outer l) (h' : r.Outer l') :
    r.Outer (l ++ l') := fun a ha => (List.mem_append.mp ha).elim (h a) (h' a)

theorem outer_of_outside {x : Cmd φ} (h : x.Outside r) : r.Outer x.actions := by
  cases x with
  | call y =>
      cases y with
      | p s | v s =>
          cases s with
          | user => simpa [Outer, Cmd.actions, Call.actions, Outside, Cmd.Outside] using h
          | lock => exact h.elim
      | wait c l =>
          obtain ⟨hc, hl⟩ := h
          simp [Outer, Cmd.actions, Call.actions, Outside, hc, hl]
      | signal c l | broadcast c l =>
          obtain ⟨hc, hl⟩ := h
          simp [Outer, Cmd.actions, Call.actions, Outside, hc, hl]
      | yield => exact outer_nil
      | acquire | release | fork => simpa [Outer, Cmd.actions, Call.actions, Outside, Cmd.Outside] using h
  | run f => simpa [Outer, Cmd.actions, Outside, Cmd.Outside] using h
  | schedule => simpa [Outer, Cmd.actions, Outside, Cmd.Outside] using h
  | setLevel | setStatus | oneTick => exact outer_nil
  | _ => simp [Outer, Cmd.actions, Outside]

/-- The caller does something else and goes on. -/
theorem outer_other {x : Cmd φ} {l : List (Action φ)} (hx : x.Outside r)
    (h : r.Outer (.cmd (.run r.caller) :: l)) :
    r.Outer ([x, .run r.caller].flatMap Cmd.actions ++ l) := by
  have hacts : [x, .run r.caller].flatMap Cmd.actions ++ l =
      x.actions ++ .cmd (.run r.caller) :: l := by simp [Cmd.actions]
  rw [hacts]
  exact (outer_of_outside hx).append h

variable {acts : List (Action φ)}

/-- The lock of a component is not held across what is done outside. -/
theorem Outer.brackets {l : ℕ} (h : r.Outer acts) (hl : l ∈ r.locks) (inside : Bool) :
    Nachos.brackets l inside acts = !inside := by
  induction acts with
  | nil => rfl
  | cons a acts ih =>
      rw [brackets_skip ?_, ih h.tail]
      have ha := h a List.mem_cons_self
      cases a with
      | take m | give m =>
          have hne : m ≠ l := fun heq => ha (heq ▸ hl)
          exact if_neg hne
      | _ => rfl

theorem Outer.leaving {s : Supply φ γ} (h : r.Outer acts) (hl : s.lock ∈ r.locks)
    (hc : s.cond ∈ r.conds) : s.leaving acts = false := by
  by_contra hleaving
  rw [Bool.not_eq_false] at hleaving
  rcases Supply.leaving_cases hleaving with hrel | ⟨rest, rfl⟩
  · have hb := Supply.brackets_of_releasing hrel
    rw [h.brackets hl] at hb
    cases hb
  · exact h _ List.mem_cons_self hc

/-- Outside nobody is on the way to what is there. -/
theorem Outer.claim [DecidableEq φ] {s : Supply φ γ} (h : r.Outer acts) (hc : s.cond ∈ r.conds)
    (htest : r.caller ≠ s.test) : s.claim acts = 0 := by
  have hback : Action.back s.cond ∉ acts := fun hm => h _ hm hc
  have hnotify : Action.notify s.cond ∉ acts := fun hm => h _ hm hc
  have hrun : Action.cmd (.run s.test) ∉ acts := fun hm => htest (h _ hm).symm
  fun_cases Supply.claim s acts <;> simp_all

/-- A step of a thread outside leaves the component alone; other threads keep what they have to
do, or start outside. -/
structure Untouched (r : Component φ) (program : Program φ γ ι) (t : ℕ) (T T' : Tasks φ γ) :
    Prop where
  value : ∀ n ∈ r.sems, T'.value n = T.value n
  owner : ∀ l ∈ r.locks, T'.owner l = T.owner l
  waiting : ∀ c ∈ r.conds, T'.waiting c = T.waiting c
  pending : ∀ type ∈ r.interrupts, T'.pending type = T.pending type
  client : T'.client = T.client
  own : r.Outer (T'.todo t) ∨ ∃ i cmds rest, T.todo t = .cmd (.run r.caller) :: rest ∧
    r.Outer rest ∧ program.step r.caller i T.client t = .ok (T.client, cmds) ∧
    T'.todo t = cmds.flatMap Cmd.actions ++ rest
  others : ∀ u, u ≠ t → T'.todo u = T.todo u ∨ T'.todo u = [.cmd (.run r.caller), .cmd .finish]

variable {program : Program φ γ ι} {T T' : Tasks φ γ} {t : ℕ}

theorem Outer.step (h : r.Outer (T.todo t)) (hstep : Tasks.Step program t T T')
    (hcaller : ∀ i g cmds, program.step r.caller i T.client t = .ok (g, cmds) → g = T.client) :
    r.Untouched program t T T' := by
  have hothers : (∀ u f rest, T.todo t ≠ .start u f :: rest) → ∀ u, u ≠ t →
      T'.todo u = T.todo u ∨ T'.todo u = [.cmd (.run r.caller), .cmd .finish] :=
    fun hstart u hu => .inl (hstep.others_eq hstart hu)
  have hfinish : ∀ cmds : List (Cmd φ), (∀ x ∈ cmds, x = .finish) →
      r.Outer (cmds.flatMap Cmd.actions) := by
    intro cmds hc a ha
    obtain ⟨x, hx, ha⟩ := List.mem_flatMap.mp ha
    rw [hc x hx] at ha
    rw [List.mem_singleton.mp ha]
    trivial
  cases hstep with
  | @run f i g cmds rest hs hp =>
      rw [hs] at h
      obtain rfl : f = r.caller := h _ List.mem_cons_self
      obtain rfl := hcaller i g cmds hp
      refine ⟨fun _ _ => rfl, fun _ _ => rfl, fun _ _ => rfl, fun _ _ => rfl, rfl,
        .inr ⟨i, cmds, rest, hs, h.tail, hp, by simp⟩, hothers (by simp [hs])⟩
  | finish hs =>
      exact ⟨fun _ _ => rfl, fun _ _ => rfl, fun _ _ => rfl, fun _ _ => rfl, rfl,
        .inl (by simpa using outer_nil), hothers (by simp [hs])⟩
  | newThread hs | skip hs | check hs | back hs | notifyNone hs | notifyAllNone hs =>
      rw [hs] at h
      exact ⟨fun _ _ => rfl, fun _ _ => rfl, fun _ _ => rfl, fun _ _ => rfl, rfl,
        .inl (by simpa using h.tail), hothers (by simp [hs])⟩
  | @schedule fromNow type rest hs =>
      rw [hs] at h
      have htype : type ∉ r.interrupts := h _ List.mem_cons_self
      refine ⟨fun _ _ => rfl, fun _ _ => rfl, fun _ _ => rfl, fun x hx => ?_, rfl,
        .inl (by simpa using h.tail), hothers (by simp [hs])⟩
      have hne : x ≠ type := fun heq => htype (heq ▸ hx)
      simp [hne]
  | @syscall cmds rest hs hc =>
      rw [hs] at h
      exact ⟨fun _ _ => rfl, fun _ _ => rfl, fun _ _ => rfl, fun _ _ => rfl, rfl,
        .inl (by simpa using (hfinish cmds hc).append h.tail), hothers (by simp [hs])⟩
  | @down n rest hs | @up n rest hs =>
      rw [hs] at h
      have hn : n ∉ r.sems := h _ List.mem_cons_self
      refine ⟨fun x hx => ?_, fun _ _ => rfl, fun _ _ => rfl, fun _ _ => rfl, rfl,
        .inl (by simpa [Tasks.up] using h.tail), hothers (by simp [hs])⟩
      have hne : x ≠ n := fun heq => hn (heq ▸ hx)
      simp [Tasks.up, hne]
  | @take l rest hs | @give l rest hs =>
      rw [hs] at h
      have hl : l ∉ r.locks := h _ List.mem_cons_self
      refine ⟨fun _ _ => rfl, fun x hx => ?_, fun _ _ => rfl, fun _ _ => rfl, rfl,
        .inl (by simpa using h.tail), hothers (by simp [hs])⟩
      have hne : x ≠ l := fun heq => hl (heq ▸ hx)
      simp [hne]
  | @join c rest hs | @notify c rest _ _ hs =>
      rw [hs] at h
      have hc : c ∉ r.conds := h _ List.mem_cons_self
      refine ⟨fun _ _ => rfl, fun _ _ => rfl, fun x hx => ?_, fun _ _ => rfl, rfl,
        .inl (by simpa using h.tail), hothers (by simp [hs])⟩
      have hne : x ≠ c := fun heq => hc (heq ▸ hx)
      simp [hne]
  | @notifyAll c rest u q hs hq =>
      have hc : c ∉ r.conds := by
        rw [hs] at h
        exact h _ List.mem_cons_self
      refine ⟨fun _ _ => rfl, fun _ _ => rfl, fun x hx => ?_, fun _ _ => rfl, rfl, .inl h,
        fun u _ => .inl rfl⟩
      have hne : x ≠ c := fun heq => hc (heq ▸ hx)
      simp [hne]
  | @start u f rest hs hu hne hnil =>
      rw [hs] at h
      obtain rfl : f = r.caller := h _ List.mem_cons_self
      refine ⟨fun _ _ => rfl, fun _ _ => rfl, fun _ _ => rfl, fun _ _ => rfl, rfl,
        .inl (by simpa [hne.symm] using h.tail), fun v hv => ?_⟩
      by_cases hvu : v = u
      · exact .inr (by simp [hvu])
      · exact .inl (by simp [hv, hvu])

/-- A thread outside does not have the lock, and does not get it in one step. -/
theorem Outer.exclusive {l : ℕ} (hexcl : T.Exclusive l) (h : r.Outer (T.todo t)) (hl : l ∈ r.locks)
    (hstep : Tasks.Step program t T T') (hown : Nachos.brackets l false (T'.todo t) = true) :
    T'.Exclusive l := by
  refine hexcl.step hstep fun x rest hs inside hb => ?_
  rw [hs] at h
  rw [h.tail.brackets hl] at hb
  obtain rfl : inside = false := by simpa using hb
  exact hown

theorem outer_caller {rest : List (Action φ)} (h : r.Outer rest) :
    r.Outer (.cmd (.run r.caller) :: rest) := by
  intro a ha
  rcases List.mem_cons.mp ha with rfl | ha
  · exact rfl
  · exact h a ha

theorem outer_start : r.Outer [.cmd (.run r.caller), .cmd .finish] :=
  outer_caller fun a ha => by
    rw [List.mem_singleton.mp ha]
    trivial

theorem outer_tasksStart {client : γ} {values : ℕ → ℤ} (t : ℕ) :
    r.Outer ((Tasks.start r.caller client values).todo t) := by
  by_cases ht : t = 0
  · simpa [ht] using outer_start
  · simp [ht, outer_nil]

end Component

/-! ## Handlers -/

/-- What a handler does that has nothing to do with the component. -/
def HandlerAct.Outside (r : Component φ) : HandlerAct → Prop
  | .schedule _ type => type ∉ r.interrupts
  | .v n => n ∉ r.sems
  | .yieldOnReturn => True

/-- Such handlers leave the component alone. -/
structure Component.Unhandled (r : Component φ) (T T' : Tasks φ γ) : Prop where
  created : T'.created = T.created
  todo : T'.todo = T.todo
  owner : T'.owner = T.owner
  client : T'.client = T.client
  value : ∀ n ∈ r.sems, T'.value n = T.value n
  pending : ∀ type ∈ r.interrupts, T'.pending type = T.pending type

theorem Component.unhandled_act {T T' : Tasks φ γ} (h : r.Unhandled T T') {act : HandlerAct}
    (hact : act.Outside r) : r.Unhandled T (T'.act act) := by
  cases act with
  | schedule fromNow type =>
      refine ⟨h.created, h.todo, h.owner, h.client, h.value, fun x hx => ?_⟩
      have hne : x ≠ type := fun heq => hact (heq ▸ hx)
      rw [← h.pending x hx]
      simp [Tasks.act, hne]
  | v m =>
      refine ⟨h.created, h.todo, h.owner, h.client, fun x hx => ?_, h.pending⟩
      have hne : x ≠ m := fun heq => hact (heq ▸ hx)
      rw [← h.value x hx]
      simp [Tasks.act, Tasks.up, hne]
  | yieldOnReturn => exact h

theorem Component.unhandled_of_outside {acts : List HandlerAct}
    (hacts : ∀ act ∈ acts, act.Outside r) {T T' : Tasks φ γ} (h : r.Unhandled T T') :
    r.Unhandled T (acts.foldl Tasks.act T') := by
  induction acts generalizing T' with
  | nil => exact h
  | cons act acts ih =>
      exact ih (fun a ha => hacts a (List.mem_cons_of_mem act ha))
        (unhandled_act h (hacts act List.mem_cons_self))

/-- Another interrupt occurs. -/
theorem Component.unhandled_occur {T : Tasks φ γ} {type : IntType} (htype : type ∉ r.interrupts) :
    r.Unhandled T (T.occur type) := by
  refine ⟨rfl, rfl, rfl, rfl, fun _ _ => rfl, fun x hx => ?_⟩
  have hne : x ≠ type := fun heq => htype (heq ▸ hx)
  simp [Tasks.occur, hne]

end Nachos
