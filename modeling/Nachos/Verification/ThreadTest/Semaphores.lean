import Nachos.Verification.ThreadTest.Setup

/-! # Producers and consumers with semaphores

What is in the buffer is what `full` counts, and what threads have put there and not yet
counted, or counted off and not yet taken. -/

namespace Nachos.ThreadTest

open Library

/-- Producers and consumers do the same with slots and items changed round. -/
inductive Role where
  | producer
  | customer
  deriving DecidableEq

variable {r : Role} {l : List (Action Routine)}

namespace Role

def other : Role → Role
  | producer => customer
  | customer => producer

def loop : Role → Routine
  | producer => .producer
  | customer => .customer

/-- What is done under `mutex`. -/
def turn : Role → Routine
  | producer => .produce
  | customer => .consume

/-- The semaphore for slots or for items. -/
def awaits : Role → ℕ
  | producer => empty
  | customer => full

/-- Free slots for producers, and items for consumers. -/
def found : Role → Globals → ℤ
  | producer, g => N - g.msgQueue
  | customer, g => g.msgQueue

/-- What a turn adds to the buffer. -/
def gain : Role → ℤ
  | producer => 1
  | customer => -1

def working (r : Role) : List (Action Routine) :=
  [.down r.awaits, .down mutex, .cmd (.run r.turn), .up mutex, .up r.other.awaits]

theorem step_loop (setup : List (Cmd Routine)) (r : Role) (g : Globals) :
    ∃ cmds, step setup g r.loop = .ok (g, cmds) ∧
      cmds.flatMap Cmd.actions = r.working ++ [.cmd (.run r.loop)] := by
  cases r with
  | producer => exact ⟨_, rfl, rfl⟩
  | customer => exact ⟨_, rfl, rfl⟩

/-- The branch for a full or an empty buffer is not taken if there is something. -/
theorem step_turn {setup cmds : List (Cmd Routine)} {g g' : Globals} (hpos : 0 < r.found g)
    (h : step setup g r.turn = .ok (g', cmds)) :
    cmds = [] ∧ g' = { g with msgQueue := g.msgQueue + r.gain } := by
  cases r with
  | producer =>
      have hlt : ¬ g.msgQueue ≥ N := by
        simp only [found] at hpos
        omega
      rw [turn, step, if_neg hlt] at h
      obtain ⟨n, hn, h⟩ := bind_eq_ok.mp h
      cases h
      rw [add32_eq_ok hn]
      exact ⟨rfl, rfl⟩
  | customer =>
      have hlt : ¬ g.msgQueue ≤ 0 := not_le.mpr hpos
      rw [turn, step, if_neg hlt] at h
      obtain ⟨n, hn, h⟩ := bind_eq_ok.mp h
      cases h
      rw [add32_eq_ok hn]
      exact ⟨rfl, rfl⟩

/-- A thread in the loop of one kind wants no thread of the other kind. -/
theorem eq_of_wants {q : Role} (h : Looping q.loop q.working l) {a : Action Routine} (ha : a ∈ l)
    (hwant : Wants r.loop a) : r = q := by
  have hbody : ∀ a ∈ q.working, ¬ Wants r.loop a := by
    cases q <;> cases r <;> simp [working, turn, loop, Wants]
  have heq : r.loop = q.loop := h.eq_of_wants hbody (by cases q <;> simp [loop]) ha hwant
  cases q <;> cases r <;> first | rfl | cases heq

end Role

/-- What a thread has yet to count, or has counted off. -/
def stocked : Action Routine → ℤ
  | .cmd (.run .consume) => 1
  | .cmd (.run .produce) => -1
  | a => net full a

/-- The slots and items that a thread has taken and not given back. -/
def reserved (a : Action Routine) : ℤ := net empty a + net full a

abbrev bufferFunctions : List Routine := [.producer, .customer]

/-- Where a thread of this test is. -/
def BufferSpot (l : List (Action Routine)) : Prop :=
  Preparing bufferFunctions l ∨ ∃ r : Role, Looping r.loop r.working l

theorem suffix_cases {body p : List (Action Routine)} (h : p <:+ body) : p ∈ body.tails :=
  (List.mem_tails p body).mpr h

/-- Nobody gives back what he does not have, and an item takes a slot. -/
theorem BufferSpot.weigh_nonneg (h : BufferSpot l) :
    0 ≤ weigh (net mutex) l ∧ 0 ≤ weigh stocked l ∧ weigh stocked l ≤ weigh reserved l := by
  rcases h with h | ⟨r, p, hp, rfl⟩
  · have hzero : ∀ w : Action Routine → ℤ, (∀ a, Setting bufferFunctions a → w a = 0) →
        w (.cmd .finish) = 0 → weigh w l = 0 := fun w hw hf => h.weigh_eq_zero hw hf
    rw [hzero (net mutex), hzero stocked, hzero reserved]
    · simp
    all_goals first | rfl | (rintro a (rfl | ⟨_, _, rfl⟩ | ⟨_, _, _, rfl⟩) <;> rfl)
  · have hp := suffix_cases hp
    simp only [Role.working, List.tails, List.mem_cons, List.not_mem_nil, or_false] at hp
    rcases hp with rfl | rfl | rfl | rfl | rfl | rfl <;> cases r <;> decide

structure Buffered (T : Tasks Routine Globals) : Prop where
  spot : ∀ t, BufferSpot (T.todo t)
  waiting : ∀ x, T.waiting x = []
  exclusive : T.value mutex + T.total (net mutex) = 1
  room : T.value empty + T.value full + T.total reserved = N
  content : T.client.msgQueue = T.value full + T.total stocked
  alreadyFull : T.client.alreadyFull = false
  alreadyEmpty : T.client.alreadyEmpty = false

variable {T T' : Tasks Routine Globals} {t : ℕ}

theorem Buffered.bounds (h : Buffered T) (hproper : T.Proper) :
    0 ≤ T.client.msgQueue ∧ T.client.msgQueue ≤ N := by
  have hstocked := Tasks.total_nonneg fun u => (h.spot u).weigh_nonneg.2.1
  have hreserved := Tasks.total_mono fun u => (h.spot u).weigh_nonneg.2.2
  have hroom := h.room
  have hcontent := h.content
  have hempty := hproper.nonneg empty
  have hfull := hproper.nonneg full
  constructor <;> omega

/-- A thread goes on, and what it has to do makes up for what it has changed. -/
theorem Buffered.move (h : Buffered T) (hfree : T.Free t) {f : Routine}
    {body : List (Action Routine)} (hl : Looping f body l) (hspot : BufferSpot l)
    (htodo : T'.todo = Function.update T.todo t l) (hcreated : T'.created = T.created)
    (hwaiting : T'.waiting = T.waiting)
    (hmutex : T'.value mutex - T.value mutex = weigh (net mutex) (T.todo t) - weigh (net mutex) l)
    (hroom : T'.value empty + T'.value full - (T.value empty + T.value full) =
      weigh reserved (T.todo t) - weigh reserved l)
    (hcontent : T'.client.msgQueue - T'.value full - (T.client.msgQueue - T.value full) =
      weigh stocked l - weigh stocked (T.todo t))
    (hflags : T'.client.alreadyFull = false ∧ T'.client.alreadyEmpty = false) :
    Buffered T' ∧ Looping f body (T'.todo t) := by
  have htotal : ∀ w, T'.total w = T.total w + (weigh w l - weigh w (T.todo t)) := by
    intro w
    rw [← Tasks.total_goto hfree.lt_created, Tasks.total, Tasks.total, htodo, hcreated]
    rfl
  have hold := h.exclusive
  have hold' := h.room
  have hold'' := h.content
  refine ⟨⟨fun u => ?_, hwaiting ▸ h.waiting, ?_, ?_, ?_, hflags.1, hflags.2⟩,
    by simpa [htodo] using hl⟩
  · rw [htodo]
    by_cases hu : u = t
    · rw [hu, Function.update_self]
      exact hspot
    · rw [Function.update_of_ne hu]
      exact h.spot u
  · rw [htotal]
    omega
  · rw [htotal]
    omega
  · rw [htotal]
    omega

section

variable {setup : List (Cmd Routine)} {hsetup : ∀ x ∈ setup, Sets bufferFunctions x}

theorem Buffered.prepare (h : Buffered T) (hprep : Prepared bufferFunctions setup t T T') :
    Buffered T' := by
  have htotal : ∀ w : Action Routine → ℤ, (∀ a, Setting bufferFunctions a → w a = 0) →
      w (.cmd .finish) = 0 → (∀ f ∈ bufferFunctions, w (.cmd (.run f)) = 0) →
      T'.total w = T.total w := hprep.total
  have hsetting : ∀ w : Action Routine → ℤ, w (.cmd (.run .threadTest)) = 0 →
      (∀ pri uninit, w (.cmd (.newThread pri uninit)) = 0) → (∀ u f, w (.start u f) = 0) →
      ∀ a, Setting bufferFunctions a → w a = 0 := by
    rintro w h₁ h₂ h₃ a (rfl | ⟨_, _, rfl⟩ | ⟨_, _, _, rfl⟩)
    · exact h₁
    · exact h₂ _ _
    · exact h₃ _ _
  refine ⟨fun u => ?_, hprep.waiting ▸ h.waiting, ?_, ?_, ?_, hprep.client ▸ h.alreadyFull,
    hprep.client ▸ h.alreadyEmpty⟩
  · rcases hprep.todo u with hu | ⟨-, hu⟩ | ⟨-, f, hf, hu⟩
    · rw [hu]
      exact h.spot u
    · exact .inl hu
    · rw [hu]
      simp only [List.mem_cons, List.not_mem_nil, or_false] at hf
      rcases hf with rfl | rfl
      · exact .inr ⟨.producer, [], List.nil_suffix, rfl⟩
      · exact .inr ⟨.customer, [], List.nil_suffix, rfl⟩
  · rw [hprep.value, htotal (net mutex) (hsetting _ rfl (fun _ _ => rfl) fun _ _ => rfl) rfl
      (by simp [net])]
    exact h.exclusive
  · rw [hprep.value, htotal reserved (hsetting _ rfl (fun _ _ => rfl) fun _ _ => rfl) rfl
      (by simp [reserved, net])]
    exact h.room
  · rw [hprep.client, hprep.value, htotal stocked (hsetting _ rfl (fun _ _ => rfl) fun _ _ => rfl)
      rfl (by simp [stocked, net])]
    exact h.content

/-- A thread that has counted down and has the `mutex` finds a slot or an item. -/
theorem Buffered.found_pos (h : Buffered T) (hproper : T.Proper) (hfree : T.Free t)
    (hs : T.todo t = r.working.drop 2 ++ [.cmd (.run r.loop), .cmd .finish]) :
    0 < r.found T.client := by
  have hstocked := Tasks.weigh_le_total (fun u => (h.spot u).weigh_nonneg.2.1) hfree.lt_created
  have hreserved := Tasks.sub_le_total_sub (fun u => (h.spot u).weigh_nonneg.2.2) hfree.lt_created
  have hempty := hproper.nonneg empty
  have hfull := hproper.nonneg full
  have hcontent := h.content
  have hroom := h.room
  rw [hs] at hstocked hreserved
  cases r with
  | producer =>
      have hweigh : weigh reserved (Role.producer.working.drop 2 ++
          [.cmd (.run Role.producer.loop), .cmd .finish]) - weigh stocked
          (Role.producer.working.drop 2 ++ [.cmd (.run Role.producer.loop), .cmd .finish]) = 1 := by
        decide
      simp only [Role.found]
      omega
  | customer =>
      have hweigh : weigh stocked (Role.customer.working.drop 2 ++
          [.cmd (.run Role.customer.loop), .cmd .finish]) = 1 := by
        decide
      simp only [Role.found]
      omega

/-- A step of a producer or a consumer. -/
theorem Buffered.work (h : Buffered T) (hproper : T.Proper) (hfree : T.Free t)
    (hspot : Looping r.loop r.working (T.todo t))
    (hstep : Tasks.Step (program setup hsetup) t T T') :
    Buffered T' ∧ Looping r.loop r.working (T'.todo t) := by
  have hout := hstep.outcome
  obtain ⟨p, hp, hs⟩ := hspot
  have hcases := suffix_cases hp
  have hnext : ∀ n, Looping r.loop r.working
      (r.working.drop n ++ [.cmd (.run r.loop), .cmd .finish]) :=
    fun n => ⟨_, List.drop_suffix _ _, rfl⟩
  have hflags := And.intro h.alreadyFull h.alreadyEmpty
  simp only [Role.working, List.tails, List.mem_cons, List.not_mem_nil, or_false] at hcases
  rw [hs] at hout
  rcases hcases with rfl | rfl | rfl | rfl | rfl | rfl
  · obtain ⟨hv, rfl⟩ := hout
    refine h.move hfree (hnext 1) (.inr ⟨r, hnext 1⟩) rfl rfl rfl ?_ ?_ ?_ hflags
    all_goals
      cases r <;> simp [hs, net, reserved, stocked, Role.working, Role.awaits]
  · obtain ⟨hv, rfl⟩ := hout
    refine h.move hfree (hnext 2) (.inr ⟨r, hnext 2⟩) rfl rfl rfl ?_ ?_ ?_ hflags
    all_goals
      cases r <;> simp [hs, net, reserved, stocked, Role.working]
  · obtain ⟨i, g, cmds, hcode, rfl⟩ := hout
    obtain ⟨rfl, rfl⟩ := Role.step_turn (h.found_pos hproper hfree hs) hcode
    refine h.move hfree (hnext 3) (.inr ⟨r, hnext 3⟩) rfl rfl rfl ?_ ?_ ?_ hflags
    all_goals
      cases r <;> simp [hs, net, reserved, stocked, Role.working, Role.turn, Role.gain]
  · obtain rfl := hout
    refine h.move hfree (hnext 4) (.inr ⟨r, hnext 4⟩) rfl rfl rfl ?_ ?_ ?_ hflags
    all_goals
      cases r <;> simp [hs, net, reserved, stocked, Role.working, Tasks.up]
  · obtain rfl := hout
    refine h.move hfree (hnext 5) (.inr ⟨r, hnext 5⟩) rfl rfl rfl ?_ ?_ ?_ hflags
    all_goals
      cases r <;>
        simp [hs, net, reserved, stocked, Role.working, Role.awaits, Role.other, Tasks.up]
  · obtain ⟨i, g, cmds, hcode, rfl⟩ := hout
    obtain ⟨cmds', hcode', hacts⟩ := Role.step_loop setup r T.client
    cases hcode'.symm.trans hcode
    refine h.move hfree (hnext 0) (.inr ⟨r, hnext 0⟩) ?_ rfl rfl ?_ ?_ ?_ hflags
    · rw [Tasks.setClient_todo, Tasks.goto_todo, hacts, List.append_assoc]
      rfl
    all_goals
      cases r <;>
        simp [hs, net, reserved, stocked, Role.working, Role.awaits, Role.other, Role.turn,
          Role.loop]

theorem Buffered.step (h : Buffered T) (hproper : T.Proper) (hfree : T.Free t)
    (hstep : Tasks.Step (program setup hsetup) t T T') : Buffered T' := by
  rcases h.spot t with hspot | ⟨r, hspot⟩
  · exact h.prepare (hspot.step hproper hfree hstep)
  · exact (h.work hproper hfree hspot hstep).1

theorem Buffered.present (h : Buffered T) (hproper : T.Proper) (hfree : T.Free t)
    (hfork : ∃ u, .call (.fork u r.loop) ∈ setup) (hpresent : Present r.loop T)
    (hstep : Tasks.Step (program setup hsetup) t T T') : Present r.loop T' := by
  refine hpresent.step hstep fun hwant => ?_
  rcases h.spot t with hspot | ⟨q, hspot⟩
  · exact (hspot.step hproper hfree hstep).present _ hfork hwant
  · obtain ⟨a, ha, hwant⟩ := hwant
    obtain rfl := Role.eq_of_wants hspot ha hwant
    exact (h.work hproper hfree hspot hstep).2.present

end

theorem Buffered.handled (h : Buffered T) {acts : List HandlerAct} (hacts : ∀ n < 4, .v n ∉ acts)
    (type : IntType) : Buffered (acts.foldl Tasks.act (T.occur type)) := by
  refine Tasks.handled (I := Buffered) (fun T type v hT => ?_) (fun T n hn hT => ?_) h type
  · exact ⟨hT.spot, hT.waiting, hT.exclusive, hT.room, hT.content, hT.alreadyFull,
      hT.alreadyEmpty⟩
  · have hle : 4 ≤ n := not_lt.mp fun hlt => hacts n hlt hn
    have hsame : ∀ m < 4, (T.up n).value m = T.value m := fun m hm => by
      simp [Tasks.up, show m ≠ n by omega]
    refine ⟨hT.spot, hT.waiting, ?_, ?_, ?_, hT.alreadyFull,
      hT.alreadyEmpty⟩
    · rw [hsame _ (by decide)]
      exact hT.exclusive
    · rw [hsame _ (by decide), hsame _ (by decide)]
      exact hT.room
    · rw [hsame _ (by decide)]
      exact hT.content

/-- A thread that cannot go on is at the start of its loop, or waits for `mutex`. -/
inductive BufferBlocked (T : Tasks Routine Globals) : List (Action Routine) → Prop where
  | idle : BufferBlocked T []
  | mutex {r : Role} (hv : T.value mutex = 0) :
      BufferBlocked T (r.working.drop 1 ++ [.cmd (.run r.loop), .cmd .finish])
  | start {r : Role} (hv : T.value r.awaits = 0) :
      BufferBlocked T (r.working ++ [.cmd (.run r.loop), .cmd .finish])

theorem Buffered.blocked (h : Buffered T) (hstuck : T.Stuck) (t : ℕ) :
    BufferBlocked T (T.todo t) := by
  have hspot := h.spot t
  rcases hstuck t with hs | ⟨n, rest, hs, hv⟩ | ⟨l, rest, hs, -⟩ | ⟨x, hx⟩
  · exact hs ▸ .idle
  · rw [hs] at hspot ⊢
    rcases hspot with hprep | ⟨r, p, hp, hl⟩
    · rcases hprep.head_cases with (ha | ⟨_, _, ha⟩ | ⟨_, _, _, ha⟩) | ha <;> cases ha
    · have hcases := suffix_cases hp
      simp only [Role.working, List.tails, List.mem_cons, List.not_mem_nil, or_false] at hcases
      rw [hl]
      rcases hcases with rfl | rfl | rfl | rfl | rfl | rfl <;> cases hl
      · exact .start hv
      · exact .mutex hv
  · rw [hs] at hspot
    rcases hspot with hprep | ⟨r, p, hp, hl⟩
    · rcases hprep.head_cases with (ha | ⟨_, _, ha⟩ | ⟨_, _, _, ha⟩) | ha <;> cases ha
    · have hcases := suffix_cases hp
      simp only [Role.working, List.tails, List.mem_cons, List.not_mem_nil, or_false] at hcases
      rcases hcases with rfl | rfl | rfl | rfl | rfl | rfl <;> cases hl
  · rw [h.waiting x] at hx
    cases hx

/-- Some thread can go on. -/
theorem Buffered.not_stuck (h : Buffered T) (hpresent : ∀ r : Role, Present r.loop T) :
    ¬ T.Stuck := by
  intro hstuck
  have hblocked := h.blocked hstuck
  have hnet : T.total (net mutex) = 0 := by
    refine Finset.sum_eq_zero fun t _ => ?_
    have hb := hblocked t
    generalize T.todo t = l at hb
    cases hb with
    | idle => rfl
    | @mutex r | @start r => cases r <;> rfl
  have hmutex : T.value mutex ≠ 0 := by
    have hexclusive := h.exclusive
    omega
  have hreserved : T.total reserved = 0 := by
    refine Finset.sum_eq_zero fun t _ => ?_
    have hb := hblocked t
    generalize T.todo t = l at hb
    cases hb with
    | idle => rfl
    | mutex hv => exact absurd hv hmutex
    | @start r => cases r <;> rfl
  -- there is a thread of either kind, and it waits at the start of its loop
  have hnone : ∀ r : Role, T.value r.awaits = 0 := by
    intro r
    obtain ⟨t, a, ha, hwant⟩ := hpresent r
    have hb := hblocked t
    generalize T.todo t = l at hb ha
    cases hb with
    | idle => cases ha
    | mutex hv => exact absurd hv hmutex
    | @start q hv =>
        obtain rfl := Role.eq_of_wants ⟨q.working, List.suffix_refl _, rfl⟩ ha hwant
        exact hv
  have hroom := h.room
  rw [show T.value empty = 0 from hnone .producer, show T.value full = 0 from hnone .customer,
    hreserved] at hroom
  exact absurd hroom (by decide)

theorem buffered_start : Buffered (.start .threadTest .new values) where
  spot t := .inl (preparing_start _ t)
  waiting _ := rfl
  exclusive := by decide
  room := by decide
  content := by decide
  alreadyFull := rfl
  alreadyEmpty := rfl

/-- The buffer is bounded, the branches for a full and an empty one are not taken, and some
thread is running or ready. -/
theorem buffered_alive {build : Build} {schedPriority : Bool} {machine : Option Machine}
    {setup : List (Cmd Routine)} {hsetup : ∀ x ∈ setup, Sets bufferFunctions x}
    (hproducer : ∃ u, .call (.fork u .producer) ∈ setup)
    (hcustomer : ∃ u, .call (.fork u .customer) ∈ setup) {k : Kernel Routine Globals}
    (h : (Kernel.systemWhere (config build schedPriority setup hsetup) (· = start machine)
      fun _ env => Apart env).Reachable k) :
    0 ≤ k.client.msgQueue ∧ k.client.msgQueue ≤ N ∧ k.client.alreadyFull = false ∧
      k.client.alreadyEmpty = false ∧ k.core.Alive := by
  have hinit : ∀ k, k = start machine → Kernel.Initial k := fun k hk => hk ▸ initial_start machine
  have hinv := Kernel.tasks_invariant
    (I := fun T => Buffered T ∧ ∀ r : Role, Present r.loop T) hinit ?_ ?_ ?_ h
  · obtain ⟨hproper, hbuffered, hpresent⟩ := hinv
    have hbounds := hbuffered.bounds hproper
    refine ⟨hbounds.1, hbounds.2, hbuffered.alreadyFull, hbuffered.alreadyEmpty, ?_⟩
    by_contra hdead
    exact hbuffered.not_stuck hpresent
      (Kernel.stuck_of_not_alive hinit (Kernel.reachable_of_where h) hdead)
  · rintro k rfl
    rw [tasks_start]
    exact ⟨buffered_start, fun r => present_start _⟩
  · rintro t T T' hproper - ⟨hbuffered, hpresent⟩ hfree hstep
    have hstep : Tasks.Step (program setup hsetup) t T T' := hstep
    refine ⟨hbuffered.step hproper hfree hstep, fun r => ?_⟩
    cases r with
    | producer => exact hbuffered.present hproper hfree hproducer (hpresent .producer) hstep
    | customer => exact hbuffered.present hproper hfree hcustomer (hpresent .customer) hstep
  · rintro k env T type hapart ⟨hbuffered, hpresent⟩
    exact ⟨hbuffered.handled hapart type, fun r => (hpresent r).handled env.handler type⟩

end Nachos.ThreadTest
