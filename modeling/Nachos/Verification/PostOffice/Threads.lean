import Nachos.Model.Post
import Nachos.Verification.LinkedList.Chains
import Nachos.Verification.PostOffice.Delivery
import Nachos.Verification.Tasks.Callers
import Nachos.Verification.Tasks.Interrupts

/-! # A machine on top of the kernel

The code of the post office calls the kernel's semaphores, locks and lists. Seen from outside,
each of these calls is one of the steps that a machine of the network takes, or it is not seen. -/

namespace Nachos.Post

open Library LinkedList

/-! ## Where a thread is -/

/-- Actions that concern the list of a mailbox, and checks of a lock. -/
def Neutral : Action Routine → Prop
  | .take l | .give l => l ≠ sendLock
  | .check _ | .join _ | .back _ | .notify _ => True
  | _ => False

/-- The end of `Send`, from `messageSent->P()` on. -/
def sending (l : List (Action Routine)) : List (Action Routine) :=
  .down messageSent :: .check sendLock :: .give sendLock :: l

/-- Where a thread is that uses the post office, with `n` boxes. -/
inductive Spot (n : ℤ) : SendPhase → List (Action Routine) → Prop where
  | outside {l} (h : (component n).Outer l) : Spot n .idle l
  | neutral {phase a l} (ha : Neutral a) (h : Spot n phase l) : Spot n phase (a :: l)
  | ready {hdr payload mail l} (h : (component n).Outer l) :
      Spot n (.ready hdr payload mail)
        (.take sendLock :: .cmd (.run (.transmit hdr payload mail)) :: sending l)
  | locked {hdr payload mail l} (h : (component n).Outer l) :
      Spot n (.locked hdr payload mail) (.cmd (.run (.transmit hdr payload mail)) :: sending l)
  | schedule {fromNow l} (h : (component n).Outer l) :
      Spot n .sent (.cmd (.schedule fromNow .networkSend) :: sending l)
  | sent {l} (h : (component n).Outer l) : Spot n .sent (sending l)
  | give {l} (h : (component n).Outer l) : Spot n .woken (.give sendLock :: l)
  | remove {box l} (hbox : 0 ≤ box ∧ box < n) (h : (component n).Outer l) :
      Spot n .idle (.cmd (.run (.remove box)) :: l)
  | got {mail l} (h : (component n).Outer l) : Spot n .idle (.cmd (.run (.got mail)) :: l)

/-- Where the postal worker is. -/
inductive Duty : Worker → List (Action Routine) → Prop where
  | loop : Duty .waiting [.cmd (.run .postalDelivery), .cmd .finish]
  | wait : Duty .waiting [.down messageAvailable, .cmd (.run .deliver), .cmd .finish]
  | deliver : Duty .woken [.cmd (.run .deliver), .cmd .finish]
  | append {mail : Mail} {l} (h : Duty .waiting l) :
      Duty (.putting mail) (.cmd (.run (.append mail.mailHdr.toAddr.toInt mail)) :: l)
  | neutral {w a l} (ha : Neutral a) (h : Duty w l) : Duty w (a :: l)

/-- Where the main thread is as long as it creates the post office. -/
inductive Building : List (Action Routine) → Prop where
  | main : Building [.cmd (.run .main), .cmd .finish]
  | schedule : Building [.cmd (.schedule NetworkTime .networkRecv), .cmd (.newThread 6 0),
      .start postalWorker .postalDelivery, .cmd (.run .caller), .cmd .finish]
  | newThread : Building [.cmd (.newThread 6 0), .start postalWorker .postalDelivery,
      .cmd (.run .caller), .cmd .finish]
  | start : Building [.start postalWorker .postalDelivery, .cmd (.run .caller), .cmd .finish]

theorem Duty.ne_nil {w : Worker} {l : List (Action Routine)} (h : Duty w l) : l ≠ [] := by
  cases h <;> exact List.cons_ne_nil _ _

/-- A thread with nothing to do does not send. -/
theorem Spot.idle_of_nil {n : ℤ} {phase : SendPhase} (h : Spot n phase []) : phase = .idle := by
  cases h
  rfl

/-- The postal worker and the other threads do what they are for. -/
structure Working (n : ℤ) (todo : ℕ → List (Action Routine)) (worker : Worker)
    (sender : ℕ → SendPhase) : Prop where
  duty : Duty worker (todo postalWorker)
  idle : sender postalWorker = .idle
  spot : ∀ t, t ≠ postalWorker → Spot n (sender t) (todo t)

/-- The threads of a machine: at first there is only the main thread, which creates the post
office. -/
inductive Stage (n : ℤ) (todo : ℕ → List (Action Routine)) (worker : Worker)
    (sender : ℕ → SendPhase) : Prop where
  | building (h : Building (todo 0)) (hothers : ∀ t, t ≠ 0 → todo t = [])
      (hworker : worker = .waiting) (hsender : ∀ t, sender t = .idle)
  | working (h : Working n todo worker sender)

namespace Working

variable {n : ℤ} {todo : ℕ → List (Action Routine)} {worker : Worker} {sender : ℕ → SendPhase}
  {t : ℕ} {l : List (Action Routine)}

/-- The postal worker goes on. -/
theorem goWorker {worker' : Worker} (h : Working n todo worker sender) (hl : Duty worker' l) :
    Stage n (Function.update todo postalWorker l) worker' sender := by
  refine .working ⟨?_, h.idle, fun t ht => ?_⟩
  · rw [Function.update_self]
    exact hl
  · rw [Function.update_of_ne ht]
    exact h.spot t ht

/-- Another thread goes on. -/
theorem goSender {phase : SendPhase} (h : Working n todo worker sender) (ht : t ≠ postalWorker)
    (hl : Spot n phase l) :
    Stage n (Function.update todo t l) worker (Function.update sender t phase) := by
  refine .working ⟨?_, ?_, fun u hu => ?_⟩
  · rw [Function.update_of_ne ht.symm]
    exact h.duty
  · rw [Function.update_of_ne ht.symm]
    exact h.idle
  · by_cases hut : u = t
    · rw [hut, Function.update_self, Function.update_self]
      exact hl
    · rw [Function.update_of_ne hut, Function.update_of_ne hut]
      exact h.spot u hu

/-- Another thread goes on, and this is not seen. -/
theorem goUnseen (h : Working n todo worker sender) (ht : t ≠ postalWorker)
    (hl : Spot n (sender t) l) : Stage n (Function.update todo t l) worker sender := by
  have hstage := h.goSender ht hl
  rwa [Function.update_eq_self] at hstage

end Working

/-! ## What a machine is seen as -/

/-- Interrupts that are about to be scheduled once a packet has been sent. -/
def unscheduled : Action Routine → ℤ
  | .cmd (.schedule _ .networkSend) => 1
  | _ => 0

/-- The lists hold the mails. -/
def Stored (boxes : ℤ → LinkedList Mail) (mails : ℤ → List Mail) : Prop :=
  ∀ box, ∃ xs, Chain (boxes box) xs ∧ xs.map (·.2.item) = mails box

/-- One of the lists changes. -/
theorem Stored.update {boxes : ℤ → LinkedList Mail} {mails : ℤ → List Mail}
    (h : Stored boxes mails) (box : ℤ) {list : LinkedList Mail} {xs : List (ℕ × Keyed Mail)}
    (hchain : Chain list xs) :
    Stored (Function.update boxes box list)
      (Function.update mails box (xs.map (·.2.item))) := by
  intro box'
  by_cases hbox : box' = box
  · rw [hbox, Function.update_self, Function.update_self]
    exact ⟨xs, hchain, rfl⟩
  · rw [Function.update_of_ne hbox, Function.update_of_ne hbox]
    exact h box'

/-- The machine with the kernel, seen as a machine of the network. -/
structure Represents (n : ℤ) (T : Tasks Routine Office) (d : Network) (node : Node) : Prop where
  stage : Stage n T.todo node.office.worker node.sender
  network : node.office.network = d
  messageAvailable : (node.office.messageAvailable : ℤ) = T.value messageAvailable
  buffer : node.office.buffer = T.client.buffer
  boxes : Stored T.client.boxes node.office.boxes
  sendLock : node.sendLock = T.owner sendLock
  messageSent : (node.messageSent : ℤ) = T.value messageSent
  sendDone : (node.sendDone : ℤ) = T.pending .networkSend + T.total unscheduled

variable {n : ℤ} {a : Action Routine} {l rest : List (Action Routine)}

theorem outer_unscheduled (h : (component n).Outer l) :
    weigh unscheduled l = 0 := by
  refine weigh_eq_zero fun a ha => ?_
  have hout := h a ha
  cases a with
  | cmd x =>
      cases x with
      | schedule fromNow type =>
          cases type with
          | networkSend => exact absurd List.mem_cons_self hout
          | _ => rfl
      | _ => rfl
  | _ => rfl

theorem Neutral.unscheduled (h : Neutral a) : unscheduled a = 0 := by
  cases a with
  | cmd => exact h.elim
  | _ => rfl

theorem sending_unscheduled (h : (component n).Outer l) : weigh unscheduled (sending l) = 0 := by
  simp [sending, unscheduled, outer_unscheduled h]

section

variable {ι : Type} {program : Program Routine Office ι} {T T' : Tasks Routine Office}
  {d : Network} {node : Node} {t : ℕ}

/-- Threads that do other things, and this is not seen. -/
theorem Represents.congr (h : Represents n T d node)
    (hstage : Stage n T'.todo node.office.worker node.sender)
    (hvalue : ∀ s ∈ (component n).sems, T'.value s = T.value s)
    (howner : T'.owner Post.sendLock = T.owner Post.sendLock) (hclient : T'.client = T.client)
    (hpending : T'.pending .networkSend + T'.total unscheduled =
      T.pending .networkSend + T.total unscheduled) : Represents n T' d node where
  stage := hstage
  network := h.network
  messageAvailable := h.messageAvailable.trans (hvalue _ (by simp [component])).symm
  buffer := hclient ▸ h.buffer
  boxes := hclient ▸ h.boxes
  sendLock := h.sendLock.trans howner.symm
  messageSent := h.messageSent.trans (hvalue _ (by simp [component])).symm
  sendDone := h.sendDone.trans hpending.symm

/-- A thread goes on, and this is not seen. -/
theorem Represents.of_unseen (h : Represents n T d node) (hproper : T.Proper) (ht : t < T.created)
    (hstep : Tasks.Step program t T T')
    (hstage : Stage n T'.todo node.office.worker node.sender)
    (hvalue : ∀ s ∈ (component n).sems, T'.value s = T.value s)
    (howner : T'.owner Post.sendLock = T.owner Post.sendLock) (hclient : T'.client = T.client)
    (hpending : T'.pending .networkSend + weigh unscheduled (T'.todo t) =
      T.pending .networkSend + weigh unscheduled (T.todo t)) : Represents n T' d node := by
  have htotal := hstep.total hproper ht (w := unscheduled) fun f => rfl
  exact h.congr hstage hvalue howner hclient (by omega)

/-- What an action on the list of a mailbox leaves as it is. -/
theorem Neutral.step (ha : Neutral a) (hs : T.todo t = a :: rest)
    (hstep : Tasks.Step program t T T') :
    T'.todo = Function.update T.todo t rest ∧ T'.value = T.value ∧
      T'.owner sendLock = T.owner sendLock ∧ T'.client = T.client ∧ T'.pending = T.pending := by
  have hout := hstep.outcome
  rw [hs] at hout
  cases a with
  | take l | give l =>
      obtain ⟨-, rfl⟩ := hout
      exact ⟨rfl, rfl, Function.update_of_ne (Ne.symm ha) _ _, rfl, rfl⟩
  | check l =>
      obtain ⟨-, rfl⟩ := hout
      exact ⟨rfl, rfl, rfl, rfl, rfl⟩
  | join c | back c | notify c =>
      obtain rfl := hout
      exact ⟨rfl, rfl, rfl, rfl, rfl⟩
  | _ => exact ha.elim

theorem Represents.neutral (h : Represents n T d node) (hproper : T.Proper) (ht : t < T.created)
    (ha : Neutral a) (hs : T.todo t = a :: rest) (hstep : Tasks.Step program t T T')
    (hstage : Stage n (Function.update T.todo t rest) node.office.worker node.sender) :
    Represents n T' d node := by
  obtain ⟨htodo, hvalue, howner, hclient, hpending⟩ := ha.step hs hstep
  refine h.of_unseen hproper ht hstep (htodo ▸ hstage) (fun s _ => by rw [hvalue]) howner hclient ?_
  rw [hpending, htodo, hs, Function.update_self, weigh_cons, ha.unscheduled, zero_add]

end

/-! ## Steps without code -/

section

variable {numBoxes : Word → ℤ} {net : Net} {m : Word} {T T' : Tasks Routine Office}
  {d d' : Network} {t : ℕ} {i : Choice (numBoxes m)} {g : Office} {cmds : List (Cmd Routine)}
  {mail : Mail}

/-- What a machine of the network does when a thread of the kernel goes on. -/
def Seen (numBoxes : Word → ℤ) (net : Net) (m : Word) (T' : Tasks Routine Office) (d : Network) :
    Prop :=
  ∃ node, (node = net.node m ∨ Net.Step numBoxes net m (net.setNode m node)) ∧
    Represents (numBoxes m) T' d node

/-- The code of the program is not executed. -/
abbrev noCode (n : ℤ) : Program Routine Office (Choice n) := Kernel.noCode

section

variable (h : Represents (numBoxes m) T d (net.node m)) (hproper : T.Proper)

include h hproper

theorem Represents.building_step (ht : t < T.created) (hbuilding : Building (T.todo 0))
    (hothers : ∀ t, t ≠ 0 → T.todo t = []) (hworker : (net.node m).office.worker = .waiting)
    (hsender : ∀ t, (net.node m).sender t = .idle) (hstep : Tasks.Step (noCode (numBoxes m)) t T T') :
    Represents (numBoxes m) T' d (net.node m) := by
  have hout := hstep.outcome
  obtain rfl : t = 0 := by
    by_contra hne
    rw [hothers t hne] at hout
    exact hout
  -- the list of the main thread changes, and the others have nothing to do
  have hstage : ∀ l, Building l → Stage (numBoxes m) (Function.update T.todo 0 l)
      (net.node m).office.worker (net.node m).sender := by
    intro l hl
    refine .building ?_ (fun u hu => ?_) hworker hsender
    · rw [Function.update_self]
      exact hl
    · rw [Function.update_of_ne hu]
      exact hothers u hu
  generalize hs : T.todo 0 = l at hbuilding hout
  cases hbuilding with
  | main =>
      obtain ⟨i, g, cmds, hcode, -⟩ := hout
      cases hcode
  | schedule =>
      obtain rfl := hout
      exact h.of_unseen hproper ht hstep (hstage _ .newThread) (fun _ _ => rfl) rfl rfl
        (by simp [hs, unscheduled])
  | newThread =>
      obtain rfl := hout
      exact h.of_unseen hproper ht hstep (hstage _ .start) (fun _ _ => rfl) rfl rfl
        (by simp [hs, unscheduled])
  | start =>
      obtain ⟨hlt, hne, hnil, rfl⟩ := hout
      refine h.of_unseen hproper ht hstep (.working ⟨?_, hsender _, fun u hu => ?_⟩)
        (fun _ _ => rfl) rfl rfl (by simp [hs, unscheduled])
      · rw [hworker, Tasks.goto_todo, Function.update_self]
        exact .loop
      · rw [hsender, Tasks.goto_todo, Function.update_of_ne hu, Tasks.goto_todo]
        by_cases hu0 : u = 0
        · rw [hu0, Function.update_self]
          exact .outside Component.outer_start
        · rw [Function.update_of_ne hu0, hothers u hu0]
          exact .outside Component.outer_nil

theorem Represents.worker_step (ht : postalWorker < T.created)
    (hworking : Working (numBoxes m) T.todo (net.node m).office.worker (net.node m).sender)
    (hstep : Tasks.Step (noCode (numBoxes m)) postalWorker T T') : Seen numBoxes net m T' d := by
  have hout := hstep.outcome
  have hduty := hworking.duty
  generalize hs : T.todo postalWorker = l at hduty hout
  generalize hw : (net.node m).office.worker = w at hduty
  cases hduty with
  | loop | deliver | append =>
      obtain ⟨i, g, cmds, hcode, -⟩ := hout
      cases hcode
  | @neutral _ a rest ha hrest =>
      exact ⟨_, .inl rfl, h.neutral hproper ht ha hs hstep (hworking.goWorker (hw ▸ hrest))⟩
  | wait =>
      obtain ⟨hne, rfl⟩ := hout
      have hvalue := h.messageAvailable
      have hnonneg := hproper.nonneg Post.messageAvailable
      obtain ⟨v, hv⟩ : ∃ v, (net.node m).office.messageAvailable = v + 1 :=
        Nat.exists_eq_add_one_of_ne_zero (by omega)
      refine ⟨_, .inr (.wake (.wake hw hv)), hworking.goWorker .deliver, h.network, ?_,
        h.buffer, h.boxes, h.sendLock, h.messageSent, ?_⟩
      · simp only [Tasks.setValue_value, Function.update_self]
        omega
      · rw [h.sendDone, Tasks.total_setValue, Tasks.total_goto ht, hs]
        simp [unscheduled]

/-- A thread outside of the post office goes on. -/
theorem Represents.outside_step (ht : t < T.created)
    (hworking : Working (numBoxes m) T.todo (net.node m).office.worker (net.node m).sender)
    (hne : t ≠ postalWorker) (hphase : (net.node m).sender t = .idle)
    (houter : (component (numBoxes m)).Outer (T.todo t))
    (hstep : Tasks.Step (noCode (numBoxes m)) t T T') :
    Represents (numBoxes m) T' d (net.node m) := by
  have huntouched := houter.step hstep fun i g cmds hcode => nomatch hcode
  have hown : (component (numBoxes m)).Outer (T'.todo t) := by
    rcases huntouched.own with hown | ⟨i, cmds, rest, -, -, hcode, -⟩
    · exact hown
    · cases hcode
  refine h.of_unseen hproper ht hstep (.working ⟨?_, hworking.idle, fun u hu => ?_⟩)
    huntouched.value (huntouched.owner _ List.mem_cons_self) huntouched.client ?_
  · rcases hstep.others postalWorker hne.symm with hsame | ⟨hnil, -⟩
    · rw [hsame]
      exact hworking.duty
    · exact absurd hnil hworking.duty.ne_nil
  · by_cases hut : u = t
    · rw [hut, hphase]
      exact .outside hown
    · rcases hstep.others u hut with hsame | ⟨hnil, -⟩
      · rw [hsame]
        exact hworking.spot u hu
      · -- a thread that had nothing to do has been started
        have hspot := hworking.spot u hu
        rcases huntouched.others u hut with hsame | hnew
        · rw [hsame]
          exact hspot
        · rw [hnil] at hspot
          rw [hspot.idle_of_nil, hnew]
          exact .outside Component.outer_start
  · rw [huntouched.pending _ List.mem_cons_self, outer_unscheduled hown, outer_unscheduled houter]

theorem Represents.spot_step (ht : t < T.created)
    (hworking : Working (numBoxes m) T.todo (net.node m).office.worker (net.node m).sender)
    (hne : t ≠ postalWorker) (hstep : Tasks.Step (noCode (numBoxes m)) t T T') :
    Seen numBoxes net m T' d := by
  have hout := hstep.outcome
  have hown := hworking.spot t hne
  generalize hs : T.todo t = l at hown hout
  generalize hphase : (net.node m).sender t = phase at hown
  cases hown with
  | outside houter =>
      exact ⟨_, .inl rfl, h.outside_step hproper ht hworking hne hphase (hs ▸ houter) hstep⟩
  | @neutral _ a rest ha hrest =>
      exact ⟨_, .inl rfl, h.neutral hproper ht ha hs hstep
        (hworking.goUnseen hne (hphase ▸ hrest))⟩
  | locked | remove | got =>
      obtain ⟨i, g, cmds, hcode, -⟩ := hout
      cases hcode
  | @ready hdr payload mail l houter =>
      obtain ⟨hfree, rfl⟩ := hout
      refine ⟨_, .inr (.acquire hphase (h.sendLock.trans hfree)),
        hworking.goSender hne (.locked houter), h.network, h.messageAvailable, h.buffer,
        h.boxes, ?_, h.messageSent, ?_⟩
      · rw [Tasks.setOwner_owner, Function.update_self]
      · rw [h.sendDone, Tasks.total_setOwner, Tasks.total_goto ht, hs]
        simp [unscheduled]
  | @schedule fromNow l houter =>
      obtain rfl := hout
      refine ⟨_, .inl rfl, h.of_unseen hproper ht hstep
        (hworking.goUnseen hne (hphase ▸ .sent houter)) (fun _ _ => rfl) rfl rfl ?_⟩
      rw [hs]
      simp [unscheduled]
      ring
  | @sent l houter =>
      obtain ⟨hpos, rfl⟩ := hout
      have hvalue := h.messageSent
      have hnonneg := hproper.nonneg Post.messageSent
      obtain ⟨v, hv⟩ : ∃ v, (net.node m).messageSent = v + 1 :=
        Nat.exists_eq_add_one_of_ne_zero (by omega)
      refine ⟨_, .inr (.wakeSender hphase hv),
        hworking.goSender hne (.neutral trivial (.give houter)), h.network,
        h.messageAvailable, h.buffer, h.boxes, h.sendLock, ?_, ?_⟩
      · simp only [Tasks.setValue_value, Function.update_self]
        omega
      · rw [h.sendDone, Tasks.total_setValue, Tasks.total_goto ht, hs, sending_unscheduled houter]
        simp [unscheduled, outer_unscheduled houter]
  | @give l houter =>
      obtain ⟨hheld, rfl⟩ := hout
      refine ⟨_, .inr (.release hphase (h.sendLock.trans hheld)),
        hworking.goSender hne (.outside houter), h.network, h.messageAvailable,
        h.buffer, h.boxes, ?_, h.messageSent, ?_⟩
      · rw [Tasks.setOwner_owner, Function.update_self]
      · rw [h.sendDone, Tasks.total_setOwner, Tasks.total_goto ht, hs]
        simp [unscheduled]

theorem Represents.step (ht : t < T.created) (hstep : Tasks.Step (noCode (numBoxes m)) t T T') :
    Seen numBoxes net m T' d := by
  cases h.stage with
  | building hbuilding hothers hworker hsender =>
      exact ⟨_, .inl rfl, h.building_step hproper ht hbuilding hothers hworker hsender hstep⟩
  | working hworking =>
      by_cases hne : t = postalWorker
      · subst hne
        exact h.worker_step hproper ht hworking hstep
      · exact h.spot_step hproper ht hworking hne hstep

end

/-- What has been sent and received is recorded on both sides. -/
structure Shows (numBoxes : Word → ℤ) (m : Word) (T : Tasks Routine Office) (d : Network)
    (net : Net) : Prop where
  node : Represents (numBoxes m) T d (net.node m)
  sent : net.sent m = T.client.sent
  received : net.received m = T.client.received

/-- The network takes no step or one in which the machine becomes what is seen of the kernel. -/
def Follows (numBoxes : Word → ℤ) (net : Net) (m : Word) (T' : Tasks Routine Office) (d : Network)
    (channel : Word → Word → List Wire) : Prop :=
  ∃ net', (net' = net ∨ Net.Step numBoxes net m net') ∧ net'.channel = channel ∧
    Shows numBoxes m T' d net'

theorem Seen.follows (h : Seen numBoxes net m T' d') (hshows : Shows numBoxes m T d net)
    (hsent : T'.client.sent = T.client.sent)
    (hreceived : T'.client.received = T.client.received) :
    Follows numBoxes net m T' d' net.channel := by
  obtain ⟨node, hnode, hrep⟩ := h
  refine ⟨net.setNode m node, hnode.imp_left ?_, rfl, ?_, ?_, ?_⟩
  · rintro rfl
    exact congrArg (fun f => { net with node := f }) (Function.update_eq_self m net.node)
  · rw [Net.node_setNode, if_pos rfl]
    exact hrep
  · rw [hsent]
    exact hshows.sent
  · rw [hreceived]
    exact hshows.received

/-! ## Code -/

/-- Code that is not seen. -/
theorem Shows.of_code (h : Shows numBoxes m T d net) (ht : t < T.created)
    (hstage : Stage (numBoxes m) (Function.update T.todo t l) (net.node m).office.worker
      (net.node m).sender) (hl : weigh unscheduled l = weigh unscheduled (T.todo t)) :
    Follows numBoxes net m ((T.goto t l).setClient T.client) d net.channel := by
  have htotal : ((T.goto t l).setClient T.client).total unscheduled = T.total unscheduled := by
    rw [Tasks.total_setClient, Tasks.total_goto ht, hl, sub_self, add_zero]
  refine Seen.follows ⟨_, .inl rfl, h.node.congr hstage (fun _ _ => rfl) rfl rfl ?_⟩ h rfl rfl
  rw [htotal]
  rfl

theorem boxLock_ne (box : ℤ) : boxLock box ≠ sendLock := Nat.succ_ne_zero _

/-- The postal worker receives the packet and makes a mail. -/
theorem Shows.deliver (h : Shows numBoxes m T d net) (ht : postalWorker < T.created)
    (hworking : Working (numBoxes m) T.todo (net.node m).office.worker (net.node m).sender)
    (hs : T.todo postalWorker = [.cmd (.run .deliver), .cmd .finish])
    (hw : (net.node m).office.worker = .woken) {s : Surroundings} (hd : s.network = d)
    (hcode : Post.deliver (numBoxes m) T.client s = .ok (g, cmds)) :
    Follows numBoxes net m
      ((T.goto postalWorker (cmds.flatMap Cmd.actions ++ [.cmd .finish])).setClient g)
      (d.receive T.client.buffer).2.2 net.channel := by
  obtain ⟨mail, hopen, hcode⟩ := bind_eq_ok.mp hcode
  cases hcode
  subst hd
  have hsort : (net.node m).office.postalDelivery (numBoxes m) = .ok (mail,
      { (net.node m).office with
        network := (s.network.receive T.client.buffer).2.2
        buffer := (s.network.receive T.client.buffer).2.1
        worker := .putting mail }) := by
    unfold PostOffice.postalDelivery
    rw [h.node.network, h.node.buffer]
    exact bind_eq_ok.mpr ⟨mail, hopen, rfl⟩
  have hbox := boxLock_ne mail.mailHdr.toAddr.toInt
  refine Seen.follows ⟨_, .inr (.sort (.sort hw hsort)), hworking.goWorker (.neutral hbox (.append
    (.neutral trivial (.neutral trivial (.neutral trivial (.neutral hbox .loop)))))), rfl,
    h.node.messageAvailable, rfl, h.node.boxes, h.node.sendLock, h.node.messageSent, ?_⟩ h rfl rfl
  rw [h.node.sendDone, Tasks.total_setClient, Tasks.total_goto ht, hs]
  simp [Cmd.actions, Call.actions, unscheduled]

/-- The postal worker appends the mail to the list of its box. -/
theorem Shows.append (h : Shows numBoxes m T d net) (ht : postalWorker < T.created)
    (hworking : Working (numBoxes m) T.todo (net.node m).office.worker (net.node m).sender)
    (hs : T.todo postalWorker = .cmd (.run (.append mail.mailHdr.toAddr.toInt mail)) :: rest)
    (hw : (net.node m).office.worker = .putting mail) (hrest : Duty .waiting rest)
    (hcode : Post.append T.client mail.mailHdr.toAddr.toInt mail = .ok (g, cmds)) :
    Follows numBoxes net m
      ((T.goto postalWorker (cmds.flatMap Cmd.actions ++ rest)).setClient g) d net.channel := by
  obtain ⟨list, happend, hcode⟩ := bind_eq_ok.mp hcode
  cases hcode
  obtain ⟨xs, hchain, hitems⟩ := h.node.boxes mail.mailHdr.toAddr.toInt
  obtain ⟨list', happend', hchain'⟩ := append_chain hchain mail
  obtain rfl : list' = list := Except.ok.inj (happend'.symm.trans happend)
  have hstored := h.node.boxes.update mail.mailHdr.toAddr.toInt hchain'
  rw [List.map_append, hitems] at hstored
  refine Seen.follows ⟨_, .inr (.put (.put hw)), hworking.goWorker hrest, h.node.network,
    h.node.messageAvailable, h.node.buffer, hstored, h.node.sendLock, h.node.messageSent, ?_⟩
    h rfl rfl
  rw [h.node.sendDone, Tasks.total_setClient, Tasks.total_goto ht, hs]
  simp [unscheduled]

/-- A thread calls an operation of the post office, or does something else. -/
theorem Shows.caller (h : Shows numBoxes m T d net) (ht : t < T.created)
    (hworking : Working (numBoxes m) T.todo (net.node m).office.worker (net.node m).sender)
    (hne : t ≠ postalWorker) (hs : T.todo t = .cmd (.run .caller) :: rest)
    (hphase : (net.node m).sender t = .idle) (hrest : (component (numBoxes m)).Outer rest)
    (hcode : Post.step m (numBoxes m) T.client .caller i = .ok (g, cmds)) :
    Follows numBoxes net m ((T.goto t (cmds.flatMap Cmd.actions ++ rest)).setClient g) d
      net.channel := by
  have hcaller : (component (numBoxes m)).Outer (.cmd (.run .caller) :: rest) :=
    Component.outer_caller hrest
  have hweight : weigh unscheduled (T.todo t) = 0 := by
    rw [hs]
    exact outer_unscheduled hcaller
  have hunseen : ∀ l, Spot (numBoxes m) .idle l → weigh unscheduled l = 0 →
      Follows numBoxes net m ((T.goto t l).setClient T.client) d net.channel := fun l hl hzero =>
    h.of_code ht (hworking.goUnseen hne (hphase ▸ hl)) (hzero.trans hweight.symm)
  obtain ⟨use, s⟩ := i
  cases use with
  | call op =>
      obtain ⟨cmds', hcall, hcode⟩ := bind_eq_ok.mp hcode
      cases hcode
      cases op with
      | send pktHdr mailHdr data junk =>
          obtain ⟨⟨hdr, payload⟩, haddress, hcall⟩ := bind_eq_ok.mp hcall
          cases hcall
          refine Seen.follows ⟨_, .inr (.call hphase haddress),
            hworking.goSender hne (.ready hcaller), h.node.network, h.node.messageAvailable,
            h.node.buffer, h.node.boxes, h.node.sendLock, h.node.messageSent, ?_⟩ h rfl rfl
          rw [h.node.sendDone, Tasks.total_setClient, Tasks.total_goto ht, hweight]
          simp [Cmd.actions, Call.actions, unscheduled, outer_unscheduled hrest]
      | receive box =>
          obtain ⟨_, hbox, hcall⟩ := bind_eq_ok.mp hcall
          cases hcall
          refine hunseen _ (.neutral (boxLock_ne box) (.remove (of_assert hbox) hrest)) ?_
          simp [Cmd.actions, Call.actions, unscheduled, outer_unscheduled hrest]
  | other x =>
      cases hcode
      have hx := Component.outer_other x.2 hcaller
      exact hunseen _ (.outside hx) (outer_unscheduled hx)
  | leave =>
      cases hcode
      exact hunseen _ (.outside hrest) (outer_unscheduled hrest)

/-- A thread takes a mail out of a box, or waits for one. -/
theorem Shows.remove {box : ℤ} (h : Shows numBoxes m T d net) (ht : t < T.created)
    (hworking : Working (numBoxes m) T.todo (net.node m).office.worker (net.node m).sender)
    (hne : t ≠ postalWorker) (hs : T.todo t = .cmd (.run (.remove box)) :: rest)
    (hphase : (net.node m).sender t = .idle) (hbox : 0 ≤ box ∧ box < numBoxes m)
    (hrest : (component (numBoxes m)).Outer rest)
    (hcode : Post.remove T.client box = .ok (g, cmds)) :
    Follows numBoxes net m ((T.goto t (cmds.flatMap Cmd.actions ++ rest)).setClient g) d
      net.channel := by
  have hlock := boxLock_ne box
  obtain ⟨xs, hchain, hitems⟩ := h.node.boxes box
  unfold Post.remove at hcode
  split at hcode
  · cases hcode
    refine h.of_code ht (hworking.goUnseen hne ?_) ?_
    · rw [hphase]
      exact .neutral trivial (.neutral trivial (.neutral hlock (.neutral trivial (.neutral hlock
        (.neutral trivial (.remove hbox hrest))))))
    · rw [hs]
      simp [Cmd.actions, Call.actions, unscheduled]
  next hempty =>
    cases xs with
    | nil =>
        refine absurd ?_ hempty
        rw [isEmpty, hchain.isEmpty_iff.mpr rfl]
        rfl
    | cons x xs =>
        obtain ⟨list, hremove, hchain'⟩ := remove_cons hchain
        rw [hremove] at hcode
        cases hcode
        have hmails : (net.node m).office.boxes box = x.2.item :: xs.map (·.2.item) := hitems.symm
        refine ⟨_, .inr (.receive (.receive hbox hmails)), rfl, ?_, h.sent, ?_⟩
        · change Represents _ _ _ (Function.update net.node m _ m)
          rw [Function.update_self]
          refine ⟨hworking.goUnseen hne ?_, h.node.network, h.node.messageAvailable, h.node.buffer,
            h.node.boxes.update box hchain', h.node.sendLock, h.node.messageSent, ?_⟩
          · rw [hphase]
            exact .neutral trivial (.neutral hlock (.got hrest))
          · dsimp only
            rw [h.node.sendDone, Tasks.total_setClient, Tasks.total_goto ht, hs]
            simp [Cmd.actions, Call.actions, unscheduled]
        · change Function.update net.received m _ m = _
          rw [Function.update_self, h.received]
          rfl

/-- A thread hands its packet to the network. -/
theorem Shows.transmit {hdr : PacketHeader} {payload : Payload} (h : Shows numBoxes m T d net)
    (ht : t < T.created)
    (hworking : Working (numBoxes m) T.todo (net.node m).office.worker (net.node m).sender)
    (hne : t ≠ postalWorker) (hs : T.todo t = .cmd (.run (.transmit hdr payload mail)) :: sending l)
    (hphase : (net.node m).sender t = .locked hdr payload mail)
    (hl : (component (numBoxes m)).Outer l) {s : Surroundings} {wire : Wire}
    (hwire : d.send m hdr payload s.junk = .ok wire)
    (hcode : Post.transmit m T.client s hdr payload mail = .ok (g, cmds)) :
    Follows numBoxes net m ((T.goto t (cmds.flatMap Cmd.actions ++ sending l)).setClient g) d
      (if s.lost then net.channel
        else (net.setChannel m hdr.toAddr (net.channel m hdr.toAddr ++ [wire])).channel) := by
  obtain ⟨_, _, hcode⟩ := bind_eq_ok.mp hcode
  cases hcode
  rw [← h.node.network] at hwire
  have hrep : ∀ g : Office, g.buffer = T.client.buffer → g.boxes = T.client.boxes →
      Represents (numBoxes m) ((T.goto t
        ([Cmd.schedule NetworkTime .networkSend].flatMap Cmd.actions ++ sending l)).setClient g) d
        { net.node m with
          sendDone := (net.node m).sendDone + 1
          sender := Function.update (net.node m).sender t .sent } := by
    intro g hbuffer hboxes
    refine ⟨hworking.goSender hne (.schedule hl), h.node.network, h.node.messageAvailable,
      hbuffer ▸ h.node.buffer, hboxes ▸ h.node.boxes, h.node.sendLock, h.node.messageSent, ?_⟩
    rw [Nat.cast_add, h.node.sendDone, Tasks.total_setClient, Tasks.total_goto ht, hs]
    simp [Cmd.actions, unscheduled]
    ring
  cases hlost : s.lost with
  | true =>
      refine ⟨_, .inr (@Net.Step.transmit _ _ _ _ _ _ _ _ _ true hphase hwire), rfl, ?_, h.sent,
        h.received⟩
      change Represents _ _ _ (Function.update net.node m _ m)
      rw [Function.update_self]
      exact hrep _ rfl rfl
  | false =>
      refine ⟨_, .inr (@Net.Step.transmit _ _ _ _ _ _ _ _ _ false hphase hwire), rfl, ?_, ?_,
        h.received⟩
      · change Represents _ _ _ (Function.update net.node m _ m)
        rw [Function.update_self]
        exact hrep _ rfl rfl
      · change Function.update net.sent m _ m = _
        rw [Function.update_self, h.sent]
        rfl

/-- The packets from `s` to `m` that are on the way. -/
abbrev Channel := Word → Word → List Wire

def Channel.set (channel : Channel) (s m : Word) (packets : List Wire) : Channel :=
  Function.update channel s (Function.update (channel s) m packets)

/-- What code does to the network device and to the packets on the way. -/
inductive Touches (m : Word) (g : Office) (s : Surroundings) (d : Network) (channel : Channel) :
    Routine → Network → Channel → Prop where
  | receive (hd : s.network = d) :
      Touches m g s d channel .deliver (d.receive g.buffer).2.2 channel
  | send {hdr : PacketHeader} {payload : Payload} {mail : Mail} {wire : Wire}
      (hd : s.network = d) (hwire : d.send m hdr payload s.junk = .ok wire) :
      Touches m g s d channel (.transmit hdr payload mail) d (if s.lost then channel
        else channel.set m hdr.toAddr (channel m hdr.toAddr ++ [wire]))
  | nothing {f : Routine} (hdeliver : f ≠ .deliver)
      (htransmit : ∀ hdr payload mail, f ≠ .transmit hdr payload mail) :
      Touches m g s d channel f d channel

/-- Code is executed. -/
theorem Shows.code {f : Routine} (h : Shows numBoxes m T d net) (ht : t < T.created)
    (hs : T.todo t = .cmd (.run f) :: rest)
    (hcode : Post.step m (numBoxes m) T.client f i = .ok (g, cmds)) {channel : Channel}
    (htouches : Touches m T.client i.2 d net.channel f d' channel) :
    Follows numBoxes net m ((T.goto t (cmds.flatMap Cmd.actions ++ rest)).setClient g) d'
      channel := by
  cases h.node.stage with
  | building hbuilding hothers hworker hsender =>
      obtain rfl : t = 0 := by
        by_contra hne
        rw [hothers t hne] at hs
        cases hs
      rw [hs] at hbuilding
      cases hbuilding
      cases htouches
      cases hcode
      refine h.of_code ht (.building ?_ (fun u hu => ?_) hworker hsender) ?_
      · rw [Function.update_self]
        exact .schedule
      · rw [Function.update_of_ne hu]
        exact hothers u hu
      · rw [hs]
        simp [Cmd.actions, Call.actions, unscheduled]
  | working hworking =>
      by_cases hne : t = postalWorker
      · subst hne
        have hduty := hworking.duty
        rw [hs] at hduty
        generalize hw : (net.node m).office.worker = w at hduty
        cases hduty with
        | neutral ha => exact ha.elim
        | loop =>
            cases htouches
            cases hcode
            exact h.of_code ht (hworking.goWorker (hw ▸ .wait)) (by rw [hs]; rfl)
        | deliver =>
            cases htouches with
            | nothing hdeliver => exact absurd rfl hdeliver
            | receive hd => exact h.deliver ht hworking hs hw hd hcode
        | append hrest =>
            cases htouches
            exact h.append ht hworking hs hw hrest hcode
      · have hspot := hworking.spot t hne
        rw [hs] at hspot
        generalize hphase : (net.node m).sender t = phase at hspot
        cases hspot with
        | neutral ha => exact ha.elim
        | outside houter =>
            obtain rfl : f = .caller := houter _ List.mem_cons_self
            cases htouches
            exact h.caller ht hworking hne hs hphase houter.tail hcode
        | locked hl =>
            cases htouches with
            | nothing _ htransmit => exact absurd rfl (htransmit _ _ _)
            | send _ hwire => exact h.transmit ht hworking hne hs hphase hl hwire hcode
        | remove hbox hrest =>
            cases htouches
            exact h.remove ht hworking hne hs hphase hbox hrest hcode
        | got hrest =>
            cases htouches
            obtain ⟨_, _, hcode⟩ := bind_eq_ok.mp hcode
            cases hcode
            refine h.of_code ht (hworking.goUnseen hne ?_) (by rw [hs]; rfl)
            rw [hphase]
            exact .outside (Component.outer_caller hrest)

/-! ## Interrupts -/

theorem Represents.unhandled {node : Node} (h : Represents n T d node)
    (hout : (component n).Unhandled T T') : Represents n T' d node := by
  have htotal : T'.total unscheduled = T.total unscheduled := by
    rw [Tasks.total, Tasks.total, hout.created, hout.todo]
  refine h.congr (hout.todo ▸ h.stage) hout.value (by rw [hout.owner]) hout.client ?_
  rw [hout.pending _ (by simp [component]), htotal]

theorem Shows.unhandled (h : Shows numBoxes m T d net)
    (hout : (component (numBoxes m)).Unhandled T T') : Shows numBoxes m T' d net where
  node := h.node.unhandled hout
  sent := hout.client ▸ h.sent
  received := hout.client ▸ h.received

/-- A poll that finds no packet. -/
theorem Shows.poll (h : Shows numBoxes m T d net) :
    Shows numBoxes m ([HandlerAct.schedule NetworkTime .networkRecv].foldl Tasks.act
      (T.occur .networkRecv)) d net := by
  have hpending : ([HandlerAct.schedule NetworkTime .networkRecv].foldl Tasks.act
      (T.occur .networkRecv)).pending .networkSend = T.pending .networkSend := by
    simp [Tasks.act, Tasks.occur]
  refine ⟨⟨h.node.stage, h.node.network, h.node.messageAvailable, h.node.buffer, h.node.boxes,
    h.node.sendLock, h.node.messageSent, ?_⟩, h.sent, h.received⟩
  rw [hpending]
  exact h.node.sendDone

/-- A packet arrives. -/
theorem Shows.arrive {s : Word} {wire : Wire} {rest : List Wire} (h : Shows numBoxes m T d net)
    (hchannel : net.channel s m = wire :: rest) (hfree : d.inHdr.length = 0)
    (hcheck : d.checkPktAvail m (some wire) = .ok (d', true)) :
    Follows numBoxes net m
      ([HandlerAct.schedule NetworkTime .networkRecv, .v messageAvailable].foldl Tasks.act
        (T.occur .networkRecv)) d' (Channel.set net.channel s m rest) := by
  obtain ⟨hnode, hsent, hreceived⟩ := h.poll
  rw [← h.node.network] at hfree hcheck
  refine ⟨_, .inr (.arrive hchannel hfree (.poll hcheck)), rfl, ?_, hsent, hreceived⟩
  change Represents _ _ _ (Function.update net.node m _ m)
  rw [Function.update_self]
  refine ⟨hnode.stage, rfl, ?_, hnode.buffer, hnode.boxes, hnode.sendLock, hnode.messageSent,
    hnode.sendDone⟩
  have hvalue := h.node.messageAvailable
  simpa [Tasks.act, Tasks.up, Tasks.occur] using hvalue

/-- A packet has been sent. -/
theorem Shows.sendDone (h : Shows numBoxes m T d net) (hpos : 1 ≤ T.pending .networkSend)
    (htotal : 0 ≤ T.total unscheduled) :
    Follows numBoxes net m ([HandlerAct.v messageSent].foldl Tasks.act (T.occur .networkSend))
      d.sendDone net.channel := by
  have hsendDone := h.node.sendDone
  obtain ⟨v, hv⟩ : ∃ v, (net.node m).sendDone = v + 1 :=
    Nat.exists_eq_add_one_of_ne_zero (by omega)
  refine Seen.follows ⟨_, .inr (.sendDone hv), h.node.stage, ?_, h.node.messageAvailable,
    h.node.buffer, h.node.boxes, h.node.sendLock, ?_, ?_⟩ h rfl rfl
  · rw [← h.node.network]
  · have hvalue := h.node.messageSent
    simpa [Tasks.act, Tasks.up, Tasks.occur] using hvalue
  · have hpending : ([HandlerAct.v Post.messageSent].foldl Tasks.act
        (T.occur .networkSend)).pending .networkSend = T.pending .networkSend - 1 := by
      simp [Tasks.act, Tasks.up, Tasks.occur]
    rw [hpending]
    change (v : ℤ) = T.pending .networkSend - 1 + T.total unscheduled
    omega

theorem unscheduled_nonneg (a : Action Routine) : 0 ≤ unscheduled a := by
  fun_cases unscheduled a <;> simp

theorem total_unscheduled_nonneg (T : Tasks Routine Office) : 0 ≤ T.total unscheduled :=
  Tasks.total_nonneg fun _ => List.sum_nonneg fun _ hx => by
    obtain ⟨a, -, rfl⟩ := List.mem_map.mp hx
    exact unscheduled_nonneg a

end

end Nachos.Post
