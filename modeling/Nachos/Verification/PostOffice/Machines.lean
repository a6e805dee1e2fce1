import Nachos.Verification.Kernel.Execution
import Nachos.Verification.PostOffice.Threads

/-! # Machines with kernels

On each machine a kernel runs the code of the post office, beside a network device whose interrupts
are those of `network.cc`. Whatever the kernels do, the machines of the network can do. -/

namespace Nachos.Post

open Library LinkedList

/-! ## All machines -/

structure Site where
  kernel : Kernel Routine Office
  network : Network

structure Cluster where
  site : Word → Site
  channel : Channel

/-- What a step of the kernel of machine `m` does to its network device and to the packets on the
way. Handlers do what `CheckPktAvail` and `SendDone` do, and those of other interrupts leave the
post office alone. -/
inductive Effect (m : Word) {n : ℤ} (env : Env (Choice n)) (k k' : Kernel Routine Office)
    (d : Network) (channel : Channel) : Network → Channel → Prop where
  | code {f rest d' channel'} (hs : k.current.stack = .cmd (.run f) :: rest)
      (h : Touches m k.client env.choice.2 d channel f d' channel') :
      Effect m env k k' d channel d' channel'
  | thread (hs : ∀ f rest, k.current.stack ≠ .cmd (.run f) :: rest)
      (hquiet : Core.occurred k'.log = Core.occurred k.log) : Effect m env k k' d channel d channel
  | poll {p} (hp : Core.occurred k'.log = Core.occurred k.log ++ [p])
      (htype : p.type = .networkRecv)
      (hhandler : env.handler = [.schedule NetworkTime .networkRecv]) :
      Effect m env k k' d channel d channel
  | arrive {p s wire rest d'} (hp : Core.occurred k'.log = Core.occurred k.log ++ [p])
      (htype : p.type = .networkRecv) (hchannel : channel s m = wire :: rest)
      (hfree : d.inHdr.length = 0) (hcheck : d.checkPktAvail m (some wire) = .ok (d', true))
      (hhandler : env.handler = [.schedule NetworkTime .networkRecv, .v messageAvailable]) :
      Effect m env k k' d channel d' (channel.set s m rest)
  | sendDone {p} (hp : Core.occurred k'.log = Core.occurred k.log ++ [p])
      (htype : p.type = .networkSend) (hhandler : env.handler = [.v messageSent]) :
      Effect m env k k' d channel d.sendDone channel
  | other {p} (hp : Core.occurred k'.log = Core.occurred k.log ++ [p])
      (htype : p.type ∉ (component n).interrupts)
      (hhandler : ∀ act ∈ env.handler, act.Outside (component n)) :
      Effect m env k k' d channel d channel

namespace Cluster

/-- Every machine is about to create its post office, and no packet is on the way. -/
structure Initial (c : Cluster) : Prop where
  kernel : ∀ m, ∃ buffer values machine, (∀ n, 0 ≤ values n) ∧ values messageAvailable = 0 ∧
    values messageSent = 0 ∧ (c.site m).kernel = Post.start buffer values machine
  network : ∀ m, ∃ toAddr fromAddr inbox, (c.site m).network = ⟨⟨toAddr, fromAddr, 0⟩, inbox, false⟩
  channel : ∀ s m, c.channel s m = []

/-- The kernel of one machine takes a step. -/
def system (numBoxes : Word → ℤ) (build : Build) (schedPriority : Bool) :
    System Cluster Word Unit where
  init := Initial
  step c m _ c' := ∃ env k' d' channel', (c.site m).kernel.halted = false ∧
    (c.site m).kernel.Legal ∧
    (c.site m).kernel.step (config m (numBoxes m) build schedPriority) env = .ok k' ∧
    Effect m env (c.site m).kernel k' (c.site m).network c.channel d' channel' ∧
    c' = ⟨Function.update c.site m ⟨k', d'⟩, channel'⟩

end Cluster

/-! ## Refinement -/

section

variable {numBoxes : Word → ℤ} {net net' : Net} {m : Word} {T T' : Tasks Routine Office}
  {d d' : Network} {channel : Channel}

/-- Steps of the network in which machine `m` becomes what is seen of the kernel. -/
structure Reaches (numBoxes : Word → ℤ) (net : Net) (m : Word) (T' : Tasks Routine Office)
    (d : Network) (channel : Channel) (net' : Net) : Prop where
  reachable : (Net.system numBoxes).Reachable net'
  others : net.Others m net'
  channel : net'.channel = channel
  shows : Shows numBoxes m T' d net'

theorem Follows.reaches (h : Follows numBoxes net m T' d channel)
    (hreach : (Net.system numBoxes).Reachable net) :
    ∃ net', Reaches numBoxes net m T' d channel net' := by
  obtain ⟨net', hnet, hchannel, hshows⟩ := h
  rcases hnet with rfl | hstep
  · exact ⟨net', hreach, .refl m net', hchannel, hshows⟩
  · exact ⟨net', hreach.step (r := ()) hstep, hstep.others, hchannel, hshows⟩

/-- Threads go on without code. -/
theorem Shows.moves (h : Shows numBoxes m T d net) (hreach : (Net.system numBoxes).Reachable net)
    (hmoves : Relation.ReflTransGen (Tasks.Move (noCode (numBoxes m))) T T') :
    ∃ net', Reaches numBoxes net m T' d net.channel net' := by
  refine steps_invariant (I := fun T' => ∃ net', Reaches numBoxes net m T' d net.channel net') ?_
    hmoves ⟨net, hreach, .refl m net, rfl, h⟩
  rintro T₁ T₂ ⟨net₁, hnet₁⟩ ⟨hproper, -, t, hfree, hstep⟩
  have hclient : T₂.client = T₁.client := by
    cases hstep with
    | run _ hcode => cases hcode
    | _ => rfl
  have hseen := hnet₁.shows.node.step hproper hfree.lt_created hstep
  obtain ⟨net₂, hnet₂⟩ := (hseen.follows hnet₁.shows (by rw [hclient]) (by rw [hclient])).reaches
    hnet₁.reachable
  exact ⟨net₂, hnet₂.reachable, hnet₁.others.trans hnet₂.others, hnet₂.channel.trans hnet₁.channel,
    hnet₂.shows⟩

/-- A step of the kernel is followed by the network. -/
theorem Shows.step {cfg : Config Routine Office (Choice (numBoxes m))}
    {env : Env (Choice (numBoxes m))} {k k' : Kernel Routine Office} {channel' : Channel}
    (h : Shows numBoxes m k.core.tasks d net)
    (hprogram : cfg.program = program m (numBoxes m))
    (hreach : (Net.system numBoxes).Reachable net)
    (hkernel : (Kernel.system cfg Kernel.Initial).Reachable k) (hlegal : k.Legal)
    (hstep : k.step cfg env = .ok k') (heffect : Effect m env k k' d net.channel d' channel') :
    ∃ net', Reaches numBoxes net m k'.core.tasks d' channel' net' := by
  have hsound : k.core.Sound := Kernel.sound_of_reachable (fun _ hinit => hinit) hkernel
  -- an interrupt occurs
  have hfired : ∀ p, Core.occurred k'.log = Core.occurred k.log ++ [p] →
      k'.core.tasks = env.handler.foldl Tasks.act (k.core.tasks.occur p.type) := by
    intro p hp
    rcases Kernel.step_tasks hsound hlegal hstep with ⟨hsame, -⟩ | ⟨q, hq, htasks⟩
    · simp [hp] at hsame
    · obtain rfl : p = q := by simpa [hp] using hq
      exact htasks
  cases heffect with
  | @code f rest _ _ hs htouches =>
      obtain ⟨g, cmds, hcode, htasks⟩ := Kernel.step_run hstep hs
      obtain ⟨place, hqueued⟩ := hsound.queued
      have htodo : k.core.tasks.todo k.currentThread = .cmd (.run f) :: todo rest :=
        congrArg todo hs
      rw [hprogram] at hcode
      rw [htasks]
      exact (h.code hqueued.current_lt htodo hcode htouches).reaches hreach
  | thread hs hquiet => exact h.moves hreach (Kernel.moves_noCode hsound hlegal hstep hs hquiet)
  | poll hp htype hhandler =>
      rw [hfired _ hp, htype, hhandler]
      exact ⟨net, hreach, .refl m net, rfl, h.poll⟩
  | arrive hp htype hchannel hfree hcheck hhandler =>
      rw [hfired _ hp, htype, hhandler]
      exact (h.arrive hchannel hfree hcheck).reaches hreach
  | sendDone hp htype hhandler =>
      have hpos := Kernel.one_le_pending (Kernel.timed hkernel) hlegal hstep hp
      rw [htype] at hpos
      rw [hfired _ hp, htype, hhandler]
      exact (h.sendDone hpos (total_unscheduled_nonneg _)).reaches hreach
  | other hp htype hhandler =>
      rw [hfired _ hp]
      exact ⟨net, hreach, .refl m net, rfl, h.unhandled
        (Component.unhandled_of_outside hhandler (Component.unhandled_occur htype))⟩

end

namespace Cluster

variable {numBoxes : Word → ℤ} {build : Build} {schedPriority : Bool} {c c' : Cluster}

/-- What is seen of the machines is the network. -/
structure Refines (numBoxes : Word → ℤ) (c : Cluster) (net : Net) : Prop where
  shows : ∀ m, Shows numBoxes m (c.site m).kernel.core.tasks (c.site m).network net
  channel : net.channel = c.channel

theorem Initial.refines (h : c.Initial) : ∃ net, (Net.system numBoxes).Reachable net ∧
    Refines numBoxes c net := by
  choose buffer values machine hvalues havailable hsent hkernel using h.kernel
  choose toAddr fromAddr inbox hnetwork using h.network
  refine ⟨⟨fun m => ⟨.start (toAddr m) (fromAddr m) (inbox m) (buffer m), none, 0, 0,
    fun _ => .idle⟩, fun _ _ => [], fun _ => [], fun _ _ => []⟩,
    .of_init ⟨fun m => ⟨_, _, _, _, rfl⟩, fun _ => rfl, fun _ => rfl, fun _ => rfl, fun _ _ => rfl,
      fun _ _ => rfl, fun _ => rfl, fun _ _ => rfl⟩, fun m => ?_, ?_⟩
  · rw [hkernel m, hnetwork m, Post.start, Kernel.core_start, Core.tasks_start]
    refine ⟨⟨.building .main (fun t ht => ?_) rfl fun _ => rfl, rfl, ?_, rfl,
      fun box => ⟨[], chain_new, rfl⟩, rfl, ?_, rfl⟩, rfl, rfl⟩
    · rw [Tasks.start_todo, Function.update_of_ne ht]
    · exact (havailable m).symm
    · exact (hsent m).symm
  · funext s m
    exact (h.channel s m).symm

/-- The kernels of all machines run as kernels do. -/
def Running (numBoxes : Word → ℤ) (build : Build) (schedPriority : Bool) (c : Cluster) : Prop :=
  ∀ m, (Kernel.system (config m (numBoxes m) build schedPriority) Kernel.Initial).Reachable
    (c.site m).kernel

/-- Whatever the machines do, the network can do. -/
theorem refines_net (h : (system numBoxes build schedPriority).Reachable c) :
    Running numBoxes build schedPriority c ∧
      ∃ net, (Net.system numBoxes).Reachable net ∧ Refines numBoxes c net := by
  refine h.invariant (I := fun c => Running numBoxes build schedPriority c ∧
    ∃ net, (Net.system numBoxes).Reachable net ∧ Refines numBoxes c net) ?_ ?_
  · refine fun c hinit => ⟨fun m => .of_init ?_, hinit.refines⟩
    obtain ⟨buffer, values, machine, hvalues, -, -, hkernel⟩ := hinit.kernel m
    exact ⟨_, _, values, machine, hvalues, hkernel⟩
  · rintro c m - c' ⟨hrunning, net, hreach, hrefines⟩
      ⟨env, k', d', channel', hhalted, hlegal, hstep, heffect, rfl⟩
    rw [← hrefines.channel] at heffect
    obtain ⟨net', hnet⟩ := (hrefines.shows m).step rfl hreach (hrunning m) hlegal hstep heffect
    refine ⟨fun m' => ?_, net', hnet.reachable, fun m' => ?_, hnet.channel⟩
    · by_cases hm : m' = m
      · subst hm
        dsimp only
        rw [Function.update_self]
        exact (hrunning m').step (r := ()) ⟨hhalted, hlegal, hstep⟩
      · dsimp only
        rw [Function.update_of_ne hm]
        exact hrunning m'
    · by_cases hm : m' = m
      · subst hm
        dsimp only
        rw [Function.update_self]
        exact hnet.shows
      · dsimp only
        rw [Function.update_of_ne hm]
        have hold := hrefines.shows m'
        refine ⟨?_, ?_, ?_⟩
        · rw [hnet.others.node m' hm]
          exact hold.node
        · rw [hnet.others.sent m' hm]
          exact hold.sent
        · rw [hnet.others.received m' hm]
          exact hold.received

/-- The mails from one machine that were received from a mailbox are the first of those that the
machine has sent there and that were not lost, with kernels on both sides. -/
theorem received_isPrefix_sent (h : (system numBoxes build schedPriority).Reachable c) (s m : Word)
    (box : ℤ) :
    ((c.site m).kernel.client.received box).filter (·.pktHdr.fromAddr = s) <+:
      (c.site s).kernel.client.sent.filter fun mail =>
        mail.pktHdr.toAddr = m ∧ mail.mailHdr.toAddr.toInt = box := by
  obtain ⟨-, net, hreach, hrefines⟩ := refines_net h
  have hreceived : net.received m = (c.site m).kernel.client.received := (hrefines.shows m).received
  have hsent : net.sent s = (c.site s).kernel.client.sent := (hrefines.shows s).sent
  rw [← hreceived, ← hsent]
  exact (Net.Reachable.sound hreach).isPrefix s m box

end Cluster

end Nachos.Post
