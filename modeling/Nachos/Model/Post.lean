import Nachos.Model.Component
import Nachos.Model.LinkedList
import Nachos.Model.PostOffice

/-! # The post office on top of the kernel

`post.cc` with its calls of the kernel: threads call `Send` and `Receive`, and the postal worker
waits for packets. What `network.cc` does when it is called is in the same steps; its interrupts
are left to the system of all machines. -/

namespace Nachos.Post

open Library

abbrev NetworkTime : ℤ := 100

abbrev sendLock : ℕ := 0

/-- The lock of the list in a mailbox. -/
def boxLock (box : ℤ) : ℕ := box.toNat + 1

/-- The condition of the list in a mailbox. -/
def listEmpty (box : ℤ) : ℕ := box.toNat

abbrev messageAvailable : ℕ := 0

abbrev messageSent : ℕ := 1

/-- The postal worker is the first thread that is created besides the main one. -/
abbrev postalWorker : ℕ := 1

/-- The buffer that `Send` creates holds `junk` at first. -/
inductive Op where
  | send (pktHdr : PacketHeader) (mailHdr : MailHeader) (data : Fin MaxMailSize → Byte)
      (junk : Payload)
  | receive (box : ℤ)

/-- The constructor of the post office, the code that calls the operations, the loop of
`PostalDelivery`, and the pieces of code between two calls of the kernel. -/
inductive Routine where
  | main
  | caller
  | postalDelivery
  | deliver
  | append (box : ℤ) (mail : Mail)
  | transmit (hdr : PacketHeader) (payload : Payload) (mail : Mail)
  | remove (box : ℤ)
  | got (mail : Mail)

/-- What code finds: the network device, what a new buffer of `Network::Send` holds, and whether
`Random` makes the packet get lost. -/
structure Surroundings where
  network : Network
  junk : Payload
  lost : Bool

/-- The buffer of the postal worker and the mailboxes. The mails that were sent and not lost and
those that were received are recorded. -/
structure Office where
  buffer : Payload
  boxes : ℤ → LinkedList Mail
  sent : List Mail
  received : ℤ → List Mail

def Office.new (buffer : Payload) : Office := ⟨buffer, fun _ => .new, [], fun _ => []⟩

def component (numBoxes : ℤ) : Component Routine :=
  ⟨.caller, sendLock :: (List.range numBoxes.toNat).map fun box => boxLock box,
    (List.range numBoxes.toNat).map fun box => listEmpty box, [messageAvailable, messageSent],
    [.networkSend, .networkRecv]⟩

abbrev Choice (numBoxes : ℤ) := Use (component numBoxes) Op × Surroundings

section

variable (netAddr : Word) (numBoxes : ℤ)

/-- `Send` up to `sendLock->Acquire()`, and the start of `Receive`. -/
def call : Op → Exec (List (Cmd Routine))
  | .send pktHdr mailHdr data junk => do
      let (hdr, payload) ← PostOffice.address netAddr numBoxes pktHdr mailHdr data junk
      return [.call (.acquire sendLock),
        .run (.transmit hdr payload ⟨hdr, mailHdr, (List.ofFn data).take mailHdr.length.toNat⟩),
        .call (.p (.user messageSent)), .call (.release sendLock), .run .caller]
  | .receive box => do
      assert (0 ≤ box ∧ box < numBoxes)
      return [.call (.acquire (boxLock box)), .run (.remove box)]

/-- `network->Send` -/
def transmit (g : Office) (s : Surroundings) (hdr : PacketHeader) (payload : Payload)
    (mail : Mail) : Exec (Office × List (Cmd Routine)) := do
  let _ ← s.network.send netAddr hdr payload s.junk
  return (if s.lost then g else { g with sent := g.sent ++ [mail] },
    [.schedule NetworkTime .networkSend])

/-- One turn of `PostalDelivery` from `network->Receive` on. -/
def deliver (g : Office) (s : Surroundings) : Exec (Office × List (Cmd Routine)) := do
  let (pktHdr, buffer, _) := s.network.receive g.buffer
  let mail ← PostOffice.openMail numBoxes pktHdr buffer
  let box := mail.mailHdr.toAddr.toInt
  return ({ g with buffer := buffer },
    [.call (.acquire (boxLock box)), .run (.append box mail),
      .call (.signal (listEmpty box) (boxLock box)), .call (.release (boxLock box)),
      .run .postalDelivery])

def append (g : Office) (box : ℤ) (mail : Mail) : Exec (Office × List (Cmd Routine)) := do
  return ({ g with boxes := Function.update g.boxes box (← (g.boxes box).append mail) }, [])

/-- The loop of `SynchList::Remove` and what comes behind it. -/
def remove (g : Office) (box : ℤ) : Exec (Office × List (Cmd Routine)) :=
  if (g.boxes box).isEmpty then
    .ok (g, [.call (.wait (listEmpty box) (boxLock box)), .run (.remove box)])
  else do
    match ← (g.boxes box).remove with
    | (none, _) => .error .assertion
    | (some mail, list) =>
        return ({ g with
          boxes := Function.update g.boxes box list
          received := Function.update g.received box (g.received box ++ [mail]) },
          [.call (.release (boxLock box)), .run (.got mail)])

def step (g : Office) : Routine → Choice numBoxes → Exec (Office × List (Cmd Routine))
  | .main, _ => .ok (g, [.schedule NetworkTime .networkRecv, .newThread 6 0,
      .call (.fork postalWorker .postalDelivery), .run .caller])
  | .caller, (.call op, _) => do return (g, ← call netAddr numBoxes op)
  | .caller, (.other x, _) => .ok (g, [x.1, .run .caller])
  | .caller, (.leave, _) => .ok (g, [])
  | .postalDelivery, _ => .ok (g, [.call (.p (.user messageAvailable)), .run .deliver])
  | .deliver, (_, s) => deliver numBoxes g s
  | .append box mail, _ => append g box mail
  | .transmit hdr payload mail, (_, s) => transmit netAddr g s hdr payload mail
  | .remove box, _ => remove g box
  | .got mail, _ => do
      assert (mail.mailHdr.length.toNat ≤ MaxMailSize)
      return (g, [.run .caller])

/-! ## The program -/

theorem isPublic_of_call {op : Op} {cmds : List (Cmd Routine)}
    (h : call netAddr numBoxes op = .ok cmds) : ∀ x ∈ cmds, x.Public := by
  cases op with
  | send | receive =>
      obtain ⟨_, _, h⟩ := bind_eq_ok.mp h
      cases h
      simp [Cmd.Public]

theorem isPublic_of_remove {g g' : Office} {box : ℤ} {cmds : List (Cmd Routine)}
    (h : remove g box = .ok (g', cmds)) : ∀ x ∈ cmds, x.Public := by
  unfold remove at h
  split at h
  · cases h
    simp [Cmd.Public]
  · obtain ⟨⟨item, list⟩, _, h⟩ := bind_eq_ok.mp h
    cases item with
    | none => cases h
    | some mail =>
        cases h
        simp [Cmd.Public]

theorem isPublic_of_step {g g' : Office} {f : Routine} {i : Choice numBoxes}
    {cmds : List (Cmd Routine)} (h : step netAddr numBoxes g f i = .ok (g', cmds)) :
    ∀ x ∈ cmds, x.Public := by
  cases f with
  | caller =>
      obtain ⟨use, s⟩ := i
      cases use with
      | call op =>
          obtain ⟨cmds', hcall, h⟩ := bind_eq_ok.mp h
          cases h
          exact isPublic_of_call netAddr numBoxes hcall
      | other x =>
          cases h
          simpa [Cmd.Public] using x.2.isPublic
      | leave =>
          cases h
          simp
  | main | postalDelivery =>
      cases h
      simp [Cmd.Public]
  | deliver | append | transmit | got =>
      obtain ⟨_, _, h⟩ := bind_eq_ok.mp h
      cases h
      simp [Cmd.Public]
  | remove box => exact isPublic_of_remove h

def program : Program Routine Office (Choice numBoxes) where
  step f i g _ := step netAddr numBoxes g f i
  isPublic _ _ _ _ _ _ h := isPublic_of_step netAddr numBoxes h

def config (build : Build) (schedPriority : Bool) : Config Routine Office (Choice numBoxes) where
  build := build
  schedPriority := schedPriority
  program := program netAddr numBoxes

end

/-- The main thread is about to create the post office. -/
def start (buffer : Payload) (values : ℕ → ℤ) (machine : Option Machine) :
    Kernel Routine Office :=
  .start .main (.new buffer) values machine

end Nachos.Post
