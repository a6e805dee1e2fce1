import Nachos.Library.Layout
import Nachos.Library.Transition
import Nachos.Model.Basic

/-! # The network and the post office

`network.cc` and `post.cc`. A packet on the wire has a header and up to `MaxPacketSize` bytes
of data, which are for the post office a header and the bytes of a mail. -/

namespace Nachos

open Library

/-! ## Packets and mails -/

abbrev MaxWireSize : ℕ := 64

/-- `PacketHeader` and `MailHeader` have the same fields; the words `to` and
`from` are taken in Lean. -/
structure Header where
  toAddr : Word
  fromAddr : Word
  length : Word
  deriving DecidableEq

abbrev PacketHeader := Header

abbrev MailHeader := Header

abbrev HeaderSize : ℕ := 4 + (4 + 4)

abbrev MaxPacketSize : ℕ := MaxWireSize - HeaderSize

abbrev MaxMailSize : ℕ := MaxPacketSize - HeaderSize

instance : NeZero MaxPacketSize := ⟨by decide⟩

abbrev Wire := Fin MaxWireSize → Byte

/-- The data of a packet. -/
abbrev Payload := Fin MaxPacketSize → Byte

namespace Header

def fields : Header ≃ Word × Word × Word where
  toFun h := (h.toAddr, h.fromAddr, h.length)
  invFun f := ⟨f.1, f.2.1, f.2.2⟩
  left_inv _ := rfl
  right_inv _ := rfl

def layout : Header ≃ (Fin HeaderSize → Byte) :=
  fields.trans (prodLayout wordLayout (prodLayout wordLayout wordLayout))

end Header

/-- A packet on the wire: the header and the data. -/
def wireLayout : PacketHeader × Payload ≃ Wire := prodLayout Header.layout (Equiv.refl Payload)

/-- The data of a packet: the header of a mail and its data. -/
def mailLayout : MailHeader × (Fin MaxMailSize → Byte) ≃ Payload :=
  prodLayout Header.layout (Equiv.refl (Fin MaxMailSize → Byte))

/-- The array `dst` after `bcopy(src, dst, k)`. -/
def bcopy {n : ℕ} (k : ℕ) (src dst : Fin n → Byte) : Fin n → Byte :=
  fun i => if (i : ℕ) < k then src i else dst i

structure Mail where
  pktHdr : PacketHeader
  mailHdr : MailHeader
  data : List Byte
  deriving DecidableEq

/-- `Mail::Mail`: only the first `mailH.length` bytes are set. -/
def Mail.new (pktH : PacketHeader) (mailH : MailHeader) (msgData : Fin MaxMailSize → Byte) :
    Exec Mail := do
  assert (mailH.length.toNat ≤ MaxMailSize)
  return ⟨pktH, mailH, (List.ofFn msgData).take mailH.length.toNat⟩

/-! ## The network -/

/-- The device keeps one packet that has arrived, unless the length in `inHdr` is 0. -/
structure Network where
  inHdr : PacketHeader
  inbox : Payload
  sendBusy : Bool

namespace Network

/-- `CheckPktAvail`, and whether it calls the read handler; `polled` is the packet in the
socket, if there is one. -/
def checkPktAvail (ident : Word) (net : Network) (polled : Option Wire) :
    Exec (Network × Bool) :=
  if net.inHdr.length ≠ 0 then .ok (net, false)
  else
    match polled with
    | none => .ok (net, false)
    | some wire => do
        let inHdr := (wireLayout.symm wire).1
        assert (inHdr.toAddr = ident ∧ inHdr.length.toNat ≤ MaxPacketSize)
        return ({ net with
          inHdr := inHdr
          inbox := bcopy inHdr.length.toNat (wireLayout.symm wire).2 net.inbox }, true)

/-- `Receive`: the header, the caller's array afterwards and the device. -/
def receive (net : Network) (data : Payload) : PacketHeader × Payload × Network :=
  (net.inHdr,
    if net.inHdr.length ≠ 0 then bcopy net.inHdr.length.toNat net.inbox data else data,
    { net with inHdr := { net.inHdr with length := 0 } })

/-- `Send`: what goes into the socket, unless the packet is lost; `junk` is what the new buffer
holds. Nothing ever sets `sendBusy`. -/
def send (ident : Word) (net : Network) (hdr : PacketHeader) (data junk : Payload) :
    Exec Wire := do
  assert (net.sendBusy = false ∧ 0 < hdr.length.toNat ∧ hdr.length.toNat ≤ MaxPacketSize ∧
    hdr.fromAddr = ident)
  return wireLayout (hdr, bcopy hdr.length.toNat data junk)

def sendDone (net : Network) : Network := { net with sendBusy := false }

end Network

/-! ## The postal worker -/

/-- Where the postal worker is: at `messageAvailable->P()`, at `network->Receive`, or in `Put`
with a mail. -/
inductive Worker where
  | waiting
  | woken
  | putting (mail : Mail)

structure PostOffice where
  network : Network
  messageAvailable : ℕ
  worker : Worker
  buffer : Payload
  boxes : ℤ → List Mail

namespace PostOffice

/-- The part of `PostalDelivery` behind `Receive`. -/
def openMail (numBoxes : ℤ) (pktHdr : PacketHeader) (buffer : Payload) : Exec Mail := do
  let mailHdr := (mailLayout.symm buffer).1
  assert (0 ≤ mailHdr.toAddr.toInt ∧ mailHdr.toAddr.toInt < numBoxes)
  assert (mailHdr.length.toNat ≤ MaxMailSize)
  Mail.new pktHdr mailHdr (mailLayout.symm buffer).2

/-- `PostalDelivery` from `Receive` on until the mail has been made. -/
def postalDelivery (numBoxes : ℤ) (po : PostOffice) : Exec (Mail × PostOffice) := do
  let (pktHdr, buffer, network) := po.network.receive po.buffer
  let mail ← openMail numBoxes pktHdr buffer
  return (mail, { po with network := network, buffer := buffer, worker := .putting mail })

/-- What `Send` hands to the network: the headers and the data; `junk` is what the new buffer
holds. -/
def address (netAddr : Word) (numBoxes : ℤ) (pktHdr : PacketHeader) (mailHdr : MailHeader)
    (data : Fin MaxMailSize → Byte) (junk : Payload) : Exec (PacketHeader × Payload) := do
  assert (mailHdr.length.toNat ≤ MaxMailSize)
  assert (0 ≤ mailHdr.toAddr.toInt ∧ mailHdr.toAddr.toInt < numBoxes)
  return ({ pktHdr with
      fromAddr := netAddr
      length := mailHdr.length + BitVec.ofNat 32 HeaderSize },
    mailLayout (mailHdr, bcopy mailHdr.length.toNat data (mailLayout.symm junk).2))

/-- The start: nothing has arrived. The other fields hold anything. -/
def start (toAddr fromAddr : Word) (inbox buffer : Payload) : PostOffice :=
  ⟨⟨⟨toAddr, fromAddr, 0⟩, inbox, false⟩, 0, .waiting, buffer, fun _ => []⟩

inductive Event where
  | poll (polled : Option Wire)
  | wake
  | sort (mail : Mail)
  | put
  | receive (box : ℤ) (mail : Mail)

/-- Poll interrupts, the postal worker and threads that call `Receive`, in any order. -/
inductive Step (ident : Word) (numBoxes : ℤ) : PostOffice → Event → PostOffice → Prop where
  | poll {po : PostOffice} {polled : Option Wire} {net : Network} {called : Bool}
      (h : po.network.checkPktAvail ident polled = .ok (net, called)) :
      Step ident numBoxes po (.poll polled)
        { po with network := net, messageAvailable := po.messageAvailable + called.toNat }
  | wake {po : PostOffice} {n : ℕ} (hworker : po.worker = .waiting)
      (h : po.messageAvailable = n + 1) :
      Step ident numBoxes po .wake { po with messageAvailable := n, worker := .woken }
  | sort {po po' : PostOffice} {mail : Mail} (hworker : po.worker = .woken)
      (h : po.postalDelivery numBoxes = .ok (mail, po')) : Step ident numBoxes po (.sort mail) po'
  | put {po : PostOffice} {mail : Mail} (hworker : po.worker = .putting mail) :
      Step ident numBoxes po .put { po with
        worker := .waiting
        boxes := Function.update po.boxes mail.mailHdr.toAddr.toInt
          (po.boxes mail.mailHdr.toAddr.toInt ++ [mail]) }
  | receive {po : PostOffice} {box : ℤ} {mail : Mail} {rest : List Mail}
      (hbox : 0 ≤ box ∧ box < numBoxes) (h : po.boxes box = mail :: rest) :
      Step ident numBoxes po (.receive box mail)
        { po with boxes := Function.update po.boxes box rest }

def system (ident : Word) (numBoxes : ℤ) (po : PostOffice) : System PostOffice Event Unit where
  init po' := po' = po
  step po e _ po' := Step ident numBoxes po e po'

end PostOffice

/-! ## Machines that send mails to each other

A call of a semaphore, a lock or a mailbox is one step here. `Model/Post.lean` has the calls as
the kernel runs them. -/

/-- Where a thread is in `PostOffice::Send`: outside, at `sendLock->Acquire()` with what it
has to send, at `network->Send` with the lock, at `messageSent->P()`, at `sendLock->Release()`.
The mail is the one that the caller wants to send. -/
inductive SendPhase where
  | idle
  | ready (hdr : PacketHeader) (payload : Payload) (mail : Mail)
  | locked (hdr : PacketHeader) (payload : Payload) (mail : Mail)
  | sent
  | woken

/-- `sendDone` is the number of pending interrupts for `SendDone`. -/
structure Node where
  office : PostOffice
  sendLock : Option ℕ
  messageSent : ℕ
  sendDone : ℕ
  sender : ℕ → SendPhase

/-- The machines and the packets between them, those from `s` to `m` in `channel s m`. The
histories are the mails that each machine has sent and that were not lost, and those that were
received from each mailbox. -/
structure Net where
  node : Word → Node
  channel : Word → Word → List Wire
  sent : Word → List Mail
  received : Word → ℤ → List Mail

namespace Net

def setNode (net : Net) (m : Word) (node : Node) : Net :=
  { net with node := Function.update net.node m node }

def setOffice (net : Net) (m : Word) (office : PostOffice) : Net :=
  net.setNode m { net.node m with office := office }

def setSender (net : Net) (m : Word) (t : ℕ) (phase : SendPhase) : Net :=
  net.setNode m { net.node m with sender := Function.update (net.node m).sender t phase }

def setChannel (net : Net) (s m : Word) (packets : List Wire) : Net :=
  { net with channel := Function.update net.channel s (Function.update (net.channel s) m packets) }

/-- One machine takes a step. The packets of one sender arrive in the order in which they were
sent. -/
inductive Step (numBoxes : Word → ℤ) : Net → Word → Net → Prop where
  /-- A poll that reads no packet. -/
  | poll {net : Net} {m : Word} {office : PostOffice}
      (h : (net.node m).office.Step m (numBoxes m) (.poll none) office) :
      Step numBoxes net m (net.setOffice m office)
  /-- A poll that finds a packet; if the device is not free, the packet stays in the socket. -/
  | arrive {net : Net} {s m : Word} {wire : Wire} {rest : List Wire} {office : PostOffice}
      (hchannel : net.channel s m = wire :: rest)
      (hfree : (net.node m).office.network.inHdr.length = 0)
      (h : (net.node m).office.Step m (numBoxes m) (.poll (some wire)) office) :
      Step numBoxes net m ((net.setOffice m office).setChannel s m rest)
  | wake {net : Net} {m : Word} {office : PostOffice}
      (h : (net.node m).office.Step m (numBoxes m) .wake office) :
      Step numBoxes net m (net.setOffice m office)
  | sort {net : Net} {m : Word} {mail : Mail} {office : PostOffice}
      (h : (net.node m).office.Step m (numBoxes m) (.sort mail) office) :
      Step numBoxes net m (net.setOffice m office)
  | put {net : Net} {m : Word} {office : PostOffice}
      (h : (net.node m).office.Step m (numBoxes m) .put office) :
      Step numBoxes net m (net.setOffice m office)
  | receive {net : Net} {m : Word} {box : ℤ} {mail : Mail} {office : PostOffice}
      (h : (net.node m).office.Step m (numBoxes m) (.receive box mail) office) :
      Step numBoxes net m { net.setOffice m office with
        received := Function.update net.received m
          (Function.update (net.received m) box (net.received m box ++ [mail])) }
  | call {net : Net} {s : Word} {t : ℕ} {pktHdr : PacketHeader} {mailHdr : MailHeader}
      {data : Fin MaxMailSize → Byte} {junk : Payload} {hdr : PacketHeader} {payload : Payload}
      (hidle : (net.node s).sender t = .idle)
      (h : PostOffice.address s (numBoxes s) pktHdr mailHdr data junk = .ok (hdr, payload)) :
      Step numBoxes net s (net.setSender s t
        (.ready hdr payload ⟨hdr, mailHdr, (List.ofFn data).take mailHdr.length.toNat⟩))
  | acquire {net : Net} {s : Word} {t : ℕ} {hdr : PacketHeader} {payload : Payload} {mail : Mail}
      (hready : (net.node s).sender t = .ready hdr payload mail)
      (hfree : (net.node s).sendLock = none) :
      Step numBoxes net s (net.setNode s { net.node s with
        sendLock := some t
        sender := Function.update (net.node s).sender t (.locked hdr payload mail) })
  /-- `lost` is whether `Random()` makes the packet get lost. -/
  | transmit {net : Net} {s : Word} {t : ℕ} {hdr : PacketHeader} {payload junk : Payload}
      {mail : Mail} {wire : Wire} {lost : Bool}
      (hlocked : (net.node s).sender t = .locked hdr payload mail)
      (h : (net.node s).office.network.send s hdr payload junk = .ok wire) :
      Step numBoxes net s
        (let net' := net.setNode s { net.node s with
          sendDone := (net.node s).sendDone + 1
          sender := Function.update (net.node s).sender t .sent }
        if lost then net'
        else { net'.setChannel s hdr.toAddr (net.channel s hdr.toAddr ++ [wire]) with
          sent := Function.update net.sent s (net.sent s ++ [mail]) })
  | sendDone {net : Net} {s : Word} {n : ℕ} (h : (net.node s).sendDone = n + 1) :
      Step numBoxes net s (net.setNode s { net.node s with
        sendDone := n
        messageSent := (net.node s).messageSent + 1
        office := { (net.node s).office with
          network := (net.node s).office.network.sendDone } })
  | wakeSender {net : Net} {s : Word} {t n : ℕ} (hsent : (net.node s).sender t = .sent)
      (h : (net.node s).messageSent = n + 1) :
      Step numBoxes net s (net.setNode s { net.node s with
        messageSent := n
        sender := Function.update (net.node s).sender t .woken })
  | release {net : Net} {s : Word} {t : ℕ} (hwoken : (net.node s).sender t = .woken)
      (hheld : (net.node s).sendLock = some t) :
      Step numBoxes net s (net.setNode s { net.node s with
        sendLock := none
        sender := Function.update (net.node s).sender t .idle })

/-- No packet is in flight and no thread sends. The buffers hold anything. -/
structure Initial (net : Net) : Prop where
  office : ∀ m, ∃ toAddr fromAddr inbox buffer,
    (net.node m).office = .start toAddr fromAddr inbox buffer
  lock : ∀ m, (net.node m).sendLock = none
  messageSent : ∀ m, (net.node m).messageSent = 0
  sendDone : ∀ m, (net.node m).sendDone = 0
  sender : ∀ m t, (net.node m).sender t = .idle
  channel : ∀ s m, net.channel s m = []
  sent : ∀ s, net.sent s = []
  received : ∀ m box, net.received m box = []

def system (numBoxes : Word → ℤ) : System Net Word Unit where
  init := Initial
  step net m _ net' := Step numBoxes net m net'

end Net

end Nachos
