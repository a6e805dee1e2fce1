import Nachos.Verification.PostOffice.Mail

/-! # Mails between machines

The mails from one machine to a mailbox of another one are, from the history of the receiver
back to the socket, in the order in which they were sent. -/

namespace Nachos

open Library

/-! ## Packets made by `Send` -/

/-- The packet has exactly the mail that is in it. -/
structure Packed (s m : Word) (hdr : PacketHeader) (p : Payload) : Prop where
  toAddr : hdr.toAddr = m
  fromAddr : hdr.fromAddr = s
  length : hdr.length.toNat = HeaderSize + (mailHdrOf p).length.toNat
  le : (mailHdrOf p).length.toNat ≤ MaxMailSize

/-- The mail in a packet. -/
def mailOf (hdr : PacketHeader) (p : Payload) : Mail := ⟨hdr, mailHdrOf p, dataOf p⟩

namespace Packed

variable {s m : Word} {hdr : PacketHeader} {p b : Payload}

/-- What is behind the packet does not matter. -/
theorem bcopy (h : Packed s m hdr p) (b : Payload) :
    mailOf hdr (bcopy hdr.length.toNat p b) = mailOf hdr p ∧
      Packed s m hdr (Nachos.bcopy hdr.length.toNat p b) := by
  have hlength := h.length
  have hhdr : mailHdrOf (Nachos.bcopy hdr.length.toNat p b) = mailHdrOf p :=
    mailHdrOf_congr fun i hi => bcopy_of_lt (by rw [hlength]; simp only [HeaderSize]; omega)
  have hdata : dataOf (Nachos.bcopy hdr.length.toNat p b) = dataOf p := by
    refine dataOf_congr (by rw [hhdr]; exact h.le) hhdr fun i hi => bcopy_of_lt ?_
    rw [hhdr] at hi
    rw [hlength]
    exact Nat.add_lt_add_left hi _
  refine ⟨by rw [mailOf, hhdr, hdata]; rfl, h.toAddr, h.fromAddr, ?_, ?_⟩
  · rw [hhdr]
    exact hlength
  · rw [hhdr]
    exact h.le

theorem length_ne (h : Packed s m hdr p) : hdr.length ≠ 0 := by
  intro hzero
  have hlength := h.length
  rw [hzero] at hlength
  have hnat : (0 : Word).toNat = 0 := rfl
  have hH : HeaderSize = 12 := rfl
  omega

end Packed

theorem mailLayout_dataIndex (mailHdr : MailHeader) (data : Fin MaxMailSize → Byte)
    (i : Fin MaxMailSize) : mailLayout (mailHdr, data) (dataIndex i) = data i := by
  change (mailLayout.symm (mailLayout (mailHdr, data))).2 i = data i
  rw [Equiv.symm_apply_apply]

/-- The payload that `Send` makes holds the caller's mail. -/
theorem packed_of_address {netAddr : Word} {numBoxes : ℤ} {pktHdr hdr : PacketHeader}
    {mailHdr : MailHeader} {data : Fin MaxMailSize → Byte} {junk payload : Payload}
    (h : PostOffice.address netAddr numBoxes pktHdr mailHdr data junk = .ok (hdr, payload)) :
    Packed netAddr hdr.toAddr hdr payload ∧
      mailOf hdr payload = ⟨hdr, mailHdr, (List.ofFn data).take mailHdr.length.toNat⟩ := by
  rw [PostOffice.address] at h
  obtain ⟨_, hle, h⟩ := bind_eq_ok.mp h
  obtain ⟨_, _, h⟩ := bind_eq_ok.mp h
  cases h
  have hle : mailHdr.length.toNat ≤ MaxMailSize := of_assert hle
  have hM : MaxMailSize = 40 := rfl
  obtain ⟨payload, hpayload⟩ : ∃ payload, payload = mailLayout (mailHdr,
    bcopy mailHdr.length.toNat data (mailLayout.symm junk).2) := ⟨_, rfl⟩
  have hhdr : mailHdrOf payload = mailHdr := by
    rw [mailHdrOf, hpayload, Equiv.symm_apply_apply]
  have hdata : dataOf payload = (List.ofFn data).take mailHdr.length.toNat := by
    apply List.ext_getElem?
    intro i
    by_cases hi : i < mailHdr.length.toNat
    · have hbyte := getElem?_dataOf (b := payload) (i := ⟨i, hi.trans_le hle⟩) (by rwa [hhdr])
      dsimp only at hbyte
      rw [hbyte, hpayload, mailLayout_dataIndex, bcopy_of_lt hi, List.getElem?_take_of_lt hi,
        List.getElem?_ofFn, dif_pos (hi.trans_le hle)]
    · rw [List.getElem?_eq_none, List.getElem?_eq_none]
      · rw [List.length_take]
        omega
      · rw [length_dataOf (by rwa [hhdr]), hhdr]
        omega
  rw [← hpayload]
  refine ⟨⟨rfl, rfl, ?_, by rwa [hhdr]⟩, by rw [mailOf, hhdr, hdata]⟩
  rw [hhdr]
  change (mailHdr.length + BitVec.ofNat 32 HeaderSize).toNat = HeaderSize + mailHdr.length.toNat
  rw [BitVec.toNat_add, BitVec.toNat_ofNat]
  simp only [HeaderSize]
  omega

/-! ## The mails in one machine -/

variable {mail : Mail}

namespace PostOffice

/-- The mail in the device. -/
def inDevice (net : Network) : List Mail :=
  if net.inHdr.length = 0 then [] else [mailOf net.inHdr net.inbox]

/-- The mail that the worker puts into its box. -/
def atWorker : Worker → List Mail
  | .putting mail => [mail]
  | _ => []

def onWire (packets : List Wire) : List Mail :=
  packets.map fun wire => mailOf (wireLayout.symm wire).1 (wireLayout.symm wire).2

/-- The mails from a mailbox back to a socket. -/
def line (po : PostOffice) (packets : List Wire) (box : ℤ) : List Mail :=
  po.boxes box ++ atWorker po.worker ++ inDevice po.network ++ onWire packets

/-- Every packet that was announced is in the device, and the mails are addressed to this
machine. -/
structure Sound (m : Word) (po : PostOffice) : Prop where
  packed : po.network.inHdr.length ≠ 0 → ∃ s, Packed s m po.network.inHdr po.network.inbox
  announced : po.network.inHdr.length = 0 ↔ po.messageAvailable = 0 ∧ po.worker ≠ .woken
  once : po.worker = .woken → po.messageAvailable = 0
  atMostOnce : po.messageAvailable ≤ 1
  putting : ∀ mail ∈ atWorker po.worker, mail.pktHdr.toAddr = m
  boxed : ∀ box, ∀ mail ∈ po.boxes box, mail.pktHdr.toAddr = m ∧ mail.mailHdr.toAddr.toInt = box

variable {m : Word} {numBoxes : ℤ} {po po' : PostOffice}

theorem eq_of_poll_none (h : Step m numBoxes po (.poll none) po') : po' = po := by
  cases h with
  | poll h =>
      rw [Network.checkPktAvail, ite_self] at h
      cases h
      rfl

theorem Sound.arrive {s : Word} {wire : Wire} (hpo : po.Sound m)
    (hfree : po.network.inHdr.length = 0)
    (hpacked : Packed s m (wireLayout.symm wire).1 (wireLayout.symm wire).2)
    (h : Step m numBoxes po (.poll (some wire)) po') :
    po'.Sound m ∧ po'.boxes = po.boxes ∧ po'.worker = po.worker ∧
      inDevice po'.network = [mailOf (wireLayout.symm wire).1 (wireLayout.symm wire).2] := by
  obtain ⟨-, -, rfl⟩ := poll_some_inv hfree h
  obtain ⟨hmail, hpacked'⟩ := hpacked.bcopy po.network.inbox
  obtain ⟨hnone, hwoken⟩ := hpo.announced.mp hfree
  have hne := hpacked.length_ne
  refine ⟨⟨fun _ => ⟨s, hpacked'⟩, ?_, fun h => absurd h hwoken, ?_, hpo.putting, hpo.boxed⟩, rfl,
    rfl, ?_⟩
  · exact iff_of_false hne fun h => absurd h.1 (Nat.succ_ne_zero _)
  · change po.messageAvailable + 1 ≤ 1
    omega
  · exact (if_neg hne).trans (congrArg (fun mail => [mail]) hmail)

theorem Sound.wake (hpo : po.Sound m) (h : Step m numBoxes po .wake po') :
    po'.Sound m ∧ po'.boxes = po.boxes ∧ atWorker po'.worker = atWorker po.worker ∧
      po'.network = po.network := by
  cases h with
  | @wake n hworker h =>
      have hle := hpo.atMostOnce
      have hne : po.network.inHdr.length ≠ 0 := fun hzero => by
        have := (hpo.announced.mp hzero).1
        omega
      refine ⟨⟨hpo.packed, iff_of_false hne fun h => h.2 rfl, fun _ => ?_, ?_, ?_, hpo.boxed⟩,
        rfl, by rw [hworker]; rfl, rfl⟩
      · change n = 0
        omega
      · change n ≤ 1
        omega
      · rintro mail ⟨⟩

/-- The worker takes the mail out of the device. -/
theorem Sound.sort (hpo : po.Sound m) (h : Step m numBoxes po (.sort mail) po') :
    po'.Sound m ∧ po'.boxes = po.boxes ∧ atWorker po.worker = [] ∧ inDevice po.network = [mail] ∧
      atWorker po'.worker = [mail] ∧ inDevice po'.network = [] := by
  cases h with
  | sort hworker h =>
      have hne : po.network.inHdr.length ≠ 0 := fun hzero => (hpo.announced.mp hzero).2 hworker
      obtain ⟨s, hpacked⟩ := hpo.packed hne
      obtain ⟨hmail, -⟩ := hpacked.bcopy po.buffer
      rw [postalDelivery, Network.receive, if_pos hne] at h
      obtain ⟨mail', hopen, h⟩ := bind_eq_ok.mp h
      obtain ⟨-, rfl⟩ := openMail_eq_ok.mp hopen
      cases h
      refine ⟨⟨fun h => absurd rfl h, iff_of_true rfl ⟨hpo.once hworker, ?_⟩, ?_, hpo.atMostOnce,
        ?_, hpo.boxed⟩, rfl, by rw [hworker]; rfl, ?_, rfl, if_pos rfl⟩
      · rintro ⟨⟩
      · rintro ⟨⟩
      · intro mail hmem
        obtain rfl := List.mem_singleton.mp hmem
        exact hpacked.toAddr
      · rw [inDevice, if_neg hne]
        exact congrArg (fun mail => [mail]) hmail.symm

theorem Sound.put (hpo : po.Sound m) (h : Step m numBoxes po .put po') :
    po'.Sound m ∧ po'.network = po.network ∧ atWorker po'.worker = [] ∧
      ∃ mail, atWorker po.worker = [mail] ∧
        po'.boxes = Function.update po.boxes mail.mailHdr.toAddr.toInt
          (po.boxes mail.mailHdr.toAddr.toInt ++ [mail]) := by
  cases h with
  | @put mail hworker =>
      have hto : mail.pktHdr.toAddr = m :=
        hpo.putting mail (by rw [hworker]; exact List.mem_singleton_self _)
      refine ⟨⟨hpo.packed, ?_, ?_, hpo.atMostOnce, ?_, ?_⟩, rfl, rfl, mail, by rw [hworker]; rfl,
        rfl⟩
      · rw [hpo.announced, hworker]
        simp
      · rintro ⟨⟩
      · rintro mail ⟨⟩
      · intro box mail' hmem
        dsimp only at hmem
        by_cases hbox : box = mail.mailHdr.toAddr.toInt
        · subst hbox
          rw [Function.update_self] at hmem
          rcases List.mem_append.mp hmem with hold | hnew
          · exact hpo.boxed _ _ hold
          · obtain rfl := List.mem_singleton.mp hnew
            exact ⟨hto, rfl⟩
        · rw [Function.update_of_ne hbox] at hmem
          exact hpo.boxed _ _ hmem

theorem Sound.receive {box : ℤ} (hpo : po.Sound m)
    (h : Step m numBoxes po (.receive box mail) po') :
    po'.Sound m ∧ po'.network = po.network ∧ po'.worker = po.worker ∧
      ∃ rest, po.boxes box = mail :: rest ∧ po'.boxes = Function.update po.boxes box rest := by
  cases h with
  | @receive _ _ rest _ h =>
      refine ⟨⟨hpo.packed, hpo.announced, hpo.once, hpo.atMostOnce, hpo.putting, ?_⟩, rfl, rfl,
        rest, h, rfl⟩
      intro box' mail' hmem
      dsimp only at hmem
      by_cases hbox : box' = box
      · subst hbox
        rw [Function.update_self] at hmem
        exact hpo.boxed _ _ (by rw [h]; exact List.mem_cons_of_mem _ hmem)
      · rw [Function.update_of_ne hbox] at hmem
        exact hpo.boxed _ _ hmem

end PostOffice

/-! ## All machines -/

namespace Net

open PostOffice

/-- The mail goes from `s` to box `box` of `m`. -/
def Selects (s m : Word) (box : ℤ) (mail : Mail) : Prop :=
  mail.pktHdr.fromAddr = s ∧ mail.pktHdr.toAddr = m ∧ mail.mailHdr.toAddr.toInt = box

instance (s m : Word) (box : ℤ) : DecidablePred (Selects s m box) :=
  fun _ => inferInstanceAs (Decidable (_ ∧ _))

/-- The mails from `s` to box `box` of `m`, those received first. -/
def path (net : Net) (s m : Word) (box : ℤ) : List Mail :=
  net.received m box ++ (net.node m).office.line (net.channel s m) box

/-- A thread of `s` sends a packet that holds its mail. -/
def Prepared (s : Word) : SendPhase → Prop
  | .ready hdr payload mail => Packed s hdr.toAddr hdr payload ∧ mail = mailOf hdr payload
  | .locked hdr payload mail => Packed s hdr.toAddr hdr payload ∧ mail = mailOf hdr payload
  | _ => True

structure Sound (net : Net) : Prop where
  office : ∀ m, (net.node m).office.Sound m
  sender : ∀ s t, Prepared s ((net.node s).sender t)
  channel : ∀ s m, ∀ wire ∈ net.channel s m,
    Packed s m (wireLayout.symm wire).1 (wireLayout.symm wire).2
  sent : ∀ s, ∀ mail ∈ net.sent s, mail.pktHdr.fromAddr = s
  received : ∀ m box, ∀ mail ∈ net.received m box,
    mail.pktHdr.toAddr = m ∧ mail.mailHdr.toAddr.toInt = box
  path : ∀ s m box, (net.path s m box).filter (Selects s m box) =
    (net.sent s).filter (Selects s m box)

variable {net net' : Net} {m s : Word} {numBoxes : Word → ℤ} {office : PostOffice}

@[simp] theorem node_setNode (m m' : Word) (node : Node) :
    (net.setNode m node).node m' = if m' = m then node else net.node m' :=
  Function.update_apply _ _ _ _

@[simp] theorem channel_setChannel (s m s' m' : Word) (packets : List Wire) :
    (net.setChannel s m packets).channel s' m' =
      if s' = s ∧ m' = m then packets else net.channel s' m' := by
  rw [setChannel]
  dsimp only
  by_cases hs : s' = s
  · subst hs
    rw [Function.update_self, Function.update_apply]
    simp
  · rw [Function.update_of_ne hs, if_neg fun h => hs h.1]

/-- What belongs to other machines than `m` stays as it is. -/
structure Others (m : Word) (net net' : Net) : Prop where
  node : ∀ m', m' ≠ m → net'.node m' = net.node m'
  sent : ∀ m', m' ≠ m → net'.sent m' = net.sent m'
  received : ∀ m', m' ≠ m → net'.received m' = net.received m'

theorem Others.refl (m : Word) (net : Net) : net.Others m net :=
  ⟨fun _ _ => rfl, fun _ _ => rfl, fun _ _ => rfl⟩

theorem Others.trans {net'' : Net} (h : net.Others m net') (h' : net'.Others m net'') :
    net.Others m net'' :=
  ⟨fun x hx => (h'.node x hx).trans (h.node x hx), fun x hx => (h'.sent x hx).trans (h.sent x hx),
    fun x hx => (h'.received x hx).trans (h.received x hx)⟩

theorem others_setNode (m : Word) (node : Node) : net.Others m (net.setNode m node) :=
  ⟨fun _ hx => Function.update_of_ne hx _ _, fun _ _ => rfl, fun _ _ => rfl⟩

theorem Step.others (h : Step numBoxes net m net') : net.Others m net' := by
  have hnode : ∀ node, net.Others m (net.setNode m node) := others_setNode m
  cases h with
  | receive =>
      exact ⟨(hnode _).node, fun _ _ => rfl, fun x hx => Function.update_of_ne hx _ _⟩
  | @transmit _ _ _ _ _ _ _ lost =>
      cases lost with
      | true => exact hnode _
      | false => exact ⟨(hnode _).node, fun x hx => Function.update_of_ne hx _ _, fun _ _ => rfl⟩
  | arrive => exact ⟨(hnode _).node, fun _ _ => rfl, fun _ _ => rfl⟩
  | _ => exact hnode _

/-- A step that changes the post office of one machine and nothing else. -/
theorem Sound.setOffice (hnet : net.Sound) (hoffice : office.Sound m)
    (hline : ∀ s box, ((net.received m box) ++ office.line (net.channel s m) box).filter
      (Selects s m box) = (net.path s m box).filter (Selects s m box)) :
    (net.setOffice m office).Sound := by
  refine ⟨fun m' => ?_, fun s t => ?_, hnet.channel, hnet.sent, hnet.received, fun s m' box => ?_⟩
  · rw [Net.setOffice, node_setNode]
    split
    · rename_i hm
      subst hm
      exact hoffice
    · exact hnet.office m'
  · rw [Net.setOffice, node_setNode]
    split
    · rename_i hs
      subst hs
      exact hnet.sender s t
    · exact hnet.sender s t
  · refine Eq.trans ?_ (hnet.path s m' box)
    rw [Net.path, Net.setOffice, node_setNode]
    split
    · rename_i hm
      subst hm
      exact hline s box
    · rfl

/-- A step that changes the send side of one machine and nothing else. -/
theorem Sound.setSend {node : Node} (hnet : net.Sound) (hoffice : node.office.Sound s)
    (hsame : node.office.boxes = (net.node s).office.boxes ∧
      node.office.worker = (net.node s).office.worker ∧
      inDevice node.office.network = inDevice (net.node s).office.network)
    (hsender : ∀ t, Prepared s (node.sender t)) : (net.setNode s node).Sound := by
  refine ⟨fun m' => ?_, fun s' t => ?_, hnet.channel, hnet.sent, hnet.received, fun s' m' box => ?_⟩
  · rw [node_setNode]
    split
    · rename_i hm
      subst hm
      exact hoffice
    · exact hnet.office m'
  · rw [node_setNode]
    split
    · rename_i hs
      subst hs
      exact hsender t
    · exact hnet.sender s' t
  · refine Eq.trans ?_ (hnet.path s' m' box)
    rw [Net.path, Net.path, node_setNode]
    split
    · rename_i hm
      subst hm
      rw [line, line, hsame.1, hsame.2.1, hsame.2.2]
      rfl
    · rfl

theorem prepared_update {t : ℕ} (phase : SendPhase) (hnet : net.Sound) (hphase : Prepared s phase)
    (t' : ℕ) : Prepared s (Function.update (net.node s).sender t phase t') := by
  rw [Function.update_apply]
  split
  · exact hphase
  · exact hnet.sender s t'

theorem filter_singleton_of_not {box : ℤ} (h : ¬ Selects s m box mail) :
    [mail].filter (Selects s m box) = [] := by
  simp [h]

theorem Sound.arrive {wire : Wire} {rest : List Wire} (hnet : net.Sound)
    (hchannel : net.channel s m = wire :: rest)
    (hfree : (net.node m).office.network.inHdr.length = 0)
    (h : (net.node m).office.Step m (numBoxes m) (.poll (some wire)) office) :
    ((net.setOffice m office).setChannel s m rest).Sound := by
  have hpacked := hnet.channel s m wire (by rw [hchannel]; exact List.mem_cons_self)
  obtain ⟨hoffice, hboxes, hworker, hdevice⟩ := (hnet.office m).arrive hfree hpacked h
  refine ⟨fun m' => ?_, fun s' t => ?_, fun s' m' w hw => ?_, hnet.sent, hnet.received,
    fun s' m' box => ?_⟩
  · change ((net.setOffice m office).node m').office.Sound m'
    rw [Net.setOffice, node_setNode]
    split
    · rename_i hm
      subst hm
      exact hoffice
    · exact hnet.office m'
  · change Prepared s' (((net.setOffice m office).node s').sender t)
    rw [Net.setOffice, node_setNode]
    split
    · rename_i hs
      subst hs
      exact hnet.sender s' t
    · exact hnet.sender s' t
  · rw [channel_setChannel] at hw
    split at hw
    · rename_i heq
      obtain ⟨rfl, rfl⟩ := heq
      exact hnet.channel _ _ w (by rw [hchannel]; exact List.mem_cons_of_mem _ hw)
    · exact hnet.channel _ _ w hw
  · refine Eq.trans ?_ (hnet.path s' m' box)
    rw [Net.path, Net.path, channel_setChannel]
    change (net.received m' box ++
      ((net.setOffice m office).node m').office.line _ box).filter _ = _
    rw [Net.setOffice, node_setNode]
    have hempty : inDevice (net.node m).office.network = [] := if_pos hfree
    by_cases hm : m' = m
    · subst hm
      rw [if_pos rfl]
      dsimp only
      rw [line, line, hboxes, hworker, hdevice, hempty]
      by_cases hs : s' = s
      · -- the packet moves from the socket into the device
        subst hs
        rw [if_pos ⟨rfl, rfl⟩, hchannel, onWire, onWire, List.map_cons]
        simp only [List.append_assoc, List.nil_append, List.singleton_append]
      · -- the packet is from another machine
        have hother : [mailOf (wireLayout.symm wire).1 (wireLayout.symm wire).2].filter
            (Selects s' m' box) = [] :=
          filter_singleton_of_not fun hsel => hs (hsel.1.symm.trans hpacked.fromAddr)
        rw [if_neg fun h => hs h.1]
        simp only [List.filter_append, hother, List.filter_nil]
        rfl
    · rw [if_neg hm, if_neg fun h => hm h.2]
      rfl

theorem Sound.transmit {t : ℕ} {hdr : PacketHeader} {payload junk : Payload} {wire : Wire}
    (hnet : net.Sound) (hlocked : (net.node s).sender t = .locked hdr payload mail)
    (h : (net.node s).office.network.send s hdr payload junk = .ok wire) :
    Sound { net.setChannel s hdr.toAddr (net.channel s hdr.toAddr ++ [wire]) with
      sent := Function.update net.sent s (net.sent s ++ [mail]) } := by
  have hprepared := hnet.sender s t
  rw [hlocked] at hprepared
  obtain ⟨hpacked, rfl⟩ := hprepared
  obtain ⟨_, _, h⟩ := bind_eq_ok.mp h
  cases h
  obtain ⟨hmail, hpacked'⟩ := hpacked.bcopy junk
  have hwire : mailOf (wireLayout.symm (wireLayout (hdr, bcopy hdr.length.toNat payload junk))).1
      (wireLayout.symm (wireLayout (hdr, bcopy hdr.length.toNat payload junk))).2 =
        mailOf hdr payload := by
    rw [Equiv.symm_apply_apply]
    exact hmail
  refine ⟨hnet.office, hnet.sender, fun s' m' w hw => ?_, fun s' mail hmem => ?_, hnet.received,
    fun s' m' box => ?_⟩
  · change w ∈ (net.setChannel s hdr.toAddr _).channel s' m' at hw
    rw [channel_setChannel] at hw
    split at hw
    · rename_i heq
      obtain ⟨rfl, rfl⟩ := heq
      rcases List.mem_append.mp hw with hold | hnew
      · exact hnet.channel _ _ w hold
      · obtain rfl := List.mem_singleton.mp hnew
        rw [Equiv.symm_apply_apply]
        exact hpacked'
    · exact hnet.channel _ _ w hw
  · dsimp only at hmem
    by_cases hs : s' = s
    · subst hs
      rw [Function.update_self] at hmem
      rcases List.mem_append.mp hmem with hold | hnew
      · exact hnet.sent _ _ hold
      · obtain rfl := List.mem_singleton.mp hnew
        exact hpacked.fromAddr
    · rw [Function.update_of_ne hs] at hmem
      exact hnet.sent _ _ hmem
  · have hold := hnet.path s' m' box
    rw [Net.path, line] at hold
    change (net.received m' box ++ (net.node m').office.line
      ((net.setChannel s hdr.toAddr _).channel s' m') box).filter _ =
        (Function.update net.sent s _ s').filter _
    rw [channel_setChannel, line]
    by_cases hs : s' = s
    · subst hs
      have hsent : (net.sent s' ++ [mailOf hdr payload]).filter (Selects s' m' box) =
          (net.sent s').filter (Selects s' m' box) ++
            [mailOf hdr payload].filter (Selects s' m' box) := List.filter_append ..
      rw [Function.update_self, hsent, ← hold]
      by_cases hm : m' = hdr.toAddr
      · subst hm
        rw [if_pos ⟨rfl, rfl⟩, onWire, onWire, List.map_append, List.map_singleton, hwire]
        simp only [List.append_assoc, List.filter_append]
      · have hother : [mailOf hdr payload].filter (Selects s' m' box) = [] :=
          filter_singleton_of_not fun hsel => hm hsel.2.1.symm
        rw [if_neg fun h => hm h.2, hother, List.append_nil]
    · rw [if_neg fun h => hs h.1, Function.update_of_ne hs, hold]

theorem Sound.put (hnet : net.Sound) (h : (net.node m).office.Step m (numBoxes m) .put office) :
    (net.setOffice m office).Sound := by
  obtain ⟨hoffice, hnetwork, hworker, mail, hmail, hboxes⟩ := (hnet.office m).put h
  refine hnet.setOffice hoffice fun s box => ?_
  rw [Net.path, line, line, hnetwork, hworker, hmail, hboxes]
  by_cases hbox : box = mail.mailHdr.toAddr.toInt
  · subst hbox
    rw [Function.update_self]
    simp only [List.append_assoc, List.nil_append]
  · -- the mail is for another box
    have hother : [mail].filter (Selects s m box) = [] :=
      filter_singleton_of_not fun hsel => hbox hsel.2.2.symm
    rw [Function.update_of_ne hbox]
    simp only [List.filter_append, hother, List.filter_nil]

theorem Sound.receive {box : ℤ} (hnet : net.Sound)
    (h : (net.node m).office.Step m (numBoxes m) (.receive box mail) office) :
    Sound { net.setOffice m office with
      received := Function.update net.received m
        (Function.update (net.received m) box (net.received m box ++ [mail])) } := by
  obtain ⟨hoffice, hnetwork, hworker, rest, hrest, hboxes⟩ := (hnet.office m).receive h
  have hmail := (hnet.office m).boxed box mail (by rw [hrest]; exact List.mem_cons_self)
  -- the office has not the mail any more, which is the last one that was received
  have hpath : ∀ s box', Function.update (net.received m) box (net.received m box ++ [mail]) box' ++
      office.line (net.channel s m) box' = net.path s m box' := by
    intro s box'
    rw [Net.path, line, line, hnetwork, hworker, hboxes]
    by_cases hbox : box' = box
    · subst hbox
      rw [Function.update_self, Function.update_self, hrest]
      simp only [List.append_assoc, List.cons_append, List.nil_append]
    · rw [Function.update_of_ne hbox, Function.update_of_ne hbox]
  refine ⟨fun m' => ?_, fun s t => ?_, hnet.channel, hnet.sent, fun m' box' mail' hmem => ?_,
    fun s m' box' => ?_⟩
  · change ((net.setOffice m office).node m').office.Sound m'
    rw [Net.setOffice, node_setNode]
    split
    · rename_i hm
      subst hm
      exact hoffice
    · exact hnet.office m'
  · change Prepared s (((net.setOffice m office).node s).sender t)
    rw [Net.setOffice, node_setNode]
    split
    · rename_i hs
      subst hs
      exact hnet.sender s t
    · exact hnet.sender s t
  · dsimp only at hmem
    by_cases hm : m' = m
    · subst hm
      rw [Function.update_self] at hmem
      by_cases hbox : box' = box
      · subst hbox
        rw [Function.update_self] at hmem
        rcases List.mem_append.mp hmem with hold | hnew
        · exact hnet.received _ _ _ hold
        · obtain rfl := List.mem_singleton.mp hnew
          exact hmail
      · rw [Function.update_of_ne hbox] at hmem
        exact hnet.received _ _ _ hmem
    · rw [Function.update_of_ne hm] at hmem
      exact hnet.received _ _ _ hmem
  · refine Eq.trans (congrArg _ ?_) (hnet.path s m' box')
    change Function.update net.received m _ m' box' ++
      ((net.setOffice m office).node m').office.line (net.channel s m') box' = _
    rw [Net.setOffice, node_setNode]
    by_cases hm : m' = m
    · subst hm
      rw [Function.update_self, if_pos rfl]
      exact hpath s box'
    · rw [Function.update_of_ne hm, if_neg hm]
      rfl

theorem Sound.step (hnet : net.Sound) (h : Step numBoxes net m net') : net'.Sound := by
  cases h with
  | poll h =>
      obtain rfl := eq_of_poll_none h
      exact hnet.setOffice (hnet.office m) fun _ _ => rfl
  | arrive hchannel hfree h => exact hnet.arrive hchannel hfree h
  | wake h =>
      obtain ⟨hoffice, hboxes, hworker, hnetwork⟩ := (hnet.office m).wake h
      refine hnet.setOffice hoffice fun s box => ?_
      rw [Net.path, line, line, hboxes, hworker, hnetwork]
  | sort h =>
      obtain ⟨hoffice, hboxes, hidle, hdevice, hworker, hfree⟩ := (hnet.office m).sort h
      refine hnet.setOffice hoffice fun s box => ?_
      rw [Net.path, line, line, hboxes, hworker, hfree, hidle, hdevice, List.append_nil,
        List.append_nil]
  | put h => exact hnet.put h
  | receive h => exact hnet.receive h
  | call hidle h =>
      obtain ⟨hpacked, hmail⟩ := packed_of_address h
      exact hnet.setSend (hnet.office m) ⟨rfl, rfl, rfl⟩
        (prepared_update _ hnet ⟨hpacked, hmail.symm⟩)
  | @acquire _ t hdr payload mail hready hfree =>
      have hprepared := hnet.sender m t
      rw [hready] at hprepared
      exact hnet.setSend (hnet.office m) ⟨rfl, rfl, rfl⟩
        (prepared_update (.locked hdr payload mail) hnet hprepared)
  | @transmit _ t hdr payload junk mail wire lost hlocked h =>
      dsimp only
      split
      · exact hnet.setSend (hnet.office m) ⟨rfl, rfl, rfl⟩
          (prepared_update .sent hnet trivial)
      · exact Sound.setSend (hnet.transmit hlocked h) (hnet.office m) ⟨rfl, rfl, rfl⟩
          (prepared_update .sent hnet trivial)
  | sendDone h =>
      have hoffice := hnet.office m
      exact hnet.setSend ⟨hoffice.packed, hoffice.announced, hoffice.once, hoffice.atMostOnce,
        hoffice.putting, hoffice.boxed⟩ ⟨rfl, rfl, rfl⟩ (hnet.sender m)
  | wakeSender hsent h =>
      exact hnet.setSend (hnet.office m) ⟨rfl, rfl, rfl⟩
        (prepared_update .woken hnet trivial)
  | release hwoken hheld =>
      exact hnet.setSend (hnet.office m) ⟨rfl, rfl, rfl⟩
        (prepared_update .idle hnet trivial)

theorem Initial.sound (h : net.Initial) : net.Sound := by
  refine ⟨fun m => ?_, fun s t => ?_, fun s m wire hw => ?_, fun s mail hmem => ?_,
    fun m box mail hmem => ?_, fun s m box => ?_⟩
  · obtain ⟨toAddr, fromAddr, inbox, buffer, hoffice⟩ := h.office m
    rw [hoffice]
    refine ⟨fun hne => absurd rfl hne, iff_of_true rfl ⟨rfl, by rintro ⟨⟩⟩, by rintro ⟨⟩,
      Nat.zero_le _, by rintro mail ⟨⟩, by rintro box mail ⟨⟩⟩
  · rw [h.sender s t]
    trivial
  · rw [h.channel] at hw
    cases hw
  · rw [h.sent] at hmem
    cases hmem
  · rw [h.received] at hmem
    cases hmem
  · obtain ⟨toAddr, fromAddr, inbox, buffer, hoffice⟩ := h.office m
    rw [Net.path, h.received, h.channel, h.sent, hoffice]
    rfl

theorem Reachable.sound (h : (system numBoxes).Reachable net) : net.Sound :=
  h.invariant (fun _ hinit => hinit.sound) fun _ _ _ _ hnet hstep => hnet.step hstep

/-! ## Delivery -/

/-- What was received is what was sent, as far as it has come. -/
theorem Sound.isPrefix (hnet : net.Sound) (s m : Word) (box : ℤ) :
    (net.received m box).filter (·.pktHdr.fromAddr = s) <+:
      (net.sent s).filter fun mail => mail.pktHdr.toAddr = m ∧ mail.mailHdr.toAddr.toInt = box := by
  have hreceived : (net.received m box).filter (·.pktHdr.fromAddr = s) =
      (net.received m box).filter (Selects s m box) := by
    refine List.filter_congr fun mail hmem => decide_eq_decide.mpr ?_
    obtain ⟨hto, hbox⟩ := hnet.received m box mail hmem
    exact ⟨fun hfrom => ⟨hfrom, hto, hbox⟩, And.left⟩
  have hsent : ((net.sent s).filter fun mail =>
      mail.pktHdr.toAddr = m ∧ mail.mailHdr.toAddr.toInt = box) =
      (net.sent s).filter (Selects s m box) := by
    refine List.filter_congr fun mail hmem => decide_eq_decide.mpr ?_
    exact ⟨fun h => ⟨hnet.sent s mail hmem, h⟩, And.right⟩
  rw [hreceived, hsent, ← hnet.path s m box, Net.path, List.filter_append]
  exact List.prefix_append _ _

/-- A packet stays in the device until the worker receives it. -/
theorem Sound.kept (hnet : net.Sound) (h : Step numBoxes net s net') (m : Word)
    (hbuffered : (net.node m).office.network.inHdr.length ≠ 0) :
    inDevice (net'.node m).office.network = inDevice (net.node m).office.network ∨
      ∃ mail, (net'.node m).office.worker = .putting mail ∧
        inDevice (net.node m).office.network = [mail] := by
  have hoffice : ∀ office : PostOffice, office.network = (net.node s).office.network →
      inDevice ((net.setOffice s office).node m).office.network =
        inDevice (net.node m).office.network := by
    intro office hsame
    rw [Net.setOffice, node_setNode]
    split
    · rename_i hm
      subst hm
      rw [hsame]
    · rfl
  have hnode : ∀ node : Node, inDevice node.office.network = inDevice (net.node s).office.network →
      inDevice ((net.setNode s node).node m).office.network =
        inDevice (net.node m).office.network := by
    intro node hsame
    rw [node_setNode]
    split
    · rename_i hm
      subst hm
      exact hsame
    · rfl
  cases h with
  | poll h =>
      rw [eq_of_poll_none h]
      exact .inl (hoffice _ rfl)
  | arrive hchannel hfree h =>
      -- the device that reads a packet was free
      have hm : m ≠ s := by
        rintro rfl
        exact hbuffered hfree
      refine .inl ?_
      change inDevice ((net.setOffice s _).node m).office.network = _
      rw [Net.setOffice, node_setNode, if_neg hm]
  | wake h => exact .inl (hoffice _ ((hnet.office s).wake h).2.2.2)
  | sort h =>
      by_cases hm : m = s
      · subst hm
        obtain ⟨-, -, -, hdevice, -, -⟩ := (hnet.office m).sort h
        refine .inr ⟨_, ?_, hdevice⟩
        rw [Net.setOffice, node_setNode, if_pos rfl]
        cases h with
        | sort hworker h =>
            obtain ⟨mail', _, h⟩ := bind_eq_ok.mp h
            cases h
            rfl
      · refine .inl ?_
        rw [Net.setOffice, node_setNode, if_neg hm]
  | put h => exact .inl (hoffice _ ((hnet.office s).put h).2.1)
  | receive h => exact .inl (hoffice _ ((hnet.office s).receive h).2.1)
  | call => exact .inl (hnode _ rfl)
  | acquire => exact .inl (hnode _ rfl)
  | transmit =>
      dsimp only
      split
      · exact .inl (hnode _ rfl)
      · exact .inl (hnode _ rfl)
  | sendDone => exact .inl (hnode _ rfl)
  | wakeSender => exact .inl (hnode _ rfl)
  | release => exact .inl (hnode _ rfl)

/-- In every reachable state the mails from one machine that were received from a mailbox are,
with their headers and data, the first of those that the machine has sent there and that were
not lost; the worker receives only packets that are in the device, and a packet stays there
until the worker receives it. -/
theorem mails_delivered (numBoxes : Word → ℤ) (net : Net) (h : (system numBoxes).Reachable net) :
    (∀ s m box, (net.received m box).filter (·.pktHdr.fromAddr = s) <+:
      (net.sent s).filter fun mail => mail.pktHdr.toAddr = m ∧ mail.mailHdr.toAddr.toInt = box) ∧
    (∀ m, (net.node m).office.worker = .woken →
      (net.node m).office.network.inHdr.length ≠ 0) ∧
    ∀ s net' m, Step numBoxes net s net' → (net.node m).office.network.inHdr.length ≠ 0 →
      inDevice (net'.node m).office.network = inDevice (net.node m).office.network ∨
        ∃ mail, (net'.node m).office.worker = .putting mail ∧
          inDevice (net.node m).office.network = [mail] := by
  have hnet := Reachable.sound h
  refine ⟨hnet.isPrefix, fun m hworker hzero => ?_, fun s net' m hstep hbuffered => ?_⟩
  · exact ((hnet.office m).announced.mp hzero).2 hworker
  · exact hnet.kept hstep m hbuffered

/-- Nothing has been sent. -/
def idle : Net where
  node _ := ⟨.start 0 0 (fun _ => 0) fun _ => 0, none, 0, 0, fun _ => .idle⟩
  channel _ _ := []
  sent _ := []
  received _ _ := []

/-- A mail of one byte from machine 0 is received on machine 1. -/
theorem exists_received : ∃ net, (system fun _ => 1).Reachable net ∧
    (net.received 1 0).map Mail.data = [[7]] := by
  have hidle : (system fun _ => 1).Reachable idle :=
    .of_init ⟨fun _ => ⟨0, 0, _, _, rfl⟩, fun _ => rfl, fun _ => rfl, fun _ => rfl,
      fun _ _ => rfl, fun _ _ => rfl, fun _ => rfl, fun _ _ => rfl⟩
  have hready := hidle.step (r := ()) (@Step.call _ idle 0 0 ⟨1, 0, 0⟩ ⟨0, 0, 1⟩ (fun _ => 7)
    (fun _ => 0) ⟨1, 0, 13⟩ _ rfl rfl)
  have hlocked := hready.step (r := ()) (Step.acquire (s := 0) (t := 0) rfl rfl)
  have hsent := hlocked.step (r := ())
    (@Step.transmit _ _ 0 0 _ _ (fun _ => 0) _ _ false rfl rfl)
  have harrived := hsent.step (r := ())
    (@Step.arrive _ _ 0 1 _ [] _ rfl rfl (poll_some rfl rfl (by decide)))
  have hwoken := harrived.step (r := ()) (@Step.wake _ _ 1 _ (.wake rfl rfl))
  have hsorted := hwoken.step (r := ()) (@Step.sort _ _ 1 _ _ (.sort rfl rfl))
  have hput := hsorted.step (r := ()) (@Step.put _ _ 1 _ (.put rfl))
  have hreceived := hput.step (r := ())
    (@Step.receive _ _ 1 0 _ _ (.receive (by decide) rfl))
  refine ⟨_, hreceived, ?_⟩
  decide +kernel

theorem mails_delivered_sample : ∃ net, (system fun _ => 1).Reachable net ∧
    (net.received 1 0).map Mail.data = [[7]] ∧
    (net.received 1 0).filter (·.pktHdr.fromAddr = 0) <+:
      (net.sent 0).filter fun mail => mail.pktHdr.toAddr = 1 ∧ mail.mailHdr.toAddr.toInt = 0 := by
  obtain ⟨net, hnet, hreceived⟩ := exists_received
  exact ⟨net, hnet, hreceived, (mails_delivered _ net hnet).1 0 1 0⟩

end Net

end Nachos
