import Nachos.Model.PostOffice

/-! # What a mail is made of

The postal worker reads every packet into one buffer and takes the length of the mail from
it. A packet that is shorter than its mail leaves the rest to the packets before it. -/

namespace Nachos

open Library

/-! ## Headers in a buffer -/

theorem toNat_append_byte {w : ℕ} (x : BitVec w) (b : Byte) :
    (x ++ b).toNat = x.toNat * 2 ^ 8 + b.toNat := by
  rw [BitVec.toNat_append, Nat.shiftLeft_eq, mul_comm, ← Nat.two_pow_add_eq_or_of_lt b.isLt]

theorem toNat_joinBytes (b₃ b₂ b₁ b₀ : Byte) :
    (joinBytes b₃ b₂ b₁ b₀).toNat =
      b₃.toNat * 2 ^ 24 + b₂.toNat * 2 ^ 16 + b₁.toNat * 2 ^ 8 + b₀.toNat := by
  change (b₃ ++ b₂ ++ b₁ ++ b₀ : BitVec (8 + 8 + 8 + 8)).toNat = _
  simp only [toNat_append_byte]
  ring

/-- The header at the start of a buffer. -/
def mailHdrOf (b : Payload) : MailHeader := (mailLayout.symm b).1

theorem toAddr_mailHdrOf (b : Payload) :
    (mailHdrOf b).toAddr = joinBytes (b 3) (b 2) (b 1) (b 0) := rfl

theorem length_mailHdrOf (b : Payload) :
    (mailHdrOf b).length = joinBytes (b 11) (b 10) (b 9) (b 8) := rfl

theorem mailHdrOf_congr {b b' : Payload} (h : ∀ i : Fin MaxPacketSize, (i : ℕ) < 12 → b i = b' i) :
    mailHdrOf b = mailHdrOf b' := by
  have hbytes : (fun i : Fin HeaderSize => b (Fin.castAdd MaxMailSize i)) =
      fun i : Fin HeaderSize => b' (Fin.castAdd MaxMailSize i) := by
    funext i
    exact h _ i.isLt
  change Header.layout.symm (fun i : Fin HeaderSize => b (Fin.castAdd MaxMailSize i)) =
    Header.layout.symm (fun i : Fin HeaderSize => b' (Fin.castAdd MaxMailSize i))
  rw [hbytes]

/-- The header passes the assertions of the postal worker. -/
def Legal (numBoxes : ℤ) (h : MailHeader) : Prop :=
  (0 ≤ h.toAddr.toInt ∧ h.toAddr.toInt < numBoxes) ∧ h.length.toNat ≤ MaxMailSize

/-- The data of the mail in a buffer. -/
def dataOf (b : Payload) : List Byte :=
  (List.ofFn (mailLayout.symm b).2).take (mailHdrOf b).length.toNat

/-- Byte `i` of the data lies behind the header. -/
def dataIndex (i : Fin MaxMailSize) : Fin MaxPacketSize := Fin.natAdd HeaderSize i

theorem getElem?_dataOf {b : Payload} {i : Fin MaxMailSize}
    (hi : (i : ℕ) < (mailHdrOf b).length.toNat) :
    (dataOf b)[(i : ℕ)]? = some (b (dataIndex i)) := by
  rw [dataOf, List.getElem?_take_of_lt hi, List.getElem?_ofFn, dif_pos i.isLt]
  rfl

theorem length_dataOf {b : Payload} (h : (mailHdrOf b).length.toNat ≤ MaxMailSize) :
    (dataOf b).length = (mailHdrOf b).length.toNat := by
  rw [dataOf, List.length_take, List.length_ofFn, Nat.min_eq_left h]

theorem dataOf_congr {b b' : Payload} (hlength : (mailHdrOf b).length.toNat ≤ MaxMailSize)
    (hhdr : mailHdrOf b = mailHdrOf b')
    (h : ∀ i : Fin MaxMailSize, (i : ℕ) < (mailHdrOf b).length.toNat →
      b (dataIndex i) = b' (dataIndex i)) : dataOf b = dataOf b' := by
  have hlen := length_dataOf hlength
  have hlen' := length_dataOf (hhdr ▸ hlength)
  apply List.ext_getElem?
  intro i
  by_cases hi : i < (mailHdrOf b).length.toNat
  · have hleft := getElem?_dataOf (b := b) (i := ⟨i, hi.trans_le hlength⟩) hi
    have hright := getElem?_dataOf (b := b') (i := ⟨i, hi.trans_le hlength⟩) (hhdr ▸ hi)
    dsimp only at hleft hright
    rw [hleft, hright, h _ hi]
  · rw [List.getElem?_eq_none (by omega), List.getElem?_eq_none (by rw [hlen', ← hhdr]; omega)]

theorem openMail_eq_ok {numBoxes : ℤ} {pktHdr : PacketHeader} {b : Payload} {mail : Mail} :
    PostOffice.openMail numBoxes pktHdr b = .ok mail ↔
      Legal numBoxes (mailHdrOf b) ∧ mail = ⟨pktHdr, mailHdrOf b, dataOf b⟩ := by
  rw [PostOffice.openMail]
  constructor
  · intro h
    obtain ⟨_, hbox, h⟩ := bind_eq_ok.mp h
    obtain ⟨_, hlength, h⟩ := bind_eq_ok.mp h
    obtain ⟨_, _, h⟩ := bind_eq_ok.mp h
    cases h
    exact ⟨⟨of_assert hbox, of_assert hlength⟩, rfl⟩
  · rintro ⟨⟨hbox, hlength⟩, rfl⟩
    change (do
      assert (0 ≤ (mailHdrOf b).toAddr.toInt ∧ (mailHdrOf b).toAddr.toInt < numBoxes)
      assert ((mailHdrOf b).length.toNat ≤ MaxMailSize)
      Mail.new pktHdr (mailHdrOf b) (mailLayout.symm b).2) = _
    rw [assert_of_true hbox, ok_bind, assert_of_true hlength, ok_bind, Mail.new,
      assert_of_true hlength, ok_bind]
    rfl

/-! ## One packet over an old buffer -/

section

variable {k : ℕ} {p b b' : Payload} {numBoxes : ℤ}

theorem bcopy_of_lt {n : ℕ} {src dst : Fin n → Byte} {i : Fin n} (h : (i : ℕ) < k) :
    bcopy k src dst i = src i :=
  if_pos h

theorem bcopy_of_le {n : ℕ} {src dst : Fin n → Byte} {i : Fin n} (h : k ≤ (i : ℕ)) :
    bcopy k src dst i = dst i :=
  if_neg (not_lt.mpr h)

/-- The header as far as the packet has it, with zeroes behind. -/
def ownHdr (k : ℕ) (p : Payload) : MailHeader := mailHdrOf (bcopy k p fun _ => 0)

/-- With at least one byte of the length, a legal header has only zeroes behind. -/
theorem mailHdrOf_eq_ownHdr (hk : 9 ≤ k) (hlegal : Legal numBoxes (mailHdrOf (bcopy k p b))) :
    mailHdrOf (bcopy k p b) = ownHdr k p := by
  have hlength := hlegal.2
  rw [length_mailHdrOf, toNat_joinBytes] at hlength
  have hM : MaxMailSize = 40 := rfl
  have hzero : ∀ i : Fin MaxPacketSize, (i : ℕ) = 9 ∨ (i : ℕ) = 10 ∨ (i : ℕ) = 11 →
      bcopy k p b i = 0 := by
    rintro ⟨i, hi⟩ h
    apply BitVec.eq_of_toNat_eq
    rcases h with h | h | h <;> dsimp only at h <;> subst h
    · change (bcopy k p b 9).toNat = 0
      omega
    · change (bcopy k p b 10).toNat = 0
      omega
    · change (bcopy k p b 11).toNat = 0
      omega
  refine mailHdrOf_congr fun i hi => ?_
  by_cases hlt : (i : ℕ) < k
  · rw [bcopy_of_lt hlt, bcopy_of_lt hlt]
  · rw [hzero i (by omega), bcopy_of_le (not_lt.mp hlt)]

theorem ownHdr_length (hk : k ≤ 8) : (ownHdr k p).length = 0 := by
  rw [ownHdr, length_mailHdrOf, bcopy_of_le (show k ≤ 11 by omega),
    bcopy_of_le (show k ≤ 10 by omega), bcopy_of_le (show k ≤ 9 by omega),
    bcopy_of_le (show k ≤ 8 by omega)]
  rfl

/-- Fewer bytes of the box number are a smaller number. -/
theorem legal_ownHdr (hk : k ≤ 8) (hlegal : Legal numBoxes (mailHdrOf (bcopy k p b))) :
    Legal numBoxes (ownHdr k p) := by
  have hle : ∀ i, (bcopy k p (fun _ => 0) i).toNat ≤ (bcopy k p b i).toNat := by
    intro i
    by_cases hlt : (i : ℕ) < k
    · rw [bcopy_of_lt hlt, bcopy_of_lt hlt]
    · rw [bcopy_of_le (not_lt.mp hlt)]
      exact Nat.zero_le _
  obtain ⟨⟨hlo, hhi⟩, -⟩ := hlegal
  have hbox : (ownHdr k p).toAddr.toNat ≤ (mailHdrOf (bcopy k p b)).toAddr.toNat := by
    rw [ownHdr, toAddr_mailHdrOf, toAddr_mailHdrOf, toNat_joinBytes, toNat_joinBytes]
    have h₀ := hle 0
    have h₁ := hle 1
    have h₂ := hle 2
    have h₃ := hle 3
    omega
  have hnat : (mailHdrOf (bcopy k p b)).toAddr.toNat < 2 ^ 31 := by
    rw [BitVec.toInt_eq_toNat_cond] at hlo
    omega
  rw [BitVec.toInt_eq_toNat_of_lt (by omega)] at hhi
  refine ⟨⟨?_, ?_⟩, ?_⟩
  · rw [BitVec.toInt_eq_toNat_of_lt (by omega)]
    omega
  · rw [BitVec.toInt_eq_toNat_of_lt (by omega)]
    omega
  · rw [ownHdr_length hk]
    exact Nat.zero_le _

/-- The mail is in the packet: the packet is as long as it says, or there is no data and the
packet has at least a byte of the length. -/
def Contained (numBoxes : ℤ) (k : ℕ) (p : Payload) : Prop :=
  Legal numBoxes (ownHdr k p) →
    HeaderSize + (ownHdr k p).length.toNat ≤ k ∨ 9 ≤ k ∧ (ownHdr k p).length = 0

theorem Contained.mail_eq (hc : Contained numBoxes k p)
    (h : Legal numBoxes (mailHdrOf (bcopy k p b)))
    (h' : Legal numBoxes (mailHdrOf (bcopy k p b'))) :
    mailHdrOf (bcopy k p b) = mailHdrOf (bcopy k p b') ∧
      dataOf (bcopy k p b) = dataOf (bcopy k p b') := by
  by_cases hk : 9 ≤ k
  · have hown := mailHdrOf_eq_ownHdr hk h
    have hown' := mailHdrOf_eq_ownHdr hk h'
    refine ⟨hown.trans hown'.symm, ?_⟩
    refine dataOf_congr h.2 (hown.trans hown'.symm) fun i hi => ?_
    rw [hown] at h hi
    rcases hc h with hfull | ⟨-, hempty⟩
    · -- all bytes of the mail come from the packet
      have hindex : (dataIndex i : ℕ) < k := by
        change HeaderSize + (i : ℕ) < k
        omega
      rw [bcopy_of_lt hindex, bcopy_of_lt hindex]
    · rw [hempty] at hi
      exact absurd hi (Nat.not_lt_zero _)
  · have hlegal := legal_ownHdr (by omega) h
    rcases hc hlegal with hfull | ⟨hge, -⟩
    · simp only [HeaderSize] at hfull
      omega
    · omega

end

/-! ## Histories -/

namespace PostOffice

variable {ident : Word} {numBoxes : ℤ} {po₀ po po' : PostOffice} {hdr : PacketHeader}

/-- No packet is read from the socket or from the device. -/
def Event.Quiet : Event → Prop
  | .poll none => True
  | .poll (some _) => False
  | .wake => True
  | .sort _ => False
  | .put => True
  | .receive _ _ => True

/-- Some history ends with the arrival of the packet, and then the worker makes this mail. -/
def Delivered (ident : Word) (numBoxes : ℤ) (po₀ : PostOffice) (wire : Wire) (mail : Mail) : Prop :=
  ∃ s s' t t' trace, (system ident numBoxes po₀).Reachable s ∧ s.network.inHdr.length = 0 ∧
    Step ident numBoxes s (.poll (some wire)) s' ∧
    (system ident numBoxes po₀).Run s' trace t ∧ (∀ x ∈ trace, x.1.Quiet) ∧
    Step ident numBoxes t (.sort mail) t'

theorem quiet_run {trace : List (Event × Unit)}
    (h : (system ident numBoxes po₀).Run po trace po') (hquiet : ∀ x ∈ trace, x.1.Quiet) :
    po'.network = po.network ∧ po'.buffer = po.buffer := by
  induction h with
  | nil => exact ⟨rfl, rfl⟩
  | @snoc t u trace e r _ hstep ih =>
      obtain ⟨hnet, hbuffer⟩ := ih fun x hx => hquiet x (List.mem_append_left _ hx)
      have hlast : e.Quiet := hquiet (e, r) (by simp)
      rw [← hnet, ← hbuffer]
      cases hstep with
      | @poll polled net called h =>
          cases polled with
          | some wire => exact hlast.elim
          | none =>
              rw [Network.checkPktAvail, ite_self] at h
              cases h
              exact ⟨rfl, rfl⟩
      | wake => exact ⟨rfl, rfl⟩
      | sort => exact hlast.elim
      | put => exact ⟨rfl, rfl⟩
      | receive => exact ⟨rfl, rfl⟩

theorem bcopy_bcopy {n : ℕ} (k : ℕ) (src mid dst : Fin n → Byte) :
    bcopy k (bcopy k src mid) dst = bcopy k src dst := by
  funext i
  by_cases hi : (i : ℕ) < k
  · rw [bcopy_of_lt hi, bcopy_of_lt hi, bcopy_of_lt hi]
  · rw [bcopy_of_le (not_lt.mp hi), bcopy_of_le (not_lt.mp hi)]

/-- A packet has arrived. -/
def arrived (po : PostOffice) (hdr : PacketHeader) (p : Payload) : PostOffice :=
  { po with
    network := { po.network with
      inHdr := hdr
      inbox := bcopy hdr.length.toNat p po.network.inbox }
    messageAvailable := po.messageAvailable + 1 }

theorem poll_some_inv {wire : Wire} (hfree : po.network.inHdr.length = 0)
    (h : Step ident numBoxes po (.poll (some wire)) po') :
    (wireLayout.symm wire).1.toAddr = ident ∧
      (wireLayout.symm wire).1.length.toNat ≤ MaxPacketSize ∧
      po' = po.arrived (wireLayout.symm wire).1 (wireLayout.symm wire).2 := by
  cases h with
  | poll h =>
      rw [Network.checkPktAvail, if_neg (not_not.mpr hfree)] at h
      obtain ⟨_, hassert, h⟩ := bind_eq_ok.mp h
      cases h
      exact ⟨(of_assert hassert).1, (of_assert hassert).2, rfl⟩

theorem poll_some {p : Payload} (hfree : po.network.inHdr.length = 0) (hto : hdr.toAddr = ident)
    (hle : hdr.length.toNat ≤ MaxPacketSize) :
    Step ident numBoxes po (.poll (some (wireLayout (hdr, p)))) (po.arrived hdr p) := by
  have hcheck : po.network.checkPktAvail ident (some (wireLayout (hdr, p))) =
      .ok ((po.arrived hdr p).network, true) := by
    rw [Network.checkPktAvail, if_neg (not_not.mpr hfree)]
    simp only [Equiv.symm_apply_apply]
    rw [assert_of_true ⟨hto, hle⟩]
    rfl
  exact Step.poll hcheck

/-- The worker makes the mail from the packet over the old contents of its buffer. -/
theorem postalDelivery_eq {p inbox buffer : Payload} (hhdr : po.network.inHdr = hdr)
    (hinbox : po.network.inbox = bcopy hdr.length.toNat p inbox) (hbuffer : po.buffer = buffer) :
    po.postalDelivery numBoxes = (do
      let mail ← openMail numBoxes hdr (bcopy hdr.length.toNat p buffer)
      return (mail, { po with
        network := { po.network with inHdr := { hdr with length := 0 } }
        buffer := bcopy hdr.length.toNat p buffer
        worker := .putting mail })) := by
  have hcopy : (if hdr.length ≠ 0 then bcopy hdr.length.toNat po.network.inbox po.buffer
      else po.buffer) = bcopy hdr.length.toNat p buffer := by
    rw [hinbox, hbuffer, bcopy_bcopy]
    by_cases hzero : hdr.length = 0
    · rw [if_neg (not_not.mpr hzero), hzero]
      rfl
    · rw [if_pos hzero]
  rw [postalDelivery, Network.receive]
  dsimp only
  rw [hhdr, hcopy]

theorem sort_step (ident : Word) (po : PostOffice) {p inbox buffer b : Payload}
    (hworker : po.worker = .woken) (hhdr : po.network.inHdr = hdr)
    (hinbox : po.network.inbox = bcopy hdr.length.toNat p inbox) (hbuffer : po.buffer = buffer)
    (hb : bcopy hdr.length.toNat p buffer = b) (hlegal : Legal numBoxes (mailHdrOf b)) :
    Step ident numBoxes po (.sort ⟨hdr, mailHdrOf b, dataOf b⟩) { po with
      network := { po.network with inHdr := { hdr with length := 0 } }
      buffer := b
      worker := .putting ⟨hdr, mailHdrOf b, dataOf b⟩ } := by
  refine Step.sort hworker ?_
  rw [postalDelivery_eq hhdr hinbox hbuffer, hb, openMail_eq_ok.mpr ⟨hlegal, rfl⟩, ok_bind]
  rfl

theorem Delivered.openMail {wire : Wire} {mail : Mail}
    (h : Delivered ident numBoxes po₀ wire mail) :
    (wireLayout.symm wire).1.toAddr = ident ∧
      (wireLayout.symm wire).1.length.toNat ≤ MaxPacketSize ∧
      ∃ b, openMail numBoxes (wireLayout.symm wire).1
        (bcopy (wireLayout.symm wire).1.length.toNat (wireLayout.symm wire).2 b) = .ok mail := by
  obtain ⟨s, s', t, t', trace, -, hfree, harrive, hrun, hquiet, hsort⟩ := h
  obtain ⟨hto, hle, rfl⟩ := poll_some_inv hfree harrive
  obtain ⟨hnet, hbuffer⟩ := quiet_run hrun hquiet
  refine ⟨hto, hle, s.buffer, ?_⟩
  cases hsort with
  | sort _ h =>
      have hhdr : t.network.inHdr = (wireLayout.symm wire).1 := by
        rw [hnet]
        rfl
      have hinbox : t.network.inbox = bcopy (wireLayout.symm wire).1.length.toNat
          (wireLayout.symm wire).2 s.network.inbox := by
        rw [hnet]
        rfl
      rw [postalDelivery_eq hhdr hinbox hbuffer] at h
      obtain ⟨mail', hopen, h⟩ := bind_eq_ok.mp h
      cases h
      exact hopen

/-! ## Two histories that differ -/

/-- The worker waits and nothing has arrived. -/
structure Idle (po : PostOffice) : Prop where
  free : po.network.inHdr.length = 0
  worker : po.worker = .waiting
  none : po.messageAvailable = 0

/-- A packet arrives at an idle post office and its mail is put into its box. -/
theorem Idle.deliver {p : Payload} (hidle : po.Idle)
    (hreach : (system ident numBoxes po₀).Reachable po) (hto : hdr.toAddr = ident)
    (hle : hdr.length.toNat ≤ MaxPacketSize)
    (hlegal : Legal numBoxes (mailHdrOf (bcopy hdr.length.toNat p po.buffer))) :
    Delivered ident numBoxes po₀ (wireLayout (hdr, p))
        ⟨hdr, mailHdrOf (bcopy hdr.length.toNat p po.buffer),
          dataOf (bcopy hdr.length.toNat p po.buffer)⟩ ∧
      ∃ po', (system ident numBoxes po₀).Reachable po' ∧ po'.Idle ∧
        po'.buffer = bcopy hdr.length.toNat p po.buffer := by
  obtain ⟨hfree, hworker, hnone⟩ := hidle
  obtain ⟨b, hb⟩ : ∃ b, bcopy hdr.length.toNat p po.buffer = b := ⟨_, rfl⟩
  rw [hb] at hlegal ⊢
  -- the packet arrives, the worker wakes up, makes the mail and puts it into its box
  have harrive : Step ident numBoxes po (.poll (some (wireLayout (hdr, p)))) (po.arrived hdr p) :=
    poll_some hfree hto hle
  have hwake : Step ident numBoxes (po.arrived hdr p) .wake
      { po.arrived hdr p with messageAvailable := po.messageAvailable, worker := .woken } :=
    Step.wake hworker rfl
  have hsort := sort_step ident
    { po.arrived hdr p with messageAvailable := po.messageAvailable, worker := .woken }
    rfl rfl rfl rfl hb hlegal
  refine ⟨⟨po, _, _, _, [(.wake, ())], hreach, hfree, harrive, .snoc (.nil _) hwake, ?_, hsort⟩, ?_⟩
  · simp [Event.Quiet]
  · exact ⟨_, (((hreach.step (r := ()) harrive).step (r := ()) hwake).step (r := ()) hsort).step
      (r := ()) (Step.put rfl), ⟨rfl, rfl, hnone⟩, rfl⟩

/-- Before the packet one of full length has been delivered, which is still in the buffer. -/
theorem delivered_after {p q : Payload} (hidle : po₀.Idle) (hto : hdr.toAddr = ident)
    (hle : hdr.length.toNat ≤ MaxPacketSize) (hq : Legal numBoxes (mailHdrOf q))
    (hlegal : Legal numBoxes (mailHdrOf (bcopy hdr.length.toNat p q))) :
    Delivered ident numBoxes po₀ (wireLayout (hdr, p))
      ⟨hdr, mailHdrOf (bcopy hdr.length.toNat p q), dataOf (bcopy hdr.length.toNat p q)⟩ := by
  have hfull : bcopy (⟨ident, 0, 52⟩ : PacketHeader).length.toNat q po₀.buffer = q := by
    funext i
    exact bcopy_of_lt i.isLt
  have hfirst : (system ident numBoxes po₀).Reachable po₀ := .of_init rfl
  obtain ⟨-, po, hreach, hidle', hbuffer⟩ :=
    hidle.deliver hfirst (show (⟨ident, 0, 52⟩ : PacketHeader).toAddr = ident from rfl) le_rfl
      (by rw [hfull]; exact hq)
  rw [hfull] at hbuffer
  have hdelivered := (hidle'.deliver hreach hto hle (by rw [hbuffer]; exact hlegal)).1
  rwa [hbuffer] at hdelivered

/-- A mail without data or with some bytes `c`. -/
def filled (length : Word) (c : Byte) : Payload := mailLayout (⟨0, 0, length⟩, fun _ => c)

theorem mailHdrOf_filled (length : Word) (c : Byte) :
    mailHdrOf (filled length c) = ⟨0, 0, length⟩ := by
  rw [mailHdrOf, filled, Equiv.symm_apply_apply]

theorem filled_dataIndex (length : Word) (c : Byte) (i : Fin MaxMailSize) :
    filled length c (dataIndex i) = c := by
  change (mailLayout.symm (filled length c)).2 i = c
  rw [filled, Equiv.symm_apply_apply]

theorem filled_of_lt {c : Byte} {i : Fin MaxPacketSize} (hi : (i : ℕ) < 12) :
    filled 0 c i = 0 := by
  have hzero : ∀ j : Fin HeaderSize, Header.layout ⟨0, 0, 0⟩ j = 0 := by decide
  have hcast : i = Fin.castAdd MaxMailSize (⟨i, hi⟩ : Fin HeaderSize) := rfl
  rw [hcast]
  change Fin.append (Header.layout ⟨0, 0, 0⟩) (fun _ => c) (Fin.castAdd MaxMailSize ⟨i, hi⟩) = 0
  rw [Fin.append_left, hzero]

theorem mailHdrOf_bcopy_filled {k : ℕ} {p : Payload} (c : Byte) :
    mailHdrOf (bcopy k p (filled 0 c)) = ownHdr k p := by
  refine mailHdrOf_congr fun i hi => ?_
  by_cases hlt : (i : ℕ) < k
  · rw [bcopy_of_lt hlt, bcopy_of_lt hlt]
  · rw [bcopy_of_le (not_lt.mp hlt), bcopy_of_le (not_lt.mp hlt), filled_of_lt hi]

/-- With the length of another mail behind it, the same header is legal, too. -/
theorem legal_bcopy_filled {k : ℕ} {p : Payload} (hk : k ≤ 8)
    (hlegal : Legal numBoxes (ownHdr k p)) :
    Legal numBoxes (mailHdrOf (bcopy k p (filled 1 0))) ∧
      (mailHdrOf (bcopy k p (filled 1 0))).length = 1 := by
  have hbytes : ∀ i : Fin MaxPacketSize, (i : ℕ) < 4 → filled 1 0 i = 0 := by decide
  have hto : (mailHdrOf (bcopy k p (filled 1 0))).toAddr = (ownHdr k p).toAddr := by
    have hbyte : ∀ i : Fin MaxPacketSize, (i : ℕ) < 4 →
        bcopy k p (filled 1 0) i = bcopy k p (fun _ => 0) i := by
      intro i hi
      rw [bcopy, bcopy, hbytes i hi]
    rw [ownHdr, toAddr_mailHdrOf, toAddr_mailHdrOf, hbyte 3 (by decide), hbyte 2 (by decide),
      hbyte 1 (by decide), hbyte 0 (by decide)]
  have hlength : (mailHdrOf (bcopy k p (filled 1 0))).length = 1 := by
    rw [length_mailHdrOf, bcopy_of_le (show k ≤ 11 by omega), bcopy_of_le (show k ≤ 10 by omega),
      bcopy_of_le (show k ≤ 9 by omega), bcopy_of_le (show k ≤ 8 by omega)]
    decide
  exact ⟨⟨by rw [hto]; exact hlegal.1, by rw [hlength]; decide⟩, hlength⟩

theorem exists_two_mails {p : Payload} (hidle : po₀.Idle) (hto : hdr.toAddr = ident)
    (hle : hdr.length.toNat ≤ MaxPacketSize) (h : ¬ Contained numBoxes hdr.length.toNat p) :
    ∃ m₁ m₂, Delivered ident numBoxes po₀ (wireLayout (hdr, p)) m₁ ∧
      Delivered ident numBoxes po₀ (wireLayout (hdr, p)) m₂ ∧ m₁ ≠ m₂ := by
  rw [Contained, not_forall] at h
  obtain ⟨hlegal, hshort⟩ := h
  rw [not_or, not_le] at hshort
  obtain ⟨hshort, hdata⟩ := hshort
  have hbox : (0 : ℤ) < numBoxes := hlegal.1.1.trans_lt hlegal.1.2
  have hfilled : ∀ length c, length.toNat ≤ MaxMailSize →
      Legal numBoxes (mailHdrOf (filled length c)) := by
    intro length c hlength
    rw [mailHdrOf_filled]
    exact ⟨⟨le_rfl, hbox⟩, hlength⟩
  have hown : ∀ c, Legal numBoxes (mailHdrOf (bcopy hdr.length.toNat p (filled 0 c))) := by
    intro c
    rw [mailHdrOf_bcopy_filled]
    exact hlegal
  have hzero := delivered_after hidle hto hle (hfilled 0 0 (by decide)) (hown 0)
  by_cases hk : hdr.length.toNat ≤ 8
  · -- the length comes from the packet before
    obtain ⟨hone, hlength⟩ := legal_bcopy_filled hk hlegal
    refine ⟨_, _, hzero, delivered_after hidle hto hle (hfilled 1 0 (by decide)) hone, ?_⟩
    intro heq
    have hhdr := congrArg (fun m => m.mailHdr.length) heq
    dsimp only at hhdr
    rw [mailHdrOf_bcopy_filled, ownHdr_length hk, hlength] at hhdr
    exact absurd hhdr (by decide)
  · -- some of the data comes from the packet before
    refine ⟨_, _, hzero, delivered_after hidle hto hle (hfilled 0 1 (by decide)) (hown 1), ?_⟩
    have hpos : 0 < (ownHdr hdr.length.toNat p).length.toNat := by
      by_contra hle
      exact hdata ⟨by omega, BitVec.eq_of_toNat_eq (by simp; omega)⟩
    have hmax := hlegal.2
    have hM : MaxMailSize = 40 := rfl
    have hH : HeaderSize = 12 := rfl
    obtain ⟨i, hi, hstale⟩ : ∃ i : Fin MaxMailSize,
        (i : ℕ) < (ownHdr hdr.length.toNat p).length.toNat ∧
        hdr.length.toNat ≤ (dataIndex i : ℕ) := by
      refine ⟨⟨hdr.length.toNat - 12, by omega⟩, by simp only; omega, ?_⟩
      change hdr.length.toNat ≤ HeaderSize + (hdr.length.toNat - 12)
      omega
    intro heq
    have hbyte := congrArg (fun m => m.data[(i : ℕ)]?) heq
    dsimp only at hbyte
    rw [getElem?_dataOf (by rw [mailHdrOf_bcopy_filled]; exact hi),
      getElem?_dataOf (by rw [mailHdrOf_bcopy_filled]; exact hi), bcopy_of_le hstale,
      bcopy_of_le hstale, filled_dataIndex, filled_dataIndex] at hbyte
    exact absurd hbyte (by decide)

/-! ## All histories -/

/-- The mail for a packet that passes the assertions depends on the packet only, exactly if the
packet contains the mail. -/
theorem mail_independent_iff (ident toAddr fromAddr : Word) (numBoxes : ℤ)
    (inbox buffer : Payload) (wire : Wire) :
    (∀ m₁ m₂, Delivered ident numBoxes (start toAddr fromAddr inbox buffer) wire m₁ →
      Delivered ident numBoxes (start toAddr fromAddr inbox buffer) wire m₂ → m₁ = m₂) ↔
    ((wireLayout.symm wire).1.toAddr = ident →
      (wireLayout.symm wire).1.length.toNat ≤ MaxPacketSize →
      Contained numBoxes (wireLayout.symm wire).1.length.toNat (wireLayout.symm wire).2) := by
  constructor
  · intro h hto hle
    by_contra hnot
    have hidle : (start toAddr fromAddr inbox buffer).Idle := ⟨rfl, rfl, rfl⟩
    obtain ⟨m₁, m₂, h₁, h₂, hne⟩ := exists_two_mails hidle hto hle hnot
    rw [Prod.mk.eta, Equiv.apply_symm_apply] at h₁ h₂
    exact hne (h m₁ m₂ h₁ h₂)
  · intro h m₁ m₂ h₁ h₂
    obtain ⟨hto, hle, b₁, hopen₁⟩ := h₁.openMail
    obtain ⟨-, -, b₂, hopen₂⟩ := h₂.openMail
    obtain ⟨hlegal₁, rfl⟩ := openMail_eq_ok.mp hopen₁
    obtain ⟨hlegal₂, rfl⟩ := openMail_eq_ok.mp hopen₂
    obtain ⟨hhdr, hdata⟩ := (h hto hle).mail_eq hlegal₁ hlegal₂
    rw [hhdr, hdata]

/-- A packet with the header of a mail of two bytes and nothing else. -/
def truncated : PacketHeader × Payload := (⟨0, 1, 12⟩, filled 2 0)

/-- The data of the mail is what the packet before has left in the buffer. -/
theorem old_bytes_delivered :
    ∃ m₁ m₂, Delivered 0 1 (start 0 0 (fun _ => 0) fun _ => 0) (wireLayout truncated) m₁ ∧
      Delivered 0 1 (start 0 0 (fun _ => 0) fun _ => 0) (wireLayout truncated) m₂ ∧
      m₁.data = [7, 7] ∧ m₂.data = [8, 8] := by
  have hidle : (start 0 0 (fun _ => 0) fun _ => 0).Idle := ⟨rfl, rfl, rfl⟩
  have hle : truncated.1.length.toNat ≤ MaxPacketSize := by decide
  have hlegal : ∀ c, Legal 1 (mailHdrOf (filled 0 c)) := fun c => by
    rw [mailHdrOf_filled]
    exact ⟨by decide, by decide⟩
  have hown : ∀ c, Legal 1 (mailHdrOf (bcopy truncated.1.length.toNat truncated.2 (filled 0 c))) :=
    fun c => by
      rw [mailHdrOf_bcopy_filled]
      exact ⟨by decide, by decide⟩
  have h := fun c => delivered_after hidle rfl hle (hlegal c) (hown c)
  exact ⟨_, _, h 7, h 8, by decide +kernel, by decide +kernel⟩

end PostOffice

end Nachos
