import Nachos.Library.Transition
import Nachos.Model.DiskTiming

/-! # The timing of the disk

The latencies are those of a disk that turns below its head. -/

namespace Nachos.DiskDevice

open Library

variable {d d' : DiskDevice} {t s : ℤ} {writing : Bool}

/-! ## The turning disk -/

/-- The sector of a track that is below the head. -/
def head (t : ℤ) : ℤ := t / RotationTime % SectorsPerTrack

/-- The sector passes completely below the head from `start` on. -/
def Passes (newSector start : ℤ) : Prop :=
  ∀ u, start ≤ u → u < start + RotationTime → head u = newSector % SectorsPerTrack

theorem passes_iff {start : ℤ} :
    Passes s start ↔ start % RotationTime = 0 ∧ head start = s % SectorsPerTrack := by
  have hR : RotationTime = 500 := rfl
  have hS : SectorsPerTrack = 32 := rfl
  unfold Passes head
  rw [hR, hS]
  constructor
  · intro h
    refine ⟨?_, h start le_rfl (by omega)⟩
    have hfirst := h start le_rfl (by omega)
    have hlast := h (start + 499) (by omega) (by omega)
    omega
  · rintro ⟨halign, hhead⟩ u hlo hhi
    omega

/-! ## Seeks and rotation -/

theorem moduloDiff_eq {a b : ℤ} (ha : 0 ≤ a) (hb : 0 ≤ b) :
    moduloDiff a b = (a - b) % SectorsPerTrack := by
  have hS : SectorsPerTrack = 32 := rfl
  have hnonneg : 0 ≤ a % 32 - b % 32 + 32 := by omega
  simp only [moduloDiff, hS]
  rw [Int.tmod_eq_emod_of_nonneg ha, Int.tmod_eq_emod_of_nonneg hb,
    Int.tmod_eq_emod_of_nonneg hnonneg]
  omega

theorem seek_nonneg (d : DiskDevice) (t s : ℤ) : 0 ≤ (d.timeToSeek t s).1 :=
  mul_nonneg (abs_nonneg _) (by decide)

/-- After the seek the head is at the next boundary of sectors. -/
theorem timeAfter_spec (d : DiskDevice) (ht : 0 ≤ t) :
    d.timeAfter t s % RotationTime = 0 ∧ t + (d.timeToSeek t s).1 ≤ d.timeAfter t s ∧
      d.timeAfter t s < t + (d.timeToSeek t s).1 + RotationTime := by
  have hseek := seek_nonneg d t s
  have hR : RotationTime = 500 := rfl
  have hrot : (d.timeToSeek t s).2 = if (t + (d.timeToSeek t s).1).tmod 500 > 0 then
      500 - (t + (d.timeToSeek t s).1).tmod 500 else 0 := rfl
  rw [Int.tmod_eq_emod_of_nonneg (by omega)] at hrot
  unfold timeAfter
  rw [hrot, hR]
  split <;> omega

/-- When the sector begins to pass for the first time, from a boundary on. -/
def firstPass (newSector boundary : ℤ) : ℤ :=
  boundary + (newSector - boundary / RotationTime) % SectorsPerTrack * RotationTime

theorem firstPass_spec {boundary : ℤ} (halign : boundary % RotationTime = 0) :
    Passes s (firstPass s boundary) ∧ boundary ≤ firstPass s boundary ∧
      ∀ start, boundary - RotationTime < start → Passes s start → firstPass s boundary ≤ start := by
  have hR : RotationTime = 500 := rfl
  have hS : SectorsPerTrack = 32 := rfl
  simp only [passes_iff, head, firstPass, hR, hS] at halign ⊢
  refine ⟨⟨by omega, by omega⟩, by omega, fun start hstart hpass => ?_⟩
  omega

/-- Without the track buffer the latency is up to the end of the requested sector. -/
theorem computeLatency_unbuffered (ht : 0 ≤ t) (hs : 0 ≤ s)
    (h : d.buffered t s writing = false) :
    t + d.computeLatency t s writing = firstPass s (d.timeAfter t s) + RotationTime := by
  obtain ⟨-, hafter, -⟩ := timeAfter_spec d (s := s) ht
  have hseek := seek_nonneg d t s
  have hnonneg : 0 ≤ d.timeAfter t s := by omega
  have hR : RotationTime = 500 := rfl
  have hdiv : 0 ≤ (d.timeAfter t s).tdiv RotationTime := Int.tdiv_nonneg hnonneg (by decide)
  have hunfold : d.computeLatency t s writing = (d.timeToSeek t s).1 + ((d.timeToSeek t s).2 +
      moduloDiff s ((d.timeAfter t s).tdiv RotationTime) * RotationTime) + RotationTime := by
    rw [computeLatency, h]
    rfl
  rw [hunfold, moduloDiff_eq hs hdiv, Int.tdiv_eq_ediv_of_nonneg hnonneg, firstPass]
  unfold timeAfter
  omega

/-! ## The track buffer -/

/-- What the fields of the disk mean. -/
structure Sound (d : DiskDevice) : Prop where
  bufferInit : 0 ≤ d.bufferInit
  aligned : d.bufferInit % RotationTime = 0

theorem buffered_spec (hd : d.Sound) (hs : 0 ≤ s) (hle : d.bufferInit ≤ d.timeAfter t s)
    (h : d.buffered t s writing = true) :
    writing = false ∧ (d.timeToSeek t s).1 = 0 ∧ ∃ start, d.bufferInit ≤ start ∧
      start + RotationTime ≤ d.timeAfter t s ∧ Passes s start := by
  have hR : RotationTime = 500 := rfl
  have hcond := of_decide_eq_true h
  obtain ⟨hread, hseek, hpast⟩ := hcond
  have hinit := hd.bufferInit
  have hdiv : 0 ≤ d.bufferInit.tdiv RotationTime := Int.tdiv_nonneg hinit (by decide)
  rw [moduloDiff_eq hs hdiv, Int.tdiv_eq_ediv_of_nonneg hinit,
    Int.tdiv_eq_ediv_of_nonneg (by omega)] at hpast
  obtain ⟨hpass, hstart, -⟩ := firstPass_spec (s := s) hd.aligned
  refine ⟨hread, hseek, firstPass s d.bufferInit, hstart, ?_, hpass⟩
  have hS : SectorsPerTrack = 32 := rfl
  simp only [firstPass, hR, hS] at hpast ⊢
  omega

theorem le_computeLatency (ht : 0 ≤ t) (hs : 0 ≤ s) (writing : Bool) :
    RotationTime ≤ d.computeLatency t s writing := by
  cases h : d.buffered t s writing with
  | true =>
      rw [computeLatency, h]
      exact le_rfl
  | false =>
      obtain ⟨halign, hafter, -⟩ := timeAfter_spec d (s := s) ht
      have hseek := seek_nonneg d t s
      have hlatency := computeLatency_unbuffered ht hs h
      obtain ⟨-, hstart, -⟩ := firstPass_spec (s := s) halign
      omega

/-! ## Requests -/

/-- The disk, the clock, and when the interrupt of the request that is being served is due. -/
structure Serving where
  disk : DiskDevice
  totalTicks : ℤ
  due : Option ℤ

inductive Event where
  | wait (ticks : ℕ)
  | request (newSector : Fin NumSectors) (writing : Bool)
  | interrupt

/-- A request is not made before the interrupt of the one before. -/
inductive Serves : Serving → Event → Option ℤ → Serving → Prop where
  | wait (w : Serving) (ticks : ℕ) :
      Serves w (.wait ticks) none { w with totalTicks := w.totalTicks + ticks }
  | request {d d' : DiskDevice} {t latency : ℤ} {newSector : Fin NumSectors} {writing : Bool} :
      d.request t (newSector : ℕ) writing = .ok (latency, d') →
      Serves ⟨d, t, none⟩ (.request newSector writing) (some latency) ⟨d', t, some (t + latency)⟩
  | interrupt {d : DiskDevice} {t due : ℤ} : due ≤ t →
      Serves ⟨d, t, some due⟩ .interrupt none ⟨d.handleInterrupt, t, none⟩

/-- The latencies are the outputs. -/
def system : System Serving Event (Option ℤ) where
  init w := w.disk = new ∧ 0 ≤ w.totalTicks ∧ w.due = none
  step := Serves

/-- The buffer starts to be filled before the request that made it do so is completed. -/
structure Consistent (w : Serving) : Prop where
  sound : w.disk.Sound
  clock : 0 ≤ w.totalTicks
  active : w.disk.active = w.due.isSome
  early : w.disk.bufferInit ≤ w.due.getD w.totalTicks

theorem updateLast_eq (d : DiskDevice) (t s : ℤ) : d.updateLast t s =
    { d with
      bufferInit := if (d.timeToSeek t s).1 ≠ 0 then d.timeAfter t s else d.bufferInit
      lastSector := s } := rfl

theorem request_eq (h : d.active = false) (newSector : Fin NumSectors) (writing : Bool) :
    d.request t (newSector : ℕ) writing =
      .ok (d.computeLatency t (newSector : ℕ) writing,
        ({ d with active := true } : DiskDevice).updateLast t (newSector : ℕ)) := by
  have hlt := newSector.isLt
  rw [request, h, assert_of_true (by simp), ok_bind, assert_of_true (by simp)]
  rfl

/-- A request that seeks does not use the buffer. -/
theorem timeAfter_le (ht : 0 ≤ t) (hs : 0 ≤ s) (hseek : (d.timeToSeek t s).1 ≠ 0) :
    d.timeAfter t s ≤ t + d.computeLatency t s writing := by
  have hnot : d.buffered t s writing = false :=
    decide_eq_false fun hall => hseek hall.2.1
  obtain ⟨halign, -, -⟩ := timeAfter_spec d (s := s) ht
  obtain ⟨-, hstart, -⟩ := firstPass_spec (s := s) halign
  have hR : RotationTime = 500 := rfl
  rw [computeLatency_unbuffered ht hs hnot]
  omega

theorem Consistent.step {w w' : Serving} {e : Event} {r : Option ℤ} (h : Consistent w)
    (hstep : Serves w e r w') : Consistent w' := by
  have hclock := h.clock
  have hearly := h.early
  have hR : RotationTime = 500 := rfl
  cases hstep with
  | wait _ ticks =>
      refine ⟨h.sound, ?_, h.active, ?_⟩
      · change 0 ≤ w.totalTicks + ticks
        omega
      · change w.disk.bufferInit ≤ w.due.getD (w.totalTicks + ticks)
        cases hdue : w.due with
        | none =>
            rw [hdue] at hearly
            change w.disk.bufferInit ≤ w.totalTicks at hearly
            change w.disk.bufferInit ≤ w.totalTicks + ticks
            omega
        | some due =>
            rw [hdue] at hearly
            exact hearly
  | @request d d' t latency newSector writing hrequest =>
      have hs : 0 ≤ ((newSector : ℕ) : ℤ) := by omega
      rw [request_eq h.active, updateLast_eq] at hrequest
      cases hrequest
      change 0 ≤ t at hclock
      change d.bufferInit ≤ t at hearly
      have hinit := h.sound.bufferInit
      have hlatency := le_computeLatency (d := d) hclock hs writing
      obtain ⟨halign, hafter, -⟩ := timeAfter_spec d (s := (newSector : ℕ)) hclock
      have hseek := seek_nonneg d t (newSector : ℕ)
      -- the buffer starts anew if the head has moved
      obtain ⟨init, hnew, hinit', haligned, hdue⟩ : ∃ init : ℤ,
          (if (d.timeToSeek t (newSector : ℕ)).1 ≠ 0 then d.timeAfter t (newSector : ℕ)
            else d.bufferInit) = init ∧ 0 ≤ init ∧ init % RotationTime = 0 ∧
          init ≤ t + d.computeLatency t (newSector : ℕ) writing := by
        by_cases hzero : (d.timeToSeek t (newSector : ℕ)).1 = 0
        · refine ⟨_, if_neg (not_not.mpr hzero), hinit, h.sound.aligned, ?_⟩
          omega
        · refine ⟨_, if_pos hzero, ?_, halign, timeAfter_le hclock hs hzero⟩
          omega
      have hfield : (if (({ d with active := true } : DiskDevice).timeToSeek t (newSector : ℕ)).1 ≠ 0
          then ({ d with active := true } : DiskDevice).timeAfter t (newSector : ℕ)
          else d.bufferInit) = init := hnew
      refine ⟨⟨?_, ?_⟩, hclock, rfl, ?_⟩
      · exact hfield.symm ▸ hinit'
      · exact hfield.symm ▸ haligned
      · exact hfield.symm ▸ hdue
  | interrupt hdue =>
      exact ⟨⟨h.sound.bufferInit, h.sound.aligned⟩, hclock, rfl, le_trans hearly hdue⟩

theorem consistent_of_reachable {w : Serving} (h : system.Reachable w) : Consistent w := by
  refine h.invariant (fun w hinit => ?_) fun t i r u ht hstep => ht.step hstep
  obtain ⟨hnew, hclock, hdue⟩ := hinit
  refine ⟨⟨?_, ?_⟩, hclock, ?_, ?_⟩
  · rw [hnew]
    exact le_rfl
  · rw [hnew]
    rfl
  · rw [hnew, hdue]
    rfl
  · rw [hnew, hdue]
    exact hclock

/-- What the next request does, whatever has been requested before. -/
theorem disk_timing {w : Serving} (h : system.Reachable w) (hidle : w.due = none)
    (newSector : Fin NumSectors) (writing : Bool) :
    (∃ d', w.disk.request w.totalTicks (newSector : ℕ) writing =
      .ok (w.disk.computeLatency w.totalTicks (newSector : ℕ) writing, d')) ∧
    RotationTime ≤ w.disk.computeLatency w.totalTicks (newSector : ℕ) writing ∧
    w.disk.bufferInit ≤ w.disk.timeAfter w.totalTicks (newSector : ℕ) ∧
    (writing = true ∨ w.disk.buffered w.totalTicks (newSector : ℕ) writing = false → ∃ start,
      w.totalTicks + w.disk.computeLatency w.totalTicks (newSector : ℕ) writing =
        start + RotationTime ∧
      Passes (newSector : ℕ) start ∧ w.disk.timeAfter w.totalTicks (newSector : ℕ) ≤ start ∧
      ∀ start', w.totalTicks + (w.disk.timeToSeek w.totalTicks (newSector : ℕ)).1 ≤ start' →
        Passes (newSector : ℕ) start' → start ≤ start') ∧
    (w.disk.buffered w.totalTicks (newSector : ℕ) writing = true →
      w.disk.computeLatency w.totalTicks (newSector : ℕ) writing = RotationTime ∧
      writing = false ∧ (w.disk.timeToSeek w.totalTicks (newSector : ℕ)).1 = 0 ∧
      ∃ start, w.disk.bufferInit ≤ start ∧
        start + RotationTime ≤ w.disk.timeAfter w.totalTicks (newSector : ℕ) ∧
        Passes (newSector : ℕ) start) := by
  have hc := consistent_of_reachable h
  have hclock := hc.clock
  have hs : 0 ≤ ((newSector : ℕ) : ℤ) := by omega
  have hactive : w.disk.active = false := by rw [hc.active, hidle]; rfl
  have hearly : w.disk.bufferInit ≤ w.totalTicks := by
    have := hc.early
    rwa [hidle] at this
  have hseek := seek_nonneg w.disk w.totalTicks (newSector : ℕ)
  obtain ⟨halign, hafter, hbefore⟩ := timeAfter_spec w.disk (s := (newSector : ℕ)) hclock
  have hle : w.disk.bufferInit ≤ w.disk.timeAfter w.totalTicks (newSector : ℕ) := by omega
  refine ⟨⟨_, request_eq hactive newSector writing⟩, le_computeLatency hclock hs writing, hle,
    fun hwhen => ?_, fun hbuffered => ?_⟩
  · have hunbuffered : w.disk.buffered w.totalTicks (newSector : ℕ) writing = false := by
      rcases hwhen with rfl | hunbuffered
      · exact decide_eq_false nofun
      · exact hunbuffered
    obtain ⟨hpass, hstart, hfirst⟩ := firstPass_spec (s := (newSector : ℕ)) halign
    refine ⟨_, computeLatency_unbuffered hclock hs hunbuffered, hpass, hstart,
      fun start' hstart' hpass' => hfirst start' ?_ hpass'⟩
    omega
  · obtain ⟨hread, hzero, hpassed⟩ := buffered_spec hc.sound hs hle hbuffered
    refine ⟨?_, hread, hzero, hpassed⟩
    rw [computeLatency, if_pos hbuffered]

/-- A sector of track 1 is written, and the next one is then in the track buffer. -/
def afterWrite : Serving := ⟨⟨40, 500, false⟩, 5000, none⟩

theorem reachable_afterWrite : system.Reachable afterWrite := by
  have hinit : system.init ⟨new, 0, none⟩ := ⟨rfl, le_rfl, rfl⟩
  have hrequest : Serves ⟨new, 0, none⟩ (.request 40 true) (some 4500)
      ⟨⟨40, 500, true⟩, 0, some 4500⟩ := Serves.request (t := 0) (by decide)
  have hwait : Serves ⟨⟨40, 500, true⟩, 0, some 4500⟩ (.wait 5000) none
      ⟨⟨40, 500, true⟩, 5000, some 4500⟩ := .wait _ 5000
  exact (((System.Reachable.of_init hinit).step hrequest).step hwait).step (.interrupt (by decide))

theorem disk_timing_afterWrite :
    afterWrite.disk.computeLatency afterWrite.totalTicks 41 false = RotationTime ∧
      ∃ start, afterWrite.disk.bufferInit ≤ start ∧
        start + RotationTime ≤ afterWrite.disk.timeAfter afterWrite.totalTicks 41 ∧
        Passes 41 start := by
  obtain ⟨-, -, -, -, hbuffered⟩ := disk_timing reachable_afterWrite rfl 41 false
  obtain ⟨hlatency, -, -, hpassed⟩ := hbuffered (by decide)
  exact ⟨hlatency, hpassed⟩

end Nachos.DiskDevice
