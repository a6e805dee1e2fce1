import Nachos.Verification.Kernel.Queues

/-! # Scheduling by priority

With `SCHED_PRIORITY` the ready list is sorted by priority. `Yield` may take the first thread
off the list and put it back, which is behind the others of its priority. Threads of one
priority are dispatched in the order in which they became ready if that never happens. -/

namespace Nachos

open Library

variable {φ γ ι : Type}

namespace Core

variable {cfg : Config φ γ ι} {c c' : Core φ γ} {place place' : ℕ → Option Place}

/-- The threads that exist stay as they are, or a thread is created and nothing else happens. -/
theorem Step.priority_eq (h : Step cfg c c') :
    (c'.created = c.created ∧ c'.priority = c.priority) ∨
      c'.created = c.created + 1 ∧ (∀ t < c.created, c'.priority t = c.priority t) ∧
        c'.ready = c.ready ∧ c'.log = c.log := by
  cases h with
  | newThread => exact .inr ⟨rfl, fun t ht => Function.update_of_ne ht.ne _ _, rfl, rfl⟩
  | _ => exact .inl ⟨by simp, by simp⟩

/-- If the first thread is about to be put back, the priority of the next one is another. -/
def InTurn (c : Core φ γ) : Prop :=
  ∀ e ∈ c.ready.head?, c.priority c.current ≤ c.priority e.item →
    ∀ e' ∈ c.ready.tail.head?, e.key < e'.key

instance : DecidablePred (InTurn (φ := φ) (γ := γ)) := fun c =>
  inferInstanceAs (Decidable (∀ e ∈ c.ready.head?, _ → ∀ e' ∈ c.ready.tail.head?, _))

/-- The ready list is sorted by priority. For each priority, the threads that have become
ready are, in this order, those that have been dispatched and those on the list. -/
structure Served (c : Core φ γ) : Prop where
  sorted : Keyed.Sorted c.ready
  key : ∀ e ∈ c.ready, e.key = c.priority e.item
  readied_lt : ∀ t ∈ readied c.log, t < c.created
  dispatched_lt : ∀ t ∈ dispatched c.log, t < c.created
  split : ∀ p, (readied c.log).filter (fun t => decide (c.priority t = p)) =
    (dispatched c.log).filter (fun t => decide (c.priority t = p)) ++
      (Keyed.withKey c.ready p).map Keyed.item

theorem Queued.ready_lt (h : Queued c place) {e : Keyed ℕ} (he : e ∈ c.ready) :
    e.item < c.created := by
  have hmem : e.item ∈ c.queue .ready := by
    rw [h.ready]
    exact List.mem_map_of_mem he
  exact h.lt_created (h.placed.place_eq hmem)

theorem Served.create (h : Served c) (hknown : ∀ e ∈ c.ready, e.item < c.created)
    (hcreated : c'.created = c.created + 1)
    (hsame : ∀ t < c.created, c'.priority t = c.priority t) (hready : c'.ready = c.ready)
    (hlog : c'.log = c.log) : Served c' where
  sorted := hready ▸ h.sorted
  key e he := by
    rw [hready] at he
    rw [hsame _ (hknown e he)]
    exact h.key e he
  readied_lt t ht := by
    have hlt := h.readied_lt t (hlog ▸ ht)
    omega
  dispatched_lt t ht := by
    have hlt := h.dispatched_lt t (hlog ▸ ht)
    omega
  split p := by
    have hfilter : ∀ l : List ℕ, (∀ t ∈ l, t < c.created) →
        l.filter (fun t => decide (c'.priority t = p)) =
          l.filter (fun t => decide (c.priority t = p)) :=
      fun l hl => List.filter_congr fun t ht => by rw [hsame t (hl t ht)]
    rw [hlog, hready, hfilter _ h.readied_lt, hfilter _ h.dispatched_lt, h.split p]

section

variable (h : Served c) (hcreated : c'.created = c.created) (hsame : c'.priority = c.priority)

include h hcreated hsame

theorem Served.stay (hready : c'.ready = c.ready) (hin : readied c'.log = readied c.log)
    (hout : dispatched c'.log = dispatched c.log) : Served c' where
  sorted := hready ▸ h.sorted
  key := by rw [hready, hsame]; exact h.key
  readied_lt := by rw [hin, hcreated]; exact h.readied_lt
  dispatched_lt := by rw [hout, hcreated]; exact h.dispatched_lt
  split := by rw [hin, hout, hready, hsame]; exact h.split

theorem Served.join {t : ℕ} (ht : t < c.created)
    (hready : c'.ready = Keyed.sortedInsert ⟨c.priority t, t⟩ c.ready)
    (hin : readied c'.log = readied c.log ++ [t])
    (hout : dispatched c'.log = dispatched c.log) : Served c' where
  sorted := hready ▸ h.sorted.sortedInsert _
  key e he := by
    rw [hready, Keyed.mem_sortedInsert] at he
    rw [hsame]
    rcases he with rfl | he
    · rfl
    · exact h.key e he
  readied_lt u hu := by
    rw [hin, List.mem_append, List.mem_singleton] at hu
    rw [hcreated]
    rcases hu with hu | rfl
    · exact h.readied_lt u hu
    · exact ht
  dispatched_lt := by rw [hout, hcreated]; exact h.dispatched_lt
  split p := by
    rw [hin, hout, hready, hsame, Keyed.withKey_sortedInsert h.sorted, List.filter_append,
      List.map_append, h.split p, List.append_assoc]
    congr 2
    simp only [Keyed.withKey, List.filter_cons, List.filter_nil]
    split <;> rfl

theorem Served.leave {e : Keyed ℕ} {q : List (Keyed ℕ)} (hq : c.ready = e :: q)
    (he : e.item < c.created) (hready : c'.ready = q) (hin : readied c'.log = readied c.log)
    (hout : dispatched c'.log = dispatched c.log ++ [e.item]) : Served c' where
  sorted := by
    rw [hready]
    exact (List.pairwise_cons.mp (hq ▸ h.sorted)).2
  key e' he' := by
    rw [hready] at he'
    rw [hsame]
    exact h.key e' (hq ▸ List.mem_cons_of_mem _ he')
  readied_lt := by rw [hin, hcreated]; exact h.readied_lt
  dispatched_lt u hu := by
    rw [hout, List.mem_append, List.mem_singleton] at hu
    rw [hcreated]
    rcases hu with hu | rfl
    · exact h.dispatched_lt u hu
    · exact he
  split p := by
    have hkey : e.key = c.priority e.item := h.key e (hq ▸ List.mem_cons_self)
    have hsplit := h.split p
    rw [hq] at hsplit
    rw [hin, hout, hready, hsame, List.filter_append, hsplit]
    simp only [Keyed.withKey, List.filter_cons, List.filter_nil, hkey]
    split <;> simp

end

theorem Served.step (hpriority : cfg.schedPriority = true) (h : Served c) (hq : Queued c place)
    (hq' : Queued c' place') (hstep : Step cfg c c')
    (hturn : ∀ rest, c.stack c.current = .yieldBody :: rest → InTurn c) : Served c' := by
  rcases hstep.priority_eq with ⟨hcreated, hsame⟩ | ⟨hcreated, hsame, hready, hlog⟩
  · have ht := hstep.traffic
    rw [hpriority] at ht
    cases ht with
    | stay hready hin hout => exact h.stay hcreated hsame hready hin hout
    | join t hready hin hout =>
        have hmem : ⟨c.priority t, t⟩ ∈ c'.ready := by
          rw [hready]
          exact Keyed.mem_sortedInsert.mpr (.inl rfl)
        exact h.join hcreated hsame (hcreated ▸ hq'.ready_lt hmem) hready hin hout
    | @leave e q hqueue hready hin hout =>
        exact h.leave hcreated hsame hqueue (hq.ready_lt (hqueue ▸ List.mem_cons_self)) hready hin
          hout
    | @swap e q hqueue hready hin hout =>
        have hleft : Served ((c.setReady q).emit (.run e.item c.level)) :=
          h.leave rfl rfl hqueue (hq.ready_lt (hqueue ▸ List.mem_cons_self)) rfl
            (by simp [readied]) (by simp [dispatched])
        exact hleft.join hcreated hsame hq.current_lt hready
          (by simpa [readied, List.filterMap_cons] using hin)
          (by simpa [dispatched] using hout)
    | @rotate e q rest hs _ hqueue hkeep hready hin hout =>
        have hkey : c.priority e.item = e.key := (h.key e (hqueue ▸ List.mem_cons_self)).symm
        have hback : Keyed.sortedInsert ⟨c.priority e.item, e.item⟩ q = c.ready := by
          rw [hkey, hqueue]
          exact Keyed.sortedInsert_head fun x hx =>
            hturn rest hs e (by simp [hqueue]) hkeep x (by simpa [hqueue] using hx)
        exact h.stay hcreated hsame (hready.trans hback) hin hout
  · exact h.create (fun _ he => hq.ready_lt he) hcreated hsame hready hlog

theorem served_start (main : φ) (client : γ) (values : ℕ → ℤ) :
    Served (start main client values) where
  sorted := List.Pairwise.nil
  key := by simp
  readied_lt := by simp [readied]
  dispatched_lt := by simp [dispatched]
  split := by simp [readied, dispatched, Keyed.withKey]

end Core

namespace Kernel

variable {cfg : Config φ γ ι} {k k' : Kernel φ γ}

/-- The current thread has called `Yield`, which is about to look for another thread. -/
def Yielding (k : Kernel φ γ) : Prop := ∃ rest, k.current.stack = .yieldBody :: rest

instance : DecidablePred (Yielding (φ := φ) (γ := γ)) := fun k =>
  decidable_of_iff
    ((match k.current.stack with
      | .yieldBody :: _ => true
      | _ => false) = true) (by
    unfold Yielding
    split
    · simp_all
    · rename_i hyield
      simp only [Bool.false_eq_true, false_iff]
      rintro ⟨rest, hs⟩
      exact hyield rest hs)

/-- No thread is about to be put back behind another one of the same priority. -/
def Patient (k : Kernel φ γ) : Prop := k.Yielding → k.core.InTurn

instance : DecidablePred (Patient (φ := φ) (γ := γ)) := fun k =>
  inferInstanceAs (Decidable (k.Yielding → k.core.InTurn))

theorem served (hpriority : cfg.schedPriority = true)
    (h : (systemWhere cfg Initial fun k _ => k.Patient).Reachable k) :
    (∃ place, k.core.Queued place) ∧ k.core.Served := by
  refine (invariant_where (fun _ => id) ?_ ?_ h).2
  · rintro k ⟨main, client, values, machine, -, rfl⟩
    rw [core_start]
    exact Core.served_start main client values
  · rintro k env hpatient c c' place hshape hq hserved ⟨hstep, hfrom⟩
    refine hserved.step hpriority hq (hq.step hshape hstep).choose_spec hstep fun rest hs => ?_
    rcases hfrom with rfl | ⟨f, rest', hs', hminor⟩
    · exact hpatient ⟨rest, hs⟩
    · rw [hs] at hs'
      cases hs'
      exact hminor.elim

/-- `FindNextToRun(FALSE)` finds a thread of higher priority only. -/
theorem findNextToRun_lt {t : ℕ} (h : k.findNextToRun true false = (some t, k')) :
    (k.thread t).priority < k.current.priority := by
  unfold findNextToRun at h
  dsimp only at h
  split at h
  · cases (Prod.mk.inj h).1
  · rw [if_neg (by decide)] at h
    split at h
    · rename_i hlt
      obtain rfl := Option.some.inj (Prod.mk.inj h).1
      exact hlt
    · cases (Prod.mk.inj h).1

/-- What becomes of the list if it finds none. -/
theorem findNextToRun_readyList_iff (hnodup : k.readyList.Nodup)
    (hkey : ∀ e ∈ k.readyList, e.key = (k.thread e.item).priority)
    (h : k.findNextToRun true false = (none, k')) :
    k'.readyList = k.readyList ↔ k.core.InTurn := by
  unfold findNextToRun at h
  dsimp only at h
  split at h
  · rename_i hready
    have hready : k.readyList = [] := hready
    rw [← (Prod.mk.inj h).2]
    simp [Core.InTurn, core, emit, hready]
  · rename_i e rest hready
    have hready : k.readyList = e :: rest := hready
    rw [if_neg (by decide)] at h
    split at h
    · cases (Prod.mk.inj h).1
    · rename_i hge
      have hge : k.current.priority ≤ (k.thread e.item).priority := not_lt.mp hge
      have hsame : (k.thread e.item).priority = e.key := (hkey e (hready ▸ List.mem_cons_self)).symm
      rw [hready] at hnodup
      have hback := Keyed.sortedInsert_eq_cons_iff (List.nodup_cons.mp hnodup).1
      rw [← (Prod.mk.inj h).2, hready]
      change Keyed.sortedInsert ⟨(k.thread e.item).priority, e.item⟩ rest = e :: rest ↔ _
      rw [hsame, hback]
      have hcur : k.core.priority k.core.current ≤ k.core.priority e.item := hge
      simp [Core.InTurn, show k.core.ready = e :: rest from hready, hcur]

/-- The ready list is sorted by priority, and threads of one priority are dispatched in the
order in which they became ready. `FindNextToRun(FALSE)` finds a thread of higher priority, or
it leaves the list as it is, just in case no other thread has the priority of the first one. -/
theorem priorities_in_order (hpriority : cfg.schedPriority = true)
    (h : (systemWhere cfg Initial fun k _ => k.Patient).Reachable k) :
    k.readyList.Pairwise (fun a b => (k.thread a.item).priority ≤ (k.thread b.item).priority) ∧
      (∀ t k', k.findNextToRun true false = (some t, k') →
        (k.thread t).priority < k.current.priority) ∧
      (∀ k', k.findNextToRun true false = (none, k') →
        (k'.readyList = k.readyList ↔ k.core.InTurn)) ∧
      ∀ p, (readied k.log).filter (fun t => decide ((k.thread t).priority = p)) =
        (dispatched k.log).filter (fun t => decide ((k.thread t).priority = p)) ++
          (k.readyList.map Keyed.item).filter (fun t => decide ((k.thread t).priority = p)) := by
  obtain ⟨⟨place, hq⟩, hserved⟩ := served hpriority h
  have hnodup : k.readyList.Nodup := by
    have hitems := hq.placed.nodup .ready
    rw [hq.ready] at hitems
    exact hitems.of_map
  refine ⟨hserved.sorted.imp_of_mem fun ha hb hle => ?_, fun t k' => findNextToRun_lt,
    fun k' => findNextToRun_readyList_iff hnodup hserved.key, fun p => ?_⟩
  · rwa [hserved.key _ ha, hserved.key _ hb] at hle
  · have hitems : (Keyed.withKey k.readyList p).map Keyed.item =
        (k.readyList.map Keyed.item).filter (fun t => decide ((k.thread t).priority = p)) := by
      rw [List.filter_map]
      refine congrArg _ (List.filter_congr fun e he => ?_)
      rw [hserved.key e he]
      rfl
    rw [← hitems]
    exact hserved.split p

/-- The main thread, of priority 6, starts two threads and yields. -/
def forkTwo (pri₁ pri₂ : ℤ) : Config ℕ Unit Unit :=
  .scripted true [[.newThread pri₁ 0, .newThread pri₂ 0, .call (.fork 1 1), .call (.fork 2 1),
    .call .yield]] (by simp [Cmd.Public])

theorem priorities_in_order_forkTwo : ∃ k : Kernel ℕ Unit,
    k.readyList = [⟨6, 1⟩, ⟨7, 2⟩] ∧ k.current.priority = 6 ∧
      ∀ k', k.findNextToRun true false = (none, k') →
        (k'.readyList = k.readyList ↔ k.core.InTurn) := by
  obtain ⟨k, hobs, hk⟩ := exists_reachable_where (forkTwo 6 7) (fun k _ => k.Patient) (calm 28)
    (start 0 () (fun _ => 0) none) (fun k => (k.readyList, k.current.priority))
    ([⟨6, 1⟩, ⟨7, 2⟩], 6) (by decide +kernel)
  obtain ⟨hready, hpriority⟩ := Prod.mk.inj hobs
  exact ⟨k, hready, hpriority, (priorities_in_order rfl (hk _ (initial_start 0 ()))).2.2.1⟩

/-- Threads of the same priority may be dispatched in the other order. -/
theorem priorities_swapped : ∃ k : Kernel ℕ Unit,
    (system (forkTwo 6 6) Initial).Reachable k ∧
      (k.thread 1).priority = 6 ∧ (k.thread 2).priority = 6 ∧
      readied k.log = [1, 2] ∧ dispatched k.log = [2, 1] := by
  obtain ⟨k, hobs, hk⟩ := exists_reachable (forkTwo 6 6) (calm 40)
    (start 0 () (fun _ => 0) none)
    (fun k => ((k.thread 1).priority, (k.thread 2).priority, readied k.log, dispatched k.log))
    (6, 6, [1, 2], [2, 1]) (by decide +kernel)
  simp only [Prod.mk.injEq] at hobs
  exact ⟨k, hk _ (initial_start 0 ()), hobs⟩

end Kernel

end Nachos
