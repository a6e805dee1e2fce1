import Nachos.Verification.Kernel.Queues

/-! # Thread ids

A thread keeps its id until it is deleted, by the thread that is switched to. A thread that
starts then does not delete anything, so that another thread may finish before the first one is
deleted, which is forgotten. Ids are given back if that never happens. -/

namespace Nachos

open Library

variable {φ γ ι : Type}

namespace Core

variable {cfg : Config φ γ ι} {c c' : Core φ γ} {place : ℕ → Option Place}

/-- The ids in use are those of the threads that have not been deleted, and at most one thread
waits to be deleted. -/
structure Numbered (c : Core φ γ) : Prop where
  used : ∀ i, c.threadIds i = true ↔ ∃ t < c.created, c.phase t ≠ .deleted ∧ c.threadId t = i
  inj : ∀ t < c.created, ∀ u < c.created, c.phase t ≠ .deleted → c.phase u ≠ .deleted →
    c.threadId t = c.threadId u → t = u
  pending : ∀ t < c.created, c.phase t = .finished ↔ c.toBeDestroyed = some t

theorem Numbered.congr (h : Numbered c) (hids : c'.threadIds = c.threadIds)
    (hcreated : c'.created = c.created) (hphase : c'.phase = c.phase)
    (hid : c'.threadId = c.threadId) (hdoomed : c'.toBeDestroyed = c.toBeDestroyed) :
    Numbered c' where
  used := by rw [hids, hcreated, hphase, hid]; exact h.used
  inj := by rw [hcreated, hphase, hid]; exact h.inj
  pending := by rw [hcreated, hphase, hdoomed]; exact h.pending

theorem Numbered.create (h : Numbered c) (hdoomed : ∀ t, c.toBeDestroyed = some t → t < c.created)
    (priority : ℤ) {i : Fin maxThreadsCount} (hi : c.threadIds i = false) : Numbered (c.create priority i) := by
  have hold : ∀ t < c.created, c.phase t ≠ .deleted → c.threadId t ≠ i := by
    rintro t ht hph rfl
    rw [(h.used _).mpr ⟨t, ht, hph, rfl⟩] at hi
    cases hi
  refine ⟨fun j => ?_, fun t ht u hu => ?_, fun t ht => ?_⟩
  · simp only [create_threadIds, create_created, create_phase, create_threadId]
    by_cases hj : j = i
    · subst hj
      rw [Function.update_self]
      refine ⟨fun _ => ⟨c.created, Nat.lt_succ_self _, ?_, ?_⟩, fun _ => rfl⟩
      · simp
      · simp
    · rw [Function.update_of_ne hj, h.used]
      constructor
      · rintro ⟨t, ht, hph, hid⟩
        exact ⟨t, Nat.lt_succ_of_lt ht, by simpa [ht.ne] using hph, by simpa [ht.ne] using hid⟩
      · rintro ⟨t, ht, hph, hid⟩
        rcases Nat.lt_succ_iff_lt_or_eq.mp ht with ht | rfl
        · exact ⟨t, ht, by simpa [ht.ne] using hph, by simpa [ht.ne] using hid⟩
        · exact absurd (by simpa using hid.symm) hj
  · rw [create_created] at ht hu
    simp only [create_phase, create_threadId]
    rcases Nat.lt_succ_iff_lt_or_eq.mp ht with ht | rfl <;>
      rcases Nat.lt_succ_iff_lt_or_eq.mp hu with hu | rfl
    · simpa [ht.ne, hu.ne] using h.inj t ht u hu
    · intro hph _ hid
      simp only [ht.ne, ne_eq, not_false_eq_true, Function.update_of_ne, Function.update_self]
        at hph hid
      exact absurd hid (hold t ht hph)
    · intro _ hph hid
      simp only [hu.ne, ne_eq, not_false_eq_true, Function.update_of_ne, Function.update_self]
        at hph hid
      exact absurd hid.symm (hold u hu hph)
    · exact fun _ _ _ => rfl
  · rw [create_created] at ht
    simp only [create_phase, create_toBeDestroyed]
    rcases Nat.lt_succ_iff_lt_or_eq.mp ht with ht | rfl
    · simpa [ht.ne] using h.pending t ht
    · rw [Function.update_self]
      refine ⟨nofun, fun hd => ?_⟩
      exact absurd (hdoomed _ hd) (lt_irrefl _)

theorem Numbered.finish (h : Numbered c) (hph : c.phase c.current = .unfinished)
    (hnone : c.toBeDestroyed = none) : Numbered c.finish := by
  have hdeleted : ∀ t, c.finish.phase t ≠ .deleted ↔ c.phase t ≠ .deleted := by
    intro t
    rw [finish_phase]
    by_cases ht : t = c.current
    · subst ht
      simp [hph]
    · rw [Function.update_of_ne ht]
  refine ⟨fun i => ?_, fun t ht u hu => ?_, fun t ht => ?_⟩
  · simp only [hdeleted, finish_threadIds, finish_created, finish_threadId]
    exact h.used i
  · rw [hdeleted, hdeleted]
    exact h.inj t ht u hu
  · rw [finish_phase, finish_toBeDestroyed, Option.some.injEq]
    by_cases htc : t = c.current
    · simp [htc]
    · rw [Function.update_of_ne htc, h.pending t ht, hnone]
      simp [Ne.symm htc]

theorem Numbered.destroy (h : Numbered c) {t : ℕ} (ht : t < c.created)
    (hd : c.toBeDestroyed = some t) : Numbered (c.destroy t) := by
  have hfinished : c.phase t = .finished := (h.pending t ht).mpr hd
  have hdeleted : ∀ u, (c.destroy t).phase u ≠ .deleted ↔ u ≠ t ∧ c.phase u ≠ .deleted := by
    intro u
    rw [destroy_phase]
    by_cases hu : u = t
    · simp [hu]
    · simp [hu]
  refine ⟨fun i => ?_, fun u hu v hv => ?_, fun u hu => ?_⟩
  · simp only [hdeleted, destroy_threadIds, destroy_created, destroy_threadId]
    by_cases hi : i = c.threadId t
    · subst hi
      rw [Function.update_self]
      refine ⟨nofun, ?_⟩
      rintro ⟨u, hu, ⟨hne, hph⟩, hid⟩
      exact absurd (h.inj u hu t ht hph (by simp [hfinished]) hid) hne
    · rw [Function.update_of_ne hi, h.used]
      constructor
      · rintro ⟨u, hu, hph, rfl⟩
        exact ⟨u, hu, ⟨fun hut => hi (hut ▸ rfl), hph⟩, rfl⟩
      · rintro ⟨u, hu, ⟨-, hph⟩, hid⟩
        exact ⟨u, hu, hph, hid⟩
  · rw [hdeleted, hdeleted]
    exact fun hpu hpv => h.inj u hu v hv hpu.2 hpv.2
  · rw [destroy_phase, destroy_toBeDestroyed]
    by_cases hut : u = t
    · simp [hut]
    · rw [Function.update_of_ne hut, h.pending u hu, hd]
      simp [Ne.symm hut]

theorem Numbered.step (h : Numbered c) (hq : Queued c place) (hstep : Step cfg c c')
    (hfinish : ∀ rest, c.stack c.current = .cmd .finish :: rest → c.toBeDestroyed = none) :
    Numbered c' := by
  cases hstep with
  | @newThread _ _ rest _ hs hi =>
      have hgoto : Numbered (c.goto rest) := h.congr rfl rfl rfl rfl rfl
      exact hgoto.create (fun t hd => (hq.doomed t hd).1) _ hi
  | finish hs =>
      exact h.finish (hq.runs (by rw [hs]; exact id)).2.2 (hfinish _ hs)
  | @destroy rest t hs hd ht =>
      have hgoto : Numbered (c.goto rest) := h.congr rfl rfl rfl rfl rfl
      exact hgoto.destroy (hq.doomed t hd).1 hd
  | _ => exact h.congr (by simp) (by simp) (by simp) (by simp) (by simp)

theorem numbered_start (main : φ) (client : γ) (values : ℕ → ℤ) :
    Numbered (start main client values) where
  used i := by simp [eq_comm]
  inj t ht u hu := by
    rw [start_created] at ht hu
    omega
  pending := by simp

/-- The ids in use. -/
def usedIds (c : Core φ γ) : Finset (Fin maxThreadsCount) :=
  Finset.univ.filter fun i => c.threadIds i = true

/-- The threads in the given phase. -/
def inPhase (c : Core φ γ) (p : Phase) : Finset ℕ :=
  (Finset.range c.created).filter fun t => c.phase t = p

theorem Numbered.card_usedIds (h : Numbered c) :
    c.usedIds.card = (c.inPhase .unfinished).card + (c.inPhase .finished).card := by
  have himage : c.usedIds =
      ((Finset.range c.created).filter fun t => c.phase t ≠ .deleted).image c.threadId := by
    ext i
    simp [usedIds, h.used, and_assoc]
  have hsplit : ((Finset.range c.created).filter fun t => c.phase t ≠ .deleted) =
      c.inPhase .unfinished ∪ c.inPhase .finished := by
    ext t
    simp only [inPhase, Finset.mem_filter, Finset.mem_union, Finset.mem_range]
    cases c.phase t <;> simp
  have hdisjoint : Disjoint (c.inPhase .unfinished) (c.inPhase .finished) := by
    refine Finset.disjoint_filter.mpr fun t _ hu hf => ?_
    rw [hu] at hf
    cases hf
  rw [himage, Finset.card_image_of_injOn, hsplit, Finset.card_union_of_disjoint hdisjoint]
  intro t ht u hu hid
  simp only [Finset.coe_filter, Finset.mem_range, Set.mem_ofPred_eq] at ht hu
  exact h.inj t ht.1 u hu.1 ht.2 hu.2 hid

theorem Numbered.card_finished_le (h : Numbered c) : (c.inPhase .finished).card ≤ 1 := by
  refine Finset.card_le_one.mpr fun t ht u hu => ?_
  simp only [inPhase, Finset.mem_filter, Finset.mem_range] at ht hu
  have hsame := ((h.pending t ht.1).mp ht.2).symm.trans ((h.pending u hu.1).mp hu.2)
  exact Option.some.inj hsame

end Core

namespace Kernel

variable {cfg : Config φ γ ι} {k : Kernel φ γ}

/-- The current thread is about to call `Finish`. -/
def Finishing (k : Kernel φ γ) : Prop := ∃ rest, k.current.stack = .cmd .finish :: rest

instance : DecidablePred (Finishing (φ := φ) (γ := γ)) := fun k =>
  decidable_of_iff
    ((match k.current.stack with
      | .cmd .finish :: _ => true
      | _ => false) = true) (by
    unfold Finishing
    split
    · simp_all
    · rename_i hfinish
      simp only [Bool.false_eq_true, false_iff]
      rintro ⟨rest, hs⟩
      exact hfinish rest hs)

/-- `Finish` is called only if no other thread waits to be deleted. -/
def OneDoomed (k : Kernel φ γ) : Prop := k.Finishing → k.threadToBeDestroyed = none

instance : DecidablePred (OneDoomed (φ := φ) (γ := γ)) := fun k =>
  inferInstanceAs (Decidable (k.Finishing → k.threadToBeDestroyed = none))

theorem numbered (h : (systemWhere cfg Initial fun k _ => k.OneDoomed).Reachable k) :
    k.core.Numbered := by
  refine (invariant_where (fun _ => id) ?_ ?_ h).2.2
  · rintro k ⟨main, client, values, machine, -, rfl⟩
    rw [core_start]
    exact Core.numbered_start main client values
  · rintro k env hone c c' place hshape hq hnumbered ⟨hstep, hfrom⟩
    refine hnumbered.step hq hstep fun rest hs => ?_
    rcases hfrom with rfl | ⟨f, rest', hs', hminor⟩
    · exact hone ⟨rest, hs⟩
    · rw [hs] at hs'
      cases hs'
      exact hminor.elim

theorem usedIds_of_none (h : k.allocatedThreadID = none) : k.core.usedIds = Finset.univ := by
  refine Finset.filter_true_of_mem fun i _ => ?_
  have hi := List.find?_eq_none.mp h i (List.mem_finRange i)
  have htrue : k.threadIds i = true := by simpa using hi
  exact htrue

/-- The ids in use are those of the unfinished threads and of the one that is to be destroyed,
and no id is left only if that many threads are there. -/
theorem ids_given_back (h : (systemWhere cfg Initial fun k _ => k.OneDoomed).Reachable k) :
    (∀ t < k.created, (k.thread t).phase = .finished → k.threadToBeDestroyed = some t) ∧
      (∀ i, k.threadIds i = true → ∃ t < k.created, (k.thread t).threadId = i ∧
        ((k.thread t).phase = .unfinished ∨ k.threadToBeDestroyed = some t)) ∧
      k.core.usedIds.card ≤ (k.core.inPhase .unfinished).card + 1 ∧
      (k.allocatedThreadID = none → maxThreadsCount ≤ (k.core.inPhase .unfinished).card + 1) := by
  have hnumbered := numbered h
  have hpending : ∀ t < k.created, (k.thread t).phase = .finished →
      k.threadToBeDestroyed = some t := fun t ht => (hnumbered.pending t ht).mp
  have hcard : k.core.usedIds.card ≤ (k.core.inPhase .unfinished).card + 1 := by
    rw [hnumbered.card_usedIds]
    exact Nat.add_le_add_left hnumbered.card_finished_le _
  refine ⟨hpending, fun i hi => ?_, hcard, fun hnone => ?_⟩
  · obtain ⟨t, ht, hph, hid⟩ := (hnumbered.used i).mp hi
    refine ⟨t, ht, hid, ?_⟩
    cases hphase : (k.thread t).phase with
    | unfinished => exact .inl rfl
    | finished => exact .inr (hpending t ht hphase)
    | deleted => exact absurd hphase hph
  · rw [usedIds_of_none hnone, Finset.card_univ, Fintype.card_fin] at hcard
    exact hcard

/-- The main thread starts some threads that do nothing, and yields twice. -/
def forkIdlers (n : ℕ) : Config ℕ Unit Unit :=
  .scripted false [List.replicate n (.newThread 6 0) ++
    (List.range n).map (fun t => .call (.fork (t + 1) 1)) ++ [.call .yield, .call .yield]] (by
      intro cmds hcmds x hx
      rw [List.mem_singleton.mp hcmds] at hx
      simp only [List.mem_append, List.mem_replicate, List.mem_map, List.mem_cons] at hx
      rcases hx with (⟨-, rfl⟩ | ⟨t, -, rfl⟩) | rfl | rfl | hx
      · trivial
      · trivial
      · trivial
      · trivial
      · cases hx)

theorem ids_given_back_forkIdlers : ∃ k : Kernel ℕ Unit, k.created = 2 ∧
    (k.thread 1).phase = .finished ∧ k.threadToBeDestroyed = some 1 := by
  obtain ⟨k, hobs, hk⟩ := exists_reachable_where (forkIdlers 1) (fun k _ => k.OneDoomed) (calm 23)
    (start 0 () (fun _ => 0) none) (fun k => (k.created, (k.thread 1).phase)) (2, .finished)
    (by decide +kernel)
  obtain ⟨hcreated, hphase⟩ := Prod.mk.inj hobs
  exact ⟨k, hcreated, hphase,
    (ids_given_back (hk _ (initial_start 0 ()))).1 1 (by omega) hphase⟩

/-- Of three threads that start and finish one after the other, two keep their ids: the main
thread goes on with interrupts on, and nothing is left that would delete them. -/
theorem ids_kept : ∃ k : Kernel ℕ Unit, (system (forkIdlers 3) Initial).Reachable k ∧
    k.currentThread = 0 ∧ k.level = .on ∧ (k.thread 1).phase = .finished ∧
      (k.thread 2).phase = .finished ∧ k.threadToBeDestroyed = none ∧
      k.core.usedIds.card = 3 ∧ (k.core.inPhase .unfinished).card = 1 := by
  obtain ⟨k, hobs, hk⟩ := exists_reachable (forkIdlers 3) (calm 64)
    (start 0 () (fun _ => 0) none)
    (fun k => ((k.currentThread, k.level), ((k.thread 1).phase, (k.thread 2).phase),
      k.threadToBeDestroyed, k.core.usedIds.card, (k.core.inPhase .unfinished).card))
    ((0, .on), (.finished, .finished), none, 3, 1) (by decide +kernel)
  simp only [Prod.mk.injEq] at hobs
  obtain ⟨⟨hcurrent, hlevel⟩, ⟨hone, htwo⟩, hrest⟩ := hobs
  exact ⟨k, hk _ (initial_start 0 ()), hcurrent, hlevel, hone, htwo, hrest⟩

end Kernel

end Nachos
