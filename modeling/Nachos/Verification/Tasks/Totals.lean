import Nachos.Library.Counting
import Nachos.Verification.Tasks.Basic

/-! # Totals

Actions have weights; the total is over all that threads have to do. A step of a thread changes
it by what the thread has less, or more, to do. -/

namespace Nachos

open Library

variable {φ γ ι : Type}

def weigh (w : Action φ → ℤ) (l : List (Action φ)) : ℤ := (l.map w).sum

@[simp] theorem weigh_nil (w : Action φ → ℤ) : weigh w [] = 0 := rfl

@[simp] theorem weigh_cons (w : Action φ → ℤ) (a : Action φ) (l : List (Action φ)) :
    weigh w (a :: l) = w a + weigh w l := by simp [weigh]

@[simp] theorem weigh_append (w : Action φ → ℤ) (l l' : List (Action φ)) :
    weigh w (l ++ l') = weigh w l + weigh w l' := by simp [weigh]

theorem weigh_sub (w w' : Action φ → ℤ) (l : List (Action φ)) :
    weigh (fun a => w a - w' a) l = weigh w l - weigh w' l := by
  induction l with
  | nil => rfl
  | cons a l ih =>
      rw [weigh_cons, weigh_cons, weigh_cons, ih]
      ring

theorem weigh_eq_zero {w : Action φ → ℤ} {l : List (Action φ)} (h : ∀ a ∈ l, w a = 0) :
    weigh w l = 0 := by
  induction l with
  | nil => rfl
  | cons a l ih =>
      rw [weigh_cons, h a List.mem_cons_self, ih fun b hb => h b (List.mem_cons_of_mem a hb)]
      rfl

/-- What is still to be added to the value of a semaphore. -/
def net (n : ℕ) : Action φ → ℤ
  | .up m => if m = n then 1 else 0
  | .down m => if m = n then -1 else 0
  | _ => 0

namespace Tasks

variable {T : Tasks φ γ} {t : ℕ} {w : Action φ → ℤ} {T' : Tasks φ γ}

def total (T : Tasks φ γ) (w : Action φ → ℤ) : ℤ :=
  ∑ t ∈ Finset.range T.created, weigh w (T.todo t)

theorem total_goto (ht : t < T.created) (l : List (Action φ)) :
    (T.goto t l).total w = T.total w + (weigh w l - weigh w (T.todo t)) := by
  have hchange := sum_change (f := fun u => weigh w (T.todo u))
    (g := fun u => weigh w ((T.goto t l).todo u)) (Finset.mem_range.mpr ht) fun u _ hu => by
      simp [hu]
  simpa [total] using hchange

@[simp] theorem total_setValue (n : ℕ) (v : ℤ) : (T.setValue n v).total w = T.total w := rfl

@[simp] theorem total_up (n : ℕ) : (T.up n).total w = T.total w := rfl

@[simp] theorem total_setOwner (l : ℕ) (o : Option ℕ) : (T.setOwner l o).total w = T.total w := rfl

@[simp] theorem total_setWaiting (c : ℕ) (q : List ℕ) : (T.setWaiting c q).total w = T.total w :=
  rfl

@[simp] theorem total_setClient (g : γ) : (T.setClient g).total w = T.total w := rfl

@[simp] theorem total_setPending (type : IntType) (n : ℤ) :
    (T.setPending type n).total w = T.total w := rfl

theorem total_create (h : T.todo T.created = []) : T.create.total w = T.total w := by
  have hlast : T.create.todo T.created = [] := h
  rw [total, create_created, Finset.sum_range_succ, hlast, weigh_nil, add_zero]
  rfl

/-- A thread with nothing to do starts. -/
theorem total_start {u : ℕ} (hu : u < T.created) (hnil : T.todo u = []) (l : List (Action φ)) :
    (T.goto u l).total w = T.total w + weigh w l := by
  rw [total_goto hu, hnil, weigh_nil, sub_zero]

theorem weigh_le_total (h : ∀ u, 0 ≤ weigh w (T.todo u)) (ht : t < T.created) :
    weigh w (T.todo t) ≤ T.total w :=
  Finset.single_le_sum (fun u _ => h u) (Finset.mem_range.mpr ht)

theorem total_nonneg (h : ∀ u, 0 ≤ weigh w (T.todo u)) : 0 ≤ T.total w :=
  Finset.sum_nonneg fun u _ => h u

theorem total_mono {w' : Action φ → ℤ} (h : ∀ u, weigh w (T.todo u) ≤ weigh w' (T.todo u)) :
    T.total w ≤ T.total w' := Finset.sum_le_sum fun u _ => h u

/-- What one thread has is part of the difference of two totals. -/
theorem sub_le_total_sub {w' : Action φ → ℤ}
    (h : ∀ u, weigh w (T.todo u) ≤ weigh w' (T.todo u)) (ht : t < T.created) :
    weigh w' (T.todo t) - weigh w (T.todo t) ≤ T.total w' - T.total w := by
  have hle := weigh_le_total (w := fun a => w' a - w a) (fun u => by
    rw [weigh_sub]
    exact sub_nonneg.mpr (h u)) ht
  simp only [total, weigh_sub, Finset.sum_sub_distrib] at hle
  exact hle

/-- One thread goes on. -/
theorem total_of_others (ht : t < T.created) (hcreated : T'.created = T.created)
    (h : ∀ u, u ≠ t → T'.todo u = T.todo u) :
    T'.total w = T.total w + (weigh w (T'.todo t) - weigh w (T.todo t)) := by
  rw [total, hcreated]
  exact sum_change (Finset.mem_range.mpr ht) fun u _ hu => by rw [h u hu]

/-- Threads start without weight; what one thread does changes the total by its own part. -/
theorem Step.total {program : Program φ γ ι} (hstep : Step program t T T') (hproper : T.Proper)
    (ht : t < T.created) (hroot : ∀ f, weigh w [.cmd (.run f), .cmd .finish] = 0) :
    T'.total w = T.total w + (weigh w (T'.todo t) - weigh w (T.todo t)) := by
  cases hstep with
  | @newThread pri uninit rest h =>
      have hnil : (T.goto t rest).todo (T.goto t rest).created = [] := by
        rw [goto_created, goto_todo, Function.update_of_ne ht.ne']
        exact hproper.unborn _ le_rfl
      rw [total_create hnil, total_goto ht]
      simp
  | @start u f rest h hu hne hnil =>
      have hnil' : (T.goto t rest).todo u = [] := by
        rw [goto_todo, Function.update_of_ne hne]
        exact hnil
      have hu' : u < (T.goto t rest).created := hu
      rw [total_start hu' hnil', hroot, total_goto ht]
      simp [hne.symm]
  | notifyAll h => simp
  | _ => simp [total_goto ht, Tasks.up]

/-- What a semaphore is decremented or incremented by, a thread has less to do. -/
theorem Step.value_add_weigh {program : Program φ γ ι} (h : Step program t T T')
    (hcmd : ∀ x rest, T.todo t ≠ .cmd x :: rest) (n : ℕ) :
    T'.value n + weigh (net n) (T'.todo t) = T.value n + weigh (net n) (T.todo t) := by
  cases h with
  | run h | finish h | newThread h | schedule h | syscall h | skip h => exact absurd h (hcmd _ _)
  | @down m rest h | @up m rest h =>
      rw [h]
      by_cases hm : n = m
      · subst hm
        simp [net, Tasks.up]
        omega
      · simp [net, Tasks.up, hm, Ne.symm hm]
  | notifyAll h => rfl
  | start h _ hne => simp [h, net, hne.symm]
  | take h | check h | give h | join h | back h | notifyNone h | notify h | notifyAllNone h =>
      simp [h, net]

end Tasks

end Nachos
