import Nachos.Library.Transition
import Nachos.Verification.LinkedList.Chains

/-! # Lists refine sequences

Whatever is called, the pointers represent the sequence that the calls make of the empty one.
If elements are only inserted by their keys, it is a stable priority queue. -/

namespace Nachos.LinkedList

open Library Library.Segment

variable {α : Type} [DecidableEq α] {s : List (Keyed α)}

/-! ## Calls -/

inductive Call (α : Type) where
  | append (item : α)
  | prepend (item : α)
  | sortedInsert (item : α) (sortKey : ℤ)
  | remove
  | sortedRemove
  | removeItem (item : α)

inductive Answer (α : Type) where
  | done
  | thing (item : Option α)
  | keyed (element : Option (Keyed α))

def call (l : LinkedList α) : Call α → Exec (Answer α × LinkedList α)
  | .append item => do return (.done, ← l.append item)
  | .prepend item => do return (.done, ← l.prepend item)
  | .sortedInsert item sortKey => do return (.done, ← l.sortedInsert item sortKey)
  | .remove => do
      let (item, l) ← l.remove
      return (.thing item, l)
  | .sortedRemove => do
      let (element, l) ← l.sortedRemove
      return (.keyed element, l)
  | .removeItem item => do return (.done, ← l.removeItem item)

/-- Sequences of calls on a new list. -/
def system (α : Type) [DecidableEq α] : System (LinkedList α) (Call α) (Answer α) where
  init l := l = new
  step l c a l' := l.call c = .ok (a, l')

/-! ## Sequences -/

/-- What a call means for the sequence of elements. `Remove(item)` is called only for an item
that is present. -/
inductive Specified (s : List (Keyed α)) : Call α → Answer α → List (Keyed α) → Prop where
  | append (item) : Specified s (.append item) .done (s ++ [⟨0, item⟩])
  | prepend (item) : Specified s (.prepend item) .done (⟨0, item⟩ :: s)
  | sortedInsert (item sortKey) :
      Specified s (.sortedInsert item sortKey) .done (Keyed.sortedInsert ⟨sortKey, item⟩ s)
  | remove : Specified s .remove (.thing (s.head?.map Keyed.item)) s.tail
  | sortedRemove : Specified s .sortedRemove (.keyed s.head?) s.tail
  | removeItem (item) : (∃ e ∈ s, e.item = item) →
      Specified s (.removeItem item) .done (s.eraseP fun e => e.item = item)

def sequences (α : Type) [DecidableEq α] : System (List (Keyed α)) (Call α) (Answer α) where
  init s := s = []
  step s c a s' := Specified s c a s'

/-! ## Refinement -/

/-- The list has these elements. -/
def Represents (l : LinkedList α) (s : List (Keyed α)) : Prop :=
  ∃ xs, Chain l xs ∧ xs.map Prod.snd = s

theorem represents_call {l : LinkedList α} {s' : List (Keyed α)} {c : Call α} {a : Answer α}
    (h : Represents l s) (hs : Specified s c a s') :
    ∃ l', l.call c = .ok (a, l') ∧ Represents l' s' := by
  obtain ⟨xs, hchain, rfl⟩ := h
  cases hs with
  | append item =>
      obtain ⟨l', hrun, hchain'⟩ := append_chain hchain item
      exact ⟨l', bind_eq_ok.mpr ⟨l', hrun, rfl⟩, _, hchain', by simp⟩
  | prepend item =>
      obtain ⟨l', hrun, hchain'⟩ := prepend_chain hchain item
      exact ⟨l', bind_eq_ok.mpr ⟨l', hrun, rfl⟩, _, hchain', by simp⟩
  | sortedInsert item sortKey =>
      obtain ⟨l', zs, hrun, hchain', hzs⟩ := sortedInsert_chain hchain item sortKey
      exact ⟨l', bind_eq_ok.mpr ⟨l', hrun, rfl⟩, zs, hchain', hzs⟩
  | remove =>
      cases xs with
      | nil => exact ⟨l, bind_eq_ok.mpr ⟨_, remove_nil hchain, rfl⟩, [], hchain, rfl⟩
      | cons x xs =>
          obtain ⟨l', hrun, hchain'⟩ := remove_cons hchain
          exact ⟨l', bind_eq_ok.mpr ⟨_, hrun, rfl⟩, xs, hchain', rfl⟩
  | sortedRemove =>
      cases xs with
      | nil => exact ⟨l, bind_eq_ok.mpr ⟨_, sortedRemove_nil hchain, rfl⟩, [], hchain, rfl⟩
      | cons x xs =>
          obtain ⟨l', hrun, hchain'⟩ := sortedRemove_cons hchain
          exact ⟨l', bind_eq_ok.mpr ⟨_, hrun, rfl⟩, xs, hchain', rfl⟩
  | removeItem item hitem =>
      have hin : ∃ x ∈ xs, x.2.item = item := by
        obtain ⟨e, he, hitem⟩ := hitem
        obtain ⟨x, hx, rfl⟩ := List.mem_map.mp he
        exact ⟨x, hx, hitem⟩
      obtain ⟨l', hrun, hchain'⟩ := removeItem_chain hchain hin
      refine ⟨l', bind_eq_ok.mpr ⟨l', hrun, rfl⟩, _, hchain', ?_⟩
      rw [List.eraseP_map]
      rfl

/-! ## The stable priority queue -/

/-- The call is `SortedInsert` or `SortedRemove`. -/
def Call.IsSorted : Call α → Prop
  | .sortedInsert _ _ => True
  | .sortedRemove => True
  | _ => False

/-- The elements that have been inserted, in their order. -/
def inserted (trace : List (Call α × Answer α)) : List (Keyed α) :=
  trace.filterMap fun
    | (.sortedInsert item sortKey, _) => some ⟨sortKey, item⟩
    | _ => none

/-- The elements that have been removed, in their order. -/
def removed (trace : List (Call α × Answer α)) : List (Keyed α) :=
  trace.filterMap fun
    | (_, .keyed element) => element
    | _ => none

/-- The elements of each key leave in the order in which they came. -/
structure Queue (trace : List (Call α × Answer α)) (s : List (Keyed α)) : Prop where
  sorted : Keyed.Sorted s
  stable : ∀ k, Keyed.withKey (inserted trace) k =
    Keyed.withKey (removed trace) k ++ Keyed.withKey s k

theorem Queue.step {trace : List (Call α × Answer α)} {s' : List (Keyed α)} {c : Call α}
    {a : Answer α} (h : Queue trace s) (hsorted : c.IsSorted) (hs : Specified s c a s') :
    Queue (trace ++ [(c, a)]) s' := by
  cases hs with
  | sortedInsert item sortKey =>
      refine ⟨h.sorted.sortedInsert _, fun k => ?_⟩
      have hin : inserted (trace ++ [(.sortedInsert item sortKey, .done)]) =
          inserted trace ++ [⟨sortKey, item⟩] := List.filterMap_append
      have hout : removed (trace ++ [(.sortedInsert item sortKey, .done)]) = removed trace := by
        rw [removed, List.filterMap_append]
        exact List.append_nil _
      rw [hin, hout, Keyed.withKey_sortedInsert h.sorted, ← List.append_assoc, ← h.stable k]
      exact List.filter_append ..
  | sortedRemove =>
      have hin : inserted (trace ++ [(.sortedRemove, .keyed s.head?)]) = inserted trace := by
        rw [inserted, List.filterMap_append]
        exact List.append_nil _
      cases s with
      | nil =>
          have hout : removed (trace ++ [(.sortedRemove, .keyed none)]) = removed trace := by
            rw [removed, List.filterMap_append]
            exact List.append_nil _
          refine ⟨h.sorted, fun k => ?_⟩
          rw [hin, List.head?_nil, hout]
          exact h.stable k
      | cons e rest =>
          have hout : removed (trace ++ [(.sortedRemove, .keyed (some e))]) = removed trace ++ [e] :=
            List.filterMap_append
          refine ⟨(List.pairwise_cons.mp h.sorted).2, fun k => ?_⟩
          rw [hin, List.head?_cons, hout, h.stable k, List.tail_cons]
          simp only [Keyed.withKey, List.append_assoc, ← List.filter_append, List.singleton_append]
  | append | prepend | remove | removeItem => cases hsorted

theorem queue_of_run {trace : List (Call α × Answer α)} (hrun : (sequences α).Run [] trace s)
    (hsorted : ∀ x ∈ trace, x.1.IsSorted) : Queue trace s := by
  generalize hnil : ([] : List (Keyed α)) = s₀ at hrun
  induction hrun with
  | nil =>
      subst hnil
      exact ⟨List.Pairwise.nil, fun _ => rfl⟩
  | snoc _ hstep ih =>
      have hqueue := ih fun x hx => hsorted x (List.mem_append_left _ hx)
      exact hqueue.step (hsorted _ (List.mem_append_right _ List.mem_cons_self)) hstep

/-! ## Runs -/

/-- The pointers of a list with these elements. -/
structure Sound (l : LinkedList α) (xs : List (ℕ × Keyed α)) : Prop where
  path : Library.Segment l.heap l.first xs none
  acyclic : (addresses xs).Nodup
  ends : ∀ ys a v, xs = ys ++ [(a, v)] → l.last = some a ∧ l.heap.cell a = some ⟨none, v⟩
  empty : l.first = none ↔ xs = []
  count : l.numInList = xs.length

omit [DecidableEq α] in
theorem Chain.sound {l : LinkedList α} {xs : List (ℕ × Keyed α)} (h : Chain l xs) :
    Sound l xs where
  path := h.segment
  acyclic := h.segment.nodup
  ends _ _ _ heq := (heq ▸ h).last_concat
  empty := h.isEmpty_iff
  count := h.count

/-- Every sequence of calls runs, with the answers and the contents of the functional list. -/
theorem list_refines_sequence {trace : List (Call α × Answer α)} {s : List (Keyed α)}
    (hrun : (sequences α).Run [] trace s) :
    ∃ l xs, (system α).Run new trace l ∧ Sound l xs ∧ xs.map Prod.snd = s ∧
      ((∀ x ∈ trace, x.1.IsSorted) → Keyed.Sorted s ∧
        (∀ e ∈ s.head?, (∃ l', l.sortedRemove = .ok (some e, l')) ∧ ∀ x ∈ s, e.key ≤ x.key) ∧
        ∀ k, Keyed.withKey (inserted trace) k =
          Keyed.withKey (removed trace) k ++ Keyed.withKey s k) := by
  obtain ⟨l, hl, xs, hchain, rfl⟩ := hrun.simulation (T := system α) (R := fun s l => Represents l s)
    ⟨[], chain_new, rfl⟩ fun u v c a u' hrep hstep => represents_call hrep hstep
  refine ⟨l, xs, hl, hchain.sound, rfl, fun hsorted => ?_⟩
  have hqueue := queue_of_run hrun hsorted
  refine ⟨hqueue.sorted, fun e he => ?_, hqueue.stable⟩
  cases xs with
  | nil => cases he
  | cons x xs =>
      cases he
      obtain ⟨l', hremove, -⟩ := sortedRemove_cons hchain
      refine ⟨⟨l', hremove⟩, fun y hy => ?_⟩
      rcases List.mem_cons.mp hy with rfl | hy
      · exact le_rfl
      · exact (List.pairwise_cons.mp hqueue.sorted).1 y hy

/-- Two elements with one key, and one with a smaller key. -/
theorem list_refines_sequence_sample :
    let trace : List (Call ℕ × Answer ℕ) := [(.sortedInsert 10 5, .done),
      (.sortedInsert 11 5, .done), (.sortedInsert 12 3, .done),
      (.sortedRemove, .keyed (some ⟨3, 12⟩))]
    (sequences ℕ).Run [] trace [⟨5, 10⟩, ⟨5, 11⟩] ∧
      ∃ l xs, (system ℕ).Run new trace l ∧ Sound l xs ∧
        xs.map Prod.snd = [⟨5, 10⟩, ⟨5, 11⟩] := by
  intro trace
  have h₁ : Specified [] (.sortedInsert 10 5) .done [⟨5, 10⟩] := .sortedInsert 10 5
  have h₂ : Specified [⟨5, 10⟩] (.sortedInsert 11 5) .done [⟨5, 10⟩, ⟨5, 11⟩] := .sortedInsert 11 5
  have h₃ : Specified [⟨5, 10⟩, ⟨5, 11⟩] (.sortedInsert 12 3) .done
      [⟨3, 12⟩, ⟨5, 10⟩, ⟨5, 11⟩] := .sortedInsert 12 3
  have h₄ : Specified [⟨3, 12⟩, ⟨5, 10⟩, ⟨5, 11⟩] .sortedRemove (.keyed (some ⟨3, 12⟩))
      [⟨5, 10⟩, ⟨5, 11⟩] := .sortedRemove
  have hrun : (sequences ℕ).Run [] trace [⟨5, 10⟩, ⟨5, 11⟩] :=
    ((((System.Run.nil []).snoc h₁).snoc h₂).snoc h₃).snoc h₄
  obtain ⟨l, xs, hl, hsound, hxs, -⟩ := list_refines_sequence hrun
  exact ⟨hrun, l, xs, hl, hsound, hxs⟩

end Nachos.LinkedList
