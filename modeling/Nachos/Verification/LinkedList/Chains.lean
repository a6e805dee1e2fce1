import Nachos.Model.LinkedList

/-! # The chain of a list

Each operation on the pointers is the corresponding one on the sequence of elements. -/

namespace Nachos.LinkedList

open Library Library.Segment

variable {α : Type} {l l' : LinkedList α} {xs ys : List (ℕ × Keyed α)} {a : ℕ} {v : Keyed α}
  {e : ListElement α}

/-- The elements from `first` to `last`, with their addresses. -/
structure Chain (l : LinkedList α) (xs : List (ℕ × Keyed α)) : Prop where
  segment : Library.Segment l.heap l.first xs none
  last : l.last = (addresses xs).getLast?
  count : l.numInList = xs.length

theorem chain_new : Chain (new : LinkedList α) [] := ⟨.nil none, rfl, rfl⟩

/-! ## Pointers -/

theorem deref_of_cell (h : l.heap.cell a = some e) : l.deref (some a) = .ok e := by
  rw [deref, Option.bind_some, h]

theorem setNext_of_cell (h : l.heap.cell a = some e) (q : Option ℕ) :
    l.setNext (some a) q = .ok { l with heap := l.heap.link a q } := by
  rw [setNext, deref_of_cell h]
  rfl

theorem delete_of_cell (h : l.heap.cell a = some e) :
    l.delete (some a) = .ok { l with heap := l.heap.free a } := by
  rw [delete, deref_of_cell h]
  rfl

/-- The list is empty iff `first` is null. -/
theorem Chain.isEmpty_iff (h : Chain l xs) : l.first = none ↔ xs = [] := by
  constructor
  · intro hfirst
    have hseg := h.segment
    rw [hfirst] at hseg
    cases hseg
    rfl
  · rintro rfl
    have hseg := h.segment
    generalize l.first = p at hseg ⊢
    cases hseg
    rfl

theorem Chain.isEmpty_eq_false (h : Chain l xs) (hne : xs ≠ []) : l.isEmpty = false := by
  rw [isEmpty, Option.isNone_eq_false_iff, Option.isSome_iff_ne_none]
  exact fun hfirst => hne (h.isEmpty_iff.mp hfirst)

theorem Chain.first_cons (h : Chain l ((a, v) :: xs)) :
    l.first = some a ∧ ∃ next, l.heap.cell a = some ⟨next, v⟩ ∧ Library.Segment l.heap next xs none := by
  have hseg := h.segment
  generalize l.first = p at hseg ⊢
  cases hseg with
  | cons hcell hrest => exact ⟨rfl, _, hcell, hrest⟩

/-- The last element, which has no next one. -/
theorem Chain.last_concat (h : Chain l (xs ++ [(a, v)])) :
    l.last = some a ∧ l.heap.cell a = some ⟨none, v⟩ := by
  refine ⟨by rw [h.last]; simp [addresses], ?_⟩
  obtain ⟨q, -, hlast⟩ := h.segment.split
  cases hlast with
  | cons hcell hrest =>
      cases hrest
      exact hcell

/-- Before the new element is linked. -/
theorem Chain.newElement (h : Chain l xs) (item : α) (sortKey : ℤ) :
    Chain (l.newElement item sortKey).2 xs :=
  ⟨h.segment.alloc _, h.last, h.count⟩

/-! ## Insertion -/

/-- The first element of an empty list. -/
theorem Chain.single (h : Chain l []) (v : Keyed α) :
    Chain { l with
      first := some l.heap.next
      last := some l.heap.next
      numInList := l.numInList + 1
      heap := l.heap.alloc ⟨none, v⟩ } [(l.heap.next, v)] where
  segment := .cons (l.heap.cell_alloc_self _) (.nil none)
  last := rfl
  count := by
    rw [h.count]
    rfl

/-- An element that is not linked yet. -/
structure Fresh (l : LinkedList α) (xs : List (ℕ × Keyed α)) (b : ℕ) (v : Keyed α) : Prop where
  chain : Chain l xs
  cell : l.heap.cell b = some ⟨none, v⟩
  notMem : b ∉ addresses xs

variable {b : ℕ} {w : Keyed α}

theorem Chain.fresh (h : Chain l xs) (item : α) (sortKey : ℤ) :
    Fresh (l.newElement item sortKey).2 xs l.heap.next ⟨sortKey, item⟩ :=
  ⟨h.newElement item sortKey, l.heap.cell_alloc_self _, h.segment.next_notMem⟩

/-- `last->next = element` -/
theorem Fresh.atEnd (h : Fresh l (xs ++ [(a, v)]) b w) :
    ∃ l', l.setNext l.last (some b) = .ok l' ∧
      Chain { l' with last := some b, numInList := l'.numInList + 1 }
        (xs ++ [(a, v)] ++ [(b, w)]) := by
  obtain ⟨hlast, hcell⟩ := h.chain.last_concat
  rw [hlast]
  refine ⟨_, setNext_of_cell hcell (some b), ⟨?_, ?_, ?_⟩⟩
  · exact h.chain.segment.snoc h.cell rfl h.notMem
  · simp [addresses]
  · simp [h.chain.count]
    omega

/-- `element->next = first` -/
theorem Fresh.inFront (h : Fresh l ((a, v) :: xs) b w) :
    ∃ l', l.setNext (some b) l.first = .ok l' ∧
      Chain { l' with first := some b, numInList := l'.numInList + 1 }
        ((b, w) :: (a, v) :: xs) := by
  refine ⟨_, setNext_of_cell h.cell l.first, ⟨?_, ?_, ?_⟩⟩
  · exact .cons (l.heap.cell_link_self h.cell l.first) (h.chain.segment.link h.notMem _)
  · rw [h.chain.last]
    simp [addresses, List.getLast?_cons_cons]
  · simp [h.chain.count]

theorem append_chain (h : Chain l xs) (item : α) :
    ∃ l', l.append item = .ok l' ∧ Chain l' (xs ++ [(l.heap.next, ⟨0, item⟩)]) := by
  have hfresh := h.fresh item 0
  rcases List.eq_nil_or_concat xs with rfl | ⟨ys, ⟨a, v⟩, rfl⟩
  · have hfirst := h.isEmpty_iff.mpr rfl
    refine ⟨_, ?_, h.single ⟨0, item⟩⟩
    simp only [append, newElement, isEmpty, hfirst]
    rfl
  · rw [List.concat_eq_append] at h hfresh ⊢
    obtain ⟨l', hset, hchain⟩ := hfresh.atEnd
    refine ⟨_, ?_, hchain⟩
    have hne : (l.newElement item 0).2.isEmpty = false := hfresh.chain.isEmpty_eq_false (by simp)
    change (if (l.newElement item 0).2.isEmpty then _ else _) = _
    rw [hne, if_neg (by simp)]
    exact bind_eq_ok.mpr ⟨l', hset, rfl⟩

theorem prepend_chain (h : Chain l xs) (item : α) :
    ∃ l', l.prepend item = .ok l' ∧ Chain l' ((l.heap.next, ⟨0, item⟩) :: xs) := by
  have hfresh := h.fresh item 0
  cases xs with
  | nil =>
      have hfirst := h.isEmpty_iff.mpr rfl
      refine ⟨_, ?_, h.single ⟨0, item⟩⟩
      simp only [prepend, newElement, isEmpty, hfirst]
      rfl
  | cons x xs =>
      obtain ⟨l', hset, hchain⟩ := hfresh.inFront
      refine ⟨_, ?_, hchain⟩
      have hne : (l.newElement item 0).2.isEmpty = false := hfresh.chain.isEmpty_eq_false (by simp)
      change (if (l.newElement item 0).2.isEmpty then _ else _) = _
      rw [hne, if_neg (by simp)]
      exact bind_eq_ok.mpr ⟨l', hset, rfl⟩

/-- The loop of `SortedInsert`: the new element goes in front of the first one behind `ptr`
that has a larger key. -/
theorem insertAfter_chain {fuel : ℕ} (h : Fresh l (xs ++ (a, v) :: ys) b w)
    (hfuel : ys.length < fuel) :
    ∃ l' zs, l.insertAfter (some b) w.key fuel (some a) = .ok l' ∧
      Chain l' (xs ++ (a, v) :: zs) ∧
      zs.map Prod.snd = Keyed.sortedInsert w (ys.map Prod.snd) := by
  induction ys generalizing fuel xs a v with
  | nil =>
      obtain ⟨fuel, rfl⟩ := Nat.exists_eq_add_of_lt hfuel
      obtain ⟨-, hcell⟩ := h.chain.last_concat
      obtain ⟨l', hset, hchain⟩ := h.atEnd
      rw [List.append_assoc] at hchain
      refine ⟨_, [(b, w)], ?_, hchain, rfl⟩
      rw [insertAfter, deref_of_cell hcell, ok_bind]
      exact bind_eq_ok.mpr ⟨l', hset, rfl⟩
  | cons y ys ih =>
      obtain ⟨c, u⟩ := y
      obtain ⟨fuel, rfl⟩ := Nat.exists_eq_add_of_lt hfuel
      obtain ⟨q, hxs, hrest⟩ := h.chain.segment.split
      cases hrest with
      | cons hcell hrest =>
      cases hrest with
      | cons hnext hys =>
      have hpre : Library.Segment l.heap l.first (xs ++ [(a, v)]) (some c) :=
        hxs.append (.cons hcell (.nil _))
      rw [insertAfter, deref_of_cell hcell, ok_bind]
      dsimp only
      rw [deref_of_cell hnext, ok_bind]
      by_cases hkey : w.key < u.key
      · have hnew : b ∉ addresses (xs ++ [(a, v)] ++ (c, u) :: ys) := by
          rw [List.append_assoc]
          exact h.notMem
        have hseg := hpre.insert (.cons hnext hys) h.cell hnew
        have hba : a ≠ b := by
          rintro rfl
          exact h.notMem (by simp [addresses])
        have hcell' : (l.heap.link b (some c)).cell a = some ⟨some c, v⟩ := by
          rw [l.heap.cell_link_of_ne hba, hcell]
        rw [if_pos hkey, setNext_of_cell h.cell, ok_bind, setNext_of_cell hcell', ok_bind]
        refine ⟨_, (b, w) :: (c, u) :: ys, rfl, ⟨?_, ?_, ?_⟩, ?_⟩
        · rw [List.append_assoc] at hseg
          exact hseg
        · change l.last = _
          rw [h.chain.last]
          simp [addresses, List.getLast?_cons_cons]
        · simp [h.chain.count]
          omega
        · exact (Keyed.sortedInsert_cons_of_lt hkey _).symm
      · rw [if_neg hkey]
        have hfresh : Fresh l (xs ++ [(a, v)] ++ (c, u) :: ys) b w := by
          rw [List.append_assoc]
          exact h
        have hfuel' : ys.length < ((c, u) :: ys).length + fuel := by
          rw [List.length_cons]
          omega
        obtain ⟨l', zs, hrun, hchain, hzs⟩ := ih hfresh hfuel'
        rw [List.append_assoc] at hchain
        refine ⟨l', (c, u) :: zs, hrun, hchain, ?_⟩
        rw [List.map_cons, List.map_cons, hzs, Keyed.sortedInsert_cons_of_le (not_lt.mp hkey)]

theorem sortedInsert_chain (h : Chain l xs) (item : α) (sortKey : ℤ) :
    ∃ l' zs, l.sortedInsert item sortKey = .ok l' ∧ Chain l' zs ∧
      zs.map Prod.snd = Keyed.sortedInsert ⟨sortKey, item⟩ (xs.map Prod.snd) := by
  have hfresh := h.fresh item sortKey
  cases xs with
  | nil =>
      have hfirst := h.isEmpty_iff.mpr rfl
      refine ⟨_, _, ?_, h.single ⟨sortKey, item⟩, rfl⟩
      simp only [sortedInsert, newElement, isEmpty, hfirst]
      rfl
  | cons x xs =>
      obtain ⟨a, v⟩ := x
      have hne : (l.newElement item sortKey).2.isEmpty = false :=
        hfresh.chain.isEmpty_eq_false (by simp)
      obtain ⟨hfirst, next, hcell, -⟩ := hfresh.chain.first_cons
      have hderef : (l.newElement item sortKey).2.deref (l.newElement item sortKey).2.first =
          .ok ⟨next, v⟩ := by
        rw [hfirst]
        exact deref_of_cell hcell
      have hunfold : l.sortedInsert item sortKey =
          if sortKey < v.key then do
            let l' ← (l.newElement item sortKey).2.setNext (some l.heap.next)
              (l.newElement item sortKey).2.first
            return { l' with first := some l.heap.next, numInList := l'.numInList + 1 }
          else (l.newElement item sortKey).2.insertAfter (some l.heap.next) sortKey
            (l.newElement item sortKey).2.heap.next (l.newElement item sortKey).2.first := by
        change (if (l.newElement item sortKey).2.isEmpty then _ else
          ((l.newElement item sortKey).2.deref (l.newElement item sortKey).2.first >>=
            fun e => if sortKey < e.value.key then _ else _)) = _
        rw [hne, if_neg (by simp), hderef, ok_bind]
        rfl
      rw [hunfold]
      by_cases hkey : sortKey < v.key
      · obtain ⟨l', hset, hchain⟩ := hfresh.inFront
        rw [if_pos hkey]
        refine ⟨_, _, bind_eq_ok.mpr ⟨l', hset, rfl⟩, hchain, ?_⟩
        exact (Keyed.sortedInsert_cons_of_lt hkey _).symm
      · rw [if_neg hkey]
        have hlen := h.segment.length_le
        have hfuel : xs.length < (l.newElement item sortKey).2.heap.next := by
          change xs.length < l.heap.next + 1
          rw [List.length_cons] at hlen
          omega
        rw [hfirst]
        obtain ⟨l', zs, hrun, hchain, hzs⟩ :=
          insertAfter_chain (show Fresh _ ([] ++ (a, v) :: xs) _ _ from hfresh) hfuel
        refine ⟨l', (a, v) :: zs, hrun, hchain, ?_⟩
        rw [List.map_cons, List.map_cons, hzs]
        exact (Keyed.sortedInsert_cons_of_le (not_lt.mp hkey) _).symm

/-! ## Removal -/

theorem sortedRemove_nil (h : Chain l []) : l.sortedRemove = .ok (none, l) := by
  have hfirst := h.isEmpty_iff.mpr rfl
  simp only [sortedRemove, isEmpty, hfirst]
  rfl

theorem sortedRemove_cons (h : Chain l ((a, v) :: xs)) :
    ∃ l', l.sortedRemove = .ok (some v, l') ∧ Chain l' xs := by
  obtain ⟨hfirst, next, hcell, hrest⟩ := h.first_cons
  have hne : l.isEmpty = false := h.isEmpty_eq_false (by simp)
  have hnodup := h.segment.nodup
  have ha : a ∉ addresses xs := (List.nodup_cons.mp hnodup).1
  have hsame : l.first = l.last ↔ xs = [] := by
    rw [hfirst, h.last]
    cases xs with
    | nil => simp [addresses]
    | cons x xs =>
        refine iff_of_false (fun heq => ha ?_) (by simp)
        have hlast : some a = (addresses (x :: xs)).getLast? := by
          rw [heq]
          simp [addresses, List.getLast?_cons_cons]
        exact List.mem_of_getLast? hlast.symm
  have hunfold : l.sortedRemove = do
      let l' ← (if l.first = l.last then { l with first := none, last := none }
        else { l with first := next } : LinkedList α).delete (some a)
      return (some v, { l' with numInList := l'.numInList - 1 }) := by
    rw [sortedRemove, hne, if_neg (by simp), hfirst, deref_of_cell hcell, ok_bind]
  rw [hunfold]
  by_cases hxs : xs = []
  · subst hxs
    rw [if_pos (hsame.mpr rfl), delete_of_cell (l := ⟨none, none, l.numInList, l.heap⟩) hcell,
      ok_bind]
    refine ⟨_, rfl, ⟨.nil none, rfl, ?_⟩⟩
    simp [h.count]
  · rw [if_neg (fun heq => hxs (hsame.mp heq)),
      delete_of_cell (l := ⟨next, l.last, l.numInList, l.heap⟩) hcell, ok_bind]
    refine ⟨_, rfl, ⟨hrest.free ha, ?_, ?_⟩⟩
    · change l.last = _
      rw [h.last]
      obtain ⟨x, xs, rfl⟩ := List.exists_cons_of_ne_nil hxs
      simp [addresses, List.getLast?_cons_cons]
    · simp [h.count]

theorem remove_nil (h : Chain l []) : l.remove = .ok (none, l) := by
  rw [remove, sortedRemove_nil h]
  rfl

theorem remove_cons (h : Chain l ((a, v) :: xs)) :
    ∃ l', l.remove = .ok (some v.item, l') ∧ Chain l' xs := by
  obtain ⟨l', hrun, hchain⟩ := sortedRemove_cons h
  refine ⟨l', ?_, hchain⟩
  rw [remove, hrun]
  rfl

section

variable [DecidableEq α] {item : α}

/-- The loop of `Remove(item)`: the first element behind `prev` with the item is taken out. -/
theorem removeAfter_chain {fuel : ℕ} (h : Chain l (xs ++ (a, v) :: ys)) (hfuel : ys.length < fuel)
    (hitem : ∃ y ∈ ys, y.2.item = item) {q : Option ℕ} (hq : Library.Segment l.heap q ys none) :
    ∃ l', removeAfter item l fuel (some a) q = .ok l' ∧
      Chain l' (xs ++ (a, v) :: ys.eraseP fun y => y.2.item = item) := by
  induction ys generalizing fuel xs a v q with
  | nil =>
      obtain ⟨y, hy, -⟩ := hitem
      cases hy
  | cons y ys ih =>
      obtain ⟨c, u⟩ := y
      obtain ⟨fuel, rfl⟩ := Nat.exists_eq_add_of_lt hfuel
      obtain ⟨r, hxs, hrest⟩ := h.segment.split
      cases hrest with
      | cons hcell hrest =>
      cases hrest with
      | @cons _ next _ _ _ hnext hys =>
      cases hq with
      | cons hnext' hys' =>
      cases hnext.symm.trans hnext'
      have hpre : Library.Segment l.heap l.first (xs ++ [(a, v)]) (some c) :=
        hxs.append (.cons hcell (.nil _))
      rw [removeAfter, deref_of_cell hnext, ok_bind]
      by_cases hfound : item = u.item
      · have hca : c ≠ a := by
          have hnodup := h.segment.nodup
          rintro rfl
          simp [addresses, List.nodup_append] at hnodup
        have hseg := hpre.erase hnext hys
        have hcell' := l.heap.cell_link_self hcell next
        have hnext' : (l.heap.link a next).cell c = some ⟨next, u⟩ := by
          rw [l.heap.cell_link_of_ne hca, hnext]
        rw [if_pos hfound, List.eraseP_cons_of_pos (by simpa using hfound.symm)]
        dsimp only
        rw [setNext_of_cell hcell, ok_bind, deref_of_cell (l := ⟨_, _, _, l.heap.link a next⟩) hcell',
          ok_bind]
        rw [List.append_assoc] at hseg
        by_cases hnone : next = none
        · subst hnone
          cases hys
          rw [if_pos rfl, delete_of_cell (l := ⟨_, some a, _, l.heap.link a none⟩) hnext', ok_bind]
          refine ⟨_, rfl, ⟨hseg, by simp [addresses], ?_⟩⟩
          simp [h.count]
          omega
        · rw [if_neg hnone, delete_of_cell (l := ⟨_, _, _, l.heap.link a next⟩) hnext', ok_bind]
          refine ⟨_, rfl, ⟨hseg, ?_, ?_⟩⟩
          · have hne : ys ≠ [] := by
              rintro rfl
              cases hys
              exact hnone rfl
            obtain ⟨y, zs, rfl⟩ := List.exists_cons_of_ne_nil hne
            change l.last = _
            rw [h.last]
            simp [addresses, List.getLast?_cons_cons]
          · simp [h.count]
            omega
      · have hrest : ∃ y ∈ ys, y.2.item = item := by
          obtain ⟨y, hy, hyitem⟩ := hitem
          rcases List.mem_cons.mp hy with rfl | hy
          · exact absurd hyitem.symm hfound
          · exact ⟨y, hy, hyitem⟩
        have hchain : Chain l (xs ++ [(a, v)] ++ (c, u) :: ys) := by
          rw [List.append_assoc]
          exact h
        have hfuel' : ys.length < ((c, u) :: ys).length + fuel := by
          rw [List.length_cons]
          omega
        obtain ⟨l', hrun, hchain'⟩ := ih hchain hfuel' hrest hys
        rw [if_neg hfound]
        refine ⟨l', hrun, ?_⟩
        rw [List.append_assoc] at hchain'
        rw [List.eraseP_cons_of_neg (by simpa using fun heq => hfound heq.symm)]
        exact hchain'

/-- `Remove(item)` takes out the first element with the item, if there is one. -/
theorem removeItem_chain (h : Chain l xs) (hitem : ∃ x ∈ xs, x.2.item = item) :
    ∃ l', l.removeItem item = .ok l' ∧ Chain l' (xs.eraseP fun x => x.2.item = item) := by
  cases xs with
  | nil =>
      obtain ⟨x, hx, -⟩ := hitem
      cases hx
  | cons x xs =>
      obtain ⟨a, v⟩ := x
      obtain ⟨hfirst, next, hcell, hrest⟩ := h.first_cons
      rw [removeItem, hfirst, deref_of_cell hcell, ok_bind]
      by_cases hfound : item = v.item
      · obtain ⟨l', hremove, hchain⟩ := remove_cons h
        rw [if_pos hfound, hremove, ok_bind]
        refine ⟨l', ?_, ?_⟩
        · rw [← hfound]
          exact bind_eq_ok.mpr ⟨(), assert_of_true (by simp), rfl⟩
        · rw [List.eraseP_cons_of_pos (by simpa using hfound.symm)]
          exact hchain
      · have hin : ∃ x ∈ xs, x.2.item = item := by
          obtain ⟨x, hx, hxitem⟩ := hitem
          rcases List.mem_cons.mp hx with rfl | hx
          · exact absurd hxitem.symm hfound
          · exact ⟨x, hx, hxitem⟩
        have hfuel : xs.length < l.heap.next := h.segment.length_le
        obtain ⟨l', hrun, hchain⟩ :=
          removeAfter_chain (show Chain l ([] ++ (a, v) :: xs) from h) hfuel hin hrest
        rw [if_neg hfound]
        refine ⟨l', hrun, ?_⟩
        rw [List.eraseP_cons_of_neg (by simpa using fun heq => hfound heq.symm)]
        exact hchain

end

end Nachos.LinkedList
