import Nachos.Library.Heap

/-! # Linked lists on a heap

A segment is a path of cells that are linked by their `next` pointers. -/

namespace Nachos.Library

/-- A cell of a singly linked list. -/
structure Node (α : Type*) where
  next : Option ℕ
  value : α
  deriving DecidableEq, Repr

namespace Heap

variable {α : Type*} (h : Heap (Node α))

/-- `p->next = q` -/
def link (p : ℕ) (q : Option ℕ) : Heap (Node α) := h.modify p fun n => { n with next := q }

theorem cell_link_self {p : ℕ} {n : Node α} (hp : h.cell p = some n) (q : Option ℕ) :
    (h.link p q).cell p = some ⟨q, n.value⟩ := h.cell_modify_self hp _

theorem cell_link_of_ne {p r : ℕ} (hr : r ≠ p) (q : Option ℕ) : (h.link p q).cell r = h.cell r :=
  h.cell_modify_of_ne hr _

end Heap

/-- The cells from pointer `p` up to pointer `q`, with their addresses. -/
inductive Segment {α : Type*} (h : Heap (Node α)) :
    Option ℕ → List (ℕ × α) → Option ℕ → Prop where
  | nil (p : Option ℕ) : Segment h p [] p
  | cons {p : ℕ} {next q : Option ℕ} {v : α} {xs : List (ℕ × α)} :
      h.cell p = some ⟨next, v⟩ → Segment h next xs q → Segment h (some p) ((p, v) :: xs) q

namespace Segment

variable {α : Type*} {h h' : Heap (Node α)} {p q r : Option ℕ} {a b : ℕ} {v : α}
  {xs ys : List (ℕ × α)}

/-- The addresses of the cells. -/
def addresses (xs : List (ℕ × α)) : List ℕ := xs.map Prod.fst

theorem append (hxs : Segment h p xs q) (hys : Segment h q ys r) : Segment h p (xs ++ ys) r := by
  induction hxs with
  | nil => exact hys
  | cons hp _ ih => exact .cons hp (ih hys)

theorem split (hseg : Segment h p (xs ++ ys) r) :
    ∃ q, Segment h p xs q ∧ Segment h q ys r := by
  induction xs generalizing p with
  | nil => exact ⟨p, .nil p, hseg⟩
  | cons x xs ih =>
      cases hseg with
      | cons hp hrest =>
          obtain ⟨q, hxs, hys⟩ := ih hrest
          exact ⟨q, .cons hp hxs, hys⟩

theorem cell_of_mem (hseg : Segment h p xs q) (ha : a ∈ addresses xs) : ∃ n, h.cell a = some n := by
  induction hseg with
  | nil => cases ha
  | cons hp _ ih =>
      rcases List.mem_cons.mp ha with rfl | ha
      · exact ⟨_, hp⟩
      · exact ih ha

/-- Only the cells of a segment matter for it. -/
theorem frame (hseg : Segment h p xs q) (hsame : ∀ a ∈ addresses xs, h'.cell a = h.cell a) :
    Segment h' p xs q := by
  induction hseg with
  | nil => exact .nil _
  | @cons p _ _ _ xs hp _ ih =>
      refine .cons ((hsame p List.mem_cons_self).trans hp) (ih fun a ha => ?_)
      exact hsame a (List.mem_cons_of_mem _ ha)

theorem alloc (hseg : Segment h p xs q) (n : Node α) : Segment (h.alloc n) p xs q := by
  refine hseg.frame fun a ha => ?_
  obtain ⟨m, hm⟩ := hseg.cell_of_mem ha
  rw [h.cell_alloc_of_some hm, hm]

theorem link (hseg : Segment h p xs q) (ha : a ∉ addresses xs) (r : Option ℕ) :
    Segment (h.link a r) p xs q := by
  refine hseg.frame fun b hb => ?_
  have hne : b ≠ a := by
    rintro rfl
    exact ha hb
  exact h.cell_link_of_ne hne r

theorem free (hseg : Segment h p xs q) (ha : a ∉ addresses xs) : Segment (h.free a) p xs q := by
  refine hseg.frame fun b hb => ?_
  have hne : b ≠ a := by
    rintro rfl
    exact ha hb
  exact h.cell_free_of_ne hne

theorem next_notMem (hseg : Segment h p xs q) : h.next ∉ addresses xs := by
  intro hmem
  obtain ⟨n, hn⟩ := hseg.cell_of_mem hmem
  exact h.ne_next hn rfl

/-- A path that ends is determined by where it starts. -/
theorem unique (hxs : Segment h p xs none) (hys : Segment h p ys none) : xs = ys := by
  generalize hq : (none : Option ℕ) = q at hxs
  induction hxs generalizing ys with
  | nil =>
      subst hq
      cases hys
      rfl
  | cons hp _ ih =>
      cases hys with
      | cons hp' hrest =>
          cases hp.symm.trans hp'
          rw [ih hrest hq]

/-- It does not come back to a cell. -/
theorem nodup (hxs : Segment h p xs none) : (addresses xs).Nodup := by
  generalize hq : (none : Option ℕ) = q at hxs
  induction hxs with
  | nil => exact List.nodup_nil
  | @cons p next q v xs hp hrest ih =>
      subst hq
      refine List.nodup_cons.mpr ⟨fun hmem => ?_, ih rfl⟩
      obtain ⟨⟨a, w⟩, hx, rfl⟩ := List.mem_map.mp hmem
      obtain ⟨front, back, rfl⟩ := List.append_of_mem hx
      obtain ⟨r, -, hback⟩ := hrest.split
      -- the rest of the path would be as long as the whole
      cases hback with
      | cons hcell hback =>
          have hlong := unique (Segment.cons hp hrest) (Segment.cons hcell hback)
          have hlen := congrArg List.length hlong
          simp only [List.length_cons, List.length_append] at hlen
          omega

/-- The last cell is linked to another one. -/
theorem relink (hseg : Segment h p (xs ++ [(a, v)]) q) (ha : a ∉ addresses xs) (r : Option ℕ) :
    Segment (h.link a r) p (xs ++ [(a, v)]) r := by
  obtain ⟨s, hxs, hlast⟩ := hseg.split
  cases hlast with
  | cons hcell _ => exact (hxs.link ha r).append (.cons (h.cell_link_self hcell r) (.nil r))

theorem lt_next (hseg : Segment h p xs q) (ha : a ∈ addresses xs) : a < h.next := by
  obtain ⟨n, hn⟩ := hseg.cell_of_mem ha
  by_contra hge
  rw [h.unused a (not_lt.mp hge)] at hn
  cases hn

/-- There are no more cells than have been allocated. -/
theorem length_le (hseg : Segment h p xs none) : xs.length ≤ h.next := by
  have hsub : (addresses xs).toFinset ⊆ Finset.range h.next := fun a ha =>
    Finset.mem_range.mpr (hseg.lt_next (List.mem_toFinset.mp ha))
  have hcard := Finset.card_le_card hsub
  rw [List.toFinset_card_of_nodup hseg.nodup, Finset.card_range, addresses,
    List.length_map] at hcard
  exact hcard

/-- A cell is put behind the last one. -/
theorem snoc {n : Node α} (hseg : Segment h p (xs ++ [(a, v)]) none) (hb : h.cell b = some n)
    (hnext : n.next = none) (hnew : b ∉ addresses (xs ++ [(a, v)])) :
    Segment (h.link a (some b)) p (xs ++ [(a, v)] ++ [(b, n.value)]) none := by
  have hnodup := hseg.nodup
  simp only [addresses, List.map_append, List.map_cons, List.map_nil, List.nodup_append,
    List.mem_append, List.mem_singleton] at hnodup hnew
  have ha : a ∉ addresses xs := fun hmem => hnodup.2.2 a hmem a rfl rfl
  have hba : b ≠ a := fun heq => hnew (.inr heq)
  have hcell : (h.link a (some b)).cell b = some ⟨none, n.value⟩ := by
    rw [h.cell_link_of_ne hba, hb, ← hnext]
  exact (hseg.relink ha (some b)).append (.cons hcell (.nil none))

/-- A cell is put between two others. -/
theorem insert {n : Node α} (hxs : Segment h p (xs ++ [(a, v)]) q) (hys : Segment h q ys none)
    (hb : h.cell b = some n) (hnew : b ∉ addresses (xs ++ [(a, v)] ++ ys)) :
    Segment ((h.link b q).link a (some b)) p (xs ++ [(a, v)] ++ (b, n.value) :: ys) none := by
  have hnodup := (hxs.append hys).nodup
  simp only [addresses, List.map_append, List.map_cons, List.map_nil, List.nodup_append,
    List.mem_append, List.mem_singleton, not_or] at hnodup hnew
  obtain ⟨⟨hbx, hba⟩, hby⟩ := hnew
  have ha : a ∉ addresses xs := fun hmem => hnodup.1.2.2 a hmem a rfl rfl
  have hay : a ∉ addresses ys := fun hmem => hnodup.2.2 a (.inr rfl) a hmem rfl
  have hxs' : Segment (h.link b q) p (xs ++ [(a, v)]) q := by
    refine hxs.link ?_ q
    simp only [addresses, List.map_append, List.map_cons, List.map_nil, List.mem_append,
      List.mem_singleton, not_or]
    exact ⟨hbx, hba⟩
  have hcell : ((h.link b q).link a (some b)).cell b = some ⟨q, n.value⟩ := by
    rw [Heap.cell_link_of_ne _ hba, h.cell_link_self hb]
  exact (hxs'.relink ha (some b)).append (.cons hcell ((hys.link hby q).link hay _))

/-- A cell is taken out. -/
theorem erase {n : Node α} (hxs : Segment h p (xs ++ [(a, v)]) (some b)) (hb : h.cell b = some n)
    (hys : Segment h n.next ys none) :
    Segment ((h.link a n.next).free b) p (xs ++ [(a, v)] ++ ys) none := by
  have hnodup := (hxs.append (.cons hb hys)).nodup
  simp only [addresses, List.map_append, List.map_cons, List.map_nil, List.nodup_append,
    List.nodup_cons, List.mem_append, List.mem_cons, List.not_mem_nil, or_false] at hnodup
  obtain ⟨⟨-, -, hxa⟩, ⟨hby, -⟩, hdisjoint⟩ := hnodup
  have ha : a ∉ addresses xs := fun hmem => hxa a hmem a rfl rfl
  have hbx : b ∉ addresses (xs ++ [(a, v)]) := by
    simp only [addresses, List.map_append, List.map_cons, List.map_nil, List.mem_append,
      List.mem_singleton]
    exact fun hmem => hdisjoint b hmem b (.inl rfl) rfl
  have hay : a ∉ addresses ys := fun hmem => hdisjoint a (.inr rfl) a (.inr hmem) rfl
  exact ((hxs.relink ha n.next).free hbx).append ((hys.link hay _).free hby)

end Segment

end Nachos.Library
