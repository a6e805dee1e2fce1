import Nachos.Library.Overwrite

/-! # Byte strings that are spread over blocks

A store is a family of blocks of `k` elements each. A list of block names gathers the
blocks into one string, and a string is scattered over a list of blocks. -/

namespace Nachos.Library

variable {ι α : Type*} {k : ℕ}

/-! ## Gathering -/

/-- The elements of the blocks named by `blocks`, one block behind the other. -/
def gather (d : ι → Fin k → α) (blocks : List ι) : List α :=
  blocks.flatMap fun s => List.ofFn (d s)

@[simp] theorem gather_nil (d : ι → Fin k → α) : gather d [] = [] := rfl

@[simp] theorem gather_cons (d : ι → Fin k → α) (s : ι) (blocks : List ι) :
    gather d (s :: blocks) = List.ofFn (d s) ++ gather d blocks := rfl

theorem gather_append (d : ι → Fin k → α) (xs ys : List ι) :
    gather d (xs ++ ys) = gather d xs ++ gather d ys :=
  List.flatMap_append

@[simp] theorem length_gather (d : ι → Fin k → α) (blocks : List ι) :
    (gather d blocks).length = k * blocks.length := by
  induction blocks with
  | nil => rfl
  | cons s blocks ih => simp [ih, Nat.mul_succ, Nat.add_comm]

theorem gather_congr {d d' : ι → Fin k → α} {blocks : List ι}
    (h : ∀ s ∈ blocks, d s = d' s) : gather d blocks = gather d' blocks := by
  induction blocks with
  | nil => rfl
  | cons s blocks ih =>
      rw [gather_cons, gather_cons, h s (by simp), ih fun t ht => h t (by simp [ht])]

theorem gather_drop (d : ι → Fin k → α) (blocks : List ι) (n : ℕ) :
    gather d (blocks.drop n) = (gather d blocks).drop (k * n) := by
  induction blocks generalizing n with
  | nil => simp
  | cons s blocks ih =>
      cases n with
      | zero => simp
      | succ n =>
          rw [List.drop_succ_cons, ih, gather_cons, Nat.mul_succ, Nat.add_comm,
            ← List.drop_drop, List.drop_left' (by simp)]

theorem gather_take (d : ι → Fin k → α) (blocks : List ι) (n : ℕ) :
    gather d (blocks.take n) = (gather d blocks).take (k * n) := by
  induction blocks generalizing n with
  | nil => simp
  | cons s blocks ih =>
      cases n with
      | zero => simp
      | succ n =>
          rw [List.take_succ_cons, gather_cons, ih, gather_cons, Nat.mul_succ, List.take_append,
            List.length_ofFn, Nat.add_sub_cancel, List.take_of_length_le (l := List.ofFn (d s))]
          simp

theorem getElem?_gather (d : ι → Fin k → α) {blocks : List ι} {b i : ℕ}
    (hb : b < blocks.length) (hi : i < k) :
    (gather d blocks)[k * b + i]? = some (d blocks[b] ⟨i, hi⟩) := by
  rw [← List.getElem?_drop, ← gather_drop, List.drop_eq_getElem_cons hb, gather_cons,
    List.getElem?_append_left (by simpa using hi), List.getElem?_eq_getElem (by simpa using hi),
    List.getElem_ofFn]

/-! ## Scattering -/

/-- The block found at the start of a string. -/
def blockOf [Zero α] (buf : List α) : Fin k → α := fun i => buf.getD i 0

theorem ofFn_blockOf [Zero α] {buf : List α} (h : k ≤ buf.length) :
    List.ofFn (blockOf buf : Fin k → α) = buf.take k := by
  apply List.ext_getElem
  · simpa using h
  · intro i hi hi'
    simp only [List.length_ofFn] at hi
    rw [List.getElem_ofFn, List.getElem_take, blockOf]
    exact (List.getElem_eq_getD 0).symm

/-- Write a string to the blocks named by `blocks`, from the first block on. -/
def scatter [DecidableEq ι] [Zero α] (d : ι → Fin k → α) : List ι → List α → ι → Fin k → α
  | [], _ => d
  | s :: blocks, buf => scatter (Function.update d s (blockOf buf)) blocks (buf.drop k)

section

variable [DecidableEq ι] [Zero α]

/-- Only the named blocks change. -/
theorem scatter_of_notMem (d : ι → Fin k → α) {blocks : List ι} (buf : List α) {s : ι}
    (hs : s ∉ blocks) : scatter d blocks buf s = d s := by
  induction blocks generalizing d buf with
  | nil => rfl
  | cons t blocks ih =>
      simp only [List.mem_cons, not_or] at hs
      rw [scatter, ih _ _ hs.2, Function.update_of_ne hs.1]

theorem gather_scatter_of_disjoint (d : ι → Fin k → α) {blocks others : List ι} (buf : List α)
    (h : ∀ s ∈ others, s ∉ blocks) :
    gather (scatter d blocks buf) others = gather d others :=
  gather_congr fun s hs => scatter_of_notMem d buf (h s hs)

/-- What is gathered is what was scattered. -/
theorem gather_scatter (d : ι → Fin k → α) {blocks : List ι} {buf : List α}
    (hnodup : blocks.Nodup) (hlen : buf.length = k * blocks.length) :
    gather (scatter d blocks buf) blocks = buf := by
  induction blocks generalizing d buf with
  | nil => simpa [eq_comm] using hlen
  | cons s blocks ih =>
      obtain ⟨hs, hnodup⟩ := List.nodup_cons.mp hnodup
      rw [List.length_cons, Nat.mul_succ] at hlen
      rw [gather_cons, scatter, ih _ hnodup (by simp [hlen]), scatter_of_notMem _ _ hs,
        Function.update_self, ofFn_blockOf (by omega), List.take_append_drop]

/-- Scattering over a run of the blocks overwrites a range of the gathered string. -/
theorem gather_scatter_slice (d : ι → Fin k → α) {blocks : List ι} {buf : List α} {i n : ℕ}
    (hnodup : blocks.Nodup) (hn : i + n ≤ blocks.length) (hlen : buf.length = k * n) :
    gather (scatter d ((blocks.drop i).take n) buf) blocks =
      overwrite (gather d blocks) (k * i) buf := by
  have hsplit : blocks = blocks.take i ++ ((blocks.drop i).take n ++ blocks.drop (i + n)) := by
    rw [← List.drop_drop, List.take_append_drop, List.take_append_drop]
  have hparts := hsplit ▸ hnodup
  obtain ⟨_, hrest, hleft⟩ := List.nodup_append.mp hparts
  obtain ⟨hmid, _, hright⟩ := List.nodup_append.mp hrest
  have hmidlen : ((blocks.drop i).take n).length = n := by
    simp only [List.length_take, List.length_drop]
    omega
  have htail : k * blocks.length = k * i + (k * n + k * (blocks.length - (i + n))) := by
    rw [← Nat.mul_add, ← Nat.mul_add]
    congr 1
    omega
  have hgather : ∀ e : ι → Fin k → α, gather e blocks = gather e (blocks.take i) ++
      (gather e ((blocks.drop i).take n) ++ gather e (blocks.drop (i + n))) := by
    intro e
    rw [← gather_append, ← gather_append, ← hsplit]
  calc gather (scatter d ((blocks.drop i).take n) buf) blocks
      = gather d (blocks.take i) ++ (buf ++ gather d (blocks.drop (i + n))) := by
        rw [hgather, gather_scatter d hmid (by rw [hlen, hmidlen]),
          gather_scatter_of_disjoint d buf fun s hs hs' => hleft s hs s (List.mem_append_left _ hs') rfl,
          gather_scatter_of_disjoint d buf fun s hs hs' => hright s hs' s hs rfl]
    _ = overwrite (gather d blocks) (k * i) buf := by
        rw [overwrite, gather_take, gather_drop, length_gather, hlen, Nat.mul_add,
          List.take_of_length_le (l := buf) (by omega)]

end

end Nachos.Library
