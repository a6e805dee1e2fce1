import Mathlib

/-! # Overwriting a range of an array

The array never grows: what does not fit behind the last element is dropped. -/

namespace Nachos.Library

variable {α : Type*}

/-- Replace the elements of `xs` from `pos` on by those of `ys`, as far as they fit. -/
def overwrite (xs : List α) (pos : ℕ) (ys : List α) : List α :=
  xs.take pos ++ (ys.take (xs.length - pos) ++ xs.drop (pos + ys.length))

@[simp] theorem length_overwrite (xs : List α) (pos : ℕ) (ys : List α) :
    (overwrite xs pos ys).length = xs.length := by
  simp only [overwrite, List.length_append, List.length_take, List.length_drop]
  omega

theorem getElem?_overwrite_of_lt {xs : List α} {pos j : ℕ} (ys : List α) (h : j < pos) :
    (overwrite xs pos ys)[j]? = xs[j]? := by
  unfold overwrite
  by_cases hj : j < xs.length
  · rw [List.getElem?_append_left (by simp; omega), List.getElem?_take, if_pos h]
  · have hx : xs[j]? = none := List.getElem?_eq_none (by omega)
    rw [hx, ← List.append_assoc]
    apply List.getElem?_eq_none
    simp only [List.length_append, List.length_take, List.length_drop]
    omega

theorem getElem?_overwrite_of_mem {xs ys : List α} {pos j : ℕ} (h : pos ≤ j)
    (hj : j < pos + ys.length) (hx : j < xs.length) :
    (overwrite xs pos ys)[j]? = ys[j - pos]? := by
  unfold overwrite
  have htake : (xs.take pos).length = pos := by simp; omega
  rw [List.getElem?_append_right (by omega), htake,
    List.getElem?_append_left (by simp; omega), List.getElem?_take, if_pos (by omega)]

theorem getElem?_overwrite_of_ge {xs ys : List α} {pos j : ℕ} (h : pos + ys.length ≤ j) :
    (overwrite xs pos ys)[j]? = xs[j]? := by
  by_cases hj : j < xs.length
  · unfold overwrite
    have htake : (xs.take pos).length = pos := by simp; omega
    have hys : (ys.take (xs.length - pos)).length = ys.length := by simp; omega
    rw [List.getElem?_append_right (by omega), htake,
      List.getElem?_append_right (by omega), hys, List.getElem?_drop]
    congr 1
    omega
  · rw [List.getElem?_eq_none (by simp; omega), List.getElem?_eq_none (by omega)]

/-- Inside the range the new elements stand, outside of it the old ones. -/
theorem getElem?_overwrite (xs : List α) (pos : ℕ) (ys : List α) (j : ℕ) :
    (overwrite xs pos ys)[j]? =
      if pos ≤ j ∧ j < pos + ys.length ∧ j < xs.length then ys[j - pos]? else xs[j]? := by
  split
  · rename_i h
    exact getElem?_overwrite_of_mem h.1 h.2.1 h.2.2
  · rename_i h
    by_cases hlt : j < pos
    · exact getElem?_overwrite_of_lt ys hlt
    · by_cases hge : pos + ys.length ≤ j
      · exact getElem?_overwrite_of_ge hge
      · rw [List.getElem?_eq_none (by simp; omega), List.getElem?_eq_none (by omega)]

@[simp] theorem overwrite_nil (xs : List α) (pos : ℕ) : overwrite xs pos [] = xs := by
  simp [overwrite]

/-- Writing behind the last element changes nothing. -/
theorem overwrite_of_length_le {xs : List α} {pos : ℕ} (ys : List α) (h : xs.length ≤ pos) :
    overwrite xs pos ys = xs := by
  apply List.ext_getElem?
  intro j
  rw [getElem?_overwrite, if_neg (by omega)]

/-- Two writes, the second of which starts where the first ends, are one write. -/
theorem overwrite_append (xs : List α) (pos : ℕ) (ys zs : List α) :
    overwrite (overwrite xs pos ys) (pos + ys.length) zs = overwrite xs pos (ys ++ zs) := by
  apply List.ext_getElem?
  intro j
  simp only [getElem?_overwrite, length_overwrite, List.length_append]
  by_cases hz : pos + ys.length ≤ j
  · by_cases hj : j < pos + (ys.length + zs.length) ∧ j < xs.length
    · rw [if_pos (by omega), if_pos (by omega), List.getElem?_append_right (by omega)]
      congr 1
      omega
    · rw [if_neg (by omega), if_neg (by omega), if_neg (by omega)]
  · rw [if_neg (by omega)]
    by_cases hj : pos ≤ j ∧ j < xs.length
    · rw [if_pos (by omega), if_pos (by omega), List.getElem?_append_left (by omega)]
    · rw [if_neg (by omega), if_neg (by omega)]

/-- Only the part of the data that fits is written. -/
theorem overwrite_take (xs : List α) (pos : ℕ) (ys : List α) :
    overwrite xs pos (ys.take (xs.length - pos)) = overwrite xs pos ys := by
  apply List.ext_getElem?
  intro j
  simp only [getElem?_overwrite, List.length_take, List.getElem?_take]
  by_cases h : pos ≤ j ∧ j < pos + ys.length ∧ j < xs.length
  · rw [if_pos (by omega), if_pos h, if_pos (by omega)]
  · rw [if_neg (by omega), if_neg h]

/-- A write of `ys` at `pos` done by a larger write of `buf` at `a`, the rest of which
puts back what the first `len` elements held before. -/
theorem take_overwrite_of_agree {xs buf ys : List α} {a pos len : ℕ}
    (hin : ∀ j, pos ≤ j → j < pos + ys.length → j < len → j < xs.length →
      a ≤ j ∧ j < a + buf.length ∧ buf[j - a]? = ys[j - pos]?)
    (hout : ∀ j, a ≤ j → j < a + buf.length → j < len → j < pos ∨ pos + ys.length ≤ j →
      buf[j - a]? = xs[j]?) :
    (overwrite xs a buf).take len = overwrite (xs.take len) pos ys := by
  apply List.ext_getElem?
  intro j
  rw [List.getElem?_take, getElem?_overwrite, getElem?_overwrite, List.length_take,
    List.getElem?_take]
  by_cases hj : j < len
  · rw [if_pos hj, if_pos hj]
    by_cases hys : pos ≤ j ∧ j < pos + ys.length ∧ j < xs.length
    · obtain ⟨ha, hb, he⟩ := hin j hys.1 hys.2.1 hj hys.2.2
      rw [if_pos ⟨ha, hb, hys.2.2⟩, if_pos (by omega), he]
    · have hout' : ¬ (pos ≤ j ∧ j < pos + ys.length ∧ j < min len xs.length) := by omega
      rw [if_neg hout']
      split
      · rename_i hbuf
        exact hout j hbuf.1 hbuf.2.1 hj (by omega)
      · rfl
  · rw [if_neg hj, if_neg hj, if_neg (by omega)]

/-! ## An array with a cursor -/

/-- An array and the position at which the next transfer starts. -/
structure Cursor (α : Type*) where
  items : List α
  pos : ℕ

namespace Cursor

/-- How many of `n` elements a transfer at the cursor moves. -/
def room (c : Cursor α) (n : ℕ) : ℕ :=
  min n (c.items.length - c.pos)

/-- Write at the cursor and move it behind what was written. -/
def write (c : Cursor α) (ys : List α) : Cursor α :=
  ⟨overwrite c.items c.pos ys, c.pos + c.room ys.length⟩

@[simp] theorem length_items_write (c : Cursor α) (ys : List α) :
    (c.write ys).items.length = c.items.length := by
  simp [write]

theorem write_write (c : Cursor α) (ys zs : List α) :
    (c.write ys).write zs = c.write (ys ++ zs) := by
  by_cases hfit : c.pos + ys.length ≤ c.items.length
  · have hroom : c.room ys.length = ys.length := by simp only [room]; omega
    simp only [write]
    rw [hroom, overwrite_append]
    simp only [room, length_overwrite, List.length_append, Cursor.mk.injEq, true_and]
    omega
  · have hpos : c.items.length ≤ c.pos + c.room ys.length := by simp only [room]; omega
    have hsame : overwrite c.items c.pos ys = overwrite c.items c.pos (ys ++ zs) := by
      rw [← overwrite_take _ _ ys, ← overwrite_take _ _ (ys ++ zs),
        List.take_append_of_le_length (by omega)]
    simp only [write, room, length_overwrite, List.length_append]
    rw [overwrite_of_length_le _ (by simpa [room] using hpos), hsame]
    congr 1
    omega

theorem room_add_room (c : Cursor α) (ys zs : List α) :
    c.room ys.length + (c.write ys).room zs.length = c.room (ys ++ zs).length := by
  simp only [room, write, length_overwrite, List.length_append]
  omega

end Cursor

end Nachos.Library
