import Mathlib

/-! # Calls that may fail

A call that may fail is a value of `Except ε α`. The lemmas below take a sequence
of such calls apart, whichever way its first call went. -/

namespace Nachos.Library

universe u v

variable {ε : Type u} {α β : Type v}

@[simp] theorem ok_bind (a : α) (f : α → Except ε β) :
    ((Except.ok a : Except ε α) >>= f) = f a := rfl

@[simp] theorem error_bind (e : ε) (f : α → Except ε β) :
    ((Except.error e : Except ε α) >>= f) = .error e := rfl

@[simp] theorem pure_eq_ok (a : α) : (pure a : Except ε α) = .ok a := rfl

/-- A sequence returns exactly when both of its calls do. -/
theorem bind_eq_ok {x : Except ε α} {f : α → Except ε β} {b : β} :
    (x >>= f) = .ok b ↔ ∃ a, x = .ok a ∧ f a = .ok b := by
  cases x with
  | error e => simp
  | ok a => simp

/-- A sequence fails with `e` only if one of its calls does. -/
theorem bind_ne_error {x : Except ε α} {f : α → Except ε β} {e : ε} (hx : x ≠ .error e)
    (hf : ∀ a, x = .ok a → f a ≠ .error e) : (x >>= f) ≠ .error e := by
  cases x with
  | error e' => simpa using hx
  | ok a => exact hf a rfl

/-- What the call for each item preserves holds at the end, of all items. -/
theorem foldlM_invariant {f : β → α → Except ε β} {l : List α} {I : List α → β → Prop}
    (hstep : ∀ done a rest b b', l = done ++ a :: rest → I done b → f b a = .ok b' →
      I (done ++ [a]) b') {b b' : β} (h : l.foldlM f b = .ok b') (hb : I [] b) : I l b' := by
  suffices H : ∀ done rest b, l = done ++ rest → rest.foldlM f b = .ok b' → I done b → I l b' from
    H [] l b rfl h hb
  intro done rest
  induction rest generalizing done with
  | nil =>
      intro b hl h hb
      rw [List.append_nil] at hl
      rw [hl, ← Except.ok.inj h]
      exact hb
  | cons a rest ih =>
      intro b hl h hb
      rw [List.foldlM_cons] at h
      obtain ⟨c, hc, h⟩ := bind_eq_ok.mp h
      exact ih (done ++ [a]) c (by simpa using hl) h (hstep done a rest b c hl hb hc)

/-- A call on each item of a list, all of which return. -/
theorem mapM_eq_ok {f : α → Except ε β} {g : α → β} {items : List α}
    (h : ∀ a ∈ items, f a = .ok (g a)) : items.mapM f = .ok (items.map g) := by
  induction items with
  | nil => rfl
  | cons a items ih =>
      rw [List.mapM_cons, h a List.mem_cons_self, ok_bind,
        ih fun b hb => h b (List.mem_cons_of_mem a hb)]
      rfl

end Nachos.Library
