import Mathlib

/-! # Computations with a log

A computation that may fail and that notes what it touches. The log is kept when the
computation fails. `Returns P Q x` is the triple for total correctness of `x`: it returns,
what it returns meets `Q`, and all it has noted meets `P`. -/

namespace Nachos.Library

structure Logged (ε ι α : Type) where
  result : Except ε α
  events : List ι

namespace Logged

variable {ε ι κ α β : Type}

def bind (x : Logged ε ι α) (f : α → Logged ε ι β) : Logged ε ι β :=
  match x.result with
  | .ok a => ⟨(f a).result, x.events ++ (f a).events⟩
  | .error e => ⟨.error e, x.events⟩

instance : Monad (Logged ε ι) where
  pure a := ⟨.ok a, []⟩
  bind := bind

def log (i : ι) : Logged ε ι Unit := ⟨.ok (), [i]⟩

/-- A computation that touches nothing worth noting. -/
def lift (x : Except ε α) : Logged ε ι α := ⟨x, []⟩

/-- The same computation under other names. -/
def relabel (g : ι → κ) (x : Logged ε ι α) : Logged ε κ α := ⟨x.result, x.events.map g⟩

/-! ## Forgetting the log -/

@[simp] theorem result_pure (a : α) : (pure a : Logged ε ι α).result = .ok a := rfl

@[simp] theorem result_log (i : ι) : (log i : Logged ε ι Unit).result = .ok () := rfl

@[simp] theorem result_lift (x : Except ε α) : (lift x : Logged ε ι α).result = x := rfl

@[simp] theorem result_relabel (g : ι → κ) (x : Logged ε ι α) :
    (relabel g x).result = x.result := rfl

@[simp] theorem result_bind (x : Logged ε ι α) (f : α → Logged ε ι β) :
    (x >>= f).result = x.result >>= fun a => (f a).result := by
  change (bind x f).result = _
  rw [bind]
  cases x.result with
  | error e => rfl
  | ok a => rfl

/-! ## The rules for triples -/

def Returns (P : ι → Prop) (Q : α → Prop) (x : Logged ε ι α) : Prop :=
  (∃ a, x.result = .ok a ∧ Q a) ∧ ∀ i ∈ x.events, P i

variable {P P' : ι → Prop} {Q Q' : α → Prop}

theorem Returns.mono {x : Logged ε ι α} (h : Returns P Q x) (hP : ∀ i, P i → P' i)
    (hQ : ∀ a, Q a → Q' a) : Returns P' Q' x := by
  obtain ⟨⟨a, ha, hq⟩, hall⟩ := h
  exact ⟨⟨a, ha, hQ a hq⟩, fun i hi => hP i (hall i hi)⟩

@[simp] theorem returns_pure {a : α} : Returns P Q (pure a : Logged ε ι α) ↔ Q a := by
  constructor
  · rintro ⟨⟨b, hb, hq⟩, _⟩
    cases hb
    exact hq
  · intro hq
    exact ⟨⟨a, rfl, hq⟩, by rintro i ⟨⟩⟩

@[simp] theorem returns_log {i : ι} {Q : Unit → Prop} :
    Returns P Q (log i : Logged ε ι Unit) ↔ P i ∧ Q () := by
  constructor
  · rintro ⟨⟨_, _, hq⟩, hP⟩
    exact ⟨hP i (by simp [log]), hq⟩
  · rintro ⟨hP, hq⟩
    exact ⟨⟨(), rfl, hq⟩, by simpa [log] using hP⟩

@[simp] theorem returns_lift {x : Except ε α} :
    Returns P Q (lift x : Logged ε ι α) ↔ ∃ a, x = .ok a ∧ Q a := by
  constructor
  · exact And.left
  · intro h
    exact ⟨h, by rintro i ⟨⟩⟩

@[simp] theorem returns_relabel {g : κ → ι} {x : Logged ε κ α} :
    Returns P Q (relabel g x) ↔ Returns (fun k => P (g k)) Q x := by
  simp [Returns, relabel]

@[simp] theorem returns_bind {x : Logged ε ι α} {f : α → Logged ε ι β} {Q : β → Prop} :
    Returns P Q (x >>= f) ↔ Returns P (fun a => Returns P Q (f a)) x := by
  change Returns P Q (bind x f) ↔ _
  rw [bind]
  cases hx : x.result with
  | error e => simp [Returns, hx]
  | ok a =>
      simp only [Returns, hx, Except.ok.injEq, exists_eq_left', List.mem_append]
      constructor
      · rintro ⟨hr, hP⟩
        exact ⟨⟨hr, fun i hi => hP i (.inr hi)⟩, fun i hi => hP i (.inl hi)⟩
      · rintro ⟨⟨hr, hP⟩, hP'⟩
        exact ⟨hr, fun i hi => hi.elim (hP' i) (hP i)⟩

end Logged

end Nachos.Library
