import Nachos.Library.Fallible
import Nachos.Library.Layout

/-! # Machine integers and failing calls

An `int` is modelled by an integer that every operation which may overflow wraps to
32 bits; an `int` stored in a record is a `Word`. A `char` is signed. -/

namespace Nachos

abbrev Byte := BitVec 8

abbrev Word := BitVec 32

/-- The ways in which a call fails to return. -/
inductive Fault where
  /-- an `ASSERT` fires and the simulator aborts -/
  | assertion
  /-- an array is accessed outside of its bounds -/
  | bounds
  /-- `new` is asked for a negative number of elements -/
  | badAlloc
  /-- a variable is read that was never set -/
  | uninitialized
  /-- a signed sum that is not computed modulo anything leaves the range of `int` -/
  | overflow
  deriving DecidableEq, Repr

abbrev Exec := Except Fault

/-- `ASSERT(condition)` -/
def assert (condition : Prop) [Decidable condition] : Exec Unit :=
  if condition then .ok () else .error .assertion

@[simp] theorem assert_of_true {p : Prop} [Decidable p] (h : p) : assert p = .ok () := by
  simp [assert, h]

@[simp] theorem assert_of_false {p : Prop} [Decidable p] (h : ¬ p) :
    assert p = .error .assertion := by
  simp [assert, h]

theorem of_assert {p : Prop} [Decidable p] {u : Unit} (h : assert p = .ok u) : p := by
  by_contra hp
  rw [assert_of_false hp] at h
  cases h

/-- What the test of an index says of the index. -/
theorem toNat_lt_of_index {n : ℕ} {i : ℤ} (h : 0 ≤ i ∧ i < n) : i.toNat < n := by omega

/-- The value of an `int` after wrap-around. -/
def i32 (x : ℤ) : ℤ := x.bmod (2 ^ 32)

/-- A sum that is undefined if it overflows. -/
def add32 (x y : ℤ) : Exec ℤ :=
  if -2 ^ 31 ≤ x + y ∧ x + y < 2 ^ 31 then .ok (x + y) else .error .overflow

theorem add32_eq_ok {x y z : ℤ} (h : add32 x y = .ok z) : z = x + y := by
  unfold add32 at h
  split at h
  · exact (Except.ok.inj h).symm
  · cases h

theorem add32_ne_assertion (x y : ℤ) : add32 x y ≠ .error .assertion := by
  unfold add32
  split <;> simp

/-- The value of an `int` converted to `unsigned int`. -/
def u32 (x : ℤ) : ℤ := x % 2 ^ 32

theorem i32_of_range {x : ℤ} (hlo : -2 ^ 31 ≤ x) (hhi : x < 2 ^ 31) : i32 x = x := by
  apply Int.bmod_eq_of_le <;> omega

theorem i32_of_ge {x : ℤ} (hlo : 2 ^ 31 ≤ x) (hhi : x < 2 ^ 32) : i32 x = x - 2 ^ 32 := by
  rw [i32, Int.bmod_def]
  split <;> omega

theorem u32_of_range {x : ℤ} (hlo : 0 ≤ x) (hhi : x < 2 ^ 32) : u32 x = x :=
  Int.emod_eq_of_lt hlo hhi

def Word.ofInt (x : ℤ) : Word := BitVec.ofInt 32 x

theorem toInt_ofInt {x : ℤ} (hlo : -2 ^ 31 ≤ x) (hhi : x < 2 ^ 31) :
    (Word.ofInt x).toInt = x := by
  rw [Word.ofInt, BitVec.toInt_ofInt]
  exact i32_of_range hlo hhi

def divRoundDown (n s : ℤ) : ℤ := n.tdiv s

def divRoundUp (n s : ℤ) : ℤ := n.tdiv s + if n.tmod s > 0 then 1 else 0

theorem divRoundDown_natCast (n s : ℕ) : divRoundDown n s = (n / s : ℕ) :=
  (Int.ofNat_tdiv n s).symm

/-- Pages and sectors are both 128 bytes long. -/
theorem divRoundUp_natCast (n : ℕ) : divRoundUp n (128 : ℕ) = ((n + 127) / 128 : ℕ) := by
  rw [divRoundUp, ← Int.ofNat_tdiv, ← Int.ofNat_tmod]
  split <;> omega

end Nachos
