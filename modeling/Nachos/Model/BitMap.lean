import Nachos.Model.Basic

/-! # Bit maps

`bitmap.cc`: an array of words, of which bit `which % BitsInWord` of word
`which / BitsInWord` stands for item `which`. -/

namespace Nachos

abbrev BitsInByte : ℕ := 8

abbrev BitsInWord : ℕ := 32

/-- `divRoundUp(numBits, BitsInWord)` -/
def numWords (numBits : ℕ) : ℕ :=
  numBits / BitsInWord + if numBits % BitsInWord > 0 then 1 else 0

theorem div_lt_numWords {numBits i : ℕ} (h : i < numBits) : i / BitsInWord < numWords numBits := by
  unfold numWords BitsInWord
  split <;> omega

structure BitMap (numBits : ℕ) where
  map : Fin (numWords numBits) → Word

namespace BitMap

variable {numBits : ℕ}

def wordOf (which : Fin numBits) : Fin (numWords numBits) :=
  ⟨which / BitsInWord, div_lt_numWords which.isLt⟩

/-- `1 << (which % BitsInWord)` -/
def mask (which : Fin numBits) : Word := 1#32 <<< (which.val % BitsInWord)

/-! ## The operations on an item in range -/

def testBit (bm : BitMap numBits) (which : Fin numBits) : Bool :=
  (bm.map (wordOf which) &&& mask which) != 0

def markBit (bm : BitMap numBits) (which : Fin numBits) : BitMap numBits :=
  ⟨Function.update bm.map (wordOf which) (bm.map (wordOf which) ||| mask which)⟩

def clearBit (bm : BitMap numBits) (which : Fin numBits) : BitMap numBits :=
  ⟨Function.update bm.map (wordOf which) (bm.map (wordOf which) &&& ~~~(mask which))⟩

/-! ## The public operations -/

/-- The constructor clears the bits one by one; `uninit` is what `new` returned. -/
def new (uninit : BitMap numBits) : BitMap numBits :=
  (List.finRange numBits).foldl clearBit uninit

/-- `ASSERT(which >= 0 && which < numBits)` -/
def item (which : ℤ) : Exec (Fin numBits) :=
  if h : 0 ≤ which ∧ which < numBits then .ok ⟨which.toNat, by omega⟩ else .error .assertion

def mark (bm : BitMap numBits) (which : ℤ) : Exec (BitMap numBits) := do
  return bm.markBit (← item which)

def clear (bm : BitMap numBits) (which : ℤ) : Exec (BitMap numBits) := do
  return bm.clearBit (← item which)

def test (bm : BitMap numBits) (which : ℤ) : Exec Bool := do
  return bm.testBit (← item which)

/-- The first clear bit, which is marked, or -1. -/
def find (bm : BitMap numBits) : ℤ × BitMap numBits :=
  match (List.finRange numBits).find? fun i => !bm.testBit i with
  | some i => ((i : ℕ), bm.markBit i)
  | none => (-1, bm)

def numClear (bm : BitMap numBits) : ℕ :=
  (List.finRange numBits).countP fun i => !bm.testBit i

/-- The results of `k` calls of `Find` in a row. -/
def findSeq : ℕ → BitMap numBits → List ℤ × BitMap numBits
  | 0, bm => ([], bm)
  | k + 1, bm =>
      let found := bm.find
      let rest := findSeq k found.2
      (found.1 :: rest.1, rest.2)

end BitMap

end Nachos
