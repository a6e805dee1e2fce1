import Nachos.Library.Transition
import Nachos.Verification.Directory.Correctness

/-! # Directories refine maps

A directory is a map from names, as far as they are compared, to sectors. -/

namespace Nachos.Directory

open Library

variable {tableSize : ℕ} {dir dir' : Directory tableSize}

/-! ## Calls -/

/-- A call; a sector is an `int` that is not negative. -/
inductive Call where
  | add (name : List Byte) (newSector : Fin (2 ^ 31))
  | remove (name : List Byte)
  | find (name : List Byte)

inductive Answer where
  | bool (b : Bool)
  | int (n : ℤ)
  deriving DecidableEq, Repr

def call (dir : Directory tableSize) : Call → Answer × Directory tableSize
  | .add name newSector => ((dir.add name (newSector : ℕ)).map .bool id)
  | .remove name => (dir.remove name).map .bool id
  | .find name => (.int (dir.find name), dir)

/-- Sequences of calls on a fresh directory. -/
def system (tableSize : ℕ) : System (Directory tableSize) Call Answer where
  init dir := ∃ uninit, dir = new uninit
  step dir c a dir' := dir.call c = (a, dir')

/-! ## Maps -/

/-- The sectors of the names after one more call. -/
def record (m : List Byte → Option ℤ) : Call × Answer → List Byte → Option ℤ
  | (.add name newSector, .bool true) => Function.update m (fileKey name) (some (newSector : ℕ))
  | (.remove name, .bool true) => Function.update m (fileKey name) none
  | _ => m

/-- The sector of the last successful `Add` of a name that has not been removed since. -/
def added (trace : List (Call × Answer)) : List Byte → Option ℤ :=
  trace.foldl record fun _ => none

/-- The entries in use are those of the map. -/
structure Represents (dir : Directory tableSize) (m : List Byte → Option ℤ) : Prop where
  distinct : dir.DistinctNames
  lookup : ∀ name sector, m (fileKey name) = some sector ↔
    ∃ i, dir.Holds name i ∧ (dir.table i).sector.toInt = sector

variable {m : List Byte → Option ℤ} {name : List Byte} {i : Fin tableSize} {e : DirectoryEntry}

theorem represents_new (uninit : Fin tableSize → DirectoryEntry) :
    Represents (new uninit) fun _ => none where
  distinct _ _ hi := absurd rfl hi
  lookup _ _ := ⟨nofun, fun ⟨_, hi, _⟩ => absurd rfl hi.1⟩

theorem add_of_false {newSector : ℤ} (h : (dir.add name newSector).1 = false) :
    (dir.add name newSector).2 = dir := by
  unfold add at h ⊢
  split at h
  · rfl
  · split at h
    · cases h
    · rfl

theorem remove_of_none (h : dir.findIndex name = none) : dir.remove name = (false, dir) := by
  rw [remove, h]

theorem toInt_sector (newSector : Fin (2 ^ 31)) :
    (Word.ofInt (newSector : ℕ)).toInt = (newSector : ℕ) :=
  toInt_ofInt (by omega) (by omega)

/-- Names that are neither in the old nor in the new entry are found as before. -/
theorem lookup_setEntry (hi : ¬ dir.Holds name i) (he : e.inUse = 0 ∨ e.key ≠ fileKey name)
    (sector : ℤ) :
    (∃ j, (dir.setEntry i e).Holds name j ∧ ((dir.setEntry i e).table j).sector.toInt = sector) ↔
      ∃ j, dir.Holds name j ∧ (dir.table j).sector.toInt = sector := by
  refine exists_congr fun j => ?_
  rw [holds_setEntry hi he]
  refine and_congr_right fun hj => ?_
  have hji : j ≠ i := by
    rintro rfl
    exact hi hj
  rw [setEntry_of_ne _ hji]

namespace Represents

theorem holds_iff (h : Represents dir m) (name : List Byte) :
    (∃ i, dir.Holds name i) ↔ m (fileKey name) ≠ none := by
  rw [Option.ne_none_iff_exists']
  constructor
  · rintro ⟨i, hi⟩
    exact ⟨_, (h.lookup name _).mpr ⟨i, hi, rfl⟩⟩
  · rintro ⟨sector, hs⟩
    obtain ⟨i, hi, -⟩ := (h.lookup name sector).mp hs
    exact ⟨i, hi⟩

theorem absent_iff (h : Represents dir m) (name : List Byte) :
    (∀ i, ¬ dir.Holds name i) ↔ m (fileKey name) = none := by
  rw [← not_exists, h.holds_iff, not_not]

theorem find_eq (h : Represents dir m) (name : List Byte) :
    dir.find name = (m (fileKey name)).getD (-1) := by
  unfold find
  cases hf : dir.findIndex name with
  | none =>
      rw [(h.absent_iff name).mp (findIndex_eq_none.mp hf)]
      rfl
  | some i =>
      rw [(h.lookup name _).mpr ⟨i, holds_of_findIndex hf, rfl⟩]
      rfl

/-- One entry takes a new name. -/
theorem setEntry_new (h : Represents dir m) (habsent : ∀ j, ¬ dir.Holds name j)
    (hi : (dir.table i).inUse = 0) (huse : e.inUse ≠ 0) (hkey : e.key = fileKey name) {sector : ℤ}
    (hs : e.sector.toInt = sector) :
    Represents (dir.setEntry i e) (Function.update m (fileKey name) (some sector)) where
  distinct := h.distinct.setEntry_new habsent hkey
  lookup other s := by
    have hself : (dir.setEntry i e).Holds name i := by
      rw [Holds, setEntry_self]
      exact ⟨huse, hkey⟩
    by_cases heq : fileKey other = fileKey name
    · rw [heq, Function.update_self, Option.some.injEq]
      constructor
      · rintro rfl
        refine ⟨i, ?_, by rw [setEntry_self, hs]⟩
        rw [Holds, heq]
        exact hself
      · rintro ⟨j, hj, hjs⟩
        have hji : j = i := by
          by_contra hne
          rw [Holds, setEntry_of_ne _ hne, heq] at hj
          exact habsent j hj
        rw [hji, setEntry_self, hs] at hjs
        exact hjs
    · rw [Function.update_of_ne heq, h.lookup, lookup_setEntry (fun hold => hold.1 hi)
        (.inr fun hk => heq (hk.symm.trans hkey))]

/-- The entry of a name becomes unused. -/
theorem setEntry_unused (h : Represents dir m) (hi : dir.Holds name i) (he : e.inUse = 0) :
    Represents (dir.setEntry i e) (Function.update m (fileKey name) none) where
  distinct := h.distinct.setEntry_unused he
  lookup other s := by
    by_cases heq : fileKey other = fileKey name
    · rw [heq, Function.update_self]
      refine iff_of_false nofun ?_
      rintro ⟨j, hj, -⟩
      by_cases hji : j = i
      · rw [hji, Holds, setEntry_self] at hj
        exact hj.1 he
      · rw [Holds, setEntry_of_ne _ hji] at hj
        exact hji (h.distinct j i hj.1 hi.1 (hj.2.trans (heq.trans hi.2.symm)))
    · rw [Function.update_of_ne heq, h.lookup,
        lookup_setEntry (fun hold => heq (hold.2.symm.trans hi.2)) (.inl he)]

/-! ## Steps and runs -/

theorem step (h : Represents dir m) {c : Call} {a : Answer}
    (hstep : (system tableSize).step dir c a dir') : Represents dir' (record m (c, a)) := by
  obtain ⟨rfl, rfl⟩ := Prod.mk.inj hstep.symm
  cases c with
  | add name newSector =>
      change Represents (dir.add name (newSector : ℕ)).2
        (record m (.add name newSector, .bool (dir.add name (newSector : ℕ)).1))
      cases hadd : (dir.add name (newSector : ℕ)).1 with
      | false =>
          rw [add_of_false hadd]
          exact h
      | true =>
          obtain ⟨i, habsent, hi, heq⟩ := add_eq_true hadd
          rw [heq]
          exact h.setEntry_new habsent hi (by decide : (1 : Byte) ≠ 0) (key_newEntry _ _ _)
            (toInt_sector newSector)
  | remove name =>
      change Represents (dir.remove name).2 (record m (.remove name, .bool (dir.remove name).1))
      cases hf : dir.findIndex name with
      | none =>
          rw [remove_of_none hf]
          exact h
      | some i =>
          obtain ⟨e, he, heq⟩ := remove_eq hf
          rw [heq]
          exact h.setEntry_unused (holds_of_findIndex hf) he
  | find name => exact h

theorem run {dir₀ : Directory tableSize} {trace : List (Call × Answer)}
    (hinit : (system tableSize).init dir₀) (hrun : (system tableSize).Run dir₀ trace dir) :
    Represents dir (added trace) := by
  induction hrun with
  | nil =>
      obtain ⟨uninit, rfl⟩ := hinit
      exact represents_new uninit
  | snoc _ hstep ih =>
      rw [added, List.foldl_append]
      exact ih.step hstep

end Represents

/-! ## The operations -/

/-- One entry is changed. -/
def ChangesOne (dir dir' : Directory tableSize) (i : Fin tableSize) : Prop :=
  ∀ j, j ≠ i → dir'.table j = dir.table j

/-- What the operations do to a directory with these names. -/
structure Specified (dir : Directory tableSize) (m : List Byte → Option ℤ) : Prop where
  distinct : ∀ i j, (dir.table i).inUse ≠ 0 → (dir.table j).inUse ≠ 0 →
    strncmp (List.ofFn (dir.table i).name) (List.ofFn (dir.table j).name) FileNameMaxLen = 0 → i = j
  find : ∀ name, dir.find name = (m (fileKey name)).getD (-1)
  add : ∀ name (newSector : Fin (2 ^ 31)), (dir.add name (newSector : ℕ)).1 = true ↔
    m (fileKey name) = none ∧ ∃ i, (dir.table i).inUse = 0
  added : ∀ name (newSector : Fin (2 ^ 31)), (dir.add name (newSector : ℕ)).1 = true →
    ∃ i, (dir.table i).inUse = 0 ∧ ((dir.add name (newSector : ℕ)).2.table i).inUse ≠ 0 ∧
      ChangesOne dir (dir.add name (newSector : ℕ)).2 i
  remove : ∀ name, (dir.remove name).1 = true ↔ m (fileKey name) ≠ none
  removed : ∀ name, (dir.remove name).1 = true →
    (∃ i, (dir.table i).inUse ≠ 0 ∧ ((dir.remove name).2.table i).inUse = 0 ∧
      ChangesOne dir (dir.remove name).2 i) ∧
    ∀ other, fileKey other ≠ fileKey name → (dir.remove name).2.find other = dir.find other
  failed : ∀ name (newSector : Fin (2 ^ 31)),
    ((dir.add name (newSector : ℕ)).1 = false → (dir.add name (newSector : ℕ)).2 = dir) ∧
    ((dir.remove name).1 = false → (dir.remove name).2 = dir)

theorem Represents.specified (h : Represents dir m) : Specified dir m where
  distinct i j hi hj hcmp := h.distinct i j hi hj ((strncmp_eq_zero_iff _ _ _).mp hcmp)
  find := h.find_eq
  add name newSector := by
    rw [← h.absent_iff]
    constructor
    · intro hadd
      obtain ⟨i, habsent, hi, -⟩ := add_eq_true hadd
      exact ⟨habsent, i, hi⟩
    · rintro ⟨habsent, i, hi⟩
      exact add_succeeds habsent hi _
  added name newSector hadd := by
    obtain ⟨i, -, hi, heq⟩ := add_eq_true hadd
    rw [heq]
    refine ⟨i, hi, ?_, fun j hj => setEntry_of_ne _ hj _⟩
    rw [setEntry_self]
    exact (by decide : (1 : Byte) ≠ 0)
  remove name := by
    rw [← h.holds_iff]
    cases hf : dir.findIndex name with
    | none =>
        rw [remove_of_none hf]
        exact iff_of_false nofun (not_exists.mpr (findIndex_eq_none.mp hf))
    | some i =>
        obtain ⟨e, -, heq⟩ := remove_eq hf
        rw [heq]
        exact iff_of_true rfl ⟨i, holds_of_findIndex hf⟩
  removed name hremove := by
    cases hf : dir.findIndex name with
    | none =>
        rw [remove_of_none hf] at hremove
        cases hremove
    | some i =>
        obtain ⟨e, he, heq⟩ := remove_eq hf
        have hi := holds_of_findIndex hf
        rw [heq]
        refine ⟨⟨i, hi.1, ?_, fun j hj => setEntry_of_ne _ hj _⟩, fun other hother => ?_⟩
        · rw [setEntry_self, he]
        · rw [(h.setEntry_unused hi he).find_eq, h.find_eq, Function.update_of_ne hother]
  failed name newSector := by
    refine ⟨add_of_false, fun hremove => ?_⟩
    cases hf : dir.findIndex name with
    | none => rw [remove_of_none hf]
    | some i =>
        obtain ⟨e, -, heq⟩ := remove_eq hf
        rw [heq] at hremove
        cases hremove

/-- Whatever has been called, the directory is the map of the names added and not removed. -/
theorem directory_refines_map {dir₀ : Directory tableSize} {trace : List (Call × Answer)}
    (hinit : (system tableSize).init dir₀) (hrun : (system tableSize).Run dir₀ trace dir) :
    Specified dir (added trace) :=
  (Represents.run hinit hrun).specified

/-- A directory of one entry. -/
def sample : Directory 1 := new fun _ => ⟨0, 7, fun _ => 7, 7, fun _ => 7⟩

/-- Names that agree in their first characters are the same. -/
theorem directory_refines_map_sample :
    let name : List Byte := List.replicate 11 65
    ∃ dir, (system 1).Run sample [(.add (name ++ [66]) 5, .bool true)] dir ∧
      dir.find (name ++ [67]) = 5 ∧ Specified dir (added [(.add (name ++ [66]) 5, .bool true)]) := by
  intro name
  have hadd : (sample.add (name ++ [66]) 5).1 = true := by decide +kernel
  have hstep : (system 1).step sample (.add (name ++ [66]) 5) (.bool true)
      (sample.add (name ++ [66]) 5).2 :=
    congrArg (fun b => (Answer.bool b, (sample.add (name ++ [66]) 5).2)) hadd
  have hrun := (System.Run.nil sample).snoc hstep
  exact ⟨_, hrun, by decide +kernel, directory_refines_map ⟨_, rfl⟩ hrun⟩

end Nachos.Directory
