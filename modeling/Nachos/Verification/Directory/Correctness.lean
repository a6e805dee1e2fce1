import Nachos.Model.Session

/-! # Names and directory entries

Names count up to their first `FileNameMaxLen` characters. -/

namespace Nachos

/-! ## Comparing and copying names -/

theorem cstring_cons (x : Byte) (a : List Byte) :
    cstring (x :: a) = if x = 0 then [] else x :: cstring a := by
  rw [cstring, List.takeWhile_cons]
  split <;> split <;> simp_all [cstring]

theorem take_succ_cstring (a : List Byte) (n : ℕ) :
    (cstring a).take (n + 1) =
      if a.headD 0 = 0 then [] else a.headD 0 :: (cstring a.tail).take n := by
  cases a with
  | nil => rfl
  | cons x a =>
      rw [cstring_cons, List.headD_cons, List.tail_cons]
      split
      · rfl
      · rw [List.take_succ_cons]

theorem strncmp_eq_zero_iff (a b : List Byte) (n : ℕ) :
    strncmp a b n = 0 ↔ (cstring a).take n = (cstring b).take n := by
  induction n generalizing a b with
  | zero => simp [strncmp]
  | succ n ih =>
      simp only [strncmp, take_succ_cstring]
      by_cases hxy : a.headD 0 = b.headD 0
      · rw [if_neg (not_not.mpr hxy), hxy]
        split
        · simp only
        · rw [ih, List.cons.injEq, and_iff_right rfl]
      · have hne : (a.headD 0).toNat ≠ (b.headD 0).toNat := fun he => hxy (BitVec.eq_of_toNat_eq he)
        rw [if_pos hxy]
        refine iff_of_false (by omega) fun he => ?_
        split at he <;> split at he
        · simp_all only
        · exact List.cons_ne_nil _ _ he.symm
        · exact List.cons_ne_nil _ _ he
        · exact hxy (List.cons.inj he).1

/-- The characters of a name lie within the bytes that are compared. -/
theorem fileKey_eq_cstring_take (name : List Byte) :
    fileKey name = cstring (name.take FileNameMaxLen) := by
  unfold fileKey
  generalize FileNameMaxLen = n
  induction n generalizing name with
  | zero => rfl
  | succ n ih =>
      cases name with
      | nil => rfl
      | cons x name =>
          rw [cstring_cons, List.take_succ_cons, cstring_cons]
          split
          · rfl
          · rw [List.take_succ_cons, ih]

variable {s : List Byte}

theorem ne_zero_of_mem_cstring {x : Byte} (h : x ∈ cstring s) : x ≠ 0 := by
  simpa using List.mem_takeWhile_imp h

theorem cstring_append_zero (h : ∀ x ∈ s, x ≠ 0) (t : List Byte) : cstring (s ++ 0 :: t) = s := by
  induction s with
  | nil => exact cstring_cons 0 t
  | cons x s ih =>
      rw [List.cons_append, cstring_cons, if_neg (h x (by simp)),
        ih fun y hy => h y (by simp [hy])]

theorem cstring_of_ne_zero (h : ∀ x ∈ s, x ≠ 0) : cstring s = s :=
  List.takeWhile_eq_self_iff.mpr (by simpa using h)

/-- A name reads back from the entry it was copied to. -/
theorem fileKey_strncpy (dst : Fin (FileNameMaxLen + 1) → Byte) (name : List Byte) :
    fileKey (List.ofFn (strncpy dst name FileNameMaxLen)) = fileKey name := by
  have hkey : ∀ x ∈ fileKey name, x ≠ 0 := fun x hx =>
    ne_zero_of_mem_cstring (List.mem_of_mem_take hx)
  have hcopy : (List.ofFn (strncpy dst name FileNameMaxLen)).take FileNameMaxLen =
      fileKey name ++ List.replicate (FileNameMaxLen - (fileKey name).length) 0 := by
    apply List.ext_getElem
    · simp [fileKey]
    · intro j hj hj'
      simp only [List.length_take, List.length_ofFn] at hj
      rw [List.getElem_take, List.getElem_ofFn, strncpy, if_pos (by simpa using by omega),
        List.getElem_append]
      split
      · rename_i hlt
        simp only [fileKey, List.getElem_take]
        exact (List.getElem_eq_getD 0).symm
      · rename_i hge
        simp only [fileKey, List.length_take] at hge
        rw [List.getElem_replicate, List.getD_eq_default _ _ (show (cstring name).length ≤ j by omega)]
  rw [fileKey_eq_cstring_take, hcopy]
  cases FileNameMaxLen - (fileKey name).length with
  | zero => rw [List.replicate_zero, List.append_nil, cstring_of_ne_zero hkey]
  | succ m => exact cstring_append_zero hkey _

/-! ## Entries -/

/-- What an entry is found by. -/
def DirectoryEntry.key (e : DirectoryEntry) : List Byte := fileKey (List.ofFn e.name)

namespace Directory

variable {tableSize : ℕ} (dir : Directory tableSize)

/-- The entry `i` is in use for the name `name`. -/
def Holds (name : List Byte) (i : Fin tableSize) : Prop :=
  (dir.table i).inUse ≠ 0 ∧ (dir.table i).key = fileKey name

/-- No two entries in use have the same name. -/
def DistinctNames : Prop :=
  ∀ i j, (dir.table i).inUse ≠ 0 → (dir.table j).inUse ≠ 0 →
    (dir.table i).key = (dir.table j).key → i = j

theorem matchesAt_iff (name : List Byte) (i : Fin tableSize) :
    dir.matchesAt name i = true ↔ dir.Holds name i := by
  simp only [matchesAt, decide_eq_true_eq, strncmp_eq_zero_iff]
  rfl

variable {dir} {name : List Byte} {i : Fin tableSize} {e : DirectoryEntry}

theorem findIndex_eq_none : dir.findIndex name = none ↔ ∀ i, ¬ dir.Holds name i := by
  rw [findIndex, List.find?_eq_none]
  simp only [List.mem_finRange, true_implies, matchesAt_iff]

theorem holds_of_findIndex (h : dir.findIndex name = some i) : dir.Holds name i :=
  (dir.matchesAt_iff name i).mp (List.find?_some h)

theorem findIndex_of_holds (hd : dir.DistinctNames) (h : dir.Holds name i) :
    dir.findIndex name = some i := by
  cases hf : dir.findIndex name with
  | none => exact absurd h (findIndex_eq_none.mp hf i)
  | some j =>
      obtain ⟨hj, hkey⟩ := holds_of_findIndex hf
      rw [hd j i hj h.1 (hkey.trans h.2.symm)]

@[simp] theorem setEntry_self (dir : Directory tableSize) (i : Fin tableSize)
    (e : DirectoryEntry) : (dir.setEntry i e).table i = e :=
  Function.update_self ..

theorem setEntry_of_ne (dir : Directory tableSize) {j : Fin tableSize} (h : j ≠ i)
    (e : DirectoryEntry) : (dir.setEntry i e).table j = dir.table j :=
  Function.update_of_ne h ..

/-! ## The operations -/

theorem firstUnused_eq_some (h : dir.firstUnused = some i) : (dir.table i).inUse = 0 := by
  simpa using List.find?_some h

/-- What `Add` leaves in the entry it takes. -/
def newEntry (e : DirectoryEntry) (name : List Byte) (newSector : ℤ) : DirectoryEntry :=
  { e with
    inUse := 1
    name := strncpy e.name name FileNameMaxLen
    sector := Word.ofInt newSector }

theorem key_newEntry (e : DirectoryEntry) (name : List Byte) (newSector : ℤ) :
    (newEntry e name newSector).key = fileKey name :=
  fileKey_strncpy e.name name

theorem sector_newEntry (e : DirectoryEntry) (name : List Byte) (sector : Fin NumSectors) :
    (newEntry e name (sector : ℕ)).sector.toInt = (sector : ℕ) := by
  have := sector_lt sector
  rw [newEntry, toInt_ofInt (by omega) (by omega)]

/-- `Add` succeeds exactly if the name is new and an entry is unused, and then it fills
that entry. -/
theorem add_eq_true {newSector : ℤ} (h : (dir.add name newSector).1 = true) :
    ∃ i, (∀ j, ¬ dir.Holds name j) ∧ (dir.table i).inUse = 0 ∧
      (dir.add name newSector).2 = dir.setEntry i (newEntry (dir.table i) name newSector) := by
  unfold add at h ⊢
  cases hf : dir.findIndex name with
  | some i => simp [hf] at h
  | none =>
      cases hu : dir.firstUnused with
      | none => simp [hf, hu] at h
      | some i => exact ⟨i, findIndex_eq_none.mp hf, firstUnused_eq_some hu, rfl⟩

/-- Names that are neither in the old nor in the new entry are not concerned. -/
theorem holds_setEntry (hi : ¬ dir.Holds name i) (he : e.inUse = 0 ∨ e.key ≠ fileKey name)
    (j : Fin tableSize) : (dir.setEntry i e).Holds name j ↔ dir.Holds name j := by
  by_cases hj : j = i
  · subst hj
    refine iff_of_false ?_ hi
    rw [Holds, setEntry_self]
    rintro ⟨huse, hkey⟩
    exact he.elim huse fun hne => hne hkey
  · rw [Holds, Holds, setEntry_of_ne _ hj]

theorem add_succeeds (habsent : ∀ j, ¬ dir.Holds name j) (hi : (dir.table i).inUse = 0)
    (newSector : ℤ) : (dir.add name newSector).1 = true := by
  rw [add, findIndex_eq_none.mpr habsent]
  cases hu : dir.firstUnused with
  | none => exact absurd hi (by simpa using List.find?_eq_none.mp hu i (List.mem_finRange i))
  | some j => rfl

/-- `Remove` empties the entry of the name. -/
theorem remove_eq (h : dir.findIndex name = some i) :
    ∃ e, e.inUse = 0 ∧ dir.remove name = (true, dir.setEntry i e) := by
  refine ⟨{ dir.table i with
    inUse := 0
    name := fun j => if j < FileNameMaxLen then 0 else (dir.table i).name j }, rfl, ?_⟩
  rw [remove, h]

theorem DistinctNames.setEntry_new (hd : dir.DistinctNames) (habsent : ∀ j, ¬ dir.Holds name j)
    (hkey : e.key = fileKey name) : (dir.setEntry i e).DistinctNames := by
  intro j k hj hk hjk
  by_cases hji : j = i <;> by_cases hki : k = i
  · rw [hji, hki]
  · subst hji
    rw [setEntry_of_ne _ hki] at hk hjk
    rw [setEntry_self, hkey] at hjk
    exact absurd ⟨hk, hjk.symm⟩ (habsent k)
  · subst hki
    rw [setEntry_of_ne _ hji] at hj hjk
    rw [setEntry_self, hkey] at hjk
    exact absurd ⟨hj, hjk⟩ (habsent j)
  · rw [setEntry_of_ne _ hji] at hj hjk
    rw [setEntry_of_ne _ hki] at hk hjk
    exact hd j k hj hk hjk

theorem DistinctNames.setEntry_unused (hd : dir.DistinctNames) (he : e.inUse = 0) :
    (dir.setEntry i e).DistinctNames := by
  have hne : ∀ j, ((dir.setEntry i e).table j).inUse ≠ 0 → j ≠ i := by
    rintro j hj rfl
    rw [setEntry_self] at hj
    exact hj he
  intro j k hj hk hjk
  have hji := hne j hj
  have hki := hne k hk
  rw [setEntry_of_ne _ hji] at hj hjk
  rw [setEntry_of_ne _ hki] at hk hjk
  exact hd j k hj hk hjk

end Directory

end Nachos
