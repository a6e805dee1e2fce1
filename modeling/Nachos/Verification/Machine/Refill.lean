import Nachos.Verification.Machine.Lookup

/-! # Refilling the TLB

`tlbSwap` takes the first entry that is not valid, or else the first of those that have been hit
least often. It computes the page of a signed address, `Translate` that of an unsigned one. -/

namespace Nachos.Machine

open Library

/-- No two valid entries of the TLB are for the same page. -/
def Distinct (t : List TranslationEntry) : Prop :=
  ∀ i < TLBSize, ∀ j < TLBSize, ∀ e e', t[i]? = some e → t[j]? = some e' → e.valid = true →
    e'.valid = true → e.virtualPage = e'.virtualPage → i = j

/-- The entry `e`, at `i`, is the one that `tlbSwap` uses when there is no page table. -/
inductive Victim (build : Build) (t : List TranslationEntry) (i : ℕ) (e : TranslationEntry) :
    Prop where
  | free (hlt : i < TLBSize) (he : t[i]? = some e) (hv : e.valid = false)
      (hfirst : ∀ j < i, ∀ e', t[j]? = some e' → e'.valid = true)
  | least (hlru : build.tlbLru = true) (hlt : i < TLBSize) (he : t[i]? = some e)
      (hfull : ∀ j < TLBSize, ∀ e', t[j]? = some e' → e'.valid = true)
      (hle : ∀ j < TLBSize, ∀ e', t[j]? = some e' → e.hitRate.toInt ≤ e'.hitRate.toInt)
      (hfirst : ∀ j < i, ∀ e', t[j]? = some e' → e.hitRate.toInt < e'.hitRate.toInt)
      (hmax : e.hitRate.toInt < 2 ^ 31 - 1)

variable {build : Build} {t : List TranslationEntry} {i : ℕ} {e : TranslationEntry}

theorem Victim.lt (h : Victim build t i e) : i < TLBSize := by
  cases h with
  | free hlt | least _ hlt => exact hlt

theorem Victim.get (h : Victim build t i e) : t[i]? = some e := by
  cases h with
  | free _ he | least _ _ he => exact he

/-! ## The loops -/

/-- Among valid entries, the first of those with the least number of hits is found, if that is
less than `min`. -/
theorem leastUsed_spec {n k : ℕ} {min : ℤ} {swapI r : Option ℕ}
    (hvalid : ∀ j < n, ∀ e, t[j]? = some e → e.valid = true)
    (h : leastUsed n t k min swapI = .ok r) :
    (r = swapI ∧ ∀ j < n, ∀ e, t[j]? = some e → min ≤ e.hitRate.toInt) ∨
      ∃ j < n, ∃ e, r = some (k + j) ∧ t[j]? = some e ∧ e.hitRate.toInt < min ∧
        (∀ j' < n, ∀ e', t[j']? = some e' → e.hitRate.toInt ≤ e'.hitRate.toInt) ∧
        ∀ j' < j, ∀ e', t[j']? = some e' → e.hitRate.toInt < e'.hitRate.toInt := by
  induction t generalizing n k min swapI with
  | nil =>
      cases n with
      | zero => exact .inl ⟨(Except.ok.inj h).symm, by simp⟩
      | succ n => cases h
  | cons a t ih =>
      cases n with
      | zero => exact .inl ⟨(Except.ok.inj h).symm, by simp⟩
      | succ n =>
          have ha : a.valid = true := hvalid 0 (by omega) a rfl
          have htail : ∀ j < n, ∀ e, t[j]? = some e → e.valid = true := fun j hj e he =>
            hvalid (j + 1) (by omega) e (by simpa using he)
          rw [leastUsed] at h
          split at h
          · rename_i hlt
            -- the head is the least one so far
            rcases ih htail h with ⟨rfl, hall⟩ | ⟨j, hj, e, rfl, he, hmin, hle, hbefore⟩
            · refine .inr ⟨0, by omega, a, rfl, rfl, hlt.2, fun j hj e he => ?_, by simp⟩
              cases j with
              | zero =>
                  obtain rfl : a = e := by simpa using he
                  exact le_rfl
              | succ j => exact hall j (by omega) e (by simpa using he)
            · refine .inr ⟨j + 1, by omega, e, by congr 1; omega, by simpa using he,
                hmin.trans hlt.2, fun j' hj' e' he' => ?_, fun j' hj' e' he' => ?_⟩
              · cases j' with
                | zero =>
                    obtain rfl : a = e' := by simpa using he'
                    exact hmin.le
                | succ j' => exact hle j' (by omega) e' (by simpa using he')
              · cases j' with
                | zero =>
                    obtain rfl : a = e' := by simpa using he'
                    exact hmin
                | succ j' => exact hbefore j' (by omega) e' (by simpa using he')
          · rename_i hge
            have hge' : min ≤ a.hitRate.toInt := not_lt.mp fun hlt => hge ⟨ha, hlt⟩
            rcases ih htail h with ⟨rfl, hall⟩ | ⟨j, hj, e, rfl, he, hmin, hle, hbefore⟩
            · refine .inl ⟨rfl, fun j hj e he => ?_⟩
              cases j with
              | zero =>
                  obtain rfl : a = e := by simpa using he
                  exact hge'
              | succ j => exact hall j (by omega) e (by simpa using he)
            · refine .inr ⟨j + 1, by omega, e, by congr 1; omega, by simpa using he, hmin,
                fun j' hj' e' he' => ?_, fun j' hj' e' he' => ?_⟩
              · cases j' with
                | zero =>
                    obtain rfl : a = e' := by simpa using he'
                    exact hmin.le.trans hge'
                | succ j' => exact hle j' (by omega) e' (by simpa using he')
              · cases j' with
                | zero =>
                    obtain rfl : a = e' := by simpa using he'
                    exact hmin.trans_le hge'
                | succ j' => exact hbefore j' (by omega) e' (by simpa using he')

/-! ## `tlbSwap` -/

variable {m : Machine} {p : ℕ} {vaddr : Word}

/-- What `tlbSwap` makes of the entry that it uses for the address. -/
abbrev swapped (e : TranslationEntry) (vaddr : Word) : TranslationEntry :=
  Installed.renamed e (Word.ofInt (vaddr.toInt.tdiv PageSize))

section

variable (htlb : m.tlb = some p) (hcell : m.heap.cell p = some t)

include htlb hcell

theorem tlbSwap_of_entry (hscan : scan (fun e => !e.valid) TLBSize t 0 = .ok (some i))
    (he : t[i]? = some e) (build : Build) (vaddr : Word) :
    m.tlbSwap build vaddr = .ok (m.setTable p (t.set i (swapped e vaddr))) := by
  rw [tlbSwap, htlb]
  dsimp only
  rw [table_of_cell hcell, ok_bind, hscan, ok_bind]
  dsimp only
  rw [ok_bind]
  dsimp only
  rw [entryAt_natCast he, ok_bind]
  rfl

theorem tlbSwap_of_full (hscan : scan (fun e => !e.valid) TLBSize t 0 = .ok none)
    (hlru : build.tlbLru = true) (vaddr : Word) {r : Option ℕ} :
    leastUsed TLBSize t 0 (2 ^ 31 - 1) none = .ok r →
    m.tlbSwap build vaddr = match r with
      | some i => do
          let e ← entryAt t i
          return m.setTable p (t.set i (swapped e vaddr))
      | none => .error .bounds := by
  intro hr
  rw [tlbSwap, htlb]
  dsimp only
  rw [table_of_cell hcell, ok_bind, hscan, ok_bind]
  dsimp only
  rw [replace, if_pos hlru, hr, ok_bind]
  cases r with
  | none => rfl
  | some i => rfl

/-- Under `TLB_LRU`, or without a page table, only a victim is used. -/
theorem tlbSwap_eq_ok (hbuild : build.tlbLru = true ∨ m.pageTable = none) {m' : Machine}
    (h : m.tlbSwap build vaddr = .ok m') :
    ∃ i e, Victim build t i e ∧ m' = m.setTable p (t.set i (swapped e vaddr)) := by
  have hscan : ∃ r, scan (fun e => !e.valid) TLBSize t 0 = .ok r := by
    rw [tlbSwap, htlb] at h
    dsimp only at h
    rw [table_of_cell hcell, ok_bind] at h
    obtain ⟨r, hr, -⟩ := bind_eq_ok.mp h
    exact ⟨r, hr⟩
  obtain ⟨r, hr⟩ := hscan
  cases r with
  | some i =>
      obtain ⟨j, hj, rfl, ⟨e, he, hv⟩, hbefore⟩ := scan_some_inv hr
      rw [Nat.zero_add] at hr
      rw [tlbSwap_of_entry htlb hcell hr he] at h
      exact ⟨j, e, .free hj he (by simpa using hv) fun j' hj' e' he' => by
        simpa using hbefore j' hj' e' he', (Except.ok.inj h).symm⟩
  | none =>
      obtain ⟨hlen, hfull⟩ := scan_none_inv hr
      have hfull' : ∀ j < TLBSize, ∀ e, t[j]? = some e → e.valid = true := fun j hj e he => by
        simpa using hfull j hj e he
      by_cases hlru : build.tlbLru = true
      · obtain ⟨r, hleast⟩ := leastUsed_total hlen 0 (2 ^ 31 - 1) none
        rw [tlbSwap_of_full htlb hcell hr hlru vaddr hleast] at h
        rcases leastUsed_spec hfull' hleast with ⟨rfl, -⟩ | ⟨j, hj, e, rfl, he, hmin, hle, hfirst⟩
        · cases h
        · dsimp only at h
          rw [Nat.zero_add, entryAt_natCast he, ok_bind] at h
          exact ⟨j, e, .least hlru hj he hfull' hle hfirst hmin, (Except.ok.inj h).symm⟩
      · have hpage : m.pageTable = none := hbuild.resolve_left hlru
        rw [tlbSwap, htlb] at h
        dsimp only at h
        rw [table_of_cell hcell, ok_bind, hr, ok_bind] at h
        dsimp only at h
        rw [replace, if_neg hlru, hpage] at h
        cases h

theorem tlbSwap_of_victim (hlen : TLBSize ≤ t.length) (h : Victim build t i e) (vaddr : Word) :
    m.tlbSwap build vaddr = .ok (m.setTable p (t.set i (swapped e vaddr))) := by
  cases h with
  | free hlt he hv hfirst =>
      have hscan := scan_eq_some (n := TLBSize) (i := 0) (p := fun e => !e.valid) he (by simp [hv])
        hlt fun k hk e' he' => by simp [hfirst k hk e' he']
      rw [Nat.zero_add] at hscan
      exact tlbSwap_of_entry htlb hcell hscan he build vaddr
  | least hlru hlt he hfull hle hfirst hmax =>
      have hscan : scan (fun e => !e.valid) TLBSize t 0 = .ok none :=
        scan_eq_none hlen fun k hk e' he' => by simp [hfull k hk e' he']
      obtain ⟨r, hr⟩ := leastUsed_total hlen 0 (2 ^ 31 - 1) none
      rw [tlbSwap_of_full htlb hcell hscan hlru vaddr hr]
      rcases leastUsed_spec hfull hr with ⟨-, hall⟩ | ⟨j, hj, e', rfl, he', -, hle', hfirst'⟩
      · exact absurd (hall i hlt e he) (not_le.mpr hmax)
      · -- two entries that are both the first with the least number of hits
        have hij : i = j := by
          rcases lt_trichotomy i j with hlt' | heq | hlt'
          · exact absurd (hfirst' i hlt' e he) (not_lt.mpr (hle j hj e' he'))
          · exact heq
          · exact absurd (hfirst j hlt' e' he') (not_lt.mpr (hle' i hlt e he))
        subst hij
        obtain rfl := Option.some.inj (he.symm.trans he')
        dsimp only
        rw [Nat.zero_add, entryAt_natCast he, ok_bind]
        rfl

end

/-- There is a victim unless all entries have been hit `INT_MAX` times. -/
theorem exists_victim (hlen : TLBSize ≤ t.length) (hlru : build.tlbLru = true) :
    (∃ i e, Victim build t i e) ↔
      ∃ i < TLBSize, ∃ e, t[i]? = some e ∧ (e.valid = false ∨ e.hitRate.toInt < 2 ^ 31 - 1) := by
  constructor
  · rintro ⟨i, e, h⟩
    cases h with
    | free hlt he hv => exact ⟨i, hlt, e, he, .inl hv⟩
    | least _ hlt he _ _ _ hmax => exact ⟨i, hlt, e, he, .inr hmax⟩
  · rintro ⟨i, hi, e, he, hused⟩
    by_cases hfull : ∀ j < TLBSize, ∀ e', t[j]? = some e' → e'.valid = true
    · obtain ⟨r, hr⟩ := leastUsed_total hlen 0 (2 ^ 31 - 1) none
      rcases leastUsed_spec hfull hr with ⟨-, hall⟩ | ⟨j, hj, e', rfl, he', hmin, hle, hfirst⟩
      · rcases hused with hv | hlt
        · simp [hfull i hi e he] at hv
        · exact absurd (hall i hi e he) (not_le.mpr hlt)
      · exact ⟨j, e', .least hlru hj he' hfull hle hfirst hmin⟩
    · -- the first of the entries that are not valid
      have hsome : ∃ j, j < TLBSize ∧ ∃ e', t[j]? = some e' ∧ e'.valid = false := by
        simpa using hfull
      obtain ⟨hlt, e', he', hv⟩ := Nat.find_spec hsome
      refine ⟨Nat.find hsome, e', .free hlt he' hv fun j hj e'' he'' => ?_⟩
      by_contra hv'
      exact Nat.find_min hsome hj ⟨hj.trans hlt, e'', he'', by simpa using hv'⟩

/-! ## The page of a refilled entry -/

/-- The page that `tlbSwap` computes is the one that `Translate` looks for, unless the address is
negative. -/
theorem toNat_swapped (e : TranslationEntry) (vaddr : Word) :
    (swapped e vaddr).virtualPage.toNat = pageOf vaddr ↔ 0 ≤ vaddr.toInt := by
  change (Word.ofInt (vaddr.toInt.tdiv PageSize)).toNat = vaddr.toNat / 128 ↔ _
  have hbound := vaddr.isLt
  have hint := BitVec.toInt_eq_toNat_cond vaddr
  rw [Word.ofInt, BitVec.toNat_ofInt]
  split at hint
  · have hdiv : vaddr.toInt.tdiv PageSize = (vaddr.toNat / 128 : ℕ) := by
      rw [hint]
      exact (Int.ofNat_tdiv _ _).symm
    rw [hdiv]
    omega
  · have hneg : vaddr.toInt.tdiv PageSize = -((2 ^ 32 - vaddr.toNat) / 128 : ℕ) := by
      rw [hint, show (vaddr.toNat : ℤ) - (2 ^ 32 : ℕ) = -((2 ^ 32 - vaddr.toNat : ℕ) : ℤ) by omega,
        Int.neg_tdiv]
      exact congrArg Neg.neg (Int.ofNat_tdiv _ _).symm
    rw [hneg]
    omega

/-- A miss in the TLB. -/
theorem translate_miss {size : ℤ} {writing : Bool} {m₁ : Machine} (htlb : m.tlb = some p)
    (hcell : m.heap.cell p = some t)
    (h : m.translate vaddr size writing = .ok (.exception .pageFaultException, m₁)) :
    TLBSize ≤ t.length ∧
      ∀ j < TLBSize, ∀ e, t[j]? = some e → e.valid = true → e.virtualPage.toNat ≠ pageOf vaddr := by
  obtain ⟨-, -, q, t', hmiss⟩ := (translate_eq_ok.mp h).miss_inv
  cases hmiss with
  | page htlb' =>
      rw [htlb] at htlb'
      cases htlb'
  | tlb htlb' _ hcell' hlen hall =>
      rw [htlb] at htlb'
      obtain rfl := Option.some.inj htlb'
      rw [hcell] at hcell'
      obtain rfl := Option.some.inj hcell'
      exact ⟨hlen, hall⟩

/-- `Translate` finds an entry for the address. -/
theorem translate_ne_miss {m₁ : Machine} (htlb : m.tlb = some p) (hcell : m.heap.cell p = some t)
    (hi : i < TLBSize) (he : t[i]? = some e) (hv : e.valid = true)
    (hpage : e.virtualPage.toNat = pageOf vaddr) (size : ℤ) (writing : Bool) :
    m.translate vaddr size writing ≠ .ok (.exception .pageFaultException, m₁) := by
  intro hmiss
  obtain ⟨-, hall⟩ := translate_miss htlb hcell hmiss
  exact hall i hi e he hv hpage

/-! ## The result -/

/-- The table `t'` after the entry at `i` has been refilled. -/
structure Refill (t t' : List TranslationEntry) (i : ℕ) (vaddr : Word) : Prop where
  lt : i < TLBSize
  found : ∃ e, t'[i]? = some e ∧ e.valid = true ∧ e.virtualPage.toNat = pageOf vaddr
  others : ∀ j ≠ i, t'[j]? = t[j]?
  free : (∃ j < TLBSize, ∃ e, t[j]? = some e ∧ e.valid = false) →
    ∃ e, t[i]? = some e ∧ e.valid = false
  least : (∀ j < TLBSize, ∀ e, t[j]? = some e → e.valid = true) → ∃ e, t[i]? = some e ∧
    ∀ j < TLBSize, ∀ e', t[j]? = some e' → e.hitRate.toInt ≤ e'.hitRate.toInt
  distinct : Distinct t'

/-- The miss is resolved: nothing but an entry of the TLB changes, and the next `Translate` finds
the page. -/
def Resolves (build : Build) (m : Machine) (p : ℕ) (t : List TranslationEntry) (vaddr : Word) :
    Prop :=
  ∃ t' i, m.tlbSwap build vaddr = .ok (m.setTable p t') ∧ Refill t t' i vaddr ∧
    ∀ size writing m₁, (m.setTable p t').translate vaddr size writing ≠
      .ok (.exception .pageFaultException, m₁)

theorem refill_of_victim (hlen : TLBSize ≤ t.length) (hdistinct : Distinct t)
    (hmiss : ∀ j < TLBSize, ∀ e, t[j]? = some e → e.valid = true →
      e.virtualPage.toNat ≠ pageOf vaddr)
    (h : Victim build t i e) (hpos : 0 ≤ vaddr.toInt) :
    Refill t (t.set i (swapped e vaddr)) i vaddr := by
  have hi := h.lt
  have hself : (t.set i (swapped e vaddr))[i]? = some (swapped e vaddr) :=
    List.getElem?_set_self (by omega)
  have hpage := (toNat_swapped e vaddr).mpr hpos
  refine ⟨hi, ⟨_, hself, rfl, hpage⟩, fun j hj => List.getElem?_set_ne (Ne.symm hj), ?_, ?_, ?_⟩
  · rintro ⟨j, hj, e', he', hv'⟩
    cases h with
    | free _ he hv => exact ⟨e, he, hv⟩
    | least _ _ _ hfull => simp [hfull j hj e' he'] at hv'
  · intro hfull
    cases h with
    | free _ he hv => simp [hfull i hi e he] at hv
    | least _ _ he _ hle => exact ⟨e, he, hle⟩
  · -- no other valid entry is for the page of the miss
    have hnew : ∀ j < TLBSize, j ≠ i → ∀ e', (t.set i (swapped e vaddr))[j]? = some e' →
        e'.valid = true → (swapped e vaddr).virtualPage ≠ e'.virtualPage := by
      intro j hj hne e' he' hv' heq
      rw [List.getElem?_set_ne (Ne.symm hne)] at he'
      exact hmiss j hj e' he' hv' (heq ▸ hpage)
    intro j hj k hk e' e'' he' he'' hv' hv'' heq
    by_cases hji : j = i
    · by_cases hki : k = i
      · rw [hji, hki]
      · subst hji
        obtain rfl := Option.some.inj (hself.symm.trans he')
        exact absurd heq (hnew k hk hki e'' he'' hv'')
    · by_cases hki : k = i
      · subst hki
        obtain rfl := Option.some.inj (hself.symm.trans he'')
        exact absurd heq.symm (hnew j hj hji e' he' hv')
      · rw [List.getElem?_set_ne (Ne.symm hji)] at he'
        rw [List.getElem?_set_ne (Ne.symm hki)] at he''
        exact hdistinct j hj k hk e' e'' he' he'' hv' hv'' heq

/-- A refill resolves its miss exactly if the address is not negative and some entry has not been
hit `INT_MAX` times. -/
theorem tlbSwap_resolves_iff (build : Build) (hlru : build.tlbLru = true) (m m₁ : Machine) (p : ℕ)
    (t : List TranslationEntry) (htlb : m.tlb = some p) (hcell : m.heap.cell p = some t)
    (hdistinct : Distinct t) (vaddr : Word) (size : ℤ) (writing : Bool)
    (hmiss : m.translate vaddr size writing = .ok (.exception .pageFaultException, m₁)) :
    Resolves build m p t vaddr ↔ 0 ≤ vaddr.toInt ∧
      ∃ i < TLBSize, ∃ e, t[i]? = some e ∧ (e.valid = false ∨ e.hitRate.toInt < 2 ^ 31 - 1) := by
  obtain ⟨hlen, hall⟩ := translate_miss htlb hcell hmiss
  rw [← exists_victim hlen hlru]
  constructor
  · rintro ⟨t', i, hswap, hrefill, -⟩
    obtain ⟨j, e, hvictim, hsame⟩ := tlbSwap_eq_ok htlb hcell (.inl hlru) hswap
    refine ⟨?_, j, e, hvictim⟩
    have ht' : t' = t.set j (swapped e vaddr) := by
      have hcells := congrArg (fun m : Machine => m.heap.cell p) hsame
      simp only [setTable] at hcells
      rw [Heap.cell_modify_self _ hcell, Heap.cell_modify_self _ hcell] at hcells
      exact Option.some.inj hcells
    -- the entry that is found is the one that has been renamed
    obtain ⟨e', he', hv', hpage⟩ := hrefill.found
    subst ht'
    by_cases hij : i = j
    · subst hij
      have hself : (t.set i (swapped e vaddr))[i]? = some (swapped e vaddr) :=
        List.getElem?_set_self (by have := hvictim.lt; omega)
      obtain rfl := Option.some.inj (hself.symm.trans he')
      exact (toNat_swapped e vaddr).mp hpage
    · rw [List.getElem?_set_ne (Ne.symm hij)] at he'
      exact absurd hpage (hall i hrefill.lt e' he' hv')
  · rintro ⟨hpos, i, e, hvictim⟩
    have hrefill := refill_of_victim hlen hdistinct hall hvictim hpos
    refine ⟨_, i, tlbSwap_of_victim htlb hcell hlen hvictim vaddr, hrefill, fun size writing m₁ => ?_⟩
    obtain ⟨e', he', hv', hpage⟩ := hrefill.found
    have hset : (m.setTable p (t.set i (swapped e vaddr))).heap.cell p =
        some (t.set i (swapped e vaddr)) := Heap.cell_modify_self _ hcell _
    have htlb' : (m.setTable p (t.set i (swapped e vaddr))).tlb = some p := htlb
    exact translate_ne_miss htlb' hset hvictim.lt he' hv' hpage size writing

/-- The machine at its start, with a TLB. -/
def withTlb : Machine :=
  .new ⟨true, true, true⟩ (fun i => ⟨0, BitVec.ofNat 32 i, true, false, false, false, 0⟩)
    ⟨fun _ => 0⟩ 0

theorem distinct_of_invalid (h : ∀ e ∈ t, e.valid = false) : Distinct t := by
  intro i _ j _ e e' he _ hv
  simp [h e (List.mem_of_getElem? he)] at hv

theorem tlbSwap_resolves_iff_withTlb :
    ∃ t, Distinct t ∧
      withTlb.translate 640 4 false = .ok (.exception .pageFaultException, withTlb) ∧
      Resolves ⟨true, true, true⟩ withTlb 0 t 640 :=
  ⟨_, distinct_of_invalid (by decide), rfl,
    (tlbSwap_resolves_iff ⟨true, true, true⟩ rfl withTlb withTlb 0 _ rfl rfl
      (distinct_of_invalid (by decide)) 640 4 false rfl).mpr
      ⟨by decide, 0, by decide, _, rfl, .inl rfl⟩⟩

/-- The page of `-4` is the last one for `Translate`, and the first one for `tlbSwap`. -/
theorem negative_address_missed_again :
    ∃ t, Distinct t ∧ withTlb.heap.cell 0 = some t ∧
      withTlb.translate (-4) 4 false = .ok (.exception .pageFaultException, withTlb) ∧
      ¬ Resolves ⟨true, true, true⟩ withTlb 0 t (-4) := by
  refine ⟨_, distinct_of_invalid (by decide), rfl, rfl, ?_⟩
  rintro ⟨t', i, hswap, -, hfound⟩
  obtain ⟨m', hswap', hagain⟩ : ∃ m', withTlb.tlbSwap ⟨true, true, true⟩ (-4) = .ok m' ∧
      m'.translate (-4) 4 false = .ok (.exception .pageFaultException, m') := ⟨_, rfl, rfl⟩
  obtain rfl := Except.ok.inj (hswap'.symm.trans hswap)
  exact hfound 4 false _ hagain

end Nachos.Machine
