import Nachos.Verification.Tasks.Totals

/-! # Monitors

A lock whose owner is read off what the threads have to do, and a condition on which threads
wait for a stock of something. Threads that are woken up may find that others have been faster;
but as long as some threads wait, enough others are on their way to what is there. -/

namespace Nachos

open Library

variable {φ γ ι : Type} {a : Action φ} {u : ℕ} {rest : List (Action φ)}

/-! ## Locks -/

/-- Whether the action takes the lock or gives it back. -/
def Action.moves (l : ℕ) : Action φ → Option Bool
  | .take m => if m = l then some true else none
  | .give m => if m = l then some false else none
  | _ => none

/-- The lock is given back and taken in turn, and given back at the end. -/
def brackets (l : ℕ) : Bool → List (Action φ) → Bool
  | inside, [] => !inside
  | inside, a :: rest =>
      match a.moves l with
      | none => brackets l inside rest
      | some b => (inside != b) && brackets l b rest

theorem brackets_skip {l : ℕ} {inside : Bool} (ha : a.moves l = none) (rest : List (Action φ)) :
    brackets l inside (a :: rest) = brackets l inside rest := by
  rw [brackets, ha]

theorem brackets_move {l : ℕ} {inside b : Bool} (ha : a.moves l = some b) (rest : List (Action φ)) :
    brackets l inside (a :: rest) = ((inside != b) && brackets l b rest) := by
  rw [brackets, ha]

namespace Tasks

variable {program : Program φ γ ι} {T T' : Tasks φ γ} {t l : ℕ}

/-- The threads have the lock where they should. -/
def Exclusive (l : ℕ) (T : Tasks φ γ) : Prop :=
  ∀ t, brackets l (decide (T.owner l = some t)) (T.todo t) = true

theorem Exclusive.inside (h : Exclusive l T) (ht : T.owner l = some t) :
    brackets l true (T.todo t) = true := by
  have hb := h t
  rwa [decide_eq_true ht] at hb

theorem Exclusive.outside (h : Exclusive l T) (ht : T.owner l ≠ some t) :
    brackets l false (T.todo t) = true := by
  have hb := h t
  rwa [decide_eq_false ht] at hb

/-- A thread that has to give the lock back first has it. -/
theorem Exclusive.owner_of_inside (h : Exclusive l T) (ht : brackets l false (T.todo t) = false) :
    T.owner l = some t := by
  by_contra hne
  rw [h.outside hne] at ht
  cases ht

/-- One thread goes on, and the lock changes hands between it and nobody. -/
theorem Exclusive.move (h : Exclusive l T) (hown : brackets l (decide (T'.owner l = some t))
      (T'.todo t) = true)
    (htodo : ∀ u, u ≠ t → T'.todo u = T.todo u ∨
      T.todo u = [] ∧ ∃ f, T'.todo u = [.cmd (.run f), .cmd .finish])
    (howner : ∀ u, u ≠ t → (T'.owner l = some u ↔ T.owner l = some u)) : Exclusive l T' := by
  intro u
  by_cases hu : u = t
  · subst hu
    exact hown
  · have hold := h u
    rw [decide_eq_decide.mpr (howner u hu)]
    rcases htodo u hu with hsame | ⟨hnil, f, hnew⟩
    · rwa [hsame]
    · rw [hnil] at hold
      rw [hnew]
      exact hold

/-- Other threads keep what they have to do, or start. -/
theorem Step.others (hstep : Step program t T T') (u : ℕ) (hu : u ≠ t) :
    T'.todo u = T.todo u ∨ T.todo u = [] ∧ ∃ f, T'.todo u = [.cmd (.run f), .cmd .finish] := by
  cases hstep with
  | @start v f rest h hv hne hnil =>
      by_cases huv : u = v
      · subst huv
        exact .inr ⟨hnil, f, by simp⟩
      · exact .inl (by simp [hu, huv])
  | notifyAll => exact .inl rfl
  | _ => exact .inl (by simp [hu, Tasks.up])

theorem Step.others_eq (hstep : Step program t T T')
    (hstart : ∀ v f rest, T.todo t ≠ .start v f :: rest) (hu : u ≠ t) : T'.todo u = T.todo u := by
  cases hstep with
  | start h => exact absurd h (hstart _ _ _)
  | notifyAll => rfl
  | _ => simp [hu, Tasks.up]

theorem Step.mem_waiting (hstep : Step program t T T') {c : ℕ} (hu : u ≠ t) (h : u ∈ T'.waiting c) :
    u ∈ T.waiting c := by
  cases hstep with
  | @join c' | @notify c' _ _ _ _ hq | @notifyAll c' _ _ _ _ hq =>
      by_cases hc : c = c'
      · subst hc
        simp_all
      · simpa [hc] using h
  | _ => exact h

theorem Step.created_le (hstep : Step program t T T') : T.created ≤ T'.created := by
  cases hstep with
  | newThread => exact Nat.le_succ _
  | _ => exact le_rfl

theorem Step.created_eq (hstep : Step program t T T')
    (hnew : ∀ pri uninit rest, T.todo t ≠ .cmd (.newThread pri uninit) :: rest) :
    T'.created = T.created := by
  cases hstep with
  | newThread h => exact absurd h (hnew _ _ _)
  | _ => rfl

theorem Step.value_of_cmd (hstep : Step program t T T') {x : Cmd φ}
    (h : T.todo t = .cmd x :: rest) :
    T'.value = T.value := by
  cases hstep with
  | down h' | up h' => cases h.symm.trans h'
  | _ => rfl

theorem Exclusive.step (h : Exclusive l T) (hstep : Step program t T T')
    (hcode : ∀ x rest, T.todo t = .cmd x :: rest → ∀ inside, brackets l inside rest = true →
      brackets l inside (T'.todo t) = true) : Exclusive l T' := by
  have hkeep : T'.owner l = T.owner l → brackets l (decide (T.owner l = some t)) (T'.todo t) = true →
      Exclusive l T' := by
    intro howner hown
    exact h.move (by rw [howner]; exact hown) (fun u hu => hstep.others u hu)
      fun u _ => by rw [howner]
  have hcmd : ∀ x rest, T.todo t = .cmd x :: rest →
      brackets l (decide (T.owner l = some t)) (T'.todo t) = true := by
    intro x rest hs
    refine hcode x rest hs _ ?_
    rw [← brackets_skip (a := .cmd x) rfl, ← hs]
    exact h t
  have hpop : ∀ a rest, T.todo t = a :: rest → a.moves l = none → T'.todo t = rest →
      brackets l (decide (T.owner l = some t)) (T'.todo t) = true := by
    intro a rest hs ha hs'
    rw [hs', ← brackets_skip ha, ← hs]
    exact h t
  cases hstep with
  | run hs | finish hs | newThread hs | schedule hs | syscall hs | skip hs =>
      exact hkeep rfl (hcmd _ _ hs)
  | down hs | check hs | join hs | back hs | notifyNone hs | notify hs | notifyAllNone hs =>
      exact hkeep rfl (hpop _ _ hs rfl (by simp))
  | up hs => exact hkeep rfl (hpop _ _ hs rfl (by simp [Tasks.up]))
  | notifyAll hs => exact hkeep rfl (h t)
  | start hs hu hne => exact hkeep rfl (hpop _ _ hs rfl (by simp [hne.symm]))
  | @take m rest hs ho =>
      by_cases hm : m = l
      · subst hm
        have hb := h.outside (t := t) (by rw [ho]; simp)
        rw [hs, brackets_move (b := true) (by simp [Action.moves])] at hb
        refine h.move (t := t) (by simpa using hb) (fun u hu => .inl (by simp [hu])) fun u hu => ?_
        simp [ho, hu.symm]
      · exact hkeep (by simp [Ne.symm hm]) (hpop _ _ hs (by simp [Action.moves, hm]) (by simp))
  | @give m rest hs ho =>
      by_cases hm : m = l
      · subst hm
        have hb := h.inside ho
        rw [hs, brackets_move (b := false) (by simp [Action.moves])] at hb
        refine h.move (t := t) (by simpa using hb) (fun u hu => .inl (by simp [hu])) fun u hu => ?_
        simp [ho, hu.symm]
      · exact hkeep (by simp [Ne.symm hm]) (hpop _ _ hs (by simp [Action.moves, hm]) (by simp))

end Tasks

/-! ## Conditions -/

/-- Threads wait on `cond` until the stock is positive. Those that are woken up look at it in
`test`. -/
structure Supply (φ γ : Type) where
  lock : ℕ
  cond : ℕ
  test : φ
  stock : γ → ℤ

namespace Supply

variable [DecidableEq φ] {s : Supply φ γ}

/-- Whether a thread is on its way to the stock, or about to wake up one that then will be. -/
def claim (s : Supply φ γ) : List (Action φ) → ℤ
  | .back c :: _ => if c = s.cond then 1 else 0
  | .take _ :: .back c :: _ => if c = s.cond then 1 else 0
  | .cmd (.run f) :: _ => if f = s.test then 1 else 0
  | .notify c :: _ => if c = s.cond then 1 else 0
  | .check _ :: .notify c :: _ => if c = s.cond then 1 else 0
  | _ => 0

/-- Threads that wait do not count. -/
def claimOf (s : Supply φ γ) (T : Tasks φ γ) (t : ℕ) : ℤ :=
  if t ∈ T.waiting s.cond then 0 else s.claim (T.todo t)

def claims (s : Supply φ γ) (T : Tasks φ γ) : ℤ := ∑ t ∈ Finset.range T.created, s.claimOf T t

/-- A thread has decided to wait and has not yet given the lock back. -/
def releasing (s : Supply φ γ) : List (Action φ) → Bool
  | .check _ :: rest => releasing s rest
  | .give l :: .join c :: _ => l = s.lock ∧ c = s.cond
  | _ => false

/-- A thread has decided to wait and is not yet in the queue. -/
def leaving (s : Supply φ γ) (l : List (Action φ)) : Bool :=
  s.releasing l || match l with
    | .join c :: _ => c = s.cond
    | _ => false

/-- Whoever waits does so with a reason. -/
structure Supplied (s : Supply φ γ) (T : Tasks φ γ) : Prop where
  enough : T.waiting s.cond ≠ [] → s.stock T.client ≤ s.claims T
  reason : ∀ t, s.leaving (T.todo t) = true → s.stock T.client ≤ 0

omit [DecidableEq φ] in
theorem brackets_of_releasing {l : List (Action φ)} (h : s.releasing l = true) :
    brackets s.lock false l = false := by
  fun_induction releasing s l with
  | case1 _ rest ih => exact ih h
  | case2 l c _ =>
      simp only [Bool.decide_and, Bool.and_eq_true, decide_eq_true_eq] at h
      simp [brackets, Action.moves, h.1]
  | case3 => cases h

omit [DecidableEq φ] in
theorem leaving_cases {l : List (Action φ)} (h : s.leaving l = true) :
    s.releasing l = true ∨ ∃ rest, l = .join s.cond :: rest := by
  unfold leaving at h
  rw [Bool.or_eq_true] at h
  refine h.imp_right fun h => ?_
  split at h
  · rw [of_decide_eq_true h]
    exact ⟨_, rfl⟩
  · cases h

theorem claim_nonneg (l : List (Action φ)) : 0 ≤ s.claim l := by
  fun_cases claim s l <;> simp

theorem claimOf_nonneg (T : Tasks φ γ) (t : ℕ) : 0 ≤ s.claimOf T t := by
  unfold claimOf
  split
  · exact le_rfl
  · exact claim_nonneg _

theorem claims_nonneg (T : Tasks φ γ) : 0 ≤ s.claims T :=
  Finset.sum_nonneg fun t _ => claimOf_nonneg T t

variable {program : Program φ γ ι} {T T' : Tasks φ γ} {t : ℕ}

theorem claimOf_eq (hfree : T.Free t) : s.claimOf T t = s.claim (T.todo t) :=
  if_neg (hfree.awake s.cond)

/-- What does not get more in a step that is not `notify`. -/
theorem claim_cons_le (hrun : ∀ f, a ≠ .cmd (.run f)) (hback : ∀ c, a ≠ .back c)
    (hnotify : ∀ c, a ≠ .notify c) : s.claim (a :: rest) ≤ s.claim rest := by
  have hzero : s.claim (a :: rest) = 0 → s.claim (a :: rest) ≤ s.claim rest := fun h =>
    h ▸ claim_nonneg rest
  cases a with
  | back c => exact absurd rfl (hback c)
  | notify c => exact absurd rfl (hnotify c)
  | cmd x =>
      cases x with
      | run f => exact absurd rfl (hrun f)
      | _ => exact hzero rfl
  | take l =>
      cases rest with
      | nil => exact hzero rfl
      | cons b rest =>
          cases b with
          | back c => exact le_rfl
          | _ => exact hzero rfl
  | check l =>
      cases rest with
      | nil => exact hzero rfl
      | cons b rest =>
          cases b with
          | notify c => exact le_rfl
          | _ => exact hzero rfl
  | _ => exact hzero rfl

/-- Other threads claim no less than before. -/
theorem claimOf_le (hstep : Tasks.Step program t T T') (hu : u ≠ t) :
    s.claimOf T u ≤ s.claimOf T' u := by
  by_cases hparked : u ∈ T.waiting s.cond
  · rw [claimOf, if_pos hparked]
    exact claimOf_nonneg T' u
  · have hparked' : u ∉ T'.waiting s.cond := fun h => hparked (hstep.mem_waiting hu h)
    rw [claimOf, claimOf, if_neg hparked, if_neg hparked']
    rcases hstep.others u hu with hsame | ⟨hnil, -⟩
    · rw [hsame]
    · rw [hnil]
      exact claim_nonneg _

theorem claims_add (hstep : Tasks.Step program t T T') {d : ℕ → ℤ}
    (h : ∀ u, s.claimOf T u + d u ≤ s.claimOf T' u) :
    s.claims T + ∑ u ∈ Finset.range T.created, d u ≤ s.claims T' :=
  sum_add_le (Finset.range_subset_range.mpr hstep.created_le) (fun u _ => claimOf_nonneg T' u)
    fun u _ => h u

theorem claims_step (hfree : T.Free t) (hstep : Tasks.Step program t T T') :
    s.claims T + (s.claimOf T' t - s.claim (T.todo t)) ≤ s.claims T' := by
  have hle := claims_add (s := s) hstep (d := Pi.single t (s.claimOf T' t - s.claimOf T t)) ?_
  · rwa [Finset.sum_pi_single', if_pos (Finset.mem_range.mpr hfree.lt_created),
      claimOf_eq hfree] at hle
  · intro u
    by_cases hu : u = t
    · subst hu
      rw [Pi.single_eq_same]
      omega
    · rw [Pi.single_eq_of_ne hu, add_zero]
      exact claimOf_le hstep hu

/-- A thread that is woken up takes the claim of the one that wakes it up. -/
theorem claims_notify (hproper : T.Proper) (hfree : T.Free t) {q : List ℕ}
    (hs : T.todo t = .notify s.cond :: rest) (hq : T.waiting s.cond = u :: q)
    (hstep : Tasks.Step program t T ((T.goto t rest).setWaiting s.cond q)) :
    s.claims T ≤ s.claims ((T.goto t rest).setWaiting s.cond q) := by
  have hmem : u ∈ T.waiting s.cond := by simp [hq]
  have hut : u ≠ t := fun h => hfree.awake s.cond (h ▸ hmem)
  have hlt : u < T.created := by
    by_contra hle
    obtain ⟨l, rest', hu⟩ := hproper.parked s.cond u hmem
    rw [hproper.unborn u (not_lt.mp hle)] at hu
    cases hu
  have hold : s.claimOf T t = 1 := by
    rw [claimOf_eq hfree, hs]
    exact if_pos rfl
  have hasleep : s.claimOf T u = 0 := if_pos hmem
  have hawake : s.claimOf ((T.goto t rest).setWaiting s.cond q) u = 1 := by
    obtain ⟨l, rest', hu⟩ := hproper.parked s.cond u hmem
    have hnot : u ∉ q := by
      have hnodup := hproper.nodup s.cond
      rw [hq, List.nodup_cons] at hnodup
      exact hnodup.1
    simp [claimOf, hnot, hut, hu, claim]
  have hle := claims_add (s := s) hstep (d := Pi.single t (-1) + Pi.single u 1) ?_
  · simp only [Pi.add_apply, Finset.sum_add_distrib, Finset.sum_pi_single', Finset.mem_range, hlt,
      hfree.lt_created, if_true] at hle
    omega
  · intro v
    by_cases hvt : v = t
    · subst hvt
      have hnonneg := claimOf_nonneg (s := s) ((T.goto v rest).setWaiting s.cond q) v
      simp [hold, hut.symm, hnonneg]
    · by_cases hvu : v = u
      · subst hvu
        simp [hasleep, hawake, hvt]
      · simp only [Pi.add_apply, Pi.single_eq_of_ne hvt, Pi.single_eq_of_ne hvu, add_zero]
        exact claimOf_le hstep hvt

/-- The thread keeps to the discipline of the monitor. -/
structure Guarded (s : Supply φ γ) (program : Program φ γ ι) (T : Tasks φ γ) (t : ℕ) : Prop where
  /-- it looks again after it has waited -/
  back : ∀ rest, T.todo t = .back s.cond :: rest → s.claim rest = 1
  /-- it waits only if it has decided so -/
  leave : ∀ a rest, T.todo t = a :: rest → (∀ f, a ≠ .cmd (.run f)) → s.leaving rest = true →
    s.leaving (a :: rest) = true
  run : ∀ f i g cmds rest, T.todo t = .cmd (.run f) :: rest →
    program.step f i T.client t = .ok (g, cmds) →
    (s.stock g = s.stock T.client ∨ T.owner s.lock = some t) ∧
    (s.stock g ≤ 0 ∨ s.stock g + s.claim (T.todo t) ≤
      s.stock T.client + s.claim (cmds.flatMap Cmd.actions ++ rest)) ∧
    (s.leaving (cmds.flatMap Cmd.actions ++ rest) = true → s.stock g ≤ 0)

theorem Guarded.stock (h : s.Guarded program T t) (hstep : Tasks.Step program t T T') :
    s.stock T'.client = s.stock T.client ∨ T.owner s.lock = some t := by
  cases hstep with
  | run hs hp => exact (h.run _ _ _ _ _ hs hp).1
  | _ => exact .inl rfl

/-- What is there does not change while another thread is leaving. -/
theorem Supplied.reason_of_ne (h : s.Supplied T) (hexcl : T.Exclusive s.lock) (hfree : T.Free t)
    (hguarded : s.Guarded program T t) (hstep : Tasks.Step program t T T') (hu : u ≠ t)
    (hleaving : s.leaving (T'.todo u) = true) : s.stock T'.client ≤ 0 := by
  have hold : s.leaving (T.todo u) = true := by
    rcases hstep.others u hu with hsame | ⟨-, f, hnew⟩
    · rwa [← hsame]
    · rw [hnew] at hleaving
      cases hleaving
  rcases hguarded.stock hstep with hsame | howner
  · rw [hsame]
    exact h.reason u hold
  · rcases leaving_cases hold with hrel | ⟨rest, hjoin⟩
    · have hinside := hexcl.owner_of_inside (brackets_of_releasing hrel)
      rw [howner] at hinside
      exact absurd (Option.some.inj hinside).symm hu
    · exact absurd (hfree.alone u s.cond rest hjoin) hu

/-- The claims make up for what is added to the stock. -/
theorem Supplied.enough_of_claim (h : s.Supplied T) (hfree : T.Free t)
    (hstep : Tasks.Step program t T T') (hwaiting : T'.waiting s.cond = T.waiting s.cond)
    (hle : s.stock T'.client + s.claim (T.todo t) ≤ s.stock T.client + s.claim (T'.todo t)) :
    T'.waiting s.cond ≠ [] → s.stock T'.client ≤ s.claims T' := by
  intro hne
  rw [hwaiting] at hne
  have hold := h.enough hne
  have hgrow := claims_step (s := s) hfree hstep
  rw [claimOf, hwaiting, if_neg (hfree.awake s.cond)] at hgrow
  omega

theorem Supplied.enough_of_nonpos (hle : s.stock T'.client ≤ 0) :
    T'.waiting s.cond ≠ [] → s.stock T'.client ≤ s.claims T' :=
  fun _ => hle.trans (claims_nonneg T')

theorem Supplied.step (h : s.Supplied T) (hexcl : T.Exclusive s.lock) (hproper : T.Proper)
    (hfree : T.Free t) (hguarded : s.Guarded program T t) (hstep : Tasks.Step program t T T') :
    s.Supplied T' := by
  have hmove : (T'.waiting s.cond ≠ [] → s.stock T'.client ≤ s.claims T') →
      (s.leaving (T'.todo t) = true → s.stock T'.client ≤ 0) → s.Supplied T' := by
    intro henough hown
    refine ⟨henough, fun u hu => ?_⟩
    by_cases hut : u = t
    · exact hown (hut ▸ hu)
    · exact h.reason_of_ne hexcl hfree hguarded hstep hut hu
  -- the thread gets rid of its first action, and leaves the queue of the condition alone
  have hown : ∀ a rest, T.todo t = a :: rest → (∀ f, a ≠ .cmd (.run f)) → T'.todo t = rest →
      T'.client = T.client → s.leaving (T'.todo t) = true → s.stock T'.client ≤ 0 := by
    intro a rest hs ha hs' hclient hleaving
    rw [hclient]
    exact h.reason t (hs ▸ hguarded.leave a rest hs ha (hs' ▸ hleaving))
  have hpop : ∀ a rest, T.todo t = a :: rest → (∀ f, a ≠ .cmd (.run f)) →
      s.claim (a :: rest) ≤ s.claim rest → T'.todo t = rest → T'.client = T.client →
      T'.waiting s.cond = T.waiting s.cond → s.Supplied T' := by
    intro a rest hs ha hclaim hs' hclient hwaiting
    refine hmove (h.enough_of_claim hfree hstep hwaiting ?_) (hown a rest hs ha hs' hclient)
    rw [hclient, hs, hs']
    omega
  cases id hstep with
  | run hs hp =>
      obtain ⟨-, hstock, hleave⟩ := hguarded.run _ _ _ _ _ hs hp
      refine hmove ?_ (by simpa using hleave)
      rcases hstock with hle | hle
      · exact Supplied.enough_of_nonpos hle
      · exact h.enough_of_claim hfree hstep rfl (by simpa using hle)
  | finish hs =>
      refine hmove (h.enough_of_claim hfree hstep rfl ?_) (by simp [leaving, releasing])
      simp [hs, claim]
  | @syscall cmds rest hs hc =>
      cases cmds with
      | nil => exact hpop _ _ hs (by simp) (claim_cons_le (by simp) (by simp) (by simp)) (by simp) rfl rfl
      | cons x cmds =>
          cases hc x List.mem_cons_self
          refine hmove (h.enough_of_claim hfree hstep rfl ?_) (by simp [Cmd.actions, leaving, releasing])
          simp [hs, claim, Cmd.actions]
  | newThread hs | schedule hs | down hs | up hs | take hs | check hs | give hs | notifyAllNone hs =>
      exact hpop _ _ hs (by simp) (claim_cons_le (by simp) (by simp) (by simp))
        (by simp [Tasks.up]) rfl rfl
  | start hs hu hne =>
      exact hpop _ _ hs (by simp) (claim_cons_le (by simp) (by simp) (by simp))
        (by simp [hne.symm]) rfl rfl
  | @skip x rest hs hx =>
      have hrun : ∀ f, x ≠ .run f := by
        rintro f rfl
        exact hx
      exact hpop _ _ hs (by simpa using hrun)
        (claim_cons_le (by simpa using hrun) (by simp) (by simp)) (by simp) rfl rfl
  | @join c rest hs =>
      by_cases hc : c = s.cond
      · subst hc
        have hle := h.reason t (by simp [hs, leaving])
        exact hmove (Supplied.enough_of_nonpos hle) fun _ => hle
      · exact hpop _ _ hs (by simp) (claim_cons_le (by simp) (by simp) (by simp))
          (by simp) rfl (by simp [Ne.symm hc])
  | @back c rest hs =>
      refine hpop _ _ hs (by simp) ?_ (by simp) rfl rfl
      by_cases hc : c = s.cond
      · subst hc
        rw [hguarded.back rest hs]
        simp [claim]
      · simpa [claim, hc] using claim_nonneg rest
  | @notifyNone c rest hs hq =>
      refine hmove ?_ (hown _ _ hs (by simp) (by simp) rfl)
      by_cases hc : c = s.cond
      · subst hc
        exact fun hne => absurd hq hne
      · refine h.enough_of_claim hfree hstep rfl ?_
        simpa [hs, claim, hc] using claim_nonneg rest
  | @notify c rest u q hs hq =>
      refine hmove ?_ (hown _ _ hs (by simp) (by simp) rfl)
      by_cases hc : c = s.cond
      · subst hc
        intro _
        exact (h.enough (by simp [hq])).trans (claims_notify hproper hfree hs hq hstep)
      · refine h.enough_of_claim hfree hstep (by simp [Ne.symm hc]) ?_
        simpa [hs, claim, hc] using claim_nonneg rest
  | @notifyAll c rest u q hs hq =>
      refine hmove ?_ (by simp [hs, leaving, releasing])
      intro hne
      have hsub : (T.setWaiting c q).waiting s.cond ⊆ T.waiting s.cond := by
        by_cases hc : s.cond = c
        · simp [hc, hq]
        · simp [hc]
      have hold := h.enough fun hnil => hne (List.subset_nil.mp (hnil ▸ hsub))
      have hgrow := claims_step (s := s) hfree hstep
      rw [claimOf, if_neg fun ht => hfree.awake s.cond (hsub ht)] at hgrow
      simp only [Tasks.setWaiting_todo, Tasks.setWaiting_client] at hgrow ⊢
      omega

end Supply

end Nachos
