import Nachos.Verification.ThreadTest.Setup

/-! # Readers and writers

The first reader takes `wLock` for all of them, and the last one gives it back. In between, the
number of readers stands for it. -/

namespace Nachos.ThreadTest

open Library

def reading : List (Action Routine) :=
  [.take rLock, .cmd (.run .readEnter), .check rLock, .give rLock, .cmd (.run .read), .take rLock,
    .cmd (.run .readLeave), .check rLock, .give rLock]

def writing : List (Action Routine) := [.down wLock, .cmd (.run .write), .up wLock]

abbrev readLoop : List (Action Routine) := [.cmd (.run .readFunc), .cmd .finish]

abbrev writeLoop : List (Action Routine) := [.cmd (.run .writeFunc), .cmd .finish]

abbrev readWriteFunctions : List Routine := [.readFunc, .writeFunc]

/-- What is left of an iteration of the loop of a reader. -/
def readPlaces : List (List (Action Routine)) :=
  (.down wLock :: reading.drop 2) :: (.up wLock :: reading.drop 7) :: reading.tails

/-- A thread that reads or writes, somewhere in its loop. -/
inductive Visiting : List (Action Routine) → Prop where
  | reader {p} (hp : p ∈ readPlaces) : Visiting (p ++ readLoop)
  | writer {p} (hp : p ∈ writing.tails) : Visiting (p ++ writeLoop)

/-- The thread is between the first `Release` and the second `Acquire` of a reader. -/
def Reading (l : List (Action Routine)) : Prop :=
  l = reading.drop 4 ++ readLoop ∨ l = reading.drop 5 ++ readLoop

/-- The thread is between `P` and `V` of a writer. -/
def Writing (l : List (Action Routine)) : Prop :=
  l = writing.drop 1 ++ writeLoop ∨ l = writing.drop 2 ++ writeLoop

/-- The thread has incremented `rCnt` and not yet decremented it. -/
def Counted (l : List (Action Routine)) : Prop :=
  .cmd (.run .readLeave) ∈ l ∧ .cmd (.run .readEnter) ∉ l

/-- What a thread will still subtract from `rCnt`. -/
def leaves : Action Routine → ℤ
  | .cmd (.run .readEnter) => -1
  | .cmd (.run .readLeave) => 1
  | _ => 0

/-- The readers have `wLock`, or the first one is about to take it. -/
def taken (g : Globals) : ℤ := if 1 ≤ g.rCnt then 1 else 0

variable {g : Globals}

theorem taken_of_pos (h : 1 ≤ g.rCnt) : taken g = 1 := if_pos h

theorem taken_of_nonpos (h : g.rCnt ≤ 0) : taken g = 0 :=
  if_neg (not_le.mpr (Int.lt_add_one_of_le h))

structure Shared (T : Tasks Routine Globals) : Prop where
  spot : ∀ t, Preparing readWriteFunctions (T.todo t) ∨ Visiting (T.todo t)
  exclusive : T.Exclusive rLock
  permit : T.value wLock + T.total (net wLock) + taken T.client = 1
  count : T.client.rCnt = T.total leaves
  first : ∀ t, T.todo t = .down wLock :: reading.drop 2 ++ readLoop → T.client.rCnt = 1

/-- What a thread does next. -/
inductive VisitNext (g g' : Globals) : List (Action Routine) → List (Action Routine) → Prop where
  | pop {a l} (ha : ∀ x, a ≠ .cmd x) (hne : l ≠ .down wLock :: reading.drop 2 ++ readLoop)
      (h : g' = g) : VisitNext g g' (a :: l) l
  | readAgain (h : g' = g) : VisitNext g g' readLoop (reading ++ readLoop)
  | enterFirst (h : g' = { g with rCnt := g.rCnt + 1 }) (hone : g.rCnt + 1 = 1) :
      VisitNext g g' (reading.drop 1 ++ readLoop) (.down wLock :: reading.drop 2 ++ readLoop)
  | enter (h : g' = { g with rCnt := g.rCnt + 1 }) (hone : g.rCnt + 1 ≠ 1) :
      VisitNext g g' (reading.drop 1 ++ readLoop) (reading.drop 2 ++ readLoop)
  | read (h : g' = g) : VisitNext g g' (reading.drop 4 ++ readLoop) (reading.drop 5 ++ readLoop)
  | leaveLast (h : g' = { g with rCnt := g.rCnt + -1 }) (hone : g.rCnt + -1 = 0) :
      VisitNext g g' (reading.drop 6 ++ readLoop) (.up wLock :: reading.drop 7 ++ readLoop)
  | leave (h : g' = { g with rCnt := g.rCnt + -1 }) (hone : g.rCnt + -1 ≠ 0) :
      VisitNext g g' (reading.drop 6 ++ readLoop) (reading.drop 7 ++ readLoop)
  | writeAgain (h : g' = g) : VisitNext g g' writeLoop (writing ++ writeLoop)
  | write (h : g' = { g with bufSize := g.bufSize + 1 }) :
      VisitNext g g' (writing.drop 1 ++ writeLoop) (writing.drop 2 ++ writeLoop)

variable {g' : Globals} {l rest : List (Action Routine)}

section

variable {setup : List (Cmd Routine)} {hsetup : ∀ x ∈ setup, Sets readWriteFunctions x}
  {T T' : Tasks Routine Globals} {t : ℕ} {l' : List (Action Routine)}

theorem Visiting.next (h : Visiting (T.todo t)) (hstep : Tasks.Step (program setup hsetup) t T T') :
    VisitNext T.client T'.client (T.todo t) (T'.todo t) := by
  have hout := hstep.outcome
  have hpop : ∀ a l, T.todo t = a :: l → Tasks.Once a →
      l ≠ .down wLock :: reading.drop 2 ++ readLoop →
      VisitNext T.client T'.client (T.todo t) (T'.todo t) := by
    intro a l hs ha hl
    obtain ⟨hclient, hs'⟩ := hstep.pop hs ha
    rw [hs, hs']
    exact .pop (by rintro x rfl; exact ha) hl hclient
  generalize hs : T.todo t = l at h hout
  rw [← hs]
  cases h with
  | reader hp =>
      simp only [readPlaces, reading, List.drop_succ_cons, List.drop_zero, List.tails,
        List.mem_cons, List.not_mem_nil, or_false] at hp
      rcases hp with rfl | rfl | rfl | rfl | rfl | rfl | rfl | rfl | rfl | rfl | rfl | rfl
      · exact hpop _ _ hs trivial (by simp [reading])
      · exact hpop _ _ hs trivial (by simp [reading])
      · exact hpop _ _ hs trivial (by simp [reading])
      · obtain ⟨i, g, cmds, hcode, rfl⟩ := hout
        have hcode : step setup T.client .readEnter = .ok (g, cmds) := hcode
        obtain ⟨n, hn, hcode⟩ := bind_eq_ok.mp hcode
        cases hcode
        obtain rfl := add32_eq_ok hn
        by_cases hone : T.client.rCnt + 1 = 1
        · rw [if_pos hone, hs]
          simpa [reading, Cmd.actions, Call.actions] using VisitNext.enterFirst rfl hone
        · rw [if_neg hone, hs]
          simpa [reading] using VisitNext.enter rfl hone
      · exact hpop _ _ hs trivial (by simp [reading])
      · exact hpop _ _ hs trivial (by simp [reading])
      · obtain ⟨i, g, cmds, hcode, rfl⟩ := hout
        cases hcode
        rw [hs]
        simpa [reading] using VisitNext.read (g := T.client) rfl
      · exact hpop _ _ hs trivial (by simp [reading])
      · obtain ⟨i, g, cmds, hcode, rfl⟩ := hout
        have hcode : step setup T.client .readLeave = .ok (g, cmds) := hcode
        obtain ⟨n, hn, hcode⟩ := bind_eq_ok.mp hcode
        cases hcode
        obtain rfl := add32_eq_ok hn
        by_cases hone : T.client.rCnt + -1 = 0
        · rw [if_pos hone, hs]
          simpa [reading, Cmd.actions, Call.actions] using VisitNext.leaveLast rfl hone
        · rw [if_neg hone, hs]
          simpa [reading] using VisitNext.leave rfl hone
      · exact hpop _ _ hs trivial (by simp [reading])
      · exact hpop _ _ hs trivial (by simp [reading])
      · obtain ⟨i, g, cmds, hcode, rfl⟩ := hout
        cases hcode
        rw [hs]
        simpa [reading, Cmd.actions, Call.actions] using VisitNext.readAgain (g := T.client) rfl
  | writer hp =>
      simp only [writing, List.tails, List.mem_cons, List.not_mem_nil, or_false] at hp
      rcases hp with rfl | rfl | rfl | rfl
      · exact hpop _ _ hs trivial (by simp [reading])
      · obtain ⟨i, g, cmds, hcode, rfl⟩ := hout
        have hcode : step setup T.client .write = .ok (g, cmds) := hcode
        obtain ⟨n, hn, hcode⟩ := bind_eq_ok.mp hcode
        cases hcode
        obtain rfl := add32_eq_ok hn
        rw [hs]
        simpa [writing] using VisitNext.write (g := T.client) rfl
      · exact hpop _ _ hs trivial (by simp [reading])
      · obtain ⟨i, g, cmds, hcode, rfl⟩ := hout
        cases hcode
        rw [hs]
        simpa [writing, Cmd.actions, Call.actions] using VisitNext.writeAgain (g := T.client) rfl

theorem VisitNext.visiting (h : VisitNext g g' l l') (hl : Visiting l) : Visiting l' := by
  cases h with
  | @pop a _ ha =>
      generalize hs : a :: l' = m at hl
      cases hl with
      | @reader p hp =>
          cases p with
          | nil =>
              cases hs
              exact absurd rfl (ha _)
          | cons b p =>
              cases hs
              refine .reader ?_
              simp only [readPlaces, reading, List.drop_succ_cons, List.drop_zero, List.tails,
                List.mem_cons, List.not_mem_nil, or_false, List.cons.injEq] at hp ⊢
              tauto
      | @writer p hp =>
          cases p with
          | nil =>
              cases hs
              exact absurd rfl (ha _)
          | cons b p =>
              cases hs
              exact .writer (by simp [writing] at hp ⊢; tauto)
  | readAgain => exact .reader (by simp [readPlaces])
  | enterFirst => exact .reader (by simp [readPlaces])
  | enter => exact .reader (by simp [readPlaces, reading])
  | read => exact .reader (by simp [readPlaces, reading])
  | leaveLast => exact .reader (p := .up wLock :: reading.drop 7) (by simp [readPlaces])
  | leave => exact .reader (by simp [readPlaces, reading])
  | writeAgain => exact .writer (by simp [writing])
  | write => exact .writer (by simp [writing])

/-- What is said of the threads that read or write, by where they are. -/
structure Weighed (l : List (Action Routine)) : Prop where
  leaves_nonneg : 0 ≤ weigh leaves l
  leaves_le_one : weigh leaves l ≤ 1
  sum_nonneg : 0 ≤ weigh (net wLock) l + weigh leaves l
  net_nonneg : 0 ≤ weigh (net wLock) l ∨ l = .down wLock :: reading.drop 2 ++ readLoop

theorem Visiting.weighed (h : Visiting l) : Weighed l := by
  cases h with
  | reader hp =>
      simp only [readPlaces, reading, List.drop_succ_cons, List.drop_zero, List.tails,
        List.mem_cons, List.not_mem_nil, or_false] at hp
      rcases hp with rfl | rfl | rfl | rfl | rfl | rfl | rfl | rfl | rfl | rfl | rfl | rfl
      · exact ⟨by decide, by decide, by decide, .inr rfl⟩
      all_goals exact ⟨by decide, by decide, by decide, .inl (by decide)⟩
  | writer hp =>
      simp only [writing, List.tails, List.mem_cons, List.not_mem_nil, or_false] at hp
      rcases hp with rfl | rfl | rfl | rfl <;>
        exact ⟨by decide, by decide, by decide, .inl (by decide)⟩

theorem Preparing.weighed (h : Preparing readWriteFunctions l) :
    weigh leaves l = 0 ∧ weigh (net wLock) l = 0 := by
  constructor <;> refine h.weigh_eq_zero ?_ rfl
  all_goals rintro a (rfl | ⟨_, _, rfl⟩ | ⟨_, _, _, rfl⟩) <;> rfl

theorem Shared.weighed (h : Shared T) (t : ℕ) : Weighed (T.todo t) := by
  rcases h.spot t with hprep | hvisit
  · obtain ⟨hl, hn⟩ := hprep.weighed
    exact ⟨by omega, by omega, by omega, .inl (by omega)⟩
  · exact hvisit.weighed

/-- The lock is given back and taken in turn. -/
theorem VisitNext.brackets {x : Cmd Routine} (h : VisitNext g g' (.cmd x :: rest) l')
    {inside : Bool} (hb : brackets rLock inside rest = true) : brackets rLock inside l' = true := by
  generalize hl : Action.cmd x :: rest = l at h
  cases h with
  | pop ha =>
      cases hl
      exact hb
  | _ =>
      cases hl
      cases inside
      · first | rfl | cases hb
      · first | rfl | cases hb

/-- Only a thread that has the lock changes the number of readers. -/
theorem VisitNext.rCnt_eq (h : VisitNext g g' l l') :
    g'.rCnt = g.rCnt ∨ Nachos.brackets rLock false l = false := by
  cases h with
  | pop _ _ h | readAgain h | read h | writeAgain h => exact .inl (congrArg Globals.rCnt h)
  | write h => exact .inl (by rw [h])
  | enterFirst | enter | leaveLast | leave => exact .inr rfl

/-- What a thread will subtract later is what it has added. -/
theorem VisitNext.leaves_eq (h : VisitNext g g' l l') :
    g'.rCnt + weigh leaves l = g.rCnt + weigh leaves l' := by
  cases h with
  | @pop a _ ha _ h =>
      have hzero : leaves a = 0 := by
        cases a with
        | cmd x => exact absurd rfl (ha x)
        | _ => rfl
      rw [h, weigh_cons, hzero, zero_add]
  | readAgain h | read h | writeAgain h => rw [h]; rfl
  | write h => rw [h]; rfl
  | enterFirst h | enter h | leaveLast h | leave h =>
      rw [h]
      simp [reading, leaves]

/-- Code does not touch `wLock`; but the first and the last reader will. -/
theorem VisitNext.taken_eq {x : Cmd Routine} (h : VisitNext g g' (.cmd x :: rest) l')
    (hle : weigh leaves (.cmd x :: rest) ≤ g.rCnt) :
    weigh (net wLock) l' + taken g' = weigh (net wLock) (.cmd x :: rest) + taken g := by
  generalize hl : Action.cmd x :: rest = l at h hle
  cases h with
  | pop ha =>
      cases hl
      exact absurd rfl (ha x)
  | readAgain h | read h | writeAgain h => rw [h]; rfl
  | write h => rw [h]; rfl
  | enterFirst h hone =>
      rw [taken_of_pos (g := g') (by rw [h]; exact hone.ge), taken_of_nonpos (g := g) (by omega)]
      rfl
  | enter h hone =>
      have hnonneg : 0 ≤ g.rCnt := hle
      rw [taken_of_pos (g := g') (by rw [h]; exact Int.le_add_of_nonneg_left hnonneg),
        taken_of_pos (g := g) (by omega)]
      rfl
  | leaveLast h hone =>
      rw [taken_of_nonpos (g := g') (by rw [h]; exact hone.le), taken_of_pos (g := g) (by omega)]
      rfl
  | leave h hone =>
      have hpos : 1 ≤ g.rCnt := hle
      rw [taken_of_pos (g := g') (by rw [h]; dsimp only; omega), taken_of_pos (g := g) hpos]
      rfl

theorem VisitNext.client_eq (h : VisitNext g g' l l') (hl : ∀ x rest, l ≠ .cmd x :: rest) :
    g' = g := by
  cases h with
  | pop _ _ h => exact h
  | _ => exact absurd rfl (hl _ _)

theorem VisitNext.first (h : VisitNext g g' l l')
    (hl : l' = .down wLock :: reading.drop 2 ++ readLoop) : g'.rCnt = 1 := by
  cases h with
  | pop _ hne => exact absurd hl hne
  | enterFirst h hone => rw [h]; exact hone
  | _ => cases hl

theorem Visiting.mem (h : Visiting l) {a : Action Routine} (ha : a ∈ l) :
    a ∈ reading ++ readLoop ++ (writing ++ writeLoop) := by
  cases h with
  | @reader p hp =>
      rcases List.mem_append.mp ha with ha | ha
      · simp only [readPlaces, List.mem_cons, List.mem_tails] at hp
        rcases hp with rfl | rfl | hp
        · rcases List.mem_cons.mp ha with rfl | ha
          · simp [writing]
          · simp [List.mem_of_mem_drop ha]
        · rcases List.mem_cons.mp ha with rfl | ha
          · simp [writing]
          · simp [List.mem_of_mem_drop ha]
        · simp [hp.subset ha]
      · exact List.mem_append_left _ (List.mem_append_right _ ha)
  | @writer p hp =>
      rcases List.mem_append.mp ha with ha | ha
      · simp [((List.mem_tails _ _).mp hp).subset ha]
      · exact List.mem_append_right _ (List.mem_append_right _ ha)

theorem Shared.visit (h : Shared T) (hfree : T.Free t) (hvisit : Visiting (T.todo t))
    (hstep : Tasks.Step (program setup hsetup) t T T') : Shared T' := by
  have hnext := hvisit.next hstep
  have hothers : ∀ u, u ≠ t → T'.todo u = T.todo u := fun u hu => by
    refine hstep.others_eq (fun v f rest hs => ?_) hu
    have hmem := hvisit.mem (a := .start v f) (by simp [hs])
    simp [reading, writing] at hmem
  have hcreated : T'.created = T.created := by
    refine hstep.created_eq fun pri uninit rest hs => ?_
    have hmem := hvisit.mem (a := .cmd (.newThread pri uninit)) (by simp [hs])
    simp [reading, writing] at hmem
  have htotal : ∀ w, T'.total w = T.total w + (weigh w (T'.todo t) - weigh w (T.todo t)) :=
    fun w => Tasks.total_of_others hfree.lt_created hcreated hothers
  have hcount := h.count
  have hle : weigh leaves (T.todo t) ≤ T.client.rCnt := by
    rw [hcount]
    exact Tasks.weigh_le_total (fun u => (h.weighed u).leaves_nonneg) hfree.lt_created
  refine ⟨fun u => ?_, ?_, ?_, ?_, fun u hu => ?_⟩
  · by_cases hut : u = t
    · exact .inr (hut ▸ hnext.visiting hvisit)
    · rw [hothers u hut]
      exact h.spot u
  · refine h.exclusive.step hstep fun x rest hs inside hb => ?_
    rw [hs] at hnext
    exact hnext.brackets hb
  · have hpermit := h.permit
    have hchange : T'.value wLock + weigh (net wLock) (T'.todo t) + taken T'.client =
        T.value wLock + weigh (net wLock) (T.todo t) + taken T.client := by
      by_cases hcmd : ∃ x rest, T.todo t = .cmd x :: rest
      · obtain ⟨x, rest, hs⟩ := hcmd
        rw [hs] at hnext hle ⊢
        have htaken := hnext.taken_eq hle
        rw [hstep.value_of_cmd hs]
        omega
      · have hvalue := hstep.value_add_weigh (fun x rest hs => hcmd ⟨x, rest, hs⟩) wLock
        rw [hnext.client_eq fun x rest hs => hcmd ⟨x, rest, hs⟩]
        omega
    rw [htotal]
    omega
  · have hchange := hnext.leaves_eq
    rw [htotal]
    omega
  · by_cases hut : u = t
    · subst hut
      exact hnext.first hu
    · rw [hothers u hut] at hu
      have hone := h.first u hu
      rcases hnext.rCnt_eq with hsame | hinside
      · rw [hsame, hone]
      · have htown := h.exclusive.owner_of_inside hinside
        have huown := h.exclusive.owner_of_inside (t := u) (by rw [hu]; rfl)
        rw [htown] at huown
        exact absurd (Option.some.inj huown).symm hut

theorem Shared.prepare (h : Shared T) (hproper : T.Proper) (hfree : T.Free t)
    (hspot : Preparing readWriteFunctions (T.todo t))
    (hstep : Tasks.Step (program setup hsetup) t T T') : Shared T' := by
  have hprep := hspot.step hproper hfree hstep
  have hweights : ∀ w : Action Routine → ℤ, w (.cmd (.run .threadTest)) = 0 →
      (∀ pri uninit, w (.cmd (.newThread pri uninit)) = 0) → (∀ u f, w (.start u f) = 0) →
      w (.cmd .finish) = 0 → w (.cmd (.run .readFunc)) = 0 → w (.cmd (.run .writeFunc)) = 0 →
      T'.total w = T.total w := by
    intro w h₁ h₂ h₃ h₄ h₅ h₆
    refine hprep.total w ?_ h₄ ?_
    · rintro a (rfl | ⟨_, _, rfl⟩ | ⟨_, _, _, rfl⟩)
      · exact h₁
      · exact h₂ _ _
      · exact h₃ _ _
    · intro f hf
      simp only [List.mem_cons, List.not_mem_nil, or_false] at hf
      rcases hf with rfl | rfl
      · exact h₅
      · exact h₆
  refine ⟨fun u => ?_, hspot.exclusive h.exclusive hproper hfree hstep, ?_, ?_, fun u hu => ?_⟩
  · rcases hprep.todo u with hu | ⟨-, hu⟩ | ⟨-, f, hf, hu⟩
    · exact hu ▸ h.spot u
    · exact .inl hu
    · rw [hu]
      simp only [List.mem_cons, List.not_mem_nil, or_false] at hf
      rcases hf with rfl | rfl
      · exact .inr (.reader (p := []) (by simp [readPlaces, reading]))
      · exact .inr (.writer (p := []) (by simp [writing]))
  · rw [hprep.value, hprep.client, hweights _ rfl (fun _ _ => rfl) (fun _ _ => rfl) rfl rfl rfl]
    exact h.permit
  · rw [hprep.client, hweights _ rfl (fun _ _ => rfl) (fun _ _ => rfl) rfl rfl rfl]
    exact h.count
  · rw [hprep.client]
    rcases hprep.todo u with hu' | ⟨-, hu'⟩ | ⟨-, f, hf, hu'⟩
    · exact h.first u (hu' ▸ hu)
    · rw [hu] at hu'
      rcases hu'.head_cases with (ha | ⟨_, _, ha⟩ | ⟨_, _, _, ha⟩) | ha <;> cases ha
    · rw [hu'] at hu
      cases hu

theorem Shared.step (h : Shared T) (hproper : T.Proper) (hfree : T.Free t)
    (hstep : Tasks.Step (program setup hsetup) t T T') : Shared T' := by
  rcases h.spot t with hspot | hspot
  · exact h.prepare hproper hfree hspot hstep
  · exact h.visit hfree hspot hstep

/-- There is a thread that reads or writes, or one with the function `f` is to be started. -/
def Busy (f : Routine) (T : Tasks Routine Globals) : Prop := Present f T ∨ ∃ t, Visiting (T.todo t)

/-- All places of the two loops. -/
def visitPlaces : List (List (Action Routine)) :=
  readPlaces.map (· ++ readLoop) ++ writing.tails.map (· ++ writeLoop)

theorem Visiting.mem_visitPlaces (h : Visiting l) : l ∈ visitPlaces := by
  cases h with
  | reader hp => exact List.mem_append_left _ (List.mem_map_of_mem hp)
  | writer hp => exact List.mem_append_right _ (List.mem_map_of_mem hp)

theorem Visiting.ne_nil (h : Visiting l) : l ≠ [] := by
  cases h <;> simp

theorem Shared.busy (h : Shared T) (hproper : T.Proper) (hfree : T.Free t) {f : Routine}
    (hfork : ∃ u, .call (.fork u f) ∈ setup) (hbusy : Busy f T)
    (hstep : Tasks.Step (program setup hsetup) t T T') : Busy f T' := by
  have hnext : Visiting (T.todo t) → Visiting (T'.todo t) := fun hvisit =>
    (hvisit.next hstep).visiting hvisit
  rcases h.spot t with hspot | hspot
  · rcases hbusy with hpresent | ⟨u, hu⟩
    · exact .inl (hpresent.step hstep (hspot.step hproper hfree hstep |>.present f hfork))
    · by_cases hut : u = t
      · exact .inr ⟨t, hnext (hut ▸ hu)⟩
      · exact .inr ⟨u, by rwa [hstep.todo_of_ne hut hu.ne_nil]⟩
  · exact .inr ⟨t, hnext hspot⟩

end

section

variable {T : Tasks Routine Globals} {t u : ℕ}

theorem Shared.handled (h : Shared T) {acts : List HandlerAct} (hacts : ∀ n < 4, .v n ∉ acts)
    (type : IntType) : Shared (acts.foldl Tasks.act (T.occur type)) := by
  refine Tasks.handled (I := Shared) (fun T type v hT => ?_) (fun T n hn hT => ?_) h type
  · exact ⟨hT.spot, hT.exclusive, hT.permit, hT.count, hT.first⟩
  · have hne : wLock ≠ n := fun heq => hacts wLock (by decide) (heq ▸ hn)
    refine ⟨hT.spot, hT.exclusive, ?_, hT.count, hT.first⟩
    have hvalue : (T.up n).value wLock = T.value wLock := by simp [Tasks.up, hne]
    rw [hvalue]
    exact hT.permit

theorem Writing.weighed (h : Writing l) : weigh (net wLock) l = 1 ∧ weigh leaves l = 0 := by
  rcases h with rfl | rfl <;> exact ⟨by decide, by decide⟩

theorem Reading.weighed (h : Reading l) : weigh (net wLock) l = 0 ∧ weigh leaves l = 1 := by
  rcases h with rfl | rfl <;> exact ⟨by decide, by decide⟩

theorem lt_created_of_ne_nil (hproper : T.Proper) (h : T.todo t ≠ []) : t < T.created :=
  not_le.mp fun hle => h (hproper.unborn t hle)

/-- With more than one reader, nobody else has `wLock`. -/
theorem Shared.not_writing (h : Shared T) (hproper : T.Proper) (hrCnt : 1 < T.client.rCnt) (t : ℕ) :
    ¬ Writing (T.todo t) := by
  intro ht
  have hnonneg : ∀ u, 0 ≤ weigh (net wLock) (T.todo u) := fun u =>
    (h.weighed u).net_nonneg.resolve_right fun hs => hrCnt.ne' (h.first u hs)
  have hlt : t < T.created := lt_created_of_ne_nil hproper (by
    rcases ht with hs | hs <;> simp [hs])
  have hle := Tasks.weigh_le_total hnonneg hlt
  rw [ht.weighed.1] at hle
  have hpermit := h.permit
  rw [taken_of_pos hrCnt.le] at hpermit
  have hvalue := hproper.nonneg wLock
  omega

/-- A writer and another thread are not in their sections together. -/
theorem Shared.exclusion (h : Shared T) (hproper : T.Proper) (ht : Writing (T.todo t))
    (hu : Writing (T.todo u) ∨ Reading (T.todo u)) : t = u := by
  by_contra hne
  have hrCnt : T.client.rCnt ≤ 1 := not_lt.mp fun hlt => h.not_writing hproper hlt t ht
  have hlt : t < T.created ∧ u < T.created := by
    constructor <;> refine lt_created_of_ne_nil hproper ?_
    · rcases ht with hs | hs <;> simp [hs]
    · rcases hu with (hs | hs) | (hs | hs) <;> simp [hs, reading]
  -- each of the two has one permit, or counts as one reader
  have hpair := pair_le_sum (f := fun v => weigh (net wLock) (T.todo v) + weigh leaves (T.todo v))
    (fun v _ => (h.weighed v).sum_nonneg) (Finset.mem_range.mpr hlt.1)
    (Finset.mem_range.mpr hlt.2) hne
  have hone : weigh (net wLock) (T.todo u) + weigh leaves (T.todo u) = 1 := by
    rcases hu with hu | hu <;> rw [hu.weighed.1, hu.weighed.2] <;> rfl
  rw [Finset.sum_add_distrib, ht.weighed.1, ht.weighed.2, hone] at hpair
  change _ ≤ T.total (net wLock) + T.total leaves at hpair
  rw [← h.count] at hpair
  have hpermit := h.permit
  have hvalue := hproper.nonneg wLock
  by_cases hpos : 1 ≤ T.client.rCnt
  · rw [taken_of_pos hpos] at hpermit
    omega
  · rw [taken_of_nonpos (by omega)] at hpermit
    omega

theorem Shared.counted_iff (h : Shared T) (t : ℕ) :
    Counted (T.todo t) ↔ weigh leaves (T.todo t) = 1 := by
  rcases h.spot t with hprep | hvisit
  · rw [hprep.weighed.1]
    refine ⟨fun ⟨hmem, _⟩ => ?_, fun heq => by cases heq⟩
    rcases hprep.mem hmem with (ha | ⟨_, _, ha⟩ | ⟨_, _, _, ha⟩) | ha <;> cases ha
  · generalize T.todo t = l at hvisit
    have hplace := hvisit.mem_visitPlaces
    simp only [visitPlaces, readPlaces, reading, writing, List.drop_succ_cons, List.drop_zero,
      List.tails, List.map_cons, List.map_nil, List.cons_append, List.nil_append, List.mem_cons,
      List.not_mem_nil, or_false] at hplace
    rcases hplace with rfl | rfl | rfl | rfl | rfl | rfl | rfl | rfl | rfl | rfl | rfl | rfl |
      rfl | rfl | rfl | rfl <;> simp [Counted, leaves]

open Classical in
/-- The number of readers is what it is said to be. -/
theorem Shared.rCnt_eq (h : Shared T) (hproper : T.Proper) :
    T.client.rCnt = {t | Counted (T.todo t)}.ncard := by
  have hset : {t | Counted (T.todo t)} =
      ((Finset.range T.created).filter fun t => Counted (T.todo t) : Finset ℕ) := by
    ext t
    simp only [Set.mem_ofPred_eq, Finset.coe_filter, Finset.mem_range]
    refine ⟨fun ht => ⟨lt_created_of_ne_nil hproper (List.ne_nil_of_mem ht.1), ht⟩, fun ht => ht.2⟩
  rw [h.count, hset, Set.ncard_coe_finset, Finset.card_filter]
  push_cast
  refine Finset.sum_congr rfl fun t _ => ?_
  have hle := (h.weighed t).leaves_le_one
  have hnonneg := (h.weighed t).leaves_nonneg
  by_cases hc : Counted (T.todo t)
  · rw [if_pos hc, (h.counted_iff t).mp hc]
  · have hne : weigh leaves (T.todo t) ≠ 1 := fun heq => hc ((h.counted_iff t).mpr heq)
    rw [if_neg hc]
    omega

/-- Where a thread is that cannot go on. -/
inductive VisitBlocked (T : Tasks Routine Globals) : List (Action Routine) → Prop where
  | idle : VisitBlocked T []
  | first (hv : T.value wLock = 0) : VisitBlocked T (.down wLock :: reading.drop 2 ++ readLoop)
  | writer (hv : T.value wLock = 0) : VisitBlocked T (writing ++ writeLoop)
  | enter (ho : T.owner rLock ≠ none) : VisitBlocked T (reading ++ readLoop)
  | leave (ho : T.owner rLock ≠ none) : VisitBlocked T (reading.drop 5 ++ readLoop)

theorem Shared.blocked (h : Shared T) (hproper : T.Proper) (hstuck : T.Stuck) (t : ℕ) :
    VisitBlocked T (T.todo t) := by
  have hspot := h.spot t
  rcases hstuck t with hs | ⟨n, rest, hs, hv⟩ | ⟨l, rest, hs, ho⟩ | ⟨c, hc⟩
  · exact hs ▸ .idle
  · rw [hs] at hspot ⊢
    rcases hspot with hprep | hvisit
    · rcases hprep.head_cases with (ha | ⟨_, _, ha⟩ | ⟨_, _, _, ha⟩) | ha <;> cases ha
    · have hplace := hvisit.mem_visitPlaces
      simp [visitPlaces, readPlaces, reading, writing] at hplace
      rcases hplace with ⟨rfl, rfl⟩ | ⟨rfl, rfl⟩
      · exact .first hv
      · exact .writer hv
  · rw [hs] at hspot ⊢
    rcases hspot with hprep | hvisit
    · rcases hprep.head_cases with (ha | ⟨_, _, ha⟩ | ⟨_, _, _, ha⟩) | ha <;> cases ha
    · have hplace := hvisit.mem_visitPlaces
      simp [visitPlaces, readPlaces, reading, writing] at hplace
      rcases hplace with ⟨rfl, rfl⟩ | ⟨rfl, rfl⟩
      · exact .enter ho
      · exact .leave ho
  · obtain ⟨l, rest, hs⟩ := hproper.parked c t hc
    have hmem : .back c ∈ T.todo t := by simp [hs]
    rcases hspot with hprep | hvisit
    · rcases hprep.mem hmem with (ha | ⟨_, _, ha⟩ | ⟨_, _, _, ha⟩) | ha <;> cases ha
    · have hback := hvisit.mem hmem
      simp [reading, writing] at hback

theorem VisitBlocked.net_nonpos (h : VisitBlocked T l) : weigh (net wLock) l ≤ 0 := by
  cases h <;> decide

/-- If no thread can go on, then none has anything to do. -/
theorem Shared.idle_of_stuck (h : Shared T) (hproper : T.Proper) (hstuck : T.Stuck) (t : ℕ) :
    T.todo t = [] := by
  have hblocked := h.blocked hproper hstuck
  have hpermit := h.permit
  have howner : T.owner rLock = none := by
    by_contra hne
    obtain ⟨u, hu⟩ := Option.ne_none_iff_exists'.mp hne
    have hinside := h.exclusive.inside hu
    have hfirst : T.todo u = .down wLock :: reading.drop 2 ++ readLoop ∧ T.value wLock = 0 := by
      have hb := hblocked u
      generalize T.todo u = l at hinside hb
      cases hb with
      | first hv => exact ⟨rfl, hv⟩
      | _ => cases hinside
    -- it has `rLock` and waits for `wLock`, which then somebody has who can go on
    rw [hfirst.2, taken_of_pos (h.first u hfirst.1).ge] at hpermit
    have hlt : u < T.created := lt_created_of_ne_nil hproper (by simp [hfirst.1])
    have hle : T.total (net wLock) ≤ weigh (net wLock) (T.todo u) := by
      have hneg := Finset.single_le_sum (f := fun v => -weigh (net wLock) (T.todo v))
        (fun v _ => neg_nonneg.mpr (hblocked v).net_nonpos) (Finset.mem_range.mpr hlt)
      rw [Finset.sum_neg_distrib] at hneg
      exact neg_le_neg_iff.mp hneg
    have hminus : weigh (net wLock) (T.todo u) = -1 := by
      rw [hfirst.1]
      decide
    omega
  have hplaces : ∀ u, T.todo u = [] ∨ T.todo u = writing ++ writeLoop ∧ T.value wLock = 0 := by
    intro u
    have hb := hblocked u
    have hown : brackets rLock false (T.todo u) = false → False := fun hinside => by
      rw [h.exclusive.owner_of_inside hinside] at howner
      cases howner
    generalize T.todo u = l at hb hown
    cases hb with
    | idle => exact .inl rfl
    | first => exact (hown rfl).elim
    | writer hv => exact .inr ⟨rfl, hv⟩
    | enter ho | leave ho => exact absurd howner ho
  have hzero : ∀ w : Action Routine → ℤ, weigh w (writing ++ writeLoop) = 0 → T.total w = 0 := by
    intro w hw
    refine Finset.sum_eq_zero fun u _ => ?_
    rcases hplaces u with hs | ⟨hs, -⟩ <;> rw [hs]
    · rfl
    · exact hw
  rcases hplaces t with hs | ⟨-, hv⟩
  · exact hs
  · have hcount := h.count
    rw [hzero leaves (by decide)] at hcount
    rw [hzero (net wLock) (by decide), taken_of_nonpos hcount.le, hv] at hpermit
    cases hpermit

theorem shared_start : Shared (.start .threadTest .new values) where
  spot t := .inl (preparing_start _ t)
  exclusive t := by
    rw [(preparing_start readWriteFunctions t).brackets]
    rfl
  permit := by decide
  count := by decide
  first t hs := by
    have hprep := preparing_start readWriteFunctions t
    rw [hs] at hprep
    rcases hprep.head_cases with (ha | ⟨_, _, ha⟩ | ⟨_, _, _, ha⟩) | ha <;> cases ha

theorem Shared.writing_of_run (h : Shared T) (hs : T.todo t = .cmd (.run .write) :: rest) :
    Writing (T.todo t) := by
  have hspot := h.spot t
  rw [hs] at hspot ⊢
  rcases hspot with hprep | hvisit
  · rcases hprep.head_cases with (ha | ⟨_, _, ha⟩ | ⟨_, _, _, ha⟩) | ha <;> cases ha
  · have hplace := hvisit.mem_visitPlaces
    simp [visitPlaces, readPlaces, reading, writing] at hplace
    exact .inl (congrArg _ hplace)

theorem not_reading_of_writing (h : Writing l) : ¬ Reading l := by
  rintro (h' | h') <;> rcases h with rfl | rfl <;> cases h'

end

/-- Only a writer changes `bufSize`. -/
theorem bufSize_eq_of_step {setup cmds : List (Cmd Routine)} {f : Routine}
    (h : step setup g f = .ok (g', cmds)) (hf : f ≠ .write) : g'.bufSize = g.bufSize := by
  cases f with
  | write => exact absurd rfl hf
  | produce | consume | produce1 | consume1 =>
      simp only [step] at h
      split at h
      · cases h
        rfl
      · obtain ⟨n, -, h⟩ := bind_eq_ok.mp h
        cases h
        rfl
  | readEnter | readLeave =>
      obtain ⟨n, -, h⟩ := bind_eq_ok.mp h
      cases h
      rfl
  | threadTest | producer | customer | producer1 | customer1 | readFunc | read | writeFunc =>
      cases h
      rfl

section

variable {build : Build} {schedPriority : Bool} {machine : Option Machine}
  {setup : List (Cmd Routine)} {hsetup : ∀ x ∈ setup, Sets readWriteFunctions x}
  {k : Kernel Routine Globals}

theorem shared_of_reachable
    (h : (Kernel.systemWhere (config build schedPriority setup hsetup) (· = start machine)
      fun _ env => Apart env).Reachable k) :
    k.core.tasks.Proper ∧ Shared k.core.tasks ∧
      ∀ f, (∃ u, .call (.fork u f) ∈ setup) → Busy f k.core.tasks := by
  refine Kernel.tasks_invariant (I := fun T => Shared T ∧
    ∀ f, (∃ u, .call (.fork u f) ∈ setup) → Busy f T) ?_ ?_ ?_ ?_ h
  · rintro k rfl
    exact initial_start machine
  · rintro k rfl
    rw [tasks_start]
    exact ⟨shared_start, fun f _ => .inl (present_start f)⟩
  · rintro t T T' hproper - ⟨hshared, hbusy⟩ hfree hstep
    have hstep : Tasks.Step (program setup hsetup) t T T' := hstep
    exact ⟨hshared.step hproper hfree hstep, fun f hfork =>
      hshared.busy hproper hfree hfork (hbusy f hfork) hstep⟩
  · rintro k env T type hapart ⟨hshared, hbusy⟩
    refine ⟨hshared.handled hapart type, fun f hfork => ?_⟩
    exact Tasks.handled (I := Busy f) (fun _ _ _ h => h) (fun _ _ _ h => h) (hbusy f hfork) type

/-- Writers exclude each other and readers, `rCnt` counts the readers, what is read does not
change, and some thread can always go on. -/
theorem readers_writers
    (h : (Kernel.systemWhere (config build schedPriority setup hsetup) (· = start machine)
      fun _ env => Apart env).Reachable k) :
    (∀ t u, Writing (k.core.tasks.todo t) → Writing (k.core.tasks.todo u) → t = u) ∧
    (∀ t u, Writing (k.core.tasks.todo t) → ¬ Reading (k.core.tasks.todo u)) ∧
    k.client.rCnt = {t | Counted (k.core.tasks.todo t)}.ncard ∧
    (∀ env k', (Kernel.systemWhere (config build schedPriority setup hsetup) (· = start machine)
        fun _ env => Apart env).step k env () k' →
      (∃ t, Reading (k.core.tasks.todo t)) → k'.client.bufSize = k.client.bufSize) ∧
    (k.core.Alive ∨ (∀ u f, .call (.fork u f) ∉ setup) ∧ ∀ t, k.core.tasks.todo t = []) := by
  obtain ⟨hproper, hshared, hbusy⟩ := shared_of_reachable h
  have hexclusion : ∀ t u, Writing (k.core.tasks.todo t) → ¬ Reading (k.core.tasks.todo u) := by
    intro t u ht hu
    obtain rfl := hshared.exclusion hproper ht (.inr hu)
    exact not_reading_of_writing ht hu
  refine ⟨fun t u ht hu => hshared.exclusion hproper ht (.inl hu), hexclusion,
    hshared.rCnt_eq hproper, ?_, ?_⟩
  · rintro env k' ⟨-, -, hlegal, hstep⟩ ⟨t, ht⟩
    rcases Kernel.client_step hlegal hstep with hsame | ⟨f, rest, i, cmds, hs, hcode⟩
    · rw [hsame]
    · refine bufSize_eq_of_step hcode ?_
      rintro rfl
      have htodo : k.core.tasks.todo k.core.current = .cmd (.run .write) :: todo rest := by
        rw [Core.tasks_todo, hs]
        rfl
      exact hexclusion k.core.current t (hshared.writing_of_run htodo) ht
  · by_cases halive : k.core.Alive
    · exact .inl halive
    · have hinit : ∀ k, k = start machine → Kernel.Initial k := fun k hk => hk ▸ initial_start machine
      have hidle := hshared.idle_of_stuck hproper
        (Kernel.stuck_of_not_alive hinit (Kernel.reachable_of_where h) halive)
      refine .inr ⟨fun u f hfork => ?_, hidle⟩
      rcases hbusy f ⟨u, hfork⟩ with ⟨t, a, ha, -⟩ | ⟨t, ht⟩
      · rw [hidle t] at ha
        cases ha
      · exact ht.ne_nil (hidle t)

end

theorem readers_writers_twoThreads : ∃ k : Kernel Routine Globals, k.client.rCnt = 1 ∧
    {t | Counted (k.core.tasks.todo t)}.ncard = 1 ∧ k.core.Alive := by
  have hrun : (runTwo .readFunc .writeFunc 45).map (·.client.rCnt) = some 1 := by decide +kernel
  obtain ⟨k, hk, hone⟩ := Option.map_eq_some_iff.mp hrun
  obtain ⟨-, -, hcount, -, halive⟩ := readers_writers (reachable_of_runTwo hk)
  refine ⟨k, hone, by omega, halive.resolve_right fun hidle => ?_⟩
  obtain ⟨u, hfork⟩ := (mem_twoThreads .readFunc .writeFunc).1
  exact hidle.1 u _ hfork

end Nachos.ThreadTest
