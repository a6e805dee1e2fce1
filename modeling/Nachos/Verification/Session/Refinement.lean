import Nachos.Verification.Session.Invariant
import Nachos.Verification.Session.Store

/-! # The file system refines the abstract store -/

namespace Nachos

open Library FileSystem

namespace Session

/-! ## The store that a session stands for -/

/-- The bytes of a file, as `Open` and one `ReadAt` of the whole file return them. -/
def lookup (s : Session) (env : FileSystem.Env) (name : List Byte) : Exec (Option (List Byte)) := do
  match ← s.fs.openFile s.disk env name with
  | some file => return some (← file.readAt s.disk file.length 0).2
  | none => return none

def Handle.toStore (h : Handle) : Store.Handle :=
  ⟨FileName.of h.name, h.file.seekPosition.toNat, h.live⟩

structure Abstracts (s : Session) (t : Store) : Prop where
  files : ∀ env name, s.lookup env name = .ok (t.files.lookup (FileName.of name))
  handles : t.handles = s.handles.map Handle.toStore

section

variable {s s' : Session} {mapBlocks dirBlocks : List (Fin NumSectors)} {files : Files}
  {name : List Byte} {t : Store} {i : Fin NumDirEntries} {g : FileImage}

theorem Inv.lookup_absent (inv : s.Inv mapBlocks dirBlocks files)
    (h : ∀ i, ¬ (directoryOn s.disk dirBlocks).Holds name i) (env : FileSystem.Env) :
    s.lookup env name = .ok none := by
  rw [lookup, inv.image.openFile_absent h, ok_bind]
  rfl

theorem Inv.lookup_present (inv : s.Inv mapBlocks dirBlocks files)
    (direct : s.Direct mapBlocks dirBlocks files) (hi : (directoryOn s.disk dirBlocks).Holds name i)
    (hg : files i = some g) (env : FileSystem.Env) :
    s.lookup env name = .ok (some (bytes s.disk g)) := by
  have hlen : g.header.fileLength < 2 ^ 31 := BitVec.toInt_lt
  have hr := inv.represents_file direct hg
  have hread := hr.readAt (p := 0) (show (0 : ℕ) + g.header.fileLength < 2 ^ 31 by omega)
  have hall : OpenFile.transferred (bytes s.disk g).length g.header.fileLength (0 : ℕ) =
      (bytes s.disk g).length := by
    rw [OpenFile.transferred_eq, (inv.length_bytes direct hg).2.1]
    omega
  rw [hall, Int.toNat_natCast, List.drop_zero, List.take_length, Nat.cast_zero] at hread
  rw [lookup, inv.image.openFile_present hi hg, ok_bind]
  dsimp only
  rw [show OpenFile.length ⟨g.header, (g.sector : ℕ), 0⟩ = g.header.fileLength from rfl, hread,
    ok_bind]
  rfl

/-- A file that stays where it is, with its sectors, keeps its bytes. -/
theorem Inv.lookup_congr {files' : Files} (inv : s.Inv mapBlocks dirBlocks files)
    (direct : s.Direct mapBlocks dirBlocks files) (inv' : s'.Inv mapBlocks dirBlocks files')
    (direct' : s'.Direct mapBlocks dirBlocks files')
    (hholds : ∀ i, (directoryOn s'.disk dirBlocks).Holds name i ↔
      (directoryOn s.disk dirBlocks).Holds name i)
    (hfiles : ∀ i g, (directoryOn s.disk dirBlocks).Holds name i → files i = some g →
      files' i = some g ∧ ∀ x ∈ g.sectors, s'.disk x = s.disk x) (env : FileSystem.Env) :
    s'.lookup env name = s.lookup env name := by
  by_cases hname : ∃ i, (directoryOn s.disk dirBlocks).Holds name i
  · obtain ⟨i, hi⟩ := hname
    obtain ⟨g, hg⟩ := inv.image.exists_file hi
    obtain ⟨hg', hkeep⟩ := hfiles i g hi hg
    rw [inv.lookup_present direct hi hg, inv'.lookup_present direct' ((hholds i).mpr hi) hg',
      bytes, bytes, contents_congr _ fun x hx => hkeep x (List.mem_cons_of_mem _ hx)]
  · have habsent := not_exists.mp hname
    rw [inv.lookup_absent habsent,
      inv'.lookup_absent fun i hi => habsent i ((hholds i).mp hi)]

theorem Abstracts.mem_iff (ha : s.Abstracts t) (inv : s.Inv mapBlocks dirBlocks files)
    (direct : s.Direct mapBlocks dirBlocks files) (name : List Byte) :
    FileName.of name ∈ t.files ↔ ∃ i, (directoryOn s.disk dirBlocks).Holds name i := by
  have hlookup := ha.files sampleEnv name
  constructor
  · intro hmem
    by_contra habsent
    rw [inv.lookup_absent (not_exists.mp habsent), Except.ok.injEq, eq_comm,
      Finmap.lookup_eq_none] at hlookup
    exact hlookup hmem
  · rintro ⟨i, hi⟩
    obtain ⟨g, hg⟩ := inv.image.exists_file hi
    rw [inv.lookup_present direct hi hg, Except.ok.injEq] at hlookup
    exact Finmap.mem_of_lookup_eq_some hlookup.symm

/-! ## Steps -/

variable {files' : Files}

/-- The part of a step that concerns one name: the files of all others keep their bytes, and
so does the store. -/
theorem Abstracts.of_one (ha : s.Abstracts t) {map' : Finmap fun _ : FileName => List Byte}
    {handles' : List Store.Handle} (name : List Byte)
    (hhandles : handles' = s'.handles.map Handle.toStore)
    (hthis : ∀ env name', fileKey name' = fileKey name →
      s'.lookup env name' = .ok (map'.lookup (FileName.of name)))
    (hothers : ∀ env name', fileKey name' ≠ fileKey name →
      s'.lookup env name' = s.lookup env name')
    (hmap : ∀ n, n ≠ FileName.of name → map'.lookup n = t.files.lookup n) :
    s'.Abstracts ⟨map', handles'⟩ where
  handles := hhandles
  files env name' := by
    by_cases hkey : fileKey name' = fileKey name
    · rw [hthis env name' hkey, FileName.of_inj.mpr hkey]
    · rw [hothers env name' hkey, ha.files, hmap _ fun he => hkey (FileName.of_inj.mp he)]

theorem Abstracts.create (ha : s.Abstracts t) (inv : s.Inv mapBlocks dirBlocks files)
    (direct : s.Direct mapBlocks dirBlocks files) {initialSize : ℤ} {d' : Disk}
    (hlo : 0 ≤ initialSize) (hhi : initialSize ≤ (NumDirect * SectorSize : ℕ))
    (hc : Created mapBlocks dirBlocks s.disk name initialSize d' i g.sector g.header g.data)
    (hframe : ∀ x, x ∉ mapBlocks → x ∉ dirBlocks → x ∉ g.sectors → d' x = s.disk x)
    (inv' : Inv { s with disk := d' } mapBlocks dirBlocks (Function.update files i (some g)))
    (direct' :
      Direct { s with disk := d' } mapBlocks dirBlocks (Function.update files i (some g))) :
    ∃ t', Store.Step t (.create name initialSize) (.success true) t' ∧
      Abstracts { s with disk := d' } t' := by
  have hself : Function.update files i (some g) i = some g := Function.update_self ..
  have hlen : ((bytes d' g).length : ℤ) = initialSize := by
    obtain ⟨_, ho, -⟩ := hc.obtained
    rw [(inv'.length_bytes direct' hself).2.1, ho.length hlo (hhi.trans (by decide)),
      Int.toNat_of_nonneg hlo]
  have habsent : FileName.of name ∉ t.files := by
    rw [ha.mem_iff inv direct, not_exists]
    exact hc.absent
  have hunused : ∀ name', ¬ (directoryOn s.disk dirBlocks).Holds name' i :=
    fun name' hi => hi.1 hc.unused
  refine ⟨⟨t.files.insert (FileName.of name) (bytes d' g), t.handles⟩, hlen ▸ .create habsent,
    ha.of_one name ha.handles (fun env name' hkey => ?_) (fun env name' hkey => ?_)
    fun n hn => Finmap.lookup_insert_of_ne _ hn⟩
  · have hi : (directoryOn d' dirBlocks).Holds name' i := by
      rw [hc.directory, Directory.Holds, Directory.setEntry_self, Directory.key_newEntry, hkey]
      exact ⟨show (1 : Byte) ≠ 0 by decide, rfl⟩
    rw [inv'.lookup_present direct' hi hself, Finmap.lookup_insert]
  · refine inv.lookup_congr direct inv' direct' (fun j => ?_) (fun j g' hj hg' => ?_) env
    · rw [hc.directory]
      refine Directory.holds_setEntry (hunused name') (.inr ?_) j
      rw [Directory.key_newEntry]
      exact hkey.symm
    · have hne : j ≠ i := fun he => hunused name' (he ▸ hj)
      have hg₂ : Function.update files i (some g) j = some g' := by
        rw [Function.update_of_ne hne]
        exact hg'
      refine ⟨hg₂, fun x hx => ?_⟩
      have hbase := inv'.image.notMem_base hg₂ hx
      refine hframe x (fun hm => hbase (Image.map_mem_base hm))
        (fun hm => hbase (Image.dir_mem_base hm)) fun hm => ?_
      have hdisjoint := inv'.image.owns.disjoint j i hne x
      rw [Files.parts_of_some hg₂, Files.parts_of_some hself] at hdisjoint
      exact hdisjoint hx hm

theorem Abstracts.remove (ha : s.Abstracts t) (inv : s.Inv mapBlocks dirBlocks files)
    (direct : s.Direct mapBlocks dirBlocks files) {d' : Disk} {e : DirectoryEntry}
    (hi : (directoryOn s.disk dirBlocks).Holds name i) (he : e.inUse = 0)
    (hdir : directoryOn d' dirBlocks = (directoryOn s.disk dirBlocks).setEntry i e)
    (hframe : ∀ x, x ∉ mapBlocks → x ∉ dirBlocks → d' x = s.disk x)
    (hs' : s' = { s with disk := d', handles := s.handles.map (Handle.afterRemove name) })
    (inv' : s'.Inv mapBlocks dirBlocks (Function.update files i none))
    (direct' : s'.Direct mapBlocks dirBlocks (Function.update files i none)) :
    ∃ t', Store.Step t (.remove name) (.success true) t' ∧ s'.Abstracts t' := by
  have hpresent : FileName.of name ∈ t.files := (ha.mem_iff inv direct name).mpr ⟨i, hi⟩
  subst hs'
  refine ⟨_, .remove hpresent, ha.of_one name ?_ (fun env name' hkey => ?_) (fun env name' hkey => ?_)
    fun n hn => Finmap.lookup_erase_ne hn⟩
  · rw [ha.handles, List.map_map, List.map_map]
    refine List.map_congr_left fun h _ => ?_
    simp only [Function.comp, Handle.toStore, Handle.afterRemove, Store.Handle.afterRemove, ne_eq,
      FileName.of_inj]
  · rw [Finmap.lookup_erase, inv'.lookup_absent]
    intro j hj
    -- the name was in one entry only, which is empty now
    obtain ⟨g, hg⟩ := inv'.image.exists_file hj
    have hne : j ≠ i := by
      rintro rfl
      rw [Function.update_self] at hg
      cases hg
    rw [hdir, Directory.Holds, Directory.setEntry_of_ne _ hne, hkey] at hj
    exact hne (inv.image.names j i hj.1 hi.1 (hj.2.trans hi.2.symm))
  · have hother : ¬ (directoryOn s.disk dirBlocks).Holds name' i :=
      fun hi' => hkey (hi'.2.symm.trans hi.2)
    refine inv.lookup_congr direct inv' direct' (fun j => ?_) (fun j g hj hg => ?_) env
    · rw [hdir]
      exact Directory.holds_setEntry hother (.inl he) j
    · have hne : j ≠ i := fun he => hother (he ▸ hj)
      refine ⟨by rw [Function.update_of_ne hne]; exact hg, fun x hx => ?_⟩
      have hbase := inv.image.notMem_base hg hx
      exact hframe x (fun hm => hbase (Image.map_mem_base hm))
        fun hm => hbase (Image.dir_mem_base hm)

theorem Abstracts.call (ha : s.Abstracts t) (inv : s.Inv mapBlocks dirBlocks files)
    (direct : s.Direct mapBlocks dirBlocks files) {k : ℕ} {call : OpenFile.Call} {h : Handle}
    {g' : FileImage} {f' : OpenFile} {d' : Disk} {result : OpenFile.Result} {c' : Cursor Byte}
    (hk : s.handles[k]? = some h) (hlive : h.live = true)
    (on : h.On (directoryOn s.disk dirBlocks) files i g)
    (happly : call.apply ⟨bytes s.disk g, h.file.seekPosition.toNat⟩ = (result, c'))
    (hitems : bytes d' g' = c'.items) (hpos : f'.seekPosition = c'.pos)
    (hdir : directoryOn d' dirBlocks = directoryOn s.disk dirBlocks)
    (hframe : ∀ x, x ∉ g.sectors → d' x = s.disk x)
    (hs' : s' = { s with disk := d', handles := s.handles.set k { h with file := f' } })
    (inv' : s'.Inv mapBlocks dirBlocks (Function.update files i (some g')))
    (direct' : s'.Direct mapBlocks dirBlocks (Function.update files i (some g'))) :
    ∃ t', Store.Step t (.call k call) (.transfer result) t' ∧ s'.Abstracts t' := by
  have hbytes : t.files.lookup (Handle.toStore h).name = some (bytes s.disk g) := by
    have hlookup := ha.files sampleEnv h.name
    rw [inv.lookup_present direct on.name on.file, Except.ok.injEq] at hlookup
    exact hlookup.symm
  have hhandle : t.handles[k]? = some (Handle.toStore h) := by
    rw [ha.handles, List.getElem?_map, hk]
    rfl
  subst hs'
  have hstep : Store.Step t (.call k call) _ _ := .call hhandle hlive hbytes
  rw [show (Handle.toStore h).pos = h.file.seekPosition.toNat from rfl, happly] at hstep
  refine ⟨_, hstep, ha.of_one h.name ?_ (fun env name' hkey => ?_)
    (fun env name' hkey => ?_) fun n hn => Finmap.lookup_insert_of_ne _ hn⟩
  · rw [ha.handles, List.map_set]
    congr 1
    rw [Handle.toStore, Handle.toStore, hpos, Int.toNat_natCast]
  · have hi : (directoryOn d' dirBlocks).Holds name' i := by
      rw [hdir, Directory.Holds, hkey]
      exact on.name
    rw [inv'.lookup_present direct' hi (Function.update_self ..), hitems]
    exact congrArg _ (Finmap.lookup_insert t.files).symm
  · refine inv.lookup_congr direct inv' direct' (fun j => by rw [hdir]) (fun j g₂ hj hg => ?_) env
    have hne : j ≠ i := by
      rintro rfl
      exact hkey (hj.2.symm.trans on.name.2)
    refine ⟨by rw [Function.update_of_ne hne]; exact hg, fun x hx => hframe x fun hm => ?_⟩
    have hdisjoint := inv.image.owns.disjoint j i hne x
    rw [Files.parts_of_some hg, Files.parts_of_some on.file] at hdisjoint
    exact hdisjoint hx hm

theorem Effect.refines {op : Op} {reply : Reply}
    (he : s.Effect mapBlocks dirBlocks files op reply s' files') (ha : s.Abstracts t)
    (inv : s.Inv mapBlocks dirBlocks files) (direct : s.Direct mapBlocks dirBlocks files)
    (inv' : s'.Inv mapBlocks dirBlocks files') (direct' : s'.Direct mapBlocks dirBlocks files') :
    ∃ t', Store.Step t op reply t' ∧ s'.Abstracts t' := by
  have hmem := ha.mem_iff inv direct
  cases he with
  | createFails name initialSize => exact ⟨t, .createFails .., ha⟩
  | create hlo hhi created frame =>
      exact ha.create inv direct hlo hhi created frame inv' direct'
  | removeFails absent =>
      exact ⟨t, .removeFails fun h => not_exists.mpr absent ((hmem _).mp h), ha⟩
  | remove holds unused dir frame =>
      exact ha.remove inv direct holds unused dir frame rfl inv' direct'
  | openFails absent => exact ⟨t, .openFails fun h => not_exists.mpr absent ((hmem _).mp h), ha⟩
  | openFile holds file =>
      have hstep := Store.Step.openFile ((hmem _).mpr ⟨_, holds⟩)
      rw [ha.handles, List.length_map] at hstep
      refine ⟨_, hstep, ⟨ha.files, ?_⟩⟩
      rw [List.map_append]
      rfl
  | call handle live on apply items pos dir frame =>
      exact ha.call inv direct handle live on apply items pos dir frame rfl inv' direct'
  | mount => exact ⟨t, .mount t, ha⟩

/-! ## Runs -/

theorem init_abstracts (h : system.init s) : s.Abstracts ⟨∅, []⟩ := by
  obtain ⟨mapBlocks, dirBlocks, inv, -, -⟩ := init_inv h
  obtain ⟨-, -, -, hhandles⟩ := h
  refine ⟨fun env name => ?_, by rw [hhandles]; rfl⟩
  rw [inv.lookup_absent fun i hi => ?_]
  · rfl
  · obtain ⟨g, hg⟩ := inv.image.exists_file hi
    cases hg

/-- The simulation: the invariant holds and the session stands for the store. -/
def Simulates (s : Session) (t : Store) : Prop :=
  (∃ mapBlocks dirBlocks files, s.Inv mapBlocks dirBlocks files ∧
    s.Direct mapBlocks dirBlocks files) ∧ s.Abstracts t

theorem init_simulates (h : system.init s) : s.Simulates ⟨∅, []⟩ := by
  obtain ⟨mapBlocks, dirBlocks, inv, direct, -⟩ := init_inv h
  exact ⟨⟨mapBlocks, dirBlocks, _, inv, direct⟩, init_abstracts h⟩

theorem Simulates.step {i : FileSystem.Env × Op} {reply : Reply} (h : s.Simulates t)
    (hs : system.step s i reply s') :
    ∃ t', Store.system.step t i reply t' ∧ s'.Simulates t' := by
  obtain ⟨⟨mapBlocks, dirBlocks, files, inv, direct⟩, ha⟩ := h
  obtain ⟨hlegal, hstep⟩ := hs
  obtain ⟨reply', u, files', hstep', heffect, inv', direct'⟩ := inv.step_legal direct i.1 hlegal
  rw [hstep'] at hstep
  obtain ⟨rfl, rfl⟩ := Prod.mk.inj (Except.ok.inj hstep)
  obtain ⟨t', ht, ha'⟩ := heffect.refines ha inv direct inv' direct'
  exact ⟨t', ht, ⟨mapBlocks, dirBlocks, files', inv', direct'⟩, ha'⟩

/-- Every run of legal calls, restarts among them, is a run of the store with the same
answers, and what can be read in the end are the arrays of the store. Legal calls never
fail, and the store never changes the length of an array. -/
theorem runs_refine_store :
    (∀ s₀ trace s, system.init s₀ → system.Run s₀ trace s →
      (∃ t, Store.system.Run ⟨∅, []⟩ trace t ∧ s.Abstracts t) ∧
      ∀ env op, s.Legal op → ∃ reply s', s.step env op = .ok (reply, s')) ∧
    ∀ t op reply t', Store.Step t op reply t' → ∀ name bytes bytes',
      t.files.lookup name = some bytes → t'.files.lookup name = some bytes' →
      bytes'.length = bytes.length := by
  refine ⟨fun s₀ trace s hinit hrun => ⟨?_, fun env op hlegal => ?_⟩,
    fun t op reply t' hstep name bytes bytes' => hstep.length_eq⟩
  · obtain ⟨t, hrun', -, ha⟩ := hrun.simulation (init_simulates hinit)
      fun _ _ _ _ _ => Simulates.step
    exact ⟨t, hrun', ha⟩
  · obtain ⟨mapBlocks, dirBlocks, files, inv, direct⟩ := reachable_inv ⟨s₀, trace, hinit, hrun⟩
    obtain ⟨reply, s', _, hstep, _⟩ := inv.step_legal direct env hlegal
    exact ⟨reply, s', hstep⟩

theorem runs_refine_store_sample :
    ∃ s₀ s₁ t, system.init s₀ ∧
      system.step s₀ (sampleEnv, .create [97] 200) (.success true) s₁ ∧
      Store.system.Run ⟨∅, []⟩ [((sampleEnv, .create [97] 200), .success true)] t ∧
      s₁.Abstracts t := by
  obtain ⟨s₀, s₁, hinit, hstep⟩ := exists_created
  obtain ⟨⟨t, hrun, ha⟩, -⟩ := runs_refine_store.1 s₀ _ s₁ hinit (.snoc (.nil s₀) hstep)
  exact ⟨s₀, s₁, t, hinit, hstep, hrun, ha⟩

end

end Session

end Nachos
