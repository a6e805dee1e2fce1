import Nachos.Library.Transition
import Nachos.Model.Session
import Nachos.Verification.OpenFile.Refinement

/-! # The abstract store

What the file system is for: a finite map from names to arrays of bytes, and handles
that remember a name and a position in its array. -/

namespace Nachos

open Library

theorem fileKey_fileKey (name : List Byte) : fileKey (fileKey name) = fileKey name := by
  have hnul : ∀ b ∈ fileKey name, (b != 0) = true := fun b hb =>
    List.mem_takeWhile_imp (p := (· != 0)) (List.mem_of_mem_take hb)
  have htake : (fileKey name).length ≤ FileNameMaxLen := List.length_take_le _ _
  rw [fileKey, cstring, List.takeWhile_eq_self_iff.mpr hnul, List.take_of_length_le htake]

/-- The names that the directory tells apart: at most `FileNameMaxLen` characters. -/
def FileName := { name : List Byte // fileKey name = name }
  deriving DecidableEq

/-- The file that a name given by the user stands for. -/
def FileName.of (name : List Byte) : FileName := ⟨fileKey name, fileKey_fileKey name⟩

theorem FileName.of_inj {name name' : List Byte} :
    FileName.of name = FileName.of name' ↔ fileKey name = fileKey name' :=
  Subtype.mk_eq_mk

namespace Store

structure Handle where
  name : FileName
  pos : ℕ
  live : Bool

def Handle.afterRemove (name : FileName) (h : Handle) : Handle :=
  { h with live := h.live && decide (h.name ≠ name) }

end Store

structure Store where
  files : Finmap fun _ : FileName => List Byte
  handles : List Store.Handle

namespace Store

open Session (Op Reply)

/-- The answers that the store may give to a call. The contents of a new file are not
specified, nor is when `Create` may fail. -/
inductive Step : Store → Op → Reply → Store → Prop where
  | createFails (t : Store) (name : List Byte) (initialSize : ℤ) :
      Step t (.create name initialSize) (.success false) t
  | create {t : Store} {name bytes : List Byte} (habsent : FileName.of name ∉ t.files) :
      Step t (.create name bytes.length) (.success true)
        { t with files := t.files.insert (FileName.of name) bytes }
  | removeFails {t : Store} {name : List Byte} (habsent : FileName.of name ∉ t.files) :
      Step t (.remove name) (.success false) t
  | remove {t : Store} {name : List Byte} (h : FileName.of name ∈ t.files) :
      Step t (.remove name) (.success true)
        ⟨t.files.erase (FileName.of name),
          t.handles.map (Handle.afterRemove (FileName.of name))⟩
  | openFails {t : Store} {name : List Byte} (habsent : FileName.of name ∉ t.files) :
      Step t (.openFile name) (.handle none) t
  | openFile {t : Store} {name : List Byte} (h : FileName.of name ∈ t.files) :
      Step t (.openFile name) (.handle (some t.handles.length))
        { t with handles := t.handles ++ [⟨FileName.of name, 0, true⟩] }
  | call {t : Store} {k : ℕ} {call : OpenFile.Call} {h : Handle} {bytes : List Byte}
      (hk : t.handles[k]? = some h) (hlive : h.live = true)
      (hbytes : t.files.lookup h.name = some bytes) :
      Step t (.call k call) (.transfer (call.apply ⟨bytes, h.pos⟩).1)
        ⟨t.files.insert h.name (call.apply ⟨bytes, h.pos⟩).2.items,
          t.handles.set k { h with pos := (call.apply ⟨bytes, h.pos⟩).2.pos }⟩
  | mount (t : Store) : Step t .mount .mounted t

/-- The store, which starts empty. -/
def system : System Store (FileSystem.Env × Op) Reply where
  init t := t = ⟨∅, []⟩
  step t i reply t' := Step t i.2 reply t'

theorem length_apply (call : OpenFile.Call) (c : Cursor Byte) :
    (call.apply c).2.items.length = c.items.length := by
  cases call with
  | seek | read | readAt => rfl
  | write | writeAt => exact length_overwrite ..

/-- The length of a file never changes. -/
theorem Step.length_eq {t t' : Store} {op : Op} {reply : Reply} (h : Step t op reply t')
    {name : FileName} {bytes bytes' : List Byte} (hb : t.files.lookup name = some bytes)
    (hb' : t'.files.lookup name = some bytes') : bytes'.length = bytes.length := by
  have hsame : t.files.lookup name = some bytes' → bytes'.length = bytes.length := by
    intro he
    rw [hb, Option.some.injEq] at he
    rw [he]
  cases h with
  | createFails | removeFails | openFails | openFile | mount => exact hsame hb'
  | @create name' data habsent =>
      have hne : name ≠ FileName.of name' := by
        rintro rfl
        exact habsent (Finmap.mem_of_lookup_eq_some hb)
      rw [Finmap.lookup_insert_of_ne _ hne] at hb'
      exact hsame hb'
  | @remove name' _ =>
      by_cases hne : name = FileName.of name'
      · rw [hne, Finmap.lookup_erase] at hb'
        cases hb'
      · rw [Finmap.lookup_erase_ne hne] at hb'
        exact hsame hb'
  | @call k call h data hk hlive hbytes =>
      by_cases hne : name = h.name
      · subst hne
        rw [Finmap.lookup_insert, Option.some.injEq] at hb'
        rw [hb, Option.some.injEq] at hbytes
        rw [← hb', length_apply, hbytes]
      · rw [Finmap.lookup_insert_of_ne _ hne] at hb'
        exact hsame hb'

end Store

end Nachos
