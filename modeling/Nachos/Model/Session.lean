import Nachos.Model.FileSystem

/-! # Sessions

The file system in use: it has been formatted and then serves any sequence of calls, with
any number of files open at once. -/

namespace Nachos

/-- The part of a name that the directory compares. -/
def fileKey (name : List Byte) : List Byte := (cstring name).take FileNameMaxLen

/-- An open file. `name` and `live` are not part of the program: they record which name was
opened and that no `Remove` of that name has succeeded since. -/
structure Handle where
  file : OpenFile
  name : List Byte
  live : Bool

structure Session where
  fs : FileSystem
  disk : Disk
  handles : List Handle

namespace Session

inductive Op where
  | create (name : List Byte) (initialSize : ℤ)
  | remove (name : List Byte)
  | openFile (name : List Byte)
  | call (handle : ℕ) (call : OpenFile.Call)
  /-- start again with `FileSystem(FALSE)` -/
  | mount

inductive Reply where
  | success (result : Bool)
  | handle (h : Option ℕ)
  | transfer (result : OpenFile.Result)
  | mounted

/-- Handles on a removed name are no longer live. -/
def Handle.afterRemove (name : List Byte) (h : Handle) : Handle :=
  { h with live := h.live && decide (fileKey h.name ≠ fileKey name) }

def step (env : FileSystem.Env) (s : Session) : Op → Exec (Reply × Session)
  | .create name initialSize => do
      let (success, d) ← s.fs.create s.disk env name initialSize
      return (.success success, { s with disk := d })
  | .remove name => do
      let (success, d) ← s.fs.remove s.disk env name
      return (.success success, { s with
        disk := d
        handles := if success then s.handles.map (Handle.afterRemove name) else s.handles })
  | .openFile name => do
      match ← s.fs.openFile s.disk env name with
      | some file => return (.handle (some s.handles.length),
          { s with handles := s.handles ++ [⟨file, name, true⟩] })
      | none => return (.handle none, s)
  | .call i call => do
      match s.handles[i]? with
      | some h =>
          let (result, file, d) ← call.run ⟨env.szTime 0, env.buffer 0⟩ h.file s.disk
          return (.transfer result,
            { s with disk := d, handles := s.handles.set i { h with file := file } })
      | none => .error .bounds
  | .mount => do
      return (.mounted, { s with fs := ← FileSystem.mount s.disk })

end Session

end Nachos
