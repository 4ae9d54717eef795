import MiniFs.Fs.Dir
import MiniFs.Fs.File

/-!
# The file system interface

The calls of MiniFS on a mounted device, and the handles a client holds.
-/

namespace MiniFs

open Fs

/-- `nebula_fs_create`. -/
def nebulaFsCreate (name : Name) (mode : UInt32) (now : UInt64) : Fs NebulaFile := do
  let file ← nebulaFileCreate mode now
  match ← attempt (nebulaDirAdd name file.inode.inodeNum dirFlagFile) with
  | .ok () => return file
  | .error error =>
      let _ ← attempt (nebulaFileDelete file)
      throw error

/-- `nebula_fs_open`. -/
def nebulaFsOpen (name : Name) (flags : UInt32) : Fs NebulaFile := do
  let inodeNum ← nebulaDirLookup name
  nebulaFileOpen inodeNum flags

/-- `nebula_fs_file_size`. -/
def nebulaFsFileSize (file : NebulaFile) : UInt64 := file.inode.sizeBytes

/-- `nebula_fs_delete`. -/
def nebulaFsDelete (name : Name) : Fs Unit := do
  let inodeNum ← nebulaDirLookup name
  nebulaDirRemove name
  let file ← nebulaFileOpen inodeNum openReadWrite
  nebulaFileDelete file

/-- `nebula_fs_lookup`. -/
def nebulaFsLookup (name : Name) : Fs UInt64 := nebulaDirLookup name

/-- `nebula_fs_readdir`, with a callback that collects the entries. -/
def nebulaFsReaddir : Fs (List DirItem) := nebulaDirList

/-- A handle a client holds, and the name it was opened under. -/
structure Handle where
  name : Name
  file : NebulaFile

/-- The file system and its client: handles are kept in variables. -/
structure FsSystem where
  state : FsState
  handles : Nat → Option Handle

/-- The calls of a client.  Each names the variable of the handle it makes or uses. -/
inductive FsCall
  | create (handle : Nat) (name : Name) (mode : UInt32)
  | open (handle : Nat) (name : Name) (flags : UInt32)
  | write (handle : Nat) (offset : UInt64) (data : List UInt8)
  | read (handle : Nat) (offset : UInt64) (len : Nat)
  | close (handle : Nat)
  | delete (name : Name)
  | lookup (name : Name)
  | readdir
  /-- Unmount and mount again; `heap` is what fresh memory holds. -/
  | remount (heap : Nat → Block)

/-- What a call returns. -/
inductive FsResult
  | error (error : Errno)
  | done
  | handle (file : NebulaFile)
  | count (n : Nat)
  | bytes (bytes : List UInt8)
  | inode (inodeNum : UInt64)
  | items (items : List DirItem)

namespace FsSystem

/-- The system after a call that leaves the handles alone. -/
def withState (system : FsSystem) (state : FsState) : FsSystem := { system with state }

/-- Put a handle into a variable, or drop it. -/
def setHandle (system : FsSystem) (index : Nat) (handle : Option Handle) : FsSystem :=
  { system with handles := Function.update system.handles index handle }

/-- Handles of a deleted file are not used again. -/
def dropHandles (system : FsSystem) (name : Name) : FsSystem :=
  { system with
    handles := fun index => (system.handles index).filter fun handle => handle.name ≠ name }

/-- Keep the handle a call has changed. -/
def keepFile (system : FsSystem) (index : Nat) (handle : Handle) (file : NebulaFile) : FsSystem :=
  system.setHandle index (some { handle with file })

/-- Perform a call at a time. -/
def perform (system : FsSystem) (call : FsCall) (now : UInt64) : FsResult × FsSystem :=
  match call with
  | .create index name mode =>
      match (nebulaFsCreate name mode now).run system.state with
      | (.ok file, state) =>
          (.handle file, (system.withState state).setHandle index (some ⟨name, file⟩))
      | (.error error, state) => (.error error, system.withState state)
  | .open index name flags =>
      match (nebulaFsOpen name flags).run system.state with
      | (.ok file, state) =>
          (.handle file, (system.withState state).setHandle index (some ⟨name, file⟩))
      | (.error error, state) => (.error error, system.withState state)
  | .write index offset data =>
      match system.handles index with
      | none => (.error .EINVAL, system)
      | some handle =>
          match (nebulaFileWrite handle.file offset data now).run system.state with
          | (.ok (.ok n, file), state) =>
              (.count n, (system.withState state).keepFile index handle file)
          | (.ok (.error error, file), state) =>
              (.error error, (system.withState state).keepFile index handle file)
          | (.error error, state) => (.error error, system.withState state)
  | .read index offset len =>
      match system.handles index with
      | none => (.error .EINVAL, system)
      | some handle =>
          match (nebulaFileRead handle.file offset len now).run system.state with
          | (.ok (.ok bytes, file), state) =>
              (.bytes bytes, (system.withState state).keepFile index handle file)
          | (.ok (.error error, file), state) =>
              (.error error, (system.withState state).keepFile index handle file)
          | (.error error, state) => (.error error, system.withState state)
  | .close index =>
      match system.handles index with
      | none => (.done, system)
      | some handle =>
          match (nebulaFileClose handle.file now).run system.state with
          | (.ok (), state) => (.done, (system.withState state).setHandle index none)
          | (.error error, state) =>
              (.error error, (system.withState state).setHandle index none)
  | .delete name =>
      match (nebulaFsDelete name).run system.state with
      | (.ok (), state) => (.done, (system.withState state).dropHandles name)
      | (.error error, state) => (.error error, system.withState state)
  | .lookup name =>
      match (nebulaFsLookup name).run system.state with
      | (.ok inodeNum, state) => (.inode inodeNum, system.withState state)
      | (.error error, state) => (.error error, system.withState state)
  | .readdir =>
      match nebulaFsReaddir.run system.state with
      | (.ok items, state) => (.items items, system.withState state)
      | (.error error, state) => (.error error, system.withState state)
  | .remount heap =>
      match nebulaMountDo heap system.state.disk with
      | .ok mount => (.done, system.withState (system.state.withVolume ⟨system.state.disk, mount⟩))
      | .error error => (.error error, system)

end FsSystem

end MiniFs
