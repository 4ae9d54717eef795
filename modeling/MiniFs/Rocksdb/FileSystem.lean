import MiniFs.Rocksdb.SequentialFile

/-!
# The RocksDB file system

The adapter keeps the files of RocksDB on a mounted device.  Paths lose their directories.  A
writable file is a handle with a cursor at which appends are written, and a rename reads the whole
file, deletes it and writes it again under its new name.
-/

namespace MiniFs

open Fs

/-- The bytes of a text. -/
def utf8 (text : String) : List UInt8 := text.toUTF8.toList

/-- `rocksdb::IOStatus` as the adapter makes it: a context, and the error whose text
stands behind it. -/
inductive IOStatus
  | ok
  | notFound (context : List UInt8)
  | invalidArgument (context : List UInt8)
  | noSpace (context : List UInt8)
  | ioError (context : List UInt8) (error : Option Errno)
  deriving DecidableEq

/-- `io_err`; the return code is zero or an error. -/
def ioErr (rc : Option Errno) (ctx : List UInt8) : IOStatus :=
  match rc with
  | none => .ok
  | some .ENOENT => .notFound ctx
  | some .EEXIST => .invalidArgument (ctx ++ utf8 ": exists")
  | some .ENOSPC => .noSpace ctx
  | some error => .ioError ctx (some error)

/-- The return code of a call. -/
def FsResult.rc : FsResult → Option Errno
  | .error rc => some rc
  | _ => none

/-- The bytes a read has put into the buffer. -/
def FsResult.got : FsResult → List UInt8
  | .bytes got => got
  | _ => []

/-- `NebulaFileSystem::basename`: what follows the last slash. -/
def basename (path : List UInt8) : List UInt8 := (path.reverse.takeWhile (· ≠ 47)).reverse

/-- The name the file system is given: the `c_str()` of the base name. -/
def fileName (path : List UInt8) : Name := cString (basename path)

/-- The mode of new files, 0644. -/
def writableMode : UInt32 := 0x1A4

/-- `NebulaWritableFile`; its handle is in a variable of the client. -/
structure NebulaWritableFile where
  fh : Option Nat
  pos : UInt64
  closed : Bool

/-- The file objects RocksDB is given. -/
inductive RocksFile
  | sequential (pos size : UInt64)
  | randomAccess
  | writable (file : NebulaWritableFile)

/-- The adapter and its file objects.  The handle of file `index` is in variable `index + 1`;
variable 0 is for the handle a method opens and closes itself. -/
structure RocksSystem where
  system : FsSystem
  files : Nat → Option RocksFile

/-- The calls of RocksDB. -/
inductive RocksCall
  | newSequentialFile (index : Nat) (fname : List UInt8)
  | newRandomAccessFile (index : Nat) (fname : List UInt8)
  | newWritableFile (index : Nat) (fname : List UInt8)
  | reopenWritableFile (index : Nat) (fname : List UInt8)
  | sequentialRead (index : Nat) (n : UInt64)
  | skip (index : Nat) (n : UInt64)
  | readAt (index : Nat) (offset n : UInt64)
  | append (index : Nat) (data : List UInt8)
  | closeWritable (index : Nat)
  | writableSize (index : Nat)
  /-- The destructor of a file object. -/
  | destroy (index : Nat)
  | fileExists (fname : List UInt8)
  | getChildren
  | deleteFile (fname : List UInt8)
  | getFileSize (fname : List UInt8)
  | renameFile (src target : List UInt8)
  /-- The destructor of the file system, and its constructor on the same device. -/
  | remount (heap : Nat → Block)

/-- What RocksDB is answered. -/
inductive RocksAnswer
  | status (status : IOStatus)
  | slice (bytes : List UInt8)
  | size (size : UInt64)
  | names (names : List Name)
  | mountFailed (error : Option Errno)
  | noFile

namespace RocksSystem

variable (rocks : RocksSystem) (clock : Nat → UInt64)

/-- Put a file object into a variable, or drop it. -/
def setFile (system : FsSystem) (index : Nat) (file : Option RocksFile) : RocksSystem :=
  ⟨system, Function.update rocks.files index file⟩

/-- The file objects stay as they are. -/
def withSystem (system : FsSystem) : RocksSystem := { rocks with system }

/-- `nebula_fs_open` for a file object, which is made of the handle; `ctx` is the
context of the error. -/
def openFile (index : Nat) (fname : List UInt8) (flags : UInt32) (ctx : String)
    (make : NebulaFile → RocksFile) : RocksAnswer × RocksSystem :=
  match rocks.system.perform (.open (index + 1) (fileName fname) flags) (clock 0) with
  | (.handle fh, system) => (.status .ok, rocks.setFile system index (some (make fh)))
  | (result, system) =>
      (.status (ioErr result.rc (utf8 ctx ++ basename fname)), rocks.withSystem system)

/-- `NebulaFileSystem::NewSequentialFile`. -/
def newSequentialFile (index : Nat) (fname : List UInt8) : RocksAnswer × RocksSystem :=
  rocks.openFile clock index fname openReadOnly "NewSequentialFile:" fun fh =>
    let file := MiniFs.newSequentialFile fh
    .sequential file.pos file.size

/-- `NebulaFileSystem::NewRandomAccessFile`. -/
def newRandomAccessFile (index : Nat) (fname : List UInt8) : RocksAnswer × RocksSystem :=
  rocks.openFile clock index fname openReadOnly "NewRandomAccessFile:" fun _ => .randomAccess

/-- `NebulaFileSystem::NewWritableFile`; what the delete returns is ignored. -/
def newWritableFile (index : Nat) (fname : List UInt8) : RocksAnswer × RocksSystem :=
  let (_, deleted) := rocks.system.perform (.delete (fileName fname)) (clock 0)
  match deleted.perform (.create (index + 1) (fileName fname) writableMode) (clock 1) with
  | (.handle _, system) =>
      (.status .ok, rocks.setFile system index (some (.writable ⟨some (index + 1), 0, false⟩)))
  | (result, system) =>
      (.status (ioErr result.rc (utf8 "NewWritableFile:" ++ basename fname)),
        rocks.withSystem system)

/-- `NebulaFileSystem::ReopenWritableFile`. -/
def reopenWritableFile (index : Nat) (fname : List UInt8) : RocksAnswer × RocksSystem :=
  rocks.openFile clock index fname openReadWrite "ReopenWritableFile:" fun fh =>
    .writable ⟨some (index + 1), nebulaFsFileSize fh, false⟩

/-- `NebulaSequentialFile::Read`. -/
def sequentialRead (index : Nat) (n : UInt64) : RocksAnswer × RocksSystem :=
  match rocks.files index, rocks.system.handles (index + 1) with
  | some (.sequential pos size), some handle =>
      match (NebulaSequentialFile.read ⟨handle.file, pos, size⟩ n (clock 0)).run
        rocks.system.state with
      | (.ok (reply, file), state) =>
          let system := (rocks.system.withState state).keepFile (index + 1) handle file.fh
          let answer := match reply with
            | .ok bytes => .slice bytes
            | .error error => .status (.ioError (utf8 "NebulaSequentialFile::Read") (some error))
          (answer, rocks.setFile system index (some (.sequential file.pos file.size)))
      | (.error error, state) =>
          (.status (.ioError (utf8 "NebulaSequentialFile::Read") (some error)),
            rocks.withSystem (rocks.system.withState state))
  | _, _ => (.noFile, rocks)

/-- `NebulaSequentialFile::Skip`. -/
def skip (index : Nat) (n : UInt64) : RocksAnswer × RocksSystem :=
  match rocks.files index with
  | some (.sequential pos size) =>
      (.status .ok, rocks.setFile rocks.system index (some (.sequential (min (pos + n) size) size)))
  | _ => (.noFile, rocks)

/-- `NebulaRandomAccessFile::Read`. -/
def readAt (index : Nat) (offset n : UInt64) : RocksAnswer × RocksSystem :=
  match rocks.files index, rocks.system.handles (index + 1) with
  | some .randomAccess, some handle =>
      match (randomAccessRead handle.file offset n (clock 0)).run rocks.system.state with
      | (.ok (reply, file), state) =>
          let system := (rocks.system.withState state).keepFile (index + 1) handle file
          let answer := match reply with
            | .ok bytes => .slice bytes
            | .error error => .status (.ioError (utf8 "NebulaRandomAccessFile::Read") (some error))
          (answer, rocks.withSystem system)
      | (.error error, state) =>
          (.status (.ioError (utf8 "NebulaRandomAccessFile::Read") (some error)),
            rocks.withSystem (rocks.system.withState state))
  | _, _ => (.noFile, rocks)

/-- `NebulaWritableFile::Append`. -/
def append (index : Nat) (data : List UInt8) : RocksAnswer × RocksSystem :=
  match rocks.files index with
  | some (.writable file) =>
      if file.closed then (.status (.ioError (utf8 "file already closed") none), rocks)
      else match file.fh with
        | none => (.status (.ioError (utf8 "NebulaWritableFile::Append") (some .EINVAL)), rocks)
        | some fh =>
            match rocks.system.perform (.write fh file.pos data) (clock 0) with
            | (.count n, system) => (.status .ok, rocks.setFile system index
                (some (.writable { file with pos := file.pos + UInt64.ofNat n })))
            | (result, system) =>
                (.status (.ioError (utf8 "NebulaWritableFile::Append") result.rc),
                  rocks.withSystem system)
  | _ => (.noFile, rocks)

/-- `NebulaWritableFile::Close`. -/
def closeWritable (index : Nat) : RocksAnswer × RocksSystem :=
  match rocks.files index with
  | some (.writable ⟨some fh, pos, false⟩) =>
      let (result, system) := rocks.system.perform (.close fh) (clock 0)
      (.status (ioErr result.rc (utf8 "NebulaWritableFile::Close")),
        rocks.setFile system index (some (.writable ⟨none, pos, true⟩)))
  | some (.writable _) => (.status .ok, rocks)
  | _ => (.noFile, rocks)

/-- `NebulaWritableFile::GetFileSize`. -/
def writableSize (index : Nat) : RocksAnswer × RocksSystem :=
  match rocks.files index with
  | some (.writable file) => (.size file.pos, rocks)
  | _ => (.noFile, rocks)

/-- The destructors `~NebulaSequentialFile`, `~NebulaRandomAccessFile` and `~NebulaWritableFile`. -/
def destroy (index : Nat) : RocksAnswer × RocksSystem :=
  match rocks.files index with
  | none => (.noFile, rocks)
  | some (.writable ⟨some fh, _, false⟩) =>
      (.status .ok, rocks.setFile (rocks.system.perform (.close fh) (clock 0)).2 index none)
  | some (.writable _) => (.status .ok, rocks.setFile rocks.system index none)
  | some (.sequential _ _) | some .randomAccess =>
      (.status .ok,
        rocks.setFile (rocks.system.perform (.close (index + 1)) (clock 0)).2 index none)

/-- `NebulaFileSystem::FileExists`. -/
def fileExists (fname : List UInt8) : RocksAnswer × RocksSystem :=
  let (result, system) := rocks.system.perform (.lookup (fileName fname)) (clock 0)
  match result.rc with
  | none => (.status .ok, rocks.withSystem system)
  | some _ => (.status (.notFound fname), rocks.withSystem system)

/-- `NebulaFileSystem::GetChildren`; `list_cb` skips the directories. -/
def getChildren : RocksAnswer × RocksSystem :=
  match rocks.system.perform .readdir (clock 0) with
  | (.items items, system) =>
      (.names ((items.filter fun item => item.flags &&& dirFlagDir = 0).map DirItem.name),
        rocks.withSystem system)
  | (result, system) => (.status (ioErr result.rc (utf8 "GetChildren")), rocks.withSystem system)

/-- `NebulaFileSystem::DeleteFile`. -/
def deleteFile (fname : List UInt8) : RocksAnswer × RocksSystem :=
  let (result, system) := rocks.system.perform (.delete (fileName fname)) (clock 0)
  (.status (ioErr result.rc (utf8 "DeleteFile:" ++ fname)), rocks.withSystem system)

/-- `NebulaFileSystem::GetFileSize`. -/
def getFileSize (fname : List UInt8) : RocksAnswer × RocksSystem :=
  match rocks.system.perform (.open 0 (fileName fname) openReadOnly) (clock 0) with
  | (.handle fh, system) =>
      (.size (nebulaFsFileSize fh), rocks.withSystem (system.perform (.close 0) (clock 1)).2)
  | (result, system) =>
      (.status (ioErr result.rc (utf8 "GetFileSize:" ++ basename fname)), rocks.withSystem system)

/-- `NebulaFileSystem::RenameFile`, from where the file has been read. -/
def renameTo (system : FsSystem) (src target buf : List UInt8) : IOStatus × FsSystem :=
  match system.perform (.delete (fileName src)) (clock 4) with
  | (.error rc, system) => (ioErr (some rc) (utf8 "RenameFile:delete:" ++ basename src), system)
  | (_, system) =>
      let (_, system) := system.perform (.delete (fileName target)) (clock 5)
      match system.perform (.create 0 (fileName target) writableMode) (clock 6) with
      | (.handle _, system) =>
          let (written, system) :=
            if 0 < buf.length then system.perform (.write 0 0 buf) (clock 7) else (.count 0, system)
          let (_, system) := system.perform (.close 0) (clock 8)
          match written.rc with
          | some error => (.ioError (utf8 "RenameFile:write") (some error), system)
          | none => (.ok, system)
      | (result, system) =>
          (ioErr result.rc (utf8 "RenameFile:create:" ++ basename target), system)

/-- `NebulaFileSystem::RenameFile`. -/
def renameSystem (system : FsSystem) (src target : List UInt8) : IOStatus × FsSystem :=
  match system.perform (.lookup (fileName src)) (clock 0) with
  | (.error rc, system) => (ioErr (some rc) (utf8 "RenameFile:lookup:" ++ basename src), system)
  | (_, system) =>
      match system.perform (.open 0 (fileName src) openReadOnly) (clock 1) with
      | (.handle rfh, system) =>
          let sz := (nebulaFsFileSize rfh).toNat
          let (got, system) :=
            if 0 < sz then system.perform (.read 0 0 sz) (clock 2) else (.bytes [], system)
          let (_, system) := system.perform (.close 0) (clock 3)
          match got.rc with
          | some error => (.ioError (utf8 "RenameFile:read") (some error), system)
          -- the buffer was filled with zeros before the read
          | none => renameTo clock system src target
              (got.got ++ List.replicate (sz - got.got.length) 0)
      | (result, system) => (ioErr result.rc (utf8 "RenameFile:open:" ++ basename src), system)

/-- `NebulaFileSystem::RenameFile`. -/
def renameFile (src target : List UInt8) : RocksAnswer × RocksSystem :=
  let (status, system) := renameSystem clock rocks.system src target
  (.status status, rocks.withSystem system)

/-- `~NebulaFileSystem`, and `NebulaFileSystem` on the same device; it throws when the
mount fails. -/
def remount (heap : Nat → Block) : RocksAnswer × RocksSystem :=
  match rocks.system.perform (.remount heap) (clock 0) with
  | (.done, system) => (.status .ok, rocks.withSystem system)
  | (result, system) => (.mountFailed result.rc, rocks.withSystem system)

/-- Perform a call; the clock gives the times of its requests. -/
def perform (call : RocksCall) : RocksAnswer × RocksSystem :=
  match call with
  | .newSequentialFile index fname => rocks.newSequentialFile clock index fname
  | .newRandomAccessFile index fname => rocks.newRandomAccessFile clock index fname
  | .newWritableFile index fname => rocks.newWritableFile clock index fname
  | .reopenWritableFile index fname => rocks.reopenWritableFile clock index fname
  | .sequentialRead index n => rocks.sequentialRead clock index n
  | .skip index n => rocks.skip index n
  | .readAt index offset n => rocks.readAt clock index offset n
  | .append index data => rocks.append clock index data
  | .closeWritable index => rocks.closeWritable clock index
  | .writableSize index => rocks.writableSize index
  | .destroy index => rocks.destroy clock index
  | .fileExists fname => rocks.fileExists clock fname
  | .getChildren => rocks.getChildren clock
  | .deleteFile fname => rocks.deleteFile clock fname
  | .getFileSize fname => rocks.getFileSize clock fname
  | .renameFile src target => rocks.renameFile clock src target
  | .remount heap => rocks.remount clock heap

/-- No file object, and the device as it has just been formatted and mounted. -/
def fresh (volume : Volume) : RocksSystem := ⟨⟨⟨volume, []⟩, fun _ => none⟩, fun _ => none⟩

end RocksSystem

/-! ## A client that keeps to the rules -/

/-- At most one file object is on a file, none while it is deleted, renamed, replaced or measured;
file objects are used for what they are made for; and appends end below 2^64. -/
def RocksCall.Allowed (rocks : RocksSystem) : RocksCall → Prop
  | .newSequentialFile index fname | .newRandomAccessFile index fname
  | .newWritableFile index fname | .reopenWritableFile index fname =>
      rocks.files index = none ∧ ∀ place handle,
        rocks.system.handles place = some handle → handle.name ≠ fileName fname
  | .sequentialRead index _ | .skip index _ =>
      ∃ pos size, rocks.files index = some (.sequential pos size)
  | .readAt index _ _ => rocks.files index = some .randomAccess
  | .append index data => ∃ file, rocks.files index = some (.writable file) ∧
      file.pos.toNat + data.length < 2 ^ 64
  | .closeWritable index | .writableSize index => ∃ file, rocks.files index = some (.writable file)
  | .destroy index => ∃ file, rocks.files index = some file
  | .deleteFile fname | .getFileSize fname => ∀ place handle,
      rocks.system.handles place = some handle → handle.name ≠ fileName fname
  | .renameFile src target => ∀ place handle, rocks.system.handles place = some handle →
      handle.name ≠ fileName src ∧ handle.name ≠ fileName target
  | .remount _ => ∀ place, rocks.system.handles place = none
  | .fileExists _ | .getChildren => True

/-- The calls a client has made, what they answered, and the system they have led to. -/
inductive RocksRun (start : RocksSystem) : List (RocksCall × RocksAnswer) → RocksSystem → Prop
  | refl : RocksRun start [] start
  | call {trace : List (RocksCall × RocksAnswer)} {middle : RocksSystem}
      (run : RocksRun start trace middle) (call : RocksCall) (clock : Nat → UInt64)
      (allowed : call.Allowed middle) :
      RocksRun start (trace ++ [(call, (middle.perform clock call).1)])
        (middle.perform clock call).2

end MiniFs
