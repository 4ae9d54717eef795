import MiniFs.Fs.FileStore
import MiniFs.Rocksdb.FileSystem

/-!
# A flat store of append logs

What the adapter is for: a map from names to logs.  Appends add to a log, and its size covers what
complete appends have reached.  Every run of the adapter, by a client that keeps at most one file
object on a file, is a run of this store with the same answers.
-/

namespace MiniFs

open Fs

/-- The appended bytes of a file; the size stays behind them after an append that was cut short. -/
structure AppendLog where
  bytes : List UInt8
  size : Nat
  within : size ≤ bytes.length

namespace AppendLog

/-- What readers see. -/
def contents (log : AppendLog) : List UInt8 := log.bytes.take log.size

theorem length_contents (log : AppendLog) : log.contents.length = log.size := by
  rw [contents, List.length_take, Nat.min_eq_left log.within]

/-- The log of a new file. -/
def empty : AppendLog := ⟨[], 0, le_rfl⟩

/-- An append of which the first `n` bytes have been written. -/
def append (log : AppendLog) (data : List UInt8) (n : Nat) : AppendLog where
  bytes := log.bytes ++ data.take n
  size := if data ≠ [] ∧ n = data.length then log.bytes.length + n else log.size
  within := by
    have within := log.within
    rw [List.length_append, List.length_take]
    split_ifs <;> omega

theorem append_nothing (log : AppendLog) (data : List UInt8) : log.append data 0 = log := by
  rw [AppendLog.mk.injEq]
  refine ⟨List.append_nil _, if_neg ?_⟩
  rintro ⟨some, none⟩
  exact some (List.length_eq_zero_iff.mp none.symm)

/-- A file that is opened again is appended to where it ends for its readers. -/
def reopen (log : AppendLog) : AppendLog := ⟨log.contents, log.size, log.length_contents.ge⟩

/-- The log is what a client of the file system knows of the file. -/
structure Agrees (log : AppendLog) (view : FileView) : Prop where
  size : view.size = log.size
  bytes : ∀ pos < log.bytes.length, view.bytes pos = log.bytes[pos]?

namespace Agrees

variable {log : AppendLog} {view : FileView}

theorem empty : AppendLog.empty.Agrees .empty :=
  ⟨rfl, fun _ below => absurd below (Nat.not_lt_zero _)⟩

theorem reopen (agrees : log.Agrees view) : log.reopen.Agrees view := by
  refine ⟨agrees.size, fun pos below => ?_⟩
  have within := log.within
  simp only [AppendLog.reopen, length_contents] at below ⊢
  rw [agrees.bytes pos (by omega), contents, List.getElem?_take_of_lt below]

theorem append (agrees : log.Agrees view) {data : List UInt8} {n : Nat} (most : n ≤ data.length) :
    (log.append data n).Agrees (view.write log.bytes.length data n) := by
  have within := log.within
  constructor
  · simp only [FileView.write, AppendLog.append, agrees.size]
    split_ifs
    · omega
    · rfl
  · intro pos below
    simp only [AppendLog.append, List.length_append, List.length_take] at below
    simp only [FileView.write, AppendLog.append]
    by_cases old : pos < log.bytes.length
    · rw [if_neg (by omega), agrees.bytes pos old, List.getElem?_append_left old]
    · rw [if_pos (by omega), List.getElem?_append_right (by omega),
        List.getElem?_take_of_lt (by omega)]

/-- A read returns a part of the contents. -/
theorem read (agrees : log.Agrees view) {offset len : Nat} {bytes : List UInt8}
    (read : view.ReadBy offset len bytes) : bytes = (log.contents.drop offset).take len := by
  have length := read.length
  have within := log.within
  rw [agrees.size] at length
  apply List.ext_getElem?
  intro index
  by_cases below : index < bytes.length
  · have known := agrees.bytes (offset + index) (by omega)
    rw [List.getElem?_eq_getElem (by omega)] at known
    rw [read.acknowledged index _ below known, List.getElem?_take_of_lt (by omega),
      List.getElem?_drop, contents, List.getElem?_take_of_lt (by omega),
      List.getElem?_eq_getElem (by omega)]
  · rw [List.getElem?_eq_none (by omega), List.getElem?_eq_none]
    rw [List.length_take, List.length_drop, length_contents]
    omega

/-- The file holds the contents. -/
theorem content (agrees : log.Agrees view) {inode : NebulaInode} {disk : Disk}
    (shown : view.Shown inode disk) : inode.content disk = log.contents := by
  have size : inode.sizeBytes.toNat = log.contents.length := by
    rw [shown.size, agrees.size, length_contents]
  have whole := inode.content_slice disk (Nat.zero_le _) inode.sizeBytes.toNat
  rw [agrees.read (shown.reads 0 inode.sizeBytes.toNat), List.drop_zero, List.drop_zero,
    List.take_of_length_le (inode.length_content disk).le, List.take_of_length_le size.ge] at whole
  exact whole

end Agrees

end AppendLog

/-- The file objects of the store. -/
inductive FlatFile
  | sequential (name : Name) (pos : Nat)
  | randomAccess (name : Name)
  | writable (name : Name)
  | closed (pos : Nat)

/-- Logs under names, and file objects. -/
structure FlatStore where
  logs : Name → Option AppendLog
  files : Nat → Option FlatFile

namespace FlatStore

def empty : FlatStore := ⟨fun _ => none, fun _ => none⟩

def setLog (store : FlatStore) (name : Name) (log : Option AppendLog) : FlatStore :=
  { store with logs := Function.update store.logs name log }

def setFile (store : FlatStore) (index : Nat) (file : Option FlatFile) : FlatStore :=
  { store with files := Function.update store.files index file }

end FlatStore

/-- The name a call looks for, and the context of its error when there is no such file. -/
def RocksCall.seeks : RocksCall → Option (Name × List UInt8)
  | .newSequentialFile _ fname => some (fileName fname, utf8 "NewSequentialFile:" ++ basename fname)
  | .newRandomAccessFile _ fname => some
      (fileName fname, utf8 "NewRandomAccessFile:" ++ basename fname)
  | .reopenWritableFile _ fname => some
      (fileName fname, utf8 "ReopenWritableFile:" ++ basename fname)
  | .getFileSize fname => some (fileName fname, utf8 "GetFileSize:" ++ basename fname)
  | .deleteFile fname => some (fileName fname, utf8 "DeleteFile:" ++ fname)
  | .renameFile src _ => some (fileName src, utf8 "RenameFile:lookup:" ++ basename src)
  | _ => none

/-- What a call answers, and what it makes of the store. -/
inductive FlatStep (store : FlatStore) : RocksCall → RocksAnswer → FlatStore → Prop
  | missing {call : RocksCall} {name : Name} {context : List UInt8}
      (seeks : call.seeks = some (name, context)) (absent : store.logs name = none) :
      FlatStep store call (.status (ioErr (some (missing name)) context)) store
  | sequential {index : Nat} {fname : List UInt8} (there : store.logs (fileName fname) ≠ none) :
      FlatStep store (.newSequentialFile index fname) (.status .ok)
        (store.setFile index (some (.sequential (fileName fname) 0)))
  | randomAccess {index : Nat} {fname : List UInt8} (there : store.logs (fileName fname) ≠ none) :
      FlatStep store (.newRandomAccessFile index fname) (.status .ok)
        (store.setFile index (some (.randomAccess (fileName fname))))
  /-- A new file; one of that name is gone. -/
  | created {index : Nat} {fname : List UInt8} (proper : nameRefusal (fileName fname) = none) :
      FlatStep store (.newWritableFile index fname) (.status .ok)
        ((store.setLog (fileName fname) (some .empty)).setFile index
          (some (.writable (fileName fname))))
  | uncreated {index : Nat} {fname : List UInt8} {error : Errno}
      (absent : store.logs (fileName fname) = none)
      (reason : nameRefusal (fileName fname) = some error ∨ error = .ENOSPC) :
      FlatStep store (.newWritableFile index fname)
        (.status (ioErr (some error) (utf8 "NewWritableFile:" ++ basename fname))) store
  | reopened {index : Nat} {fname : List UInt8} {log : AppendLog}
      (there : store.logs (fileName fname) = some log) :
      FlatStep store (.reopenWritableFile index fname) (.status .ok)
        ((store.setLog (fileName fname) (some log.reopen)).setFile index
          (some (.writable (fileName fname))))
  | read {index pos : Nat} {name : Name} {log : AppendLog} {n : UInt64}
      (held : store.files index = some (.sequential name pos)) (there :
        store.logs name = some log) :
      FlatStep store (.sequentialRead index n) (.slice ((log.contents.drop pos).take n.toNat))
        (store.setFile index (some (.sequential name (min (pos + n.toNat) log.size))))
  /-- A skip whose end wraps goes back. -/
  | skipped {index pos : Nat} {name : Name} {log : AppendLog} {n : UInt64}
      (held : store.files index = some (.sequential name pos)) (there :
        store.logs name = some log) :
      FlatStep store (.skip index n) (.status .ok)
        (store.setFile index (some (.sequential name (min ((pos + n.toNat) % 2 ^ 64) log.size))))
  | readAt {index : Nat} {name : Name} {log : AppendLog} {offset n : UInt64}
      (held : store.files index = some (.randomAccess name)) (there : store.logs name = some log) :
      FlatStep store (.readAt index offset n)
        (.slice ((log.contents.drop offset.toNat).take n.toNat)) store
  | appended {index n : Nat} {name : Name} {log : AppendLog} {data : List UInt8}
      (held : store.files index = some (.writable name)) (there : store.logs name = some log)
      (most : n ≤ data.length) (some : 0 < n ∨ data = []) :
      FlatStep store (.append index data) (.status .ok)
        (store.setLog name (Option.some (log.append data n)))
  | unappended {index : Nat} {name : Name} {data : List UInt8} {error : Errno}
      (held : store.files index = some (.writable name)) (some : data ≠ []) :
      FlatStep store (.append index data)
        (.status (.ioError (utf8 "NebulaWritableFile::Append") (Option.some error))) store
  | appendClosed {index pos : Nat} {data : List UInt8}
      (held : store.files index = some (.closed pos)) :
      FlatStep store (.append index data) (.status (.ioError (utf8 "file already closed") none))
        store
  | closed {index : Nat} {name : Name} {log : AppendLog}
      (held : store.files index = some (.writable name)) (there : store.logs name = some log) :
      FlatStep store (.closeWritable index) (.status .ok)
        (store.setFile index (some (.closed log.bytes.length)))
  | closedAgain {index pos : Nat} (held : store.files index = some (.closed pos)) :
      FlatStep store (.closeWritable index) (.status .ok) store
  | writableSize {index : Nat} {name : Name} {log : AppendLog} {size : UInt64}
      (held : store.files index = some (.writable name)) (there : store.logs name = some log)
      (same : size.toNat = log.bytes.length) :
      FlatStep store (.writableSize index) (.size size) store
  | closedSize {index : Nat} {size : UInt64}
      (held : store.files index = some (.closed size.toNat)) :
      FlatStep store (.writableSize index) (.size size) store
  | destroyed {index : Nat} :
      FlatStep store (.destroy index) (.status .ok) (store.setFile index none)
  | fileExists {fname : List UInt8} (there : store.logs (fileName fname) ≠ none) :
      FlatStep store (.fileExists fname) (.status .ok) store
  | notExists {fname : List UInt8} (absent : store.logs (fileName fname) = none) :
      FlatStep store (.fileExists fname) (.status (.notFound fname)) store
  | children {names : List Name} (distinct : names.Nodup)
      (all : ∀ name, name ∈ names ↔ store.logs name ≠ none) :
      FlatStep store .getChildren (.names names) store
  | deleted {fname : List UInt8} (there : store.logs (fileName fname) ≠ none) :
      FlatStep store (.deleteFile fname) (.status .ok) (store.setLog (fileName fname) none)
  | fileSize {fname : List UInt8} {log : AppendLog} {size : UInt64}
      (there : store.logs (fileName fname) = some log) (same : size.toNat = log.size) :
      FlatStep store (.getFileSize fname) (.size size) store
  /-- A rename writes the contents under the new name; it says nothing of a write that stops early,
  which leaves an empty file. -/
  | renamed {src target : List UInt8} {log : AppendLog} {n : Nat}
      (there : store.logs (fileName src) = some log) (proper : nameRefusal (fileName target) = none)
      (most : n ≤ log.size) (some : 0 < n ∨ log.size = 0) :
      FlatStep store (.renameFile src target) (.status .ok)
        ((store.setLog (fileName src) none).setLog (fileName target)
          (Option.some (AppendLog.empty.append log.contents n)))
  | renamedEmpty {src target : List UInt8} {log : AppendLog} {error : Errno}
      (there : store.logs (fileName src) = some log) (proper : nameRefusal (fileName target) = none)
      (some : log.size ≠ 0) :
      FlatStep store (.renameFile src target)
        (.status (.ioError (utf8 "RenameFile:write") (Option.some error)))
        ((store.setLog (fileName src) none).setLog (fileName target) (Option.some .empty))
  /-- The file is deleted before its new name is refused. -/
  | renameLost {src target : List UInt8} {error : Errno} (there : store.logs (fileName src) ≠ none)
      (refused : nameRefusal (fileName target) = some error) :
      FlatStep store (.renameFile src target)
        (.status (ioErr (some error) (utf8 "RenameFile:create:" ++ basename target)))
        (store.setLog (fileName src) none)
  | remounted {heap : Nat → Block} : FlatStep store (.remount heap) (.status .ok) store

/-- The runs of the store, with what the calls answer. -/
inductive FlatRun : List (RocksCall × RocksAnswer) → FlatStore → Prop
  | refl : FlatRun [] .empty
  | step {trace : List (RocksCall × RocksAnswer)} {before after : FlatStore} {call : RocksCall}
      {answer : RocksAnswer} (run : FlatRun trace before)
      (step : FlatStep before call answer after) : FlatRun (trace ++ [(call, answer)]) after

/-! ## The adapter and the store -/

/-- A file object of the adapter, that of the store, and the handle. -/
inductive Linked (logs : Name → Option AppendLog) (place : Nat) :
    Option RocksFile → Option FlatFile → Option Handle → Prop
  | absent : Linked logs place none none none
  | sequential {pos size : UInt64} {handle : Handle} {log : AppendLog}
      (there : logs handle.name = some log) (readable : handle.file.flags &&& openReadOnly ≠ 0)
      (whole : size.toNat = log.size) (inside : pos ≤ size) :
      Linked logs place (some (.sequential pos size)) (some (.sequential handle.name pos.toNat))
        (some handle)
  | randomAccess {handle : Handle} {log : AppendLog} (there : logs handle.name = some log)
      (readable : handle.file.flags &&& openReadOnly ≠ 0) :
      Linked logs place (some .randomAccess) (some (.randomAccess handle.name)) (some handle)
  | writable {pos : UInt64} {handle : Handle} {log : AppendLog}
      (there : logs handle.name = some log)
      (able : handle.file.flags &&& openWriteOnly ≠ 0) (cursor : pos.toNat = log.bytes.length) :
      Linked logs place (some (.writable ⟨some place, pos, false⟩)) (some (.writable handle.name))
        (some handle)
  | closed {pos : UInt64} :
      Linked logs place (some (.writable ⟨none, pos, true⟩)) (some (.closed pos.toNat)) none

/-- The file system holds the logs. -/
def HoldsLogs (uuid : Bytes 16) (layout : NebulaLayout) (origin : Disk) (system : FsSystem)
    (logs : Name → Option AppendLog) : Prop :=
  ∃ entries views, FileStore uuid layout origin system entries views ∧
    ∀ name, Option.Rel AppendLog.Agrees (logs name) (views name)

/-- The adapter has come to the state of the store. -/
structure Refines (uuid : Bytes 16) (layout : NebulaLayout) (origin : Disk) (rocks : RocksSystem)
    (store : FlatStore) : Prop where
  holds : HoldsLogs uuid layout origin rocks.system store.logs
  scratch : rocks.system.handles 0 = none
  linked : ∀ index, Linked store.logs (index + 1) (rocks.files index) (store.files index)
    (rocks.system.handles (index + 1))

end MiniFs
