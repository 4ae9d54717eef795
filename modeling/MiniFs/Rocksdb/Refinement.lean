import MiniFs.Rocksdb.FlatStore

/-!
# The adapter refines the flat store

Each call of the adapter is a few requests to the file system.  With the map of files that the
requests keep, every call is a step of the flat store with the same answer.
-/

namespace MiniFs

open Fs

theorem slash_notMem_basename (path : List UInt8) : 47 ∉ basename path := by
  intro member
  rw [basename, List.mem_reverse] at member
  exact absurd (List.mem_takeWhile_imp member) (by decide)

theorem fileName_ne_root (path : List UInt8) : fileName path ≠ [47] := by
  intro root
  have member : 47 ∈ cString (basename path) := by
    rw [← fileName, root]
    exact List.mem_singleton_self _
  exact slash_notMem_basename path ((List.takeWhile_sublist _).subset member)

theorem fileName_text (path : List UInt8) : ∀ byte ∈ fileName path, byte ≠ 0 := by
  intro byte member
  rw [fileName, cString] at member
  have kept := List.mem_takeWhile_imp member
  exact of_decide_eq_true kept

section Logs

variable {uuid : Bytes 16} {layout : NebulaLayout} {origin : Disk} {system : FsSystem}
  {logs : Name → Option AppendLog} {views : Name → Option FileView} {name : Name} {index : Nat}
  {handle : Handle} {log : AppendLog}

theorem rel_none (agree : ∀ name, Option.Rel AppendLog.Agrees (logs name) (views name))
    (absent : logs name = none) : views name = none := by
  have rel := agree name
  cases is : views name with
  | none => rfl
  | some view =>
      rw [absent, is] at rel
      cases rel

theorem rel_some (agree : ∀ name, Option.Rel AppendLog.Agrees (logs name) (views name))
    (there : logs name = some log) : ∃ view, views name = some view ∧ log.Agrees view := by
  have rel := agree name
  cases is : views name with
  | none =>
      rw [there, is] at rel
      cases rel
  | some view =>
      rw [there, is] at rel
      cases rel with
      | some agrees => exact ⟨view, rfl, agrees⟩

theorem rel_there (agree : ∀ name, Option.Rel AppendLog.Agrees (logs name) (views name)) :
    views name ≠ none ↔ logs name ≠ none := by
  constructor
  · exact fun there absent => there (rel_none agree absent)
  · intro there
    obtain ⟨log, is⟩ := Option.ne_none_iff_exists'.mp there
    obtain ⟨view, is', -⟩ := rel_some agree is
    rw [is']
    exact Option.some_ne_none view

theorem rel_update (agree : ∀ name, Option.Rel AppendLog.Agrees (logs name) (views name))
    {new : Option AppendLog} {view : Option FileView} (rel : Option.Rel AppendLog.Agrees new view)
    (name : Name) : ∀ other, Option.Rel AppendLog.Agrees (Function.update logs name new other)
      (Function.update views name view other) := by
  intro other
  by_cases here : other = name
  · rw [here, Function.update_self, Function.update_self]
    exact rel
  · rw [Function.update_of_ne here, Function.update_of_ne here]
    exact agree other

theorem openReadOnly_opens : openReadOnly &&& (openReadOnly ||| openWriteOnly) ≠ 0 := by
  decide

theorem openReadWrite_opens : openReadWrite &&& (openReadOnly ||| openWriteOnly) ≠ 0 := by
  decide

theorem reads_of_flags {file : NebulaFile} (flags : file.flags = openReadOnly) :
    file.flags &&& openReadOnly ≠ 0 := by
  rw [flags]
  decide

theorem NebulaFile.ReadFrom.flags {fh fh' : NebulaFile} (same : fh.ReadFrom fh') :
    fh'.flags = fh.flags := by
  obtain ⟨time, rfl⟩ := same
  rfl

theorem writes_of_flags {file : NebulaFile} (flags : file.flags = openReadWrite) :
    file.flags &&& openWriteOnly ≠ 0 := by
  rw [flags]
  decide

namespace HoldsLogs

theorem lookup_missing (holds : HoldsLogs uuid layout origin system logs) {path : List UInt8}
    (absent : logs (fileName path) = none) (now : UInt64) :
    system.perform (.lookup (fileName path)) now = (.error (missing (fileName path)), system) := by
  obtain ⟨entries, views, store, agree⟩ := holds
  exact store.lookup_missing (rel_none agree absent) (fileName_ne_root path) now

theorem lookup_there (holds : HoldsLogs uuid layout origin system logs) (there : logs name ≠ none)
    (now : UInt64) : ∃ inodeNum, system.perform (.lookup name) now = (.inode inodeNum, system) := by
  obtain ⟨entries, views, store, agree⟩ := holds
  exact store.lookup_there ((rel_there agree).mpr there) now

theorem open_missing (holds : HoldsLogs uuid layout origin system logs) {path : List UInt8}
    (absent : logs (fileName path) = none) (index : Nat) (flags : UInt32) (now : UInt64) :
    system.perform (.open index (fileName path) flags) now =
      (.error (missing (fileName path)), system) := by
  obtain ⟨entries, views, store, agree⟩ := holds
  exact store.open_missing (rel_none agree absent) (fileName_ne_root path) index flags now

theorem open_there (holds : HoldsLogs uuid layout origin system logs) (there : logs name = some log)
    (empty : system.handles index = none) (unopened : system.Unopened name) {flags : UInt32}
    (access : flags &&& (openReadOnly ||| openWriteOnly) ≠ 0) (now : UInt64) :
    ∃ file, file.flags = flags ∧ (nebulaFsFileSize file).toNat = log.size ∧
      system.perform (.open index name flags) now =
        (.handle file, system.setHandle index (some ⟨name, file⟩)) ∧
      HoldsLogs uuid layout origin (system.setHandle index (some ⟨name, file⟩)) logs := by
  obtain ⟨entries, views, store, agree⟩ := holds
  obtain ⟨view, is, agrees⟩ := rel_some agree there
  obtain ⟨file, flags, performed, store'⟩ :=
    store.open_there (by rw [is]; exact Option.some_ne_none _) empty unopened access now
  obtain ⟨view', is', shown⟩ := store'.held_file (system.setHandle_held index _)
  obtain rfl : view' = view := Option.some.inj (is'.symm.trans is)
  exact ⟨file, flags, shown.size.trans agrees.size, performed, entries, views, store', agree⟩

theorem delete_missing (holds : HoldsLogs uuid layout origin system logs) {path : List UInt8}
    (absent : logs (fileName path) = none) (now : UInt64) :
    system.perform (.delete (fileName path)) now = (.error (missing (fileName path)), system) := by
  obtain ⟨entries, views, store, agree⟩ := holds
  exact store.delete_missing (rel_none agree absent) (fileName_ne_root path) now

theorem delete_there (holds : HoldsLogs uuid layout origin system logs) (there : logs name ≠ none)
    (unopened : system.Unopened name) (now : UInt64) :
    ∃ after, system.perform (.delete name) now = (.done, after) ∧ after.handles = system.handles ∧
      HasRoom layout after.state.disk ∧
      HoldsLogs uuid layout origin after (Function.update logs name none) := by
  obtain ⟨entries, views, store, agree⟩ := holds
  obtain ⟨after, entries', performed, handles, room, store'⟩ :=
    store.delete_there ((rel_there agree).mpr there) unopened now
  exact ⟨after, performed, handles, room, entries', _, store', rel_update agree .none name⟩

theorem proper (holds : HoldsLogs uuid layout origin system logs) (there : logs name ≠ none) :
    nameRefusal name = none := by
  obtain ⟨entries, views, store, agree⟩ := holds
  exact store.nameRefusal_there ((rel_there agree).mpr there)

/-- A log is replaced by one that agrees with the same files. -/
theorem relog (holds : HoldsLogs uuid layout origin system logs) (there : logs name = some log)
    {next : AppendLog} (agrees : ∀ ⦃view⦄, log.Agrees view → next.Agrees view) :
    HoldsLogs uuid layout origin system (Function.update logs name (some next)) := by
  obtain ⟨entries, views, store, agree⟩ := holds
  obtain ⟨view, is, shown⟩ := rel_some agree there
  have same : Function.update views name (some view) = views := by
    rw [← is, Function.update_eq_self]
  have updated := rel_update agree (.some (agrees shown)) name
  rw [same] at updated
  exact ⟨entries, views, store, updated⟩

/-- A delete whose answer is ignored. -/
theorem delete (holds : HoldsLogs uuid layout origin system logs) {path : List UInt8}
    (unopened : system.Unopened (fileName path)) (now : UInt64) :
    ∃ result after, system.perform (.delete (fileName path)) now = (result, after) ∧
      after.handles = system.handles ∧
      (HasRoom layout system.state.disk ∨ logs (fileName path) ≠ none →
        HasRoom layout after.state.disk) ∧
      HoldsLogs uuid layout origin after (Function.update logs (fileName path) none) := by
  by_cases absent : logs (fileName path) = none
  · refine ⟨_, system, holds.delete_missing absent now, rfl, ?_, ?_⟩
    · exact fun room => room.resolve_right fun there => there absent
    · rw [← absent, Function.update_eq_self]
      exact holds
  · obtain ⟨after, performed, handles, room, holds'⟩ := holds.delete_there absent unopened now
    exact ⟨_, after, performed, handles, fun _ => room, holds'⟩

theorem create (holds : HoldsLogs uuid layout origin system logs) {path : List UInt8}
    (empty : system.handles index = none) (absent : logs (fileName path) = none) (mode : UInt32)
    (now : UInt64) :
    (nameRefusal (fileName path) = none ∧ ∃ file after, file.flags = openReadWrite ∧
      system.perform (.create index (fileName path) mode) now = (.handle file, after) ∧
      after.handles = Function.update system.handles index (some ⟨fileName path, file⟩) ∧
      HoldsLogs uuid layout origin after
        (Function.update logs (fileName path) (some AppendLog.empty))) ∨
    ∃ error after, (nameRefusal (fileName path) = some error ∨
        error = .ENOSPC ∧ ¬ HasRoom layout system.state.disk) ∧
      system.perform (.create index (fileName path) mode) now = (.error error, after) ∧
      after.handles = system.handles ∧ HoldsLogs uuid layout origin after logs := by
  obtain ⟨entries, views, store, agree⟩ := holds
  have gone := rel_none agree absent
  have other := fileName_ne_root path
  rcases store.create empty (fileName_text path) mode now with
    ⟨unrefused, -, file, after, entries', flags, performed, handles, store'⟩ |
      ⟨error, after, refused, performed, handles, store'⟩
  · refine .inl ⟨store'.nameRefusal_there ?_, file, after, flags, performed, handles, entries', _,
      store', rel_update agree (.some .empty) _⟩
    rw [Function.update_self]
    exact Option.some_ne_none _
  · refine .inr ⟨error, after, ?_, performed, handles, entries, views, store', agree⟩
    rcases store.createRefusal_absent gone other refused with named | full
    · exact .inl named
    · by_cases room : HasRoom layout system.state.disk
      · rw [store.createRefusal_of_room room gone other] at refused
        exact .inl refused
      · exact .inr ⟨full, room⟩

theorem write (holds : HoldsLogs uuid layout origin system logs)
    (held : system.handles index = some handle) (there : logs handle.name = some log)
    (writable : handle.file.flags &&& openWriteOnly ≠ 0) {offset : UInt64}
    (cursor : offset.toNat = log.bytes.length) {data : List UInt8}
    (unwrapped : offset.toNat + data.length < 2 ^ 64) (now : UInt64) :
    ∃ n ≤ data.length, ∃ result kept after, kept.flags = handle.file.flags ∧
      (result = .count n ∧ (0 < n ∨ data = []) ∨
        n = 0 ∧ data ≠ [] ∧ ∃ error, result = .error error) ∧
      system.perform (.write index offset data) now = (result, after) ∧
      after.handles = Function.update system.handles index (some ⟨handle.name, kept⟩) ∧
      HoldsLogs uuid layout origin after
        (Function.update logs handle.name (some (log.append data n))) := by
  obtain ⟨entries, views, store, agree⟩ := holds
  obtain ⟨view, is, agrees⟩ := rel_some agree there
  obtain ⟨n, most, result, kept, after, flags, answers, performed, handles, store'⟩ :=
    store.write held is writable unwrapped now
  rw [cursor] at store'
  exact ⟨n, most, result, kept, after, flags, answers, performed, handles, entries, _, store',
    rel_update agree (.some (agrees.append most)) _⟩

theorem read (holds : HoldsLogs uuid layout origin system logs)
    (held : system.handles index = some handle) (there : logs handle.name = some log)
    (readable : handle.file.flags &&& openReadOnly ≠ 0) {offset : UInt64} {len : Nat}
    (unwrapped : offset.toNat + len < 2 ^ 64) (now : UInt64) :
    ∃ file, system.perform (.read index offset len) now =
        (.bytes ((log.contents.drop offset.toNat).take len), system.keepFile index handle file) ∧
      HoldsLogs uuid layout origin (system.keepFile index handle file) logs := by
  obtain ⟨entries, views, store, agree⟩ := holds
  obtain ⟨view, is, agrees⟩ := rel_some agree there
  obtain ⟨bytes, file, -, answers, performed, store'⟩ := store.read held is readable unwrapped now
  rw [agrees.read answers] at performed
  exact ⟨file, performed, entries, views, store', agree⟩

theorem close (holds : HoldsLogs uuid layout origin system logs)
    (held : system.handles index = some handle) (now : UInt64) :
    ∃ after, system.perform (.close index) now = (.done, after) ∧
      after.handles = Function.update system.handles index none ∧
      HoldsLogs uuid layout origin after logs := by
  obtain ⟨entries, views, store, agree⟩ := holds
  obtain ⟨after, performed, handles, store'⟩ := store.close held now
  exact ⟨after, performed, handles, entries, views, store', agree⟩

/-- What a handle reads below the adapter. -/
theorem held (holds : HoldsLogs uuid layout origin system logs)
    (held : system.handles index = some handle) (there : logs handle.name = some log) :
    system.state.Serves handle.file.inode ∧
      handle.file.inode.content system.state.disk = log.contents ∧
      ∀ file, handle.file.ReadFrom file →
        HoldsLogs uuid layout origin (system.keepFile index handle file) logs := by
  obtain ⟨entries, views, store, agree⟩ := holds
  obtain ⟨view, is, agrees⟩ := rel_some agree there
  obtain ⟨view', is', shown⟩ := store.held_file held
  obtain rfl : view' = view := Option.some.inj (is'.symm.trans is)
  refine ⟨(store.inv.handle_backs held).serves store.inv.solid, agrees.content shown, ?_⟩
  rintro file ⟨time, rfl⟩
  exact ⟨entries, views, store.touch held time, agree⟩

theorem alone (holds : HoldsLogs uuid layout origin system logs)
    (held : system.handles index = some handle) {second : Nat} {found : Handle}
    (held' : system.handles second = some found) (same : handle.name = found.name) :
    index = second := by
  obtain ⟨entries, views, store, -⟩ := holds
  exact store.alone held held' same

end HoldsLogs

end Logs

/-! ## File objects -/

section Files

variable {uuid : Bytes 16} {layout : NebulaLayout} {origin : Disk} {rocks : RocksSystem}
  {store : FlatStore} {index : Nat} {fname : List UInt8}

theorem Linked.congr {logs logs' : Name → Option AppendLog} {place : Nat} {file : Option RocksFile}
    {flat : Option FlatFile} {handle : Option Handle} (linked : Linked logs place file flat handle)
    (same : ∀ found, handle = some found → logs' found.name = logs found.name) :
    Linked logs' place file flat handle := by
  cases linked with
  | absent => exact .absent
  | sequential there readable whole inside =>
      exact .sequential ((same _ rfl).trans there) readable whole inside
  | randomAccess there readable => exact .randomAccess ((same _ rfl).trans there) readable
  | writable there able cursor => exact .writable ((same _ rfl).trans there) able cursor
  | closed => exact .closed

namespace Refines

/-- Other logs are changed than those of file objects. -/
theorem withSystem (refines : Refines uuid layout origin rocks store) {system : FsSystem}
    {logs : Name → Option AppendLog} (holds : HoldsLogs uuid layout origin system logs)
    (handles : system.handles = rocks.system.handles)
    (others : ∀ place handle, rocks.system.handles place = some handle →
      logs handle.name = store.logs handle.name) :
    Refines uuid layout origin (rocks.withSystem system) { store with logs } := by
  refine ⟨holds, ?_, fun index => ?_⟩
  · simp only [RocksSystem.withSystem, handles]
    exact refines.scratch
  · simp only [RocksSystem.withSystem, handles]
    exact (refines.linked index).congr fun found held => others _ found held

/-- One file object is changed, with its handle. -/
theorem setFile (refines : Refines uuid layout origin rocks store) {system : FsSystem}
    {logs : Name → Option AppendLog} (holds : HoldsLogs uuid layout origin system logs)
    {next : Option Handle}
    (handles : system.handles = Function.update rocks.system.handles (index + 1) next)
    {file : Option RocksFile} {flat : Option FlatFile}
    (link : Linked logs (index + 1) file flat next)
    (others : ∀ place handle, place ≠ index + 1 →
      rocks.system.handles place = some handle → logs handle.name = store.logs handle.name) :
    Refines uuid layout origin (rocks.setFile system index file)
      ⟨logs, Function.update store.files index flat⟩ := by
  refine ⟨holds, ?_, fun other => ?_⟩
  · simp only [RocksSystem.setFile, handles]
    rw [Function.update_of_ne (Nat.succ_ne_zero index).symm]
    exact refines.scratch
  · simp only [RocksSystem.setFile, handles]
    by_cases here : other = index
    · rw [here, Function.update_self, Function.update_self, Function.update_self]
      exact link
    · have apart : other + 1 ≠ index + 1 := by omega
      rw [Function.update_of_ne here, Function.update_of_ne here, Function.update_of_ne apart]
      exact (refines.linked other).congr fun found held => others _ found apart held

theorem vacant (refines : Refines uuid layout origin rocks store)
    (empty : rocks.files index = none) :
    rocks.system.handles (index + 1) = none := by
  have link := refines.linked index
  rw [empty] at link
  generalize store.files index = flat, rocks.system.handles (index + 1) = handle at link ⊢
  cases link
  rfl

theorem sequential_link (refines : Refines uuid layout origin rocks store) {pos size : UInt64}
    (is : rocks.files index = some (.sequential pos size)) :
    ∃ handle log, rocks.system.handles (index + 1) = some handle ∧
      store.files index = some (.sequential handle.name pos.toNat) ∧
      store.logs handle.name = some log ∧ handle.file.flags &&& openReadOnly ≠ 0 ∧
      size.toNat = log.size ∧ pos ≤ size := by
  have link := refines.linked index
  rw [is] at link
  generalize store.files index = flat, rocks.system.handles (index + 1) = handle at link ⊢
  cases link with
  | sequential there readable whole inside => exact ⟨_, _, rfl, rfl, there, readable, whole, inside⟩

theorem randomAccess_link (refines : Refines uuid layout origin rocks store)
    (is : rocks.files index = some .randomAccess) :
    ∃ handle log, rocks.system.handles (index + 1) = some handle ∧
      store.files index = some (.randomAccess handle.name) ∧ store.logs handle.name = some log ∧
      handle.file.flags &&& openReadOnly ≠ 0 := by
  have link := refines.linked index
  rw [is] at link
  generalize store.files index = flat, rocks.system.handles (index + 1) = handle at link ⊢
  cases link with
  | randomAccess there readable => exact ⟨_, _, rfl, rfl, there, readable⟩

theorem writable_link (refines : Refines uuid layout origin rocks store) {file : NebulaWritableFile}
    (is : rocks.files index = some (.writable file)) :
    (∃ handle log, rocks.system.handles (index + 1) = some handle ∧
      store.files index = some (.writable handle.name) ∧ store.logs handle.name = some log ∧
      handle.file.flags &&& openWriteOnly ≠ 0 ∧ file = ⟨some (index + 1), file.pos, false⟩ ∧
      file.pos.toNat = log.bytes.length) ∨
    rocks.system.handles (index + 1) = none ∧ file = ⟨none, file.pos, true⟩ ∧
      store.files index = some (.closed file.pos.toNat) := by
  have link := refines.linked index
  rw [is] at link
  generalize store.files index = flat, rocks.system.handles (index + 1) = handle at link ⊢
  cases link with
  | writable there able cursor => exact .inl ⟨_, _, rfl, rfl, there, able, rfl, cursor⟩
  | closed => exact .inr ⟨rfl, rfl, rfl⟩

/-- A call that is answered for a name that is not there. -/
theorem seeks_missing (refines : Refines uuid layout origin rocks store) {call : RocksCall}
    {name : Name} {context : List UInt8} (seeks : call.seeks = some (name, context))
    (absent : store.logs name = none) {outcome : RocksAnswer × RocksSystem}
    (performed : outcome = (.status (ioErr (some (missing name)) context), rocks)) :
    ∃ after, FlatStep store call outcome.1 after ∧ Refines uuid layout origin outcome.2 after := by
  rw [performed]
  exact ⟨store, .missing seeks absent, refines⟩

/-- A file object is made of the handle of a file that is there. -/
theorem openFile (refines : Refines uuid layout origin rocks store)
    (empty : rocks.files index = none) (unopened : rocks.system.Unopened (fileName fname))
    {flags : UInt32} (access : flags &&& (openReadOnly ||| openWriteOnly) ≠ 0) {ctx : String}
    {make : NebulaFile → RocksFile} (clock : Nat → UInt64) {call : RocksCall}
    (seeks : call.seeks = some (fileName fname, utf8 ctx ++ basename fname))
    (next : AppendLog → AppendLog) (agrees : ∀ ⦃log view⦄, log.Agrees view → (next log).Agrees view)
    (flat : FlatFile)
    (step : ∀ log, store.logs (fileName fname) = some log → FlatStep store call (.status .ok)
      ((store.setLog (fileName fname) (some (next log))).setFile index (some flat)))
    (link : ∀ logs log file, logs (fileName fname) = some (next log) → file.flags = flags →
      (nebulaFsFileSize file).toNat = log.size →
      Linked logs (index + 1) (some (make file)) (some flat) (some ⟨fileName fname, file⟩)) :
    ∃ after, FlatStep store call (rocks.openFile clock index fname flags ctx make).1 after ∧
      Refines uuid layout origin (rocks.openFile clock index fname flags ctx make).2 after := by
  cases there : store.logs (fileName fname) with
  | none =>
      refine refines.seeks_missing seeks there ?_
      rw [RocksSystem.openFile, refines.holds.open_missing there]
      rfl
  | some log =>
      obtain ⟨file, written, size, performed, holds⟩ := refines.holds.open_there there
        (refines.vacant empty) unopened access (clock 0)
      rw [RocksSystem.openFile, performed]
      exact ⟨_, step log there, refines.setFile (holds.relog there (@agrees log)) rfl
        (link _ log file (Function.update_self ..) written size)
        fun place handle _ held => Function.update_of_ne (unopened place handle held) ..⟩

theorem newSequentialFile (refines : Refines uuid layout origin rocks store)
    (allowed : (RocksCall.newSequentialFile index fname).Allowed rocks) (clock : Nat → UInt64) :
    ∃ after, FlatStep store (.newSequentialFile index fname)
        (rocks.newSequentialFile clock index fname).1 after ∧
      Refines uuid layout origin (rocks.newSequentialFile clock index fname).2 after := by
  refine refines.openFile allowed.1 allowed.2 openReadOnly_opens clock rfl id
    (fun _ _ same => same) (.sequential (fileName fname) 0) (fun log there => ?_)
    fun logs log file there flags size => ?_
  · rw [FlatStore.setLog, id, ← there, Function.update_eq_self]
    exact .sequential (by rw [there]; exact Option.some_ne_none log)
  · exact @Linked.sequential _ _ 0 _ ⟨fileName fname, file⟩ _ there (reads_of_flags flags) size
      (UInt64.le_iff_toNat_le.mpr (Nat.zero_le _))

theorem newRandomAccessFile (refines : Refines uuid layout origin rocks store)
    (allowed : (RocksCall.newRandomAccessFile index fname).Allowed rocks) (clock : Nat → UInt64) :
    ∃ after, FlatStep store (.newRandomAccessFile index fname)
        (rocks.newRandomAccessFile clock index fname).1 after ∧
      Refines uuid layout origin (rocks.newRandomAccessFile clock index fname).2 after := by
  refine refines.openFile allowed.1 allowed.2 openReadOnly_opens clock rfl id
    (fun _ _ same => same) (.randomAccess (fileName fname)) (fun log there => ?_)
    fun logs log file there flags _ => ?_
  · rw [FlatStore.setLog, id, ← there, Function.update_eq_self]
    exact .randomAccess (by rw [there]; exact Option.some_ne_none log)
  · exact @Linked.randomAccess _ _ ⟨fileName fname, file⟩ _ there (reads_of_flags flags)

theorem reopenWritableFile (refines : Refines uuid layout origin rocks store)
    (allowed : (RocksCall.reopenWritableFile index fname).Allowed rocks) (clock : Nat → UInt64) :
    ∃ after, FlatStep store (.reopenWritableFile index fname)
        (rocks.reopenWritableFile clock index fname).1 after ∧
      Refines uuid layout origin (rocks.reopenWritableFile clock index fname).2 after := by
  refine refines.openFile allowed.1 allowed.2 openReadWrite_opens clock rfl
    AppendLog.reopen (fun _ _ same => same.reopen) (.writable (fileName fname))
    (fun log there => .reopened there)
    fun logs log file there flags size => ?_
  exact @Linked.writable _ _ _ ⟨fileName fname, file⟩ _ there (writes_of_flags flags)
    (size.trans log.length_contents.symm)

theorem newWritableFile (refines : Refines uuid layout origin rocks store)
    (allowed : (RocksCall.newWritableFile index fname).Allowed rocks) (clock : Nat → UInt64) :
    ∃ after, FlatStep store (.newWritableFile index fname)
        (rocks.newWritableFile clock index fname).1 after ∧
      Refines uuid layout origin (rocks.newWritableFile clock index fname).2 after := by
  obtain ⟨empty, unopened⟩ := allowed
  obtain ⟨result, deleted, gone, handles, room, holds⟩ := refines.holds.delete unopened (clock 0)
  have vacant : deleted.handles (index + 1) = none := by
    rw [handles]
    exact refines.vacant empty
  have others : ∀ (log : Option AppendLog) place handle,
      rocks.system.handles place = some handle →
        Function.update store.logs (fileName fname) log handle.name = store.logs handle.name :=
    fun log place handle held => Function.update_of_ne (unopened place handle held) ..
  rcases holds.create vacant (Function.update_self ..) writableMode (clock 1) with
    ⟨proper, file, after, flags, performed, handles', holds'⟩ |
      ⟨error, after, reason, performed, handles', holds'⟩
  · rw [Function.update_idem] at holds'
    have link : Linked (Function.update store.logs (fileName fname) (some AppendLog.empty))
      (index + 1)
        (some (.writable ⟨some (index + 1), 0, false⟩)) (some (.writable (fileName fname)))
        (some ⟨fileName fname, file⟩) :=
      @Linked.writable _ _ _ ⟨fileName fname, file⟩ _ (Function.update_self ..)
        (writes_of_flags flags) rfl
    rw [RocksSystem.newWritableFile, gone]
    simp only [performed]
    exact ⟨_, .created proper, refines.setFile holds' (handles'.trans (by rw [handles])) link
      fun place handle _ held => others _ place handle held⟩
  · have absent : store.logs (fileName fname) = none := by
      by_contra there
      rcases reason with named | ⟨-, full⟩
      · rw [refines.holds.proper there] at named
        contradiction
      · exact full (room (.inr there))
    rw [RocksSystem.newWritableFile, gone]
    simp only [performed]
    refine ⟨_, .uncreated absent (reason.imp_right And.left), ?_⟩
    have same := refines.withSystem holds' (handles'.trans handles) (others none)
    rw [← absent, Function.update_eq_self] at same
    exact same

theorem sequentialRead (refines : Refines uuid layout origin rocks store) {n : UInt64}
    (allowed : (RocksCall.sequentialRead index n).Allowed rocks) (clock : Nat → UInt64) :
    ∃ after, FlatStep store (.sequentialRead index n) (rocks.sequentialRead clock index n).1 after ∧
      Refines uuid layout origin (rocks.sequentialRead clock index n).2 after := by
  obtain ⟨pos, size, is⟩ := allowed
  obtain ⟨handle, log, held, flat, there, readable, whole, inside⟩ := refines.sequential_link is
  obtain ⟨serves, content, holds⟩ := refines.holds.held held there
  have same : size = handle.file.inode.sizeBytes := by
    rw [← UInt64.toNat_inj, whole, ← log.length_contents, ← content, NebulaInode.length_content]
  obtain ⟨file, reads, ran⟩ := @sequentialRead_run _ handle.file ⟨handle.file, pos, size⟩ serves
    readable (NebulaFile.ReadFrom.refl _) same inside n (clock 0)
  have moved := @toNat_cursorNext_read size pos inside n (clock 0)
  have link : Linked store.logs (index + 1)
      (some (.sequential (cursorNext size pos (.read n (clock 0))) size))
      (some (.sequential handle.name (min (pos.toNat + n.toNat) log.size)))
      (some ⟨handle.name, file⟩) := by
    rw [← whole, ← moved]
    exact @Linked.sequential _ _ _ _ ⟨handle.name, file⟩ _ there (by rwa [reads.flags]) whole
      (cursorNext_le inside _)
  rw [RocksSystem.sequentialRead, is, held]
  simp only [ran, content]
  exact ⟨_, .read flat there, refines.setFile (holds file reads) rfl link fun _ _ _ _ => rfl⟩

theorem skip (refines : Refines uuid layout origin rocks store) {n : UInt64}
    (allowed : (RocksCall.skip index n).Allowed rocks) :
    ∃ after, FlatStep store (.skip index n) (rocks.skip index n).1 after ∧
      Refines uuid layout origin (rocks.skip index n).2 after := by
  obtain ⟨pos, size, is⟩ := allowed
  obtain ⟨handle, log, held, flat, there, readable, whole, inside⟩ := refines.sequential_link is
  have moved := @toNat_cursorNext_skip size pos n
  have link : Linked store.logs (index + 1)
      (some (.sequential (cursorNext size pos (.skip n)) size))
      (some (.sequential handle.name (min ((pos.toNat + n.toNat) % 2 ^ 64) log.size)))
      (some handle) := by
    rw [← whole, ← moved]
    exact .sequential there readable whole (cursorNext_le inside _)
  rw [RocksSystem.skip, is]
  refine ⟨_, .skipped flat there, refines.setFile refines.holds ?_ link fun _ _ _ _ => rfl⟩
  rw [← held, Function.update_eq_self]

theorem readAt (refines : Refines uuid layout origin rocks store) {offset n : UInt64}
    (allowed : (RocksCall.readAt index offset n).Allowed rocks) (clock : Nat → UInt64) :
    ∃ after, FlatStep store (.readAt index offset n) (rocks.readAt clock index offset n).1 after ∧
      Refines uuid layout origin (rocks.readAt clock index offset n).2 after := by
  obtain ⟨handle, log, held, flat, there, readable⟩ := refines.randomAccess_link allowed
  obtain ⟨serves, content, holds⟩ := refines.holds.held held there
  obtain ⟨file, reads, ran⟩ : ∃ file, handle.file.ReadFrom file ∧
      (randomAccessRead handle.file offset n (clock 0)).run rocks.system.state =
        (.ok (.ok ((log.contents.drop offset.toNat).take n.toNat), file), rocks.system.state) := by
    rw [randomAccessRead]
    split_ifs with past
    · refine ⟨handle.file, .refl _, ?_⟩
      rw [run_pure, List.drop_of_length_le, List.take_nil]
      rw [← content, NebulaInode.length_content]
      exact UInt64.le_iff_toNat_le.mp past
    · obtain ⟨file, reads, ran⟩ := serves.clamped readable (.refl _)
        (UInt64.le_of_lt (UInt64.not_le.mp past)) n (clock 0)
      rw [content] at ran
      exact ⟨file, reads, ran⟩
  have link : Linked store.logs (index + 1) (some .randomAccess) (some (.randomAccess handle.name))
      (some ⟨handle.name, file⟩) :=
    @Linked.randomAccess _ _ ⟨handle.name, file⟩ _ there (by rwa [reads.flags])
  rw [RocksSystem.readAt, allowed, held]
  simp only [ran]
  refine ⟨_, .readAt flat there, ?_⟩
  have kept := refines.setFile (holds file reads) rfl link fun _ _ _ _ => rfl
  rw [RocksSystem.setFile, ← allowed, ← flat, Function.update_eq_self,
    Function.update_eq_self] at kept
  exact kept

theorem append (refines : Refines uuid layout origin rocks store) {data : List UInt8}
    (allowed : (RocksCall.append index data).Allowed rocks) (clock : Nat → UInt64) :
    ∃ after, FlatStep store (.append index data) (rocks.append clock index data).1 after ∧
      Refines uuid layout origin (rocks.append clock index data).2 after := by
  obtain ⟨file, is, unwrapped⟩ := allowed
  rcases refines.writable_link is with
    ⟨handle, log, held, flat, there, able, shape, cursor⟩ | ⟨-, shape, flat⟩
  · obtain ⟨n, most, result, kept, after, flags, answers, performed, handles, holds⟩ :=
      refines.holds.write held there able cursor unwrapped (clock 0)
    have others : ∀ (log : Option AppendLog) place found, place ≠ index + 1 →
        rocks.system.handles place = some found →
          Function.update store.logs handle.name log found.name = store.logs found.name :=
      fun log place found apart held' => Function.update_of_ne
        (fun same => apart (refines.holds.alone held' held same)) ..
    rw [RocksSystem.append, is, shape]
    rcases answers with ⟨rfl, some⟩ | ⟨rfl, some, error, rfl⟩
    · have moved : (file.pos + UInt64.ofNat n).toNat = (log.append data n).bytes.length := by
        rw [UInt64.toNat_add, UInt64.toNat_ofNat', AppendLog.append, List.length_append,
          List.length_take]
        omega
      have link : Linked (Function.update store.logs handle.name (Option.some (log.append data n)))
          (index + 1) (Option.some
            (.writable ⟨Option.some (index + 1), file.pos + UInt64.ofNat n, false⟩))
          (Option.some (.writable handle.name)) (Option.some ⟨handle.name, kept⟩) :=
        @Linked.writable _ _ _ ⟨handle.name, kept⟩ _ (Function.update_self ..)
          (by rwa [flags]) moved
      simp only [performed]
      refine ⟨_, .appended flat there most some, ?_⟩
      have step := refines.setFile holds handles link (others _)
      rw [← flat, Function.update_eq_self] at step
      exact step
    · rw [log.append_nothing] at holds
      have link : Linked (Function.update store.logs handle.name (Option.some log)) (index + 1)
          (Option.some (.writable ⟨Option.some (index + 1), file.pos, false⟩))
          (Option.some (.writable handle.name)) (Option.some ⟨handle.name, kept⟩) :=
        @Linked.writable _ _ _ ⟨handle.name, kept⟩ _ (Function.update_self ..)
          (by rwa [flags]) cursor
      simp only [performed]
      refine ⟨store, .unappended flat some, ?_⟩
      have step := refines.setFile holds handles link (others _)
      rw [← shape, RocksSystem.setFile, ← is, Function.update_eq_self, ← flat,
        Function.update_eq_self, ← there, Function.update_eq_self] at step
      exact step
  · rw [RocksSystem.append, is, shape]
    exact ⟨store, .appendClosed flat, refines⟩

theorem closeWritable (refines : Refines uuid layout origin rocks store)
    (allowed : (RocksCall.closeWritable index).Allowed rocks) (clock : Nat → UInt64) :
    ∃ after, FlatStep store (.closeWritable index) (rocks.closeWritable clock index).1 after ∧
      Refines uuid layout origin (rocks.closeWritable clock index).2 after := by
  obtain ⟨file, is⟩ := allowed
  rcases refines.writable_link is with
    ⟨handle, log, held, flat, there, -, shape, cursor⟩ | ⟨-, shape, flat⟩
  · obtain ⟨system, performed, handles, holds⟩ := refines.holds.close held (clock 0)
    rw [RocksSystem.closeWritable, is, shape]
    simp only [performed]
    refine ⟨_, .closed flat there, refines.setFile holds handles ?_ fun _ _ _ _ => rfl⟩
    rw [← cursor]
    exact .closed
  · rw [RocksSystem.closeWritable, is, shape]
    exact ⟨store, .closedAgain flat, refines⟩

theorem writableSize (refines : Refines uuid layout origin rocks store)
    (allowed : (RocksCall.writableSize index).Allowed rocks) :
    ∃ after, FlatStep store (.writableSize index) (rocks.writableSize index).1 after ∧
      Refines uuid layout origin (rocks.writableSize index).2 after := by
  obtain ⟨file, is⟩ := allowed
  rw [RocksSystem.writableSize, is]
  rcases refines.writable_link is with ⟨handle, log, -, flat, there, -, -, cursor⟩ | ⟨-, -, flat⟩
  · exact ⟨store, .writableSize flat there cursor, refines⟩
  · exact ⟨store, .closedSize flat, refines⟩

/-- A file object goes, and its handle is closed. -/
theorem drop_held (refines : Refines uuid layout origin rocks store) {handle : Handle}
    (held : rocks.system.handles (index + 1) = some handle) (now : UInt64) :
    Refines uuid layout origin
      (rocks.setFile (rocks.system.perform (.close (index + 1)) now).2 index none)
      (store.setFile index none) := by
  obtain ⟨system, performed, handles, holds⟩ := refines.holds.close held now
  rw [performed]
  exact refines.setFile holds handles .absent fun _ _ _ _ => rfl

theorem destroy (refines : Refines uuid layout origin rocks store)
    (allowed : (RocksCall.destroy index).Allowed rocks) (clock : Nat → UInt64) :
    ∃ after, FlatStep store (.destroy index) (rocks.destroy clock index).1 after ∧
      Refines uuid layout origin (rocks.destroy clock index).2 after := by
  obtain ⟨file, is⟩ := allowed
  cases file with
  | sequential pos size =>
      obtain ⟨handle, log, held, -⟩ := refines.sequential_link is
      rw [RocksSystem.destroy, is]
      exact ⟨_, .destroyed, refines.drop_held held (clock 0)⟩
  | randomAccess =>
      obtain ⟨handle, log, held, -⟩ := refines.randomAccess_link is
      rw [RocksSystem.destroy, is]
      exact ⟨_, .destroyed, refines.drop_held held (clock 0)⟩
  | writable file =>
      rcases refines.writable_link is with
        ⟨handle, log, held, -, -, -, shape, -⟩ | ⟨none, shape, -⟩
      · rw [RocksSystem.destroy, is, shape]
        exact ⟨_, .destroyed, refines.drop_held held (clock 0)⟩
      · rw [RocksSystem.destroy, is, shape]
        refine ⟨_, .destroyed, refines.setFile refines.holds ?_ .absent fun _ _ _ _ => rfl⟩
        rw [← none, Function.update_eq_self]

theorem fileExists (refines : Refines uuid layout origin rocks store) (fname : List UInt8)
    (clock : Nat → UInt64) :
    ∃ after, FlatStep store (.fileExists fname) (rocks.fileExists clock fname).1 after ∧
      Refines uuid layout origin (rocks.fileExists clock fname).2 after := by
  rw [RocksSystem.fileExists]
  by_cases absent : store.logs (fileName fname) = none
  · rw [refines.holds.lookup_missing absent]
    exact ⟨store, .notExists absent, refines⟩
  · obtain ⟨inodeNum, performed⟩ := refines.holds.lookup_there absent (clock 0)
    rw [performed]
    exact ⟨store, .fileExists absent, refines⟩

theorem getChildren (refines : Refines uuid layout origin rocks store) (clock : Nat → UInt64) :
    ∃ after, FlatStep store .getChildren (rocks.getChildren clock).1 after ∧
      Refines uuid layout origin (rocks.getChildren clock).2 after := by
  obtain ⟨entries, views, files, agree⟩ := refines.holds
  obtain ⟨items, performed, distinct, all⟩ := files.readdir (clock 0)
  rw [RocksSystem.getChildren, performed]
  refine ⟨store, .children ?_ fun name => ?_, refines⟩
  · exact (List.filter_sublist.map DirItem.name).nodup distinct
  · rw [← rel_there agree, ← all name]
    simp [and_comm, and_left_comm]

theorem deleteFile (refines : Refines uuid layout origin rocks store)
    (allowed : (RocksCall.deleteFile fname).Allowed rocks) (clock : Nat → UInt64) :
    ∃ after, FlatStep store (.deleteFile fname) (rocks.deleteFile clock fname).1 after ∧
      Refines uuid layout origin (rocks.deleteFile clock fname).2 after := by
  by_cases absent : store.logs (fileName fname) = none
  · refine refines.seeks_missing rfl absent ?_
    rw [RocksSystem.deleteFile, refines.holds.delete_missing absent]
    rfl
  · obtain ⟨system, performed, handles, -, holds⟩ :=
      refines.holds.delete_there absent allowed (clock 0)
    rw [RocksSystem.deleteFile, performed]
    refine ⟨_, .deleted absent, refines.withSystem holds handles fun place handle held => ?_⟩
    exact Function.update_of_ne (allowed place handle held) ..

theorem closed_scratch (refines : Refines uuid layout origin rocks store) {system : FsSystem}
    {next : Option Handle}
    (handles : system.handles = Function.update rocks.system.handles 0 next) :
    Function.update system.handles 0 none = rocks.system.handles := by
  rw [handles, Function.update_idem, ← refines.scratch, Function.update_eq_self]

theorem getFileSize (refines : Refines uuid layout origin rocks store)
    (allowed : (RocksCall.getFileSize fname).Allowed rocks) (clock : Nat → UInt64) :
    ∃ after, FlatStep store (.getFileSize fname) (rocks.getFileSize clock fname).1 after ∧
      Refines uuid layout origin (rocks.getFileSize clock fname).2 after := by
  cases there : store.logs (fileName fname) with
  | none =>
      refine refines.seeks_missing rfl there ?_
      rw [RocksSystem.getFileSize, refines.holds.open_missing there]
      rfl
  | some log =>
      obtain ⟨file, -, size, performed, holds⟩ := refines.holds.open_there there refines.scratch
        allowed openReadOnly_opens (clock 0)
      obtain ⟨system, closed, handles, holds'⟩ := holds.close
        (rocks.system.setHandle_held 0 _) (clock 1)
      rw [RocksSystem.getFileSize, performed]
      simp only [closed]
      exact ⟨store, .fileSize there size,
        refines.withSystem holds' (handles.trans (refines.closed_scratch rfl)) fun _ _ _ => rfl⟩

theorem remount {options : FormatOptions} (refines : Refines options.uuid layout origin rocks store)
    (formatted : Mountable options layout origin) {heap : Nat → Block}
    (allowed : (RocksCall.remount heap).Allowed rocks) (clock : Nat → UInt64) :
    ∃ after, FlatStep store (.remount heap) (rocks.remount clock heap).1 after ∧
      Refines options.uuid layout origin (rocks.remount clock heap).2 after := by
  obtain ⟨entries, views, files, agree⟩ := refines.holds
  obtain ⟨system, performed, handles, files'⟩ := files.remount formatted allowed heap (clock 0)
  rw [RocksSystem.remount, performed]
  exact ⟨store, .remounted,
    refines.withSystem ⟨entries, views, files', agree⟩ handles fun _ _ _ => rfl⟩

/-! ## Renaming -/

/-- A rename reads the whole file. -/
theorem renameSystem_there {system : FsSystem} {logs : Name → Option AppendLog}
    (holds : HoldsLogs uuid layout origin system logs) (scratch : system.handles 0 = none)
    {src : List UInt8} (unopened : system.Unopened (fileName src)) {log : AppendLog}
    (there : logs (fileName src) = some log) (clock : Nat → UInt64) (target : List UInt8) :
    ∃ after, after.handles = system.handles ∧ HoldsLogs uuid layout origin after logs ∧
      log.size < 2 ^ 64 ∧ RocksSystem.renameSystem clock system src target =
        RocksSystem.renameTo clock after src target log.contents := by
  have listed : logs (fileName src) ≠ none := by
    rw [there]
    exact Option.some_ne_none log
  obtain ⟨inodeNum, found⟩ := holds.lookup_there listed (clock 0)
  obtain ⟨file, flags, size, opened, holds₁⟩ :=
    holds.open_there there scratch unopened openReadOnly_opens (clock 1)
  have bounded : log.size < 2 ^ 64 := by
    rw [← size]
    exact UInt64.toNat_lt _
  have restored : Function.update system.handles 0 none = system.handles := by
    rw [← scratch, Function.update_eq_self]
  simp only [RocksSystem.renameSystem, found, opened, size]
  by_cases some : 0 < log.size
  · obtain ⟨file', read, holds₂⟩ := @HoldsLogs.read _ _ _ _ _ _ _ _ holds₁
      (system.setHandle_held 0 _) there (reads_of_flags flags) 0 log.size
      (by rw [UInt64.toNat_zero]; omega) (clock 2)
    obtain ⟨after, closed, handles, holds₃⟩ :=
      holds₂.close (FsSystem.setHandle_held _ 0 _) (clock 3)
    have whole : (log.contents.drop (0 : UInt64).toNat).take log.size = log.contents := by
      rw [UInt64.toNat_zero, List.drop_zero, ← log.length_contents, List.take_length]
    refine ⟨after, ?_, holds₃, bounded, ?_⟩
    · rw [handles]
      simp only [FsSystem.keepFile, FsSystem.setHandle, Function.update_idem]
      exact restored
    · simp only [if_pos some, read, closed, whole, FsResult.rc, FsResult.got, log.length_contents,
        Nat.sub_self, List.replicate_zero, List.append_nil]
  · obtain ⟨after, closed, handles, holds₂⟩ :=
      holds₁.close (FsSystem.setHandle_held _ 0 _) (clock 3)
    have empty : log.contents = [] := by
      rw [← List.length_eq_zero_iff, log.length_contents]
      omega
    have none : log.size = 0 := by omega
    refine ⟨after, ?_, holds₂, bounded, ?_⟩
    · rw [handles]
      simp only [FsSystem.setHandle, Function.update_idem]
      exact restored
    · simp only [if_neg some, closed, empty, FsResult.rc, FsResult.got]
      rw [none, List.length_nil, Nat.sub_zero, List.replicate_zero, List.append_nil]

/-- The file is deleted and written under its new name. -/
theorem renameTo_step {system : FsSystem} (holds : HoldsLogs uuid layout origin system store.logs)
    (scratch : system.handles 0 = none) {src target : List UInt8}
    (unopened : system.Unopened (fileName src)) (unopened' : system.Unopened (fileName target))
    {log : AppendLog} (there : store.logs (fileName src) = some log) (bounded : log.size < 2 ^ 64)
    (clock : Nat → UInt64) :
    ∃ status after logs, RocksSystem.renameTo clock system src target log.contents =
      (status, after) ∧
      FlatStep store (.renameFile src target) (.status status) { store with logs } ∧
      after.handles = system.handles ∧ HoldsLogs uuid layout origin after logs ∧
      ∀ name, name ≠ fileName src → name ≠ fileName target → logs name = store.logs name := by
  have listed : store.logs (fileName src) ≠ none := by
    rw [there]
    exact Option.some_ne_none log
  have others : ∀ (log' : Option AppendLog) name, name ≠ fileName src → name ≠ fileName target →
      Function.update (Function.update store.logs (fileName src) none) (fileName target) log' name =
        store.logs name := by
    intro log' name apart apart'
    rw [Function.update_of_ne apart', Function.update_of_ne apart]
  have restored : Function.update system.handles 0 none = system.handles := by
    rw [← scratch, Function.update_eq_self]
  obtain ⟨first, gone, handles₁, room, holds₁⟩ := holds.delete_there listed unopened (clock 4)
  obtain ⟨result, second, gone', handles₂, room', holds₂⟩ :=
    @HoldsLogs.delete _ _ _ _ _ holds₁ target (by rwa [FsSystem.Unopened, handles₁]) (clock 5)
  rcases @HoldsLogs.create _ _ _ _ _ 0 holds₂ target (by rw [handles₂, handles₁, scratch])
      (Function.update_self ..) writableMode (clock 6) with
    ⟨proper, file, third, flags, created, handles₃, holds₃⟩ |
      ⟨error, third, reason, refused, handles₃, holds₃⟩
  · rw [Function.update_idem] at holds₃
    have held : third.handles 0 = some ⟨fileName target, file⟩ := by
      rw [handles₃, Function.update_self]
    simp only [RocksSystem.renameTo, gone, gone', created]
    by_cases some : 0 < log.contents.length
    · obtain ⟨n, most, written, kept, fourth, -, answers, performed, handles₄, holds₄⟩ :=
        @HoldsLogs.write _ _ _ _ _ _ _ _ holds₃ held (Function.update_self ..)
          (writes_of_flags flags) 0 rfl log.contents
          (by rw [UInt64.toNat_zero, log.length_contents]; omega) (clock 7)
      obtain ⟨fifth, closed, handles₅, holds₅⟩ :=
        holds₄.close (by rw [handles₄]; exact Function.update_self ..) (clock 8)
      rw [Function.update_idem] at holds₅
      have same : fifth.handles = system.handles := by
        rw [handles₅, handles₄, Function.update_idem, handles₃, Function.update_idem, handles₂,
          handles₁, restored]
      rw [log.length_contents] at most some
      simp only [log.length_contents, if_pos some, performed, closed]
      rcases answers with ⟨rfl, some'⟩ | ⟨rfl, some', error, rfl⟩
      · have least : 0 < n ∨ log.size = 0 := some'.imp_right fun none => by
          rw [← log.length_contents, none, List.length_nil]
        exact ⟨_, fifth, _, rfl, .renamed there proper most least, same, holds₅, others _⟩
      · rw [AppendLog.append_nothing] at holds₅
        exact ⟨_, fifth, _, rfl, .renamedEmpty there proper some.ne', same, holds₅, others _⟩
    · obtain ⟨fourth, closed, handles₄, holds₄⟩ := holds₃.close held (clock 8)
      have same : fourth.handles = system.handles := by
        rw [handles₄, handles₃, Function.update_idem, handles₂, handles₁, restored]
      have none : log.size = 0 := by
        rw [log.length_contents] at some
        omega
      have step := @FlatStep.renamed store src target log 0 there proper (Nat.zero_le _) (.inr none)
      rw [AppendLog.append_nothing] at step
      simp only [if_neg some, closed]
      exact ⟨_, fourth, _, rfl, step, same, holds₄, others _⟩
  · have named := reason.resolve_right fun full => full.2 (room' (.inl room))
    have absent : Function.update store.logs (fileName src) none (fileName target) = none := by
      by_contra there'
      rw [holds₁.proper there'] at named
      contradiction
    have unchanged :
      Function.update (Function.update store.logs (fileName src) none) (fileName target)
        none = Function.update store.logs (fileName src) none :=
      Function.update_eq_self_iff.mpr absent.symm
    rw [unchanged] at holds₃
    simp only [RocksSystem.renameTo, gone, gone', refused]
    refine ⟨_, third, _, rfl, .renameLost listed named, ?_, holds₃, ?_⟩
    · rw [handles₃, handles₂, handles₁]
    · exact fun name apart _ => Function.update_of_ne apart ..

theorem renameFile (refines : Refines uuid layout origin rocks store) {src target : List UInt8}
    (allowed : (RocksCall.renameFile src target).Allowed rocks) (clock : Nat → UInt64) :
    ∃ after, FlatStep store (.renameFile src target) (rocks.renameFile clock src target).1 after ∧
      Refines uuid layout origin (rocks.renameFile clock src target).2 after := by
  have unopened : rocks.system.Unopened (fileName src) := fun place handle held =>
    (allowed place handle held).1
  have unopened' : rocks.system.Unopened (fileName target) := fun place handle held =>
    (allowed place handle held).2
  cases there : store.logs (fileName src) with
  | none =>
      refine refines.seeks_missing rfl there ?_
      rw [RocksSystem.renameFile, RocksSystem.renameSystem, refines.holds.lookup_missing there]
      rfl
  | some log =>
      obtain ⟨system, handles, holds, bounded, reads⟩ :=
        renameSystem_there refines.holds refines.scratch unopened there clock target
      obtain ⟨status, after, logs, performed, step, handles', holds', others⟩ :=
        renameTo_step holds (by rw [handles]; exact refines.scratch)
          (by rwa [FsSystem.Unopened, handles]) (by rwa [FsSystem.Unopened, handles]) there bounded
          clock
      rw [RocksSystem.renameFile, reads, performed]
      refine ⟨_, step, refines.withSystem holds' (handles'.trans handles) ?_⟩
      exact fun place handle held => others handle.name
        (unopened place handle held) (unopened' place handle held)

/-! ## Runs -/

/-- Every call of the adapter is a step of the store. -/
theorem step {options : FormatOptions} (refines : Refines options.uuid layout origin rocks store)
    (formatted : Mountable options layout origin) {call : RocksCall} (allowed : call.Allowed rocks)
    (clock : Nat → UInt64) :
    ∃ after, FlatStep store call (rocks.perform clock call).1 after ∧
      Refines options.uuid layout origin (rocks.perform clock call).2 after := by
  cases call with
  | newSequentialFile => exact refines.newSequentialFile allowed clock
  | newRandomAccessFile => exact refines.newRandomAccessFile allowed clock
  | newWritableFile => exact refines.newWritableFile allowed clock
  | reopenWritableFile => exact refines.reopenWritableFile allowed clock
  | sequentialRead => exact refines.sequentialRead allowed clock
  | skip => exact refines.skip allowed
  | readAt => exact refines.readAt allowed clock
  | append => exact refines.append allowed clock
  | closeWritable => exact refines.closeWritable allowed clock
  | writableSize => exact refines.writableSize allowed
  | destroy => exact refines.destroy allowed clock
  | fileExists fname => exact refines.fileExists fname clock
  | getChildren => exact refines.getChildren clock
  | deleteFile => exact refines.deleteFile allowed clock
  | getFileSize => exact refines.getFileSize allowed clock
  | renameFile => exact refines.renameFile allowed clock
  | remount => exact refines.remount formatted allowed clock

theorem fresh {options : FormatOptions} {layout : NebulaLayout} {volume : Volume}
    (fresh : volume.Fresh options layout) (small : layout.capacityBlocks ≤ 2 ^ 32) :
    Refines options.uuid layout volume.disk (.fresh volume) .empty := by
  refine ⟨⟨fun _ => none, fun _ => none, ⟨fresh.fsInv small, fresh.oneHandle small, ?_, ?_, ?_⟩,
    fun _ => .none⟩, rfl, fun _ => .absent⟩
  · intro slot name number inode listed
    contradiction
  · intro name
    refine ⟨fun there => absurd rfl there, ?_⟩
    rintro ⟨slot, number, listed⟩
    contradiction
  · exact fun name there => absurd rfl there

/-- Without file objects no handle is open. -/
theorem handles_none (refines : Refines uuid layout origin rocks store)
    (idle : ∀ index, store.files index = none) (place : Nat) :
    rocks.system.handles place = none := by
  cases place with
  | zero => exact refines.scratch
  | succ index =>
      have link := refines.linked index
      rw [idle index] at link
      generalize rocks.files index = file, rocks.system.handles (index + 1) = handle at link ⊢
      cases link
      rfl

theorem files_none (refines : Refines uuid layout origin rocks store)
    (empty : store.files index = none) : rocks.files index = none := by
  have link := refines.linked index
  rw [empty] at link
  generalize rocks.files index = file, rocks.system.handles (index + 1) = handle at link ⊢
  cases link
  rfl

theorem files_sequential (refines : Refines uuid layout origin rocks store) {name : Name}
    {pos : Nat} (is : store.files index = some (.sequential name pos)) :
    ∃ pos size, rocks.files index = some (.sequential pos size) := by
  have link := refines.linked index
  rw [is] at link
  generalize rocks.files index = file, rocks.system.handles (index + 1) = handle at link ⊢
  cases link
  exact ⟨_, _, rfl⟩

theorem files_writable (refines : Refines uuid layout origin rocks store) {name : Name}
    {log : AppendLog} (is : store.files index = some (.writable name))
    (there : store.logs name = some log) : ∃ file, rocks.files index = some (.writable file) ∧
      file.pos.toNat = log.bytes.length := by
  have link := refines.linked index
  rw [is] at link
  generalize rocks.files index = file, rocks.system.handles (index + 1) = handle at link ⊢
  cases link with
  | writable found able cursor =>
      rw [there, Option.some.injEq] at found
      exact ⟨_, rfl, found ▸ cursor⟩

/-- A further call of a run. -/
theorem call {options : FormatOptions} {start : RocksSystem}
    (refines : Refines options.uuid layout origin rocks store)
    (formatted : Mountable options layout origin) {trace : List (RocksCall × RocksAnswer)}
    (run : RocksRun start trace rocks) (call : RocksCall) (allowed : call.Allowed rocks) :
    ∃ answer rocks' after, RocksRun start (trace ++ [(call, answer)]) rocks' ∧
      FlatStep store call answer after ∧ Refines options.uuid layout origin rocks' after := by
  obtain ⟨after, step, refines'⟩ := refines.step formatted allowed fun _ => 0
  exact ⟨_, _, after, run.call call _ allowed, step, refines'⟩

end Refines

/-- A run of the adapter comes to a state that a run of the store comes to, with the
same answers. -/
theorem RocksRun.refines {options : FormatOptions} {volume : Volume}
    (fresh : volume.Fresh options layout) (small : layout.capacityBlocks ≤ 2 ^ 32)
    {trace : List (RocksCall × RocksAnswer)} {reached : RocksSystem}
    (run : RocksRun (.fresh volume) trace reached) : ∃ store, FlatRun trace store ∧
      Refines options.uuid layout volume.disk reached store := by
  induction run with
  | refl => exact ⟨.empty, .refl, .fresh fresh small⟩
  | call _ call clock allowed ih =>
      obtain ⟨store, run, refines⟩ := ih
      obtain ⟨after, step, refines'⟩ := refines.step fresh.mountable allowed clock
      exact ⟨after, run.step step, refines'⟩

end Files

/-- On a fresh device the first file is created. -/
theorem Volume.Fresh.newWritableFile {options : FormatOptions} {layout : NebulaLayout}
    {volume : Volume} (fresh : volume.Fresh options layout) (small : layout.capacityBlocks ≤ 2 ^ 32)
    {fname : List UInt8} (some : fileName fname ≠ []) (short : (fileName fname).length < dirNameMax)
    (index : Nat) (clock : Nat → UInt64) :
    ((RocksSystem.fresh volume).newWritableFile clock index fname).1 = .status .ok := by
  have refines := Refines.fresh fresh small
  obtain ⟨file, created, -⟩ := fresh.create_first small (fileName_text fname) some short
    (fileName_ne_root fname) (index + 1) writableMode (clock 1)
  have gone : (RocksSystem.fresh volume).system.perform (.delete (fileName fname)) (clock 0) =
      (.error (missing (fileName fname)), .fresh volume) :=
        refines.holds.delete_missing rfl (clock 0)
  rw [RocksSystem.newWritableFile, gone]
  simp only
  generalize (FsSystem.fresh volume).perform _ _ = outcome at created
  obtain ⟨result, after⟩ := outcome
  simp only at created
  subst created
  rfl

/-- An append leaves the file objects and the names as they are. -/
theorem FlatStep.append_keeps {store after : FlatStore} {index : Nat} {data : List UInt8}
    {answer : RocksAnswer} (step : FlatStep store (.append index data) answer after) :
    after.files = store.files ∧ ∀ name, store.logs name ≠ none → after.logs name ≠ none := by
  cases step with
  | missing seeks absent => exact ⟨rfl, fun _ there => there⟩
  | unappended held some => exact ⟨rfl, fun _ there => there⟩
  | appendClosed held => exact ⟨rfl, fun _ there => there⟩
  | @appended _ n appendedTo log _ held there most some =>
      refine ⟨rfl, fun name there => ?_⟩
      show Function.update store.logs appendedTo _ name ≠ none
      rw [Function.update_apply]
      split_ifs
      · exact Option.some_ne_none _
      · exact there

theorem FlatStep.newWritableFile_ok {store after : FlatStore} {index : Nat} {fname : List UInt8}
    (step : FlatStep store (.newWritableFile index fname) (.status .ok) after) :
    after = (store.setLog (fileName fname) (some .empty)).setFile index
      (some (.writable (fileName fname))) := by
  generalize answered : RocksAnswer.status .ok = answer at step
  cases step with
  | missing seeks absent => exact nomatch seeks
  | created proper => rfl
  | @uncreated _ _ error absent reason => cases error <;> exact nomatch answered

theorem FlatStep.newSequentialFile_eq {store after : FlatStore} {index : Nat} {fname : List UInt8}
    {answer : RocksAnswer} (step : FlatStep store (.newSequentialFile index fname) answer after)
    (there : store.logs (fileName fname) ≠ none) :
    after = store.setFile index (some (.sequential (fileName fname) 0)) := by
  cases step with
  | missing seeks absent =>
      cases seeks
      exact absurd absent there
  | sequential there => rfl

theorem FlatStep.sequentialRead_keeps {store after : FlatStore} {index : Nat} {n : UInt64}
    {answer : RocksAnswer} (step : FlatStep store (.sequentialRead index n) answer after) :
    ∃ name pos, after.files = Function.update store.files index (some (.sequential name pos)) := by
  cases step with
  | missing seeks absent => exact nomatch seeks
  | read held there => exact ⟨_, _, rfl⟩

theorem FlatStep.destroy_eq {store after : FlatStore} {index : Nat} {answer : RocksAnswer}
    (step : FlatStep store (.destroy index) answer after) : after = store.setFile index none := by
  cases step with
  | missing seeks absent => exact nomatch seeks
  | destroyed => rfl

/-- A client writes a file, reads it, and renames it. -/
theorem Volume.Fresh.write_read_rename {options : FormatOptions} {layout : NebulaLayout}
    {volume : Volume} (fresh : volume.Fresh options layout)
    (small : layout.capacityBlocks ≤ 2 ^ 32) :
    ∃ trace reached, RocksRun (.fresh volume) trace reached ∧
      trace.map Prod.fst = [.newWritableFile 0 [47, 97], .append 0 [1, 2, 3], .destroy 0,
        .newSequentialFile 0 [47, 97], .sequentialRead 0 10, .destroy 0,
        .renameFile [47, 97] [47, 98], .fileExists [98]] ∧
      (trace.map Prod.snd).head? = some (.status .ok) := by
  have formatted := fresh.mountable
  have free : (RocksCall.newWritableFile 0 [47, 97]).Allowed (.fresh volume) :=
    ⟨rfl, fun _ _ held => nomatch held⟩
  have created := @Volume.Fresh.newWritableFile _ _ _ fresh small [47, 97] (by decide) (by decide) 0
    fun _ => 0
  obtain ⟨store₁, step₁, refines₁⟩ := (Refines.fresh fresh small).newWritableFile free fun _ => 0
  have run₁ := RocksRun.refl.call _ (fun _ => 0) free
  simp only [RocksSystem.perform] at run₁
  rw [created] at step₁ run₁
  generalize ((RocksSystem.fresh volume).newWritableFile _ 0 _).2 = rocks₁ at refines₁ run₁
  obtain rfl := step₁.newWritableFile_ok
  obtain ⟨file, is, cursor⟩ := @Refines.files_writable _ _ _ _ _ 0 refines₁ [97] .empty rfl rfl
  obtain ⟨_, rocks₂, store₂, run₂, step₂, refines₂⟩ := refines₁.call formatted run₁
    (.append 0 [1, 2, 3]) ⟨file, is, by rw [cursor]; decide⟩
  obtain ⟨files₂, names₂⟩ := step₂.append_keeps
  obtain ⟨log, there⟩ := Option.ne_none_iff_exists'.mp (names₂ [97] (Option.some_ne_none _))
  obtain ⟨file₂, is₂, -⟩ := refines₂.files_writable (congrFun files₂ 0) there
  obtain ⟨_, rocks₃, store₃, run₃, step₃, refines₃⟩ := refines₂.call formatted run₂
    (.destroy 0) ⟨_, is₂⟩
  have idle₃ : ∀ index, store₃.files index = none := by
    rw [step₃.destroy_eq, FlatStore.setFile, files₂]
    rintro (_ | index) <;> rfl
  have names₃ : store₃.logs [97] ≠ none := by
    rw [step₃.destroy_eq]
    exact fun absent => Option.some_ne_none log (there.symm.trans absent)
  obtain ⟨_, rocks₄, store₄, run₄, step₄, refines₄⟩ := refines₃.call formatted run₃
    (.newSequentialFile 0 [47, 97]) ⟨refines₃.files_none (idle₃ 0), fun place handle held => by
      rw [refines₃.handles_none idle₃] at held
      contradiction⟩
  obtain rfl := step₄.newSequentialFile_eq names₃
  obtain ⟨pos, size, is₄⟩ := @Refines.files_sequential _ _ _ _ _ 0 refines₄ [97] 0 rfl
  obtain ⟨_, rocks₅, store₅, run₅, step₅, refines₅⟩ := refines₄.call formatted run₄
    (.sequentialRead 0 10) ⟨pos, size, is₄⟩
  obtain ⟨name, next, files₅⟩ := step₅.sequentialRead_keeps
  obtain ⟨_, _, is₅⟩ := refines₅.files_sequential
    ((congrFun files₅ 0).trans (Function.update_self ..))
  obtain ⟨_, rocks₆, store₆, run₆, step₆, refines₆⟩ := refines₅.call formatted run₅
    (.destroy 0) ⟨_, is₅⟩
  have idle₆ : ∀ index, store₆.files index = none := by
    rw [step₆.destroy_eq, FlatStore.setFile, files₅]
    rintro (_ | index)
    · rfl
    · exact idle₃ (index + 1)
  obtain ⟨_, rocks₇, store₇, run₇, -, refines₇⟩ := refines₆.call formatted run₆
    (.renameFile [47, 97] [47, 98]) fun place handle held => by
      rw [refines₆.handles_none idle₆] at held
      contradiction
  obtain ⟨_, rocks₈, store₈, run₈, -, -⟩ := refines₇.call formatted run₇ (.fileExists [98]) trivial
  exact ⟨_, _, run₈, rfl, rfl⟩

/-- Every run of the adapter on a formatted device is a run of the flat store with the
same answers. -/
theorem adapter_refines {options : FormatOptions} {layout : NebulaLayout} {volume : Volume}
    (fresh : volume.Fresh options layout) (small : layout.capacityBlocks ≤ 2 ^ 32)
    {trace : List (RocksCall × RocksAnswer)} {reached : RocksSystem}
    (run : RocksRun (.fresh volume) trace reached) : ∃ store, FlatRun trace store := by
  obtain ⟨store, flat, -⟩ := run.refines fresh small
  exact ⟨store, flat⟩

theorem adapter_refines_plainDisk : ∃ layout mount trace store,
    Volume.Fresh plainOptions layout ⟨plainDisk 65536 (by decide), mount⟩ ∧
    trace.map Prod.fst = [.newWritableFile 0 [47, 97], .append 0 [1, 2, 3], .destroy 0,
      .newSequentialFile 0 [47, 97], .sequentialRead 0 10, .destroy 0,
      .renameFile [47, 97] [47, 98], .fileExists [98]] ∧
    (trace.map Prod.snd).head? = some (.status .ok) ∧ FlatRun trace store := by
  obtain ⟨layout, mount, fresh, total⟩ := plainDisk_fresh
  have small : layout.capacityBlocks ≤ 2 ^ 32 := by omega
  obtain ⟨trace, reached, run, calls, created⟩ := fresh.write_read_rename small
  obtain ⟨store, flat⟩ := adapter_refines fresh small run
  exact ⟨layout, mount, trace, store, fresh, calls, created, flat⟩

end MiniFs
