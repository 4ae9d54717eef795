import MiniFs.Fs.Ownership

/-!
# What calls do

On a device without faults each call of a client has one of the effects of `Effect`, as long as the
invariant `FsInv` holds: the directory lists the files, handles belong to listed files or to the
root, and the stored and the open inodes own their blocks.  The effects keep the invariant.
-/

namespace MiniFs

open Fs

/-- The name stands for the inode: it is listed, or it is that of the root. -/
def Entries.Names (entries : Entries) (name : Name) (number : Nat) : Prop :=
  name = [47] ∧ number = 0 ∨ ∃ slot, entries slot = some (name, number)

/-- The inode is that of a listed file or of the root. -/
def Entries.Live (entries : Entries) (number : Nat) : Prop := number = 0 ∨ entries.Lists number

/-- The number of the inode of a handle. -/
abbrev NebulaFile.number (file : NebulaFile) : Nat := file.inode.inodeNum.toNat

/-- The inodes of the files, as stored and as handles have them. -/
inductive FsSystem.Holder (layout : NebulaLayout) (system : FsSystem) (entries : Entries) :
    Nat → NebulaInode → Prop
  | stored {number : Nat} (live : entries.Live number) :
      Holder layout system entries number (inodeAt layout system.state.disk number)
  | opened {index : Nat} {handle : Handle} (held : system.handles index = some handle) :
      Holder layout system entries handle.file.number handle.file.inode

/-- The block belongs to the bitmap, the inodes, the directory or the data. -/
def FileBlock (layout : NebulaLayout) (lba : Nat) : Prop :=
  InBitmap layout lba ∨ layout.inodePageLba ≤ lba ∧ lba < layout.allocRootsTailLba

/-- The directory, its header and the inodes are in order, those of the root included. -/
structure TableOk (layout : NebulaLayout) (disk : Disk) (entries : Entries) : Prop
    extends DirOk layout disk entries where
  rootType : (inodeAt layout disk 0).type = inodeTypeDir
  rootNumber : (inodeAt layout disk 0).inodeNum = 0
  magic : (dirHeaderAt layout disk).magic = magicDirPage

/-- The invariant of all calls; `origin` is the device as it was formatted. -/
structure FsInv (uuid : Bytes 16) (layout : NebulaLayout) (origin : Disk) (system : FsSystem)
    (entries : Entries) : Prop where
  solid : system.state.Solid uuid layout
  dir : TableOk layout system.state.disk entries
  writes : ∃ writes, system.state.disk = origin.push writes ∧
    ∀ write ∈ writes, FileBlock layout write.1
  named : ∀ {index handle}, system.handles index = some handle →
    entries.Names handle.name handle.file.number ∧ handle.file.inode.type =
      (inodeAt layout system.state.disk handle.file.number).type
  owners : Owners layout system.state (system.Holder layout entries)

/-- Blocks of a file that were not mapped lie under the bytes. -/
def NebulaInode.MapsWithin (inode after : NebulaInode) (offset len : Nat) : Prop :=
  ∀ blk, after.blockOf blk ≠ none →
    inode.blockOf blk ≠ none ∨ offset / 4096 ≤ blk ∧ blk * 4096 < offset + len

/-- What a call may return that changes nothing. -/
def FsCall.Idle : FsCall → FsResult → Prop
  | _, .error _ | .lookup _, .inode _ | .readdir, .items _ | .close _, .done => True
  | .write _ _ data, .count n => data = [] ∧ n = 0
  | _, _ => False

/-- What a call may do on a device without faults. -/
inductive Effect (uuid : Bytes 16) (layout : NebulaLayout) (system : FsSystem) (entries : Entries) :
    FsCall → FsResult → FsSystem → Entries → Prop
  | idle {call : FsCall} {result : FsResult} (idle : call.Idle result) :
      Effect uuid layout system entries call result system entries
  | created {index : Nat} {name : Name} {mode : UInt32} {now : UInt64} {slot number : Nat}
      {writes : List (Nat × Block)}
      (created : Created layout system.state.disk entries name slot number
        (freshInode number inodeTypeFile mode now) writes)
      (magic : (dirHeaderAt layout (system.state.disk.push writes)).magic =
        (dirHeaderAt layout system.state.disk).magic)
      (unrefused : createRefusal layout system.state.disk name = none) :
      Effect uuid layout system entries (.create index name mode)
        (.handle (createdFile number mode now))
        ((system.withState (system.state.withDisk (system.state.disk.push writes))).setHandle index
          (some ⟨name, createdFile number mode now⟩))
        (Function.update entries slot (some (name, number)))
  | uncreated {index : Nat} {name : Name} {mode : UInt32} {error : Errno}
      {writes : List (Nat × Block)} (left : Uncreated layout system.state.disk entries writes)
      (header : dirHeaderAt layout (system.state.disk.push writes) =
        dirHeaderAt layout system.state.disk)
      (root : inodeAt layout (system.state.disk.push writes) 0 =
        inodeAt layout system.state.disk 0)
      (traceless : Traceless layout system.state.disk writes)
      (refused : createRefusal layout system.state.disk name = some error) :
      Effect uuid layout system entries (.create index name mode) (.error error)
        (system.withState (system.state.withDisk (system.state.disk.push writes))) entries
  | opened {index : Nat} {name : Name} {flags : UInt32} {number : Nat}
      (names : entries.Names name number) :
      Effect uuid layout system entries (.open index name flags)
        (.handle ⟨inodeAt layout system.state.disk number, flags, false⟩)
        (system.setHandle index
          (some ⟨name, ⟨inodeAt layout system.state.disk number, flags, false⟩⟩)) entries
  /-- A write that stops early, with a handle that is still to be stored. -/
  | short {index : Nat} {handle : Handle} {offset : UInt64} {data : List UInt8}
      {stop : Option Errno} {n : Nat} {next : NebulaFile} {middle : FsState} (error : Errno)
      (held : system.handles index = some handle)
      (ends : LoopEnds uuid layout system.state handle.file.inode offset data stop n next middle)
      (flags : next.flags = handle.file.flags)
      (dirty : n = 0 ∧ next = handle.file ∨ next.dirty = true) (less : n < data.length)
      (within : offset.toNat + data.length < 2 ^ 64 →
        handle.file.inode.MapsWithin next.inode offset.toNat data.length) :
      Effect uuid layout system entries (.write index offset data)
        (if 0 < n then .count n else .error error)
        ((system.withState middle).keepFile index handle next) entries
  /-- A write that comes to its end. -/
  | wrote {index : Nat} {handle : Handle} {offset : UInt64} {data : List UInt8}
      {stop : Option Errno} {next : NebulaFile} {middle : FsState} {now : UInt64}
      (held : system.handles index = some handle)
      (ends : LoopEnds uuid layout system.state handle.file.inode offset data stop data.length next
        middle)
      (flags : next.flags = handle.file.flags) (some : data ≠ [])
      (within : offset.toNat + data.length < 2 ^ 64 →
        handle.file.inode.MapsWithin next.inode offset.toNat data.length) :
      Effect uuid layout system entries (.write index offset data) (.count data.length)
        ((system.withState (middle.withDisk (middle.disk.push [inodeWrite layout handle.file.number
            (next.inode.written (offset + UInt64.ofNat data.length) now)]))).keepFile index handle
          ⟨next.inode.written (offset + UInt64.ofNat data.length) now, next.flags, false⟩) entries
  | read {index : Nat} {handle : Handle} {offset : UInt64} {len : Nat} {result : FsResult}
      (time : UInt64) (held : system.handles index = some handle)
      (answers : (∃ error, result = .error error) ∨ ∃ bytes, result = .bytes bytes) :
      Effect uuid layout system entries (.read index offset len) result
        (system.keepFile index handle
          { handle.file with inode := { handle.file.inode with atimeNs := time } }) entries
  | closed {index : Nat} {handle : Handle} (held : system.handles index = some handle)
      (clean : handle.file.dirty = false) :
      Effect uuid layout system entries (.close index) .done (system.setHandle index none) entries
  | stored {index : Nat} {handle : Handle} {now : UInt64}
      (held : system.handles index = some handle) (dirty : handle.file.dirty = true) :
      Effect uuid layout system entries (.close index) .done
        ((system.withState (system.state.withDisk (system.state.disk.push [inodeWrite layout
          handle.file.number
          (NebulaInode.seal { handle.file.inode with mtimeNs := now })]))).setHandle
            index none) entries
  | deleted {name : Name} {slot number : Nat} {after : FsState} {writes : List (Nat × Block)}
      (listed : entries slot = some (name, number)) (solid : after.Solid uuid layout)
      (disk : after.disk = ((system.state.disk.push [slotWrite layout system.state.disk slot .zero,
        headerWrite layout system.state.disk (-1)]).push writes).push
          [(layout.inodePageLba + number, zeroBlock)])
      (pages : ∀ write ∈ writes, InBitmap layout write.1)
      (bits : ∀ lba, after.taken lba = true ↔ system.state.taken lba = true ∧
        ¬ (inodeAt layout system.state.disk number).Holds lba) :
      Effect uuid layout system entries (.delete name) .done
        ((system.withState after).dropHandles name) (Function.update entries slot none)
  | remounted {heap : Nat → Block} {mount : NebulaMount}
      (closed : ∀ index, system.handles index = none)
      (exact : Volume.Exact uuid layout ⟨system.state.disk, mount⟩)
      (bits : ∀ lba < layout.capacityBlocks,
        bitGet mount.bitmap.l0Bits lba = system.state.taken lba) :
      Effect uuid layout system entries (.remount heap) .done
        (system.withState (system.state.withVolume ⟨system.state.disk, mount⟩)) entries

/-- What a client sees to: names are C strings, the root is not deleted, and the device is mounted
again with all handles closed. -/
def FsCall.Sane (system : FsSystem) : FsCall → Prop
  | .create _ name _ => ∀ byte ∈ name, byte ≠ 0
  | .delete name => name ≠ [47]
  | .remount _ => ∀ index, system.handles index = none
  | _ => True

theorem FsSystem.keepFile_self {system : FsSystem} {index : Nat} {handle : Handle}
    (held : system.handles index = some handle) :
    system.keepFile index handle handle.file = system := by
  have same : Function.update system.handles index (some handle) = system.handles := by
    rw [← held, Function.update_eq_self]
  rw [FsSystem.keepFile, FsSystem.setHandle, same]

theorem Entries.Names.live {entries : Entries} {name : Name} {number : Nat}
    (names : entries.Names name number) : entries.Live number := by
  rcases names with ⟨-, root⟩ | ⟨slot, holds⟩
  · exact .inl root
  · exact .inr ⟨slot, name, holds⟩

theorem planMap_within {capacity : Nat} {used used' : Nat → Bool} {inode inode' : NebulaInode}
    {blk need : Nat} (low : blk < 2 ^ 53) (few : need ≤ 256)
    (maps : planMap capacity used inode blk need = some (used', inode')) {other : Nat}
    (mapped : inode'.blockOf other ≠ none) :
    inode.blockOf other ≠ none ∨ blk ≤ other ∧ other < blk + need := by
  rw [planMap] at maps
  split at maps
  · rw [Option.some.injEq, Prod.mk.injEq] at maps
    rw [maps.2]
    exact .inl mapped
  split at maps
  · contradiction
  rename_i lba _
  rw [Option.map_eq_some_iff] at maps
  obtain ⟨after, appended, same⟩ := maps
  rw [Prod.mk.injEq] at same
  rw [← same.2] at mapped
  obtain ⟨here, -, -, rfl⟩ := extentAppend_eq_some appended
  rw [NebulaInode.blockOf, ne_eq, Option.map_eq_none_iff, extentFind,
    find?_finRange_eq_none] at mapped
  obtain ⟨index, covers⟩ := not_forall.mp mapped
  rw [Bool.not_eq_false] at covers
  by_cases mine : index = here
  · simp only [mine, Function.update_self] at covers
    have offset := @ExtentMapEntry.emOffset_for blk (by omega) need lba
    have size := @ExtentMapEntry.sizeBlocks_for need (by omega) blk lba
    rw [ExtentMapEntry.covers_iff (by omega), offset, size] at covers
    exact .inr covers
  · left
    simp only [Function.update_of_ne mine] at covers
    rw [NebulaInode.blockOf, ne_eq, Option.map_eq_none_iff, extentFind, find?_finRange_eq_none]
    intro none
    rw [none index] at covers
    contradiction

/-- The blocks a round may map lie under the bytes that are left. -/
theorem needBlks_under {left curOff : Nat} (some : 0 < left) (unwrapped : curOff + left < 2 ^ 64)
    {blk : Nat} (high : blk < curOff / 4096 + needBlks left (curOff % 4096)) :
    blk * 4096 < curOff + left := by
  simp only [needBlks] at high
  split_ifs at high <;> omega

theorem writePlan_within (capacity fuel : Nat) {used : Nat → Bool} {inode : NebulaInode}
    {curOff left : Nat} (unwrapped : curOff + left < 2 ^ 64) :
    inode.MapsWithin (writePlan capacity fuel used inode curOff left).2 curOff left := by
  induction fuel generalizing used inode curOff left with
  | zero => exact fun _ mapped => .inl mapped
  | succ fuel ih =>
      rw [writePlan]
      split_ifs with done
      · exact fun _ mapped => .inl mapped
      split
      · exact fun _ mapped => .inl mapped
      rename_i used' inode' maps
      intro blk mapped
      have some : 0 < left := by omega
      obtain ⟨positive, most, -⟩ := @blockPart_bounds curOff left some
      have rest := @ih used' inode' (curOff + blockPart curOff left)
        (left - blockPart curOff left) (by omega) blk mapped
      rcases rest with earlier | later
      · rcases planMap_within (by omega) (needBlks_bounds _ _).2 maps earlier with
          older | ⟨low, high⟩
        · exact .inl older
        · exact .inr ⟨low, needBlks_under some unwrapped high⟩
      · exact .inr ⟨(Nat.div_le_div_right (by omega)).trans later.1, by omega⟩

theorem FollowsPlan.within {offset n len capacity : Nat} {used : Nat → Bool}
    {inode inode' : NebulaInode} (most : n ≤ len)
    (follows : FollowsPlan offset 0 n inode' (writePlan capacity len used inode offset len))
    (unwrapped : offset + len < 2 ^ 64) : inode.MapsWithin inode' offset len := by
  rcases follows with ⟨-, same⟩ | ⟨wrapped, -⟩
  · have within := @writePlan_within capacity len used inode offset len unwrapped
    rwa [← same] at within
  · omega

namespace FsInv

variable {uuid : Bytes 16} {layout : NebulaLayout} {origin : Disk} {system : FsSystem}
  {entries : Entries} {name : Name} {number index : Nat}

theorem live_lt (inv : FsInv uuid layout origin system entries) (live : entries.Live number) :
    number < layout.inodePageBlockCount := by
  have many := inv.solid.sound.inodeCount_ge
  rcases live with root | ⟨slot, name, holds⟩
  · omega
  · exact (inv.dir.named slot name number holds).2.2.2

theorem live_used (inv : FsInv uuid layout origin system entries) (live : entries.Live number) :
    (inodeAt layout system.state.disk number).type ≠ inodeTypeFree := by
  rcases live with root | ⟨slot, name, holds⟩
  · rw [root, inv.dir.rootType]
    decide
  · rw [(inv.dir.listed slot name number holds).1]
    exact inodeTypeFile_ne

theorem live_number (inv : FsInv uuid layout origin system entries) (live : entries.Live number) :
    (inodeAt layout system.state.disk number).inodeNum.toNat = number := by
  rcases live with root | ⟨slot, name, holds⟩
  · rw [root, inv.dir.rootNumber]
    rfl
  · exact (inv.dir.listed slot name number holds).2

theorem lookup_names (inv : FsInv uuid layout origin system entries)
    (names : entries.Names name number) :
    (nebulaDirLookup name).run system.state = (.ok (UInt64.ofNat number), system.state) := by
  rcases names with ⟨rfl, rfl⟩ | ⟨slot, holds⟩
  · exact inv.dir.lookup_root inv.solid.ready
  · exact inv.dir.lookup_listed inv.solid.ready holds

theorem lookup_unnamed (inv : FsInv uuid layout origin system entries)
    (unnamed : ∀ number, ¬ entries.Names name number) :
    ∃ error, (nebulaDirLookup name).run system.state = (.error error, system.state) := by
  by_cases long : dirNameMax ≤ name.length
  · exact ⟨_, DirOk.lookup_long long⟩
  · refine ⟨_, inv.dir.lookup_absent inv.solid.ready (not_le.mp long) ?_ ?_⟩
    · exact fun root => unnamed 0 (.inl ⟨root, rfl⟩)
    · exact fun slot number holds => unnamed number (.inr ⟨slot, holds⟩)

theorem handle_lt (inv : FsInv uuid layout origin system entries) {handle : Handle}
    (held : system.handles index = some handle) :
    handle.file.number < layout.inodePageBlockCount :=
  inv.live_lt (inv.named held).1.live

theorem handle_backs (inv : FsInv uuid layout origin system entries) {handle : Handle}
    (held : system.handles index = some handle) :
    system.state.Backs layout handle.file.inode := inv.owners.backs (.opened held)

theorem create_effect (inv : FsInv uuid layout origin system entries)
    (text : ∀ byte ∈ name, byte ≠ 0) (index : Nat) (mode : UInt32) (now : UInt64) :
    ∃ after, Effect uuid layout system entries (.create index name mode)
      (system.perform (.create index name mode) now).1
      (system.perform (.create index name mode) now).2 after := by
  rcases inv.dir.create_spec inv.solid.ready text mode now with
    ⟨slot, number, writes, created, -, -, magic, unrefused, ran⟩ |
      ⟨error, writes, left, header, root, traceless, refused, ran⟩
  · refine ⟨Function.update entries slot (some (name, number)), ?_⟩
    simp only [FsSystem.perform, ran]
    exact .created created magic unrefused
  · refine ⟨entries, ?_⟩
    simp only [FsSystem.perform, ran]
    exact .uncreated left header root traceless refused

/-- A name that stands for an inode is opened as it is stored. -/
theorem perform_open (inv : FsInv uuid layout origin system entries)
    (names : entries.Names name number) {flags : UInt32}
    (access : flags &&& (openReadOnly ||| openWriteOnly) ≠ 0) (index : Nat) (now : UInt64) :
    system.perform (.open index name flags) now =
      (.handle ⟨inodeAt layout system.state.disk number, flags, false⟩, system.setHandle index
        (some ⟨name, ⟨inodeAt layout system.state.disk number, flags, false⟩⟩)) := by
  have opens := inv.dir.open_used inv.solid.ready (inv.live_lt names.live)
    (inv.live_used names.live) access
  simp only [FsSystem.perform, nebulaFsOpen, run_bind_ok (inv.lookup_names names), opens]
  rfl

theorem open_effect (inv : FsInv uuid layout origin system entries) (index : Nat) (name : Name)
    (flags : UInt32) (now : UInt64) :
    Effect uuid layout system entries (.open index name flags)
      (system.perform (.open index name flags) now).1
      (system.perform (.open index name flags) now).2 entries := by
  by_cases named : ∃ number, entries.Names name number
  · obtain ⟨number, names⟩ := named
    by_cases access : flags &&& (openReadOnly ||| openWriteOnly) = 0
    · have refused := @DirOk.open_refused system.state (UInt64.ofNat number) flags access
      simp only [FsSystem.perform, nebulaFsOpen, run_bind_ok (inv.lookup_names names), refused]
      exact .idle trivial
    · rw [inv.perform_open names access]
      exact .opened names
  · obtain ⟨error, missing⟩ := inv.lookup_unnamed (not_exists.mp named)
    simp only [FsSystem.perform, nebulaFsOpen, run_bind_error missing]
    exact .idle trivial

theorem write_effect (inv : FsInv uuid layout origin system entries) (index : Nat) (offset : UInt64)
    (data : List UInt8) (now : UInt64) :
    Effect uuid layout system entries (.write index offset data)
      (system.perform (.write index offset data) now).1
      (system.perform (.write index offset data) now).2 entries := by
  cases held : system.handles index with
  | none =>
      simp only [FsSystem.perform, held]
      exact .idle trivial
  | some handle =>
      simp only [FsSystem.perform, held]
      by_cases writable : handle.file.flags &&& openWriteOnly = 0
      · rw [fileWrite_refused writable]
        simp only [FsSystem.withState, FsSystem.keepFile_self held]
        exact .idle trivial
      by_cases nothing : data = []
      · subst nothing
        rw [fileWrite_nothing writable]
        simp only [FsSystem.withState, FsSystem.keepFile_self held]
        exact .idle ⟨rfl, rfl⟩
      obtain ⟨stop, n, next, middle, ends, flags, dirty, plan, ended⟩ := fileWrite_spec inv.solid
        (inv.handle_backs held) (inv.handle_lt held) writable offset nothing now
      have within := fun unwrapped => plan.within ends.most unwrapped
      rcases ended with ⟨less, error, ran⟩ | ⟨rfl, ran⟩
      · have effect :=
          @Effect.short uuid layout system entries _ _ _ _ _ _ _ _ error held ends flags
          dirty less within
        rw [ran, shortCount]
        split_ifs at effect ⊢
        · exact effect
        · exact effect
      · rw [ran]
        exact .wrote held ends flags nothing within

theorem read_effect (inv : FsInv uuid layout origin system entries) (index : Nat) (offset : UInt64)
    (len : Nat) (now : UInt64) :
    Effect uuid layout system entries (.read index offset len)
      (system.perform (.read index offset len) now).1
      (system.perform (.read index offset len) now).2 entries := by
  cases held : system.handles index with
  | none =>
      simp only [FsSystem.perform, held]
      exact .idle trivial
  | some handle =>
      simp only [FsSystem.perform, held]
      obtain ⟨result, time, ran⟩ := fileRead_quiet inv.solid.faultFree handle.file offset len now
      rw [ran]
      cases result with
      | ok bytes => exact .read time held (.inr ⟨bytes, rfl⟩)
      | error error => exact .read time held (.inl ⟨error, rfl⟩)

theorem close_effect (inv : FsInv uuid layout origin system entries) (index : Nat) (now : UInt64) :
    Effect uuid layout system entries (.close index) (system.perform (.close index) now).1
      (system.perform (.close index) now).2 entries := by
  cases held : system.handles index with
  | none =>
      simp only [FsSystem.perform, held]
      exact .idle trivial
  | some handle =>
      simp only [FsSystem.perform, held, run_fileClose inv.solid (inv.handle_lt held) now]
      cases dirty : handle.file.dirty with
      | false => exact .closed held dirty
      | true => exact .stored held dirty

/-- A listed file is deleted. -/
theorem perform_delete (inv : FsInv uuid layout origin system entries) {slot : Nat}
    (listed : entries slot = some (name, number)) (now : UInt64) :
    ∃ after, system.perform (.delete name) now =
      (.done, (system.withState after).dropHandles name) ∧
      Effect uuid layout system entries (.delete name) .done
        ((system.withState after).dropHandles name) (Function.update entries slot none) := by
  have sound := inv.solid.sound
  have live : entries.Live number := .inr ⟨slot, name, listed⟩
  have inside := inv.live_lt live
  have apart := (@DirOk.metaWrites_entry layout sound system.state.disk slot
    (inv.dir.inside listed).2 .zero (-1)).apart sound
  have backs := inv.owners.backs (.stored live)
  have number' := inv.live_number live
  obtain ⟨after, writes, ran, solid, disk, pages, bits⟩ := @fileDelete_spec uuid layout
    (system.state.withDisk (system.state.disk.push [slotWrite layout system.state.disk slot .zero,
      headerWrite layout system.state.disk (-1)]))
    ⟨inodeAt layout system.state.disk number, openReadWrite, false⟩ (inv.solid.push apart)
    ⟨backs.guarded, backs.mapped, backs.taken, backs.inData⟩ (by rw [number']; exact inside)
    (by rw [number']; exact (inv.dir.named slot name number listed).2.2.1.ne')
    (by
      rw [number', FsState.disk_withDisk, inodeAt_entryWrites sound inside]
      exact inv.live_used live)
  rw [number', FsState.disk_withDisk] at disk
  refine ⟨after, ?_, .deleted listed solid disk pages bits⟩
  simp only [FsSystem.perform, inv.dir.delete_listed inv.solid.ready listed, ran]

theorem delete_effect (inv : FsInv uuid layout origin system entries) (other : name ≠ [47])
    (now : UInt64) :
    ∃ after, Effect uuid layout system entries (.delete name) (system.perform (.delete name) now).1
      (system.perform (.delete name) now).2 after := by
  by_cases named : ∃ number, entries.Names name number
  · obtain ⟨number, ⟨root, -⟩ | ⟨slot, listed⟩⟩ := named
    · exact absurd root other
    · obtain ⟨after, performed, effect⟩ := inv.perform_delete listed now
      rw [performed]
      exact ⟨_, effect⟩
  · obtain ⟨error, missing⟩ := inv.lookup_unnamed (not_exists.mp named)
    refine ⟨entries, ?_⟩
    simp only [FsSystem.perform, nebulaFsDelete, run_bind_error missing]
    exact .idle trivial

theorem lookup_effect (inv : FsInv uuid layout origin system entries) (name : Name) (now : UInt64) :
    Effect uuid layout system entries (.lookup name) (system.perform (.lookup name) now).1
      (system.perform (.lookup name) now).2 entries := by
  by_cases named : ∃ number, entries.Names name number
  · obtain ⟨number, names⟩ := named
    simp only [FsSystem.perform, nebulaFsLookup, inv.lookup_names names]
    exact .idle trivial
  · obtain ⟨error, missing⟩ := inv.lookup_unnamed (not_exists.mp named)
    simp only [FsSystem.perform, nebulaFsLookup, missing]
    exact .idle trivial

theorem readdir_effect (inv : FsInv uuid layout origin system entries) (now : UInt64) :
    Effect uuid layout system entries .readdir (system.perform .readdir now).1
      (system.perform .readdir now).2 entries := by
  obtain ⟨after, idles, ran | ⟨bad, -⟩⟩ := inv.solid.ready.placed.dirList_spec
  · rw [idles.eq inv.solid.faultFree] at ran
    simp only [FsSystem.perform, nebulaFsReaddir, ran]
    exact .idle trivial
  · exact absurd bad (FsState.not_faulty inv.solid.faultFree)

/-- The blocks a mount looks at are as they were formatted. -/
theorem mountable {options : FormatOptions} (inv : FsInv options.uuid layout origin system entries)
    (mountable : Mountable options layout origin) :
    Mountable options layout system.state.disk := by
  have sound := inv.solid.sound
  have bitmap := sound.bitmap_eq
  have stream := sound.streamMap_eq
  have inode := sound.inode_eq
  obtain ⟨writes, disk, inside⟩ := inv.writes
  rw [disk]
  refine mountable.of_content rfl fun lba below => content_push_of_ne fun write member here => ?_
  have block := inside write member
  rw [FileBlock, InBitmap] at block
  omega

theorem remount_effect {options : FormatOptions}
    (inv : FsInv options.uuid layout origin system entries)
    (formatted : Mountable options layout origin) (closed : ∀ index, system.handles index = none)
    (heap : Nat → Block) (now : UInt64) :
    Effect options.uuid layout system entries (.remount heap)
      (system.perform (.remount heap) now).1 (system.perform (.remount heap) now).2 entries := by
  obtain ⟨mount, mounts, exact, bits⟩ := inv.solid.exact.remount (inv.mountable formatted) heap
  simp only [FsSystem.perform, mounts]
  exact .remounted closed exact bits

/-- Every call of a client has an effect. -/
theorem effect {options : FormatOptions} (inv : FsInv options.uuid layout origin system entries)
    (formatted : Mountable options layout origin) {call : FsCall} (sane : call.Sane system)
    (now : UInt64) :
    ∃ after, Effect options.uuid layout system entries call (system.perform call now).1
      (system.perform call now).2 after := by
  cases call with
  | create index name mode => exact inv.create_effect sane index mode now
  | «open» index name flags => exact ⟨entries, inv.open_effect index name flags now⟩
  | write index offset data => exact ⟨entries, inv.write_effect index offset data now⟩
  | read index offset len => exact ⟨entries, inv.read_effect index offset len now⟩
  | close index => exact ⟨entries, inv.close_effect index now⟩
  | delete name => exact inv.delete_effect sane now
  | lookup name => exact ⟨entries, inv.lookup_effect name now⟩
  | readdir => exact ⟨entries, inv.readdir_effect now⟩
  | remount heap => exact ⟨entries, inv.remount_effect formatted sane heap now⟩

end FsInv

end MiniFs
