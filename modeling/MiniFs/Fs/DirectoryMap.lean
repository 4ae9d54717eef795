import MiniFs.Fs.NameCalls

/-!
# The directory refines a finite map

Runs of the calls on names, from a formatted device and without faults.  The client keeps a map from
names to inodes by what the calls return, and the directory agrees with it.
-/

namespace MiniFs

open Fs

/-- The calls on names, with names a C string can hold and other than that of the root. -/
def FsCall.Naming : FsCall → Prop
  | .create _ name _ | .open _ name _ | .delete name | .lookup name =>
      name ≠ [47] ∧ ∀ byte ∈ name, byte ≠ 0
  | .close _ | .readdir => True
  | .write _ _ _ | .read _ _ _ | .remount _ => False

/-- The map of the client after a call. -/
def FsCall.track (live : Name → Option UInt64) : FsCall → FsResult → Name → Option UInt64
  | .create _ name _, .handle file => Function.update live name (some file.inode.inodeNum)
  | .delete name, .done => Function.update live name none
  | _, _ => live

/-- Perform calls in order, and keep the map. -/
def trackRun (system : FsSystem) (live : Name → Option UInt64) :
    List (FsCall × UInt64) → FsSystem × (Name → Option UInt64)
  | [] => (system, live)
  | (call, now) :: rest =>
      match system.perform call now with
      | (result, after) => trackRun after (call.track live result) rest

/-- The slots list what the map binds. -/
def Entries.Binds (entries : Entries) (live : Name → Option UInt64) : Prop :=
  ∀ name inodeNum, live name = some inodeNum ↔ ∃ slot, entries slot = some (name, inodeNum.toNat)

/-- The invariant of the calls on names: files are listed as the map has them, and are empty. -/
structure NameInv (uuid : Bytes 16) (layout : NebulaLayout) (system : FsSystem)
    (live : Name → Option UInt64) : Prop where
  ready : system.state.Ready uuid layout
  empty : ∀ number < layout.inodePageBlockCount, ∀ index,
    ((inodeAt layout system.state.disk number).extents index).sizeBlocks = 0
  clean : ∀ index handle, system.handles index = some handle → handle.file.dirty = false
  dir : ∃ entries, DirOk layout system.state.disk entries ∧ entries.Binds live

namespace Entries.Binds

variable {entries : Entries} {live : Name → Option UInt64} {name : Name} {slot number : Nat}

theorem add (binds : entries.Binds live) (vacant : entries slot = none)
    (absent : ∀ index number, entries index ≠ some (name, number)) {inodeNum : UInt64}
    (same : inodeNum.toNat = number) :
    Entries.Binds (Function.update entries slot (some (name, number)))
      (Function.update live name (some inodeNum)) := by
  intro other stored
  by_cases here : other = name
  · subst here
    rw [Function.update_self, Option.some.injEq]
    constructor
    · rintro rfl
      exact ⟨slot, by rw [Function.update_self, same]⟩
    · rintro ⟨index, holds⟩
      by_cases there : index = slot
      · rw [there, Function.update_self, Option.some.injEq, Prod.mk.injEq] at holds
        exact UInt64.toNat_inj.mp (same.trans holds.2)
      · rw [Function.update_of_ne there] at holds
        exact absurd holds (absent _ _)
  · rw [Function.update_of_ne here, binds other stored]
    constructor
    · rintro ⟨index, holds⟩
      refine ⟨index, ?_⟩
      rwa [Function.update_of_ne]
      rintro rfl
      rw [vacant] at holds
      contradiction
    · rintro ⟨index, holds⟩
      by_cases there : index = slot
      · rw [there, Function.update_self, Option.some.injEq, Prod.mk.injEq] at holds
        exact absurd holds.1.symm here
      · rw [Function.update_of_ne there] at holds
        exact ⟨index, holds⟩

theorem remove {layout : NebulaLayout} {disk : Disk} (binds : entries.Binds live)
    (dir : DirOk layout disk entries) (holds : entries slot = some (name, number)) :
    Entries.Binds (Function.update entries slot none) (Function.update live name none) := by
  intro other stored
  by_cases here : other = name
  · subst here
    rw [Function.update_self]
    constructor
    · intro none
      contradiction
    · rintro ⟨index, found⟩
      by_cases there : index = slot
      · rw [there, Function.update_self] at found
        contradiction
      · rw [Function.update_of_ne there] at found
        exact absurd (dir.distinct index slot other other _ number found holds (.inl rfl)) there
  · rw [Function.update_of_ne here, binds other stored]
    constructor
    · rintro ⟨index, found⟩
      refine ⟨index, ?_⟩
      rwa [Function.update_of_ne]
      rintro rfl
      rw [holds, Option.some.injEq, Prod.mk.injEq] at found
      exact here found.1.symm
    · rintro ⟨index, found⟩
      by_cases there : index = slot
      · rw [there, Function.update_self] at found
        contradiction
      · rw [Function.update_of_ne there] at found
        exact ⟨index, found⟩

end Entries.Binds

namespace NameInv

variable {uuid : Bytes 16} {layout : NebulaLayout} {system : FsSystem} {live : Name → Option UInt64}

/-- A call that leaves the device alone and adds no dirty handle. -/
theorem of_state (inv : NameInv uuid layout system live) {after : FsSystem}
    (state : after.state = system.state)
    (clean : ∀ index handle, after.handles index = some handle → handle.file.dirty = false) :
    NameInv uuid layout after live := by
  constructor
  · rw [state]
    exact inv.ready
  · rw [state]
    exact inv.empty
  · exact clean
  · rw [state]
    exact inv.dir

theorem clean_set (inv : NameInv uuid layout system live) {index : Nat} {handle : Option Handle}
    (fresh : ∀ added, handle = some added → added.file.dirty = false) {other : Nat} {found : Handle}
    (holds : (Function.update system.handles index handle) other = some found) :
    found.file.dirty = false := by
  by_cases here : other = index
  · rw [here, Function.update_self] at holds
    exact fresh found holds
  · rw [Function.update_of_ne here] at holds
    exact inv.clean other found holds

theorem create (inv : NameInv uuid layout system live) {index : Nat} {name : Name} (mode : UInt32)
    (now : UInt64) (text : ∀ byte ∈ name, byte ≠ 0) :
    NameInv uuid layout (system.perform (.create index name mode) now).2
      (FsCall.track live (.create index name mode)
        (system.perform (.create index name mode) now).1) := by
  obtain ⟨entries, dir, binds⟩ := inv.dir
  have sound := inv.ready.placed.sound
  rcases dir.create_spec inv.ready text mode now with
    ⟨slot, number, writes, created, -, -, -, -, ran⟩ | ⟨error, writes, uncreated, -, -, -, -, ran⟩
  · simp only [FsSystem.perform, ran, FsCall.track]
    constructor
    · exact inv.ready.withDisk rfl
    · intro other inside extent
      simp only [FsSystem.setHandle, FsSystem.withState, FsState.disk_withDisk]
      rw [created.inodes other inside]
      split_ifs
      · exact ExtentMapEntry.sizeBlocks_zero
      · exact inv.empty other inside extent
    · intro other found holds
      refine inv.clean_set ?_ holds
      rintro added same
      rw [← Option.some.inj same]
    · exact ⟨_, created.dir, binds.add created.vacant created.absent
        (toNat_ofNat_inode sound created.bounded)⟩
  · simp only [FsSystem.perform, ran, FsCall.track]
    constructor
    · exact inv.ready.withDisk rfl
    · intro number inside extent
      simp only [FsSystem.withState, FsState.disk_withDisk]
      rcases uncreated.inodes number inside with same | ⟨-, zero⟩
      · rw [same]
        exact inv.empty number inside extent
      · rw [zero]
        exact ExtentMapEntry.sizeBlocks_zero
    · exact inv.clean
    · exact ⟨entries, uncreated.dir, binds⟩

theorem delete (inv : NameInv uuid layout system live) {name : Name} (now : UInt64)
    (other : name ≠ [47]) :
    NameInv uuid layout (system.perform (.delete name) now).2
      (FsCall.track live (.delete name) (system.perform (.delete name) now).1) := by
  obtain ⟨entries, dir, binds⟩ := inv.dir
  have sound := inv.ready.placed.sound
  by_cases bound : ∃ slot number, entries slot = some (name, number)
  · obtain ⟨slot, number, holds⟩ := bound
    obtain ⟨-, -, positive, inside⟩ := dir.named slot name number holds
    obtain ⟨type, numbered⟩ := dir.listed slot name number holds
    have ready' : (system.state.withDisk (system.state.disk.push
        [slotWrite layout system.state.disk slot .zero,
          headerWrite layout system.state.disk (-1)])).Ready uuid layout := inv.ready.withDisk rfl
    have deletes : (nebulaFsDelete name).run system.state = (.ok (), system.state.withDisk
        (DirOk.unlistDisk layout system.state.disk slot number)) := by
      have empty := @nebulaFileDelete_empty
        ⟨inodeAt layout system.state.disk number, openReadWrite, false⟩ (inv.empty number inside)
      rw [dir.delete_listed inv.ready holds, empty, DirOk.run_inodeFree ready', numbered]
      · rfl
      · rw [numbered]
        exact inside
      · intro zero
        rw [zero] at numbered
        have : (0 : UInt64).toNat = 0 := rfl
        omega
      · rw [numbered, FsState.disk_withDisk, inodeAt_entryWrites sound inside, type]
        exact inodeTypeFile_ne
    simp only [FsSystem.perform, deletes, FsCall.track]
    constructor
    · exact inv.ready.withDisk rfl
    · intro other bounded extent
      simp only [FsSystem.dropHandles, FsSystem.withState, FsState.disk_withDisk]
      rw [DirOk.inodeAt_unlistDisk sound _ _ bounded]
      split_ifs
      · exact ExtentMapEntry.sizeBlocks_zero
      · exact inv.empty other bounded extent
    · intro index handle found
      exact inv.clean index handle (Option.eq_some_of_filter_eq_some found)
    · exact ⟨_, dir.unlist sound holds, binds.remove dir holds⟩
  · have fails : ∃ error, (nebulaFsDelete name).run system.state =
      (.error error, system.state) := by
      by_cases long : dirNameMax ≤ name.length
      · exact ⟨_, by rw [nebulaFsDelete, run_bind_error (DirOk.lookup_long long)]⟩
      · refine ⟨_, run_bind_error (dir.lookup_absent inv.ready (not_le.mp long) other ?_)⟩
        intro slot number holds
        exact bound ⟨slot, number, holds⟩
    obtain ⟨error, fails⟩ := fails
    simp only [FsSystem.perform, fails, FsCall.track]
    exact inv.of_state rfl inv.clean

theorem lookup_keeps (inv : NameInv uuid layout system live) (name : Name) (other : name ≠ [47]) :
    ∃ result, (nebulaDirLookup name).run system.state = (result, system.state) := by
  obtain ⟨entries, dir, -⟩ := inv.dir
  by_cases long : dirNameMax ≤ name.length
  · exact ⟨_, DirOk.lookup_long long⟩
  by_cases bound : ∃ slot number, entries slot = some (name, number)
  · obtain ⟨slot, number, holds⟩ := bound
    exact ⟨_, dir.lookup_listed inv.ready holds⟩
  · refine ⟨_, dir.lookup_absent inv.ready (not_le.mp long) other ?_⟩
    intro slot number holds
    exact bound ⟨slot, number, holds⟩

theorem openFile (inv : NameInv uuid layout system live) {index : Nat} {name : Name}
    (flags : UInt32) (now : UInt64) (other : name ≠ [47]) :
    NameInv uuid layout (system.perform (.open index name flags) now).2 live := by
  obtain ⟨entries, dir, -⟩ := inv.dir
  have opens : (∃ file : NebulaFile, file.dirty = false ∧
        (nebulaFsOpen name flags).run system.state = (.ok file, system.state)) ∨
      ∃ error, (nebulaFsOpen name flags).run system.state = (.error error, system.state) := by
    by_cases bound : ∃ slot number, entries slot = some (name, number)
    · obtain ⟨slot, number, holds⟩ := bound
      rw [nebulaFsOpen, run_bind_ok (dir.lookup_listed inv.ready holds)]
      by_cases access : flags &&& (openReadOnly ||| openWriteOnly) = 0
      · exact .inr ⟨_, DirOk.open_refused access⟩
      · exact .inl ⟨_, rfl, dir.open_listed inv.ready ⟨slot, name, holds⟩ access⟩
    · right
      by_cases long : dirNameMax ≤ name.length
      · exact ⟨_, run_bind_error (DirOk.lookup_long long)⟩
      · refine ⟨_, run_bind_error (dir.lookup_absent inv.ready (not_le.mp long) other ?_)⟩
        intro slot number holds
        exact bound ⟨slot, number, holds⟩
  rcases opens with ⟨file, clean, ran⟩ | ⟨error, ran⟩
  · simp only [FsSystem.perform, ran]
    refine inv.of_state rfl fun other found holds => inv.clean_set ?_ holds
    rintro added same
    rw [← Option.some.inj same]
    exact clean
  · simp only [FsSystem.perform, ran]
    exact inv.of_state rfl inv.clean

theorem close (inv : NameInv uuid layout system live) (index : Nat) (now : UInt64) :
    NameInv uuid layout (system.perform (.close index) now).2 live := by
  cases holds : system.handles index with
  | none =>
      simp only [FsSystem.perform, holds]
      exact inv
  | some handle =>
      have closes :
        (nebulaFileClose handle.file now).run system.state = (.ok (), system.state) := by
        rw [nebulaFileClose, inv.clean index handle holds]
        rfl
      simp only [FsSystem.perform, holds, closes]
      refine inv.of_state rfl fun other found holds => inv.clean_set ?_ holds
      rintro added same
      contradiction

theorem readdir_eq (inv : NameInv uuid layout system live) :
    nebulaFsReaddir.run system.state = (.ok ((List.range (slotCount layout)).filterMap
      fun slot => listedItem (slotAt layout system.state.disk slot)), system.state) := by
  obtain ⟨after, idles, ran | ⟨bad, -⟩⟩ := inv.ready.placed.dirList_spec
  · rw [nebulaFsReaddir, ran, idles.eq inv.ready.faultFree]
  · exact absurd bad (FsState.not_faulty inv.ready.faultFree)

/-- Every call on names keeps the map. -/
theorem perform (inv : NameInv uuid layout system live) {call : FsCall} (naming : call.Naming)
    (now : UInt64) : NameInv uuid layout (system.perform call now).2
      (call.track live (system.perform call now).1) := by
  cases call with
  | create index name mode => exact inv.create mode now naming.2
  | «open» index name flags => exact inv.openFile flags now naming.1
  | close index => exact inv.close index now
  | delete name => exact inv.delete now naming.1
  | lookup name =>
      obtain ⟨result, ran⟩ := inv.lookup_keeps name naming.1
      have same : (system.perform (.lookup name) now).2 = system := by
        simp only [FsSystem.perform, nebulaFsLookup, ran]
        cases result <;> rfl
      rw [same]
      exact inv
  | readdir =>
      have same : (system.perform .readdir now).2 = system := by
        simp only [FsSystem.perform, inv.readdir_eq]
        rfl
      rw [same]
      exact inv
  | write index offset data => exact naming.elim
  | read index offset len => exact naming.elim
  | remount heap => exact naming.elim

theorem run (inv : NameInv uuid layout system live) {calls : List (FsCall × UInt64)}
    (naming : ∀ call ∈ calls, call.1.Naming) :
    NameInv uuid layout (trackRun system live calls).1 (trackRun system live calls).2 := by
  induction calls generalizing system live with
  | nil => exact inv
  | cons call rest ih =>
      obtain ⟨call, now⟩ := call
      exact ih (inv.perform (naming _ List.mem_cons_self) now) fun later member =>
        naming later (List.mem_cons_of_mem _ member)

end NameInv

/-- The calls that take a name refuse it. -/
structure RefusesName (system : FsSystem) (name : Name) : Prop where
  create : ∀ index mode now, ∃ error, (system.perform (.create index name mode) now).1 =
    .error error
  «open» : ∀ index flags now, ∃ error, (system.perform (.open index name flags) now).1 =
    .error error
  delete : ∀ now, ∃ error, (system.perform (.delete name) now).1 = .error error
  lookup : ∀ now, ∃ error, (system.perform (.lookup name) now).1 = .error error

/-- The directory is the map: what lookups and listings return, and what the device holds. -/
structure DirectoryIs (layout : NebulaLayout) (system : FsSystem) (live : Name → Option UInt64) :
    Prop where
  lookup : ∀ name now, name ≠ [47] → name.length < dirNameMax →
    (system.perform (.lookup name) now).1 =
      match live name with
      | some inodeNum => .inode inodeNum
      | none => .error .ENOENT
  refuses : ∀ name, name ≠ [47] → (∀ byte ∈ name, byte ≠ 0) → dirNameMax ≤ name.length →
    RefusesName system name
  readdir : ∀ now, ∃ items, (system.perform .readdir now).1 = .items items ∧
    (items.map DirItem.name).Nodup ∧ ∀ name inodeNum,
      (∃ item ∈ items, item.name = name ∧ item.inodeNum = inodeNum) ↔
        name = [47] ∧ inodeNum = 0 ∨ live name = some inodeNum
  names : ∀ slot < slotCount layout, ∀ other < slotCount layout,
    (slotAt layout system.state.disk slot).used = true →
    (slotAt layout system.state.disk other).used = true →
    (slotAt layout system.state.disk slot).listedName =
      (slotAt layout system.state.disk other).listedName → slot = other
  inodes : ∀ slot < slotCount layout, ∀ other < slotCount layout,
    (slotAt layout system.state.disk slot).used = true →
    (slotAt layout system.state.disk other).used = true →
    (slotAt layout system.state.disk slot).inodeNum =
      (slotAt layout system.state.disk other).inodeNum → slot = other
  referenced : ∀ number, 0 < number → number < layout.inodePageBlockCount →
    (inodeAt layout system.state.disk number).type ≠ inodeTypeFree →
    ∃! slot, slot < slotCount layout ∧ (slotAt layout system.state.disk slot).used = true ∧
      (slotAt layout system.state.disk slot).inodeNum.toNat = number
  counted : (dirHeaderAt layout system.state.disk).numEntries.toNat =
    (usedSlots layout system.state.disk).card
  checked : (dirHeaderAt layout system.state.disk).checksum =
    dirHeaderChecksum (dirHeaderAt layout system.state.disk)

namespace DirOk

variable {layout : NebulaLayout} {disk : Disk} {entries : Entries}

theorem root_used : (DirEntry.for [47] 0 dirFlagDir).used = true := by
  decide

theorem root_listedName : (DirEntry.for [47] 0 dirFlagDir).listedName = [47] := by
  refine DirEntry.listedName_for (by decide) (fun byte holds => ?_) 0 dirFlagDir
  rw [List.mem_singleton.mp holds]
  decide

/-- What a used slot holds: the root, or a listed file. -/
theorem used_cases (dir : DirOk layout disk entries) (sound : layout.Sound) {slot : Nat}
    (below : slot < slotCount layout) (used : (slotAt layout disk slot).used = true) :
    slot = 0 ∧ (slotAt layout disk slot).listedName = [47] ∧
        (slotAt layout disk slot).inodeNum.toNat = 0 ∨
      ∃ number, entries slot = some ((slotAt layout disk slot).listedName, number) ∧
        (slotAt layout disk slot).inodeNum.toNat = number ∧ 0 < number ∧
        (slotAt layout disk slot).listedName ≠ [47] := by
  rcases Nat.eq_zero_or_pos slot with zero | positive
  · left
    rw [zero, dir.root, formatRootEntry_eq]
    exact ⟨rfl, root_listedName, rfl⟩
  · right
    cases holds : entries slot with
    | none =>
        rw [dir.unused slot positive below holds] at used
        contradiction
    | some entry =>
        obtain ⟨name, number⟩ := entry
        obtain ⟨short, other, some, inside⟩ := dir.named slot name number holds
        have listed : (slotAt layout disk slot).listedName = name := by
          rw [dir.stored slot name number holds]
          exact DirEntry.listedName_for short (dir.text slot name number holds) _ _
        refine ⟨number, by rw [listed], ?_, some, by rwa [listed]⟩
        rw [dir.stored slot name number holds]
        exact toNat_ofNat_inode sound inside

theorem names_distinct (dir : DirOk layout disk entries) (sound : layout.Sound) {slot other : Nat}
    (below : slot < slotCount layout) (below' : other < slotCount layout)
    (used : (slotAt layout disk slot).used = true) (used' : (slotAt layout disk other).used = true)
    (same : (slotAt layout disk slot).listedName = (slotAt layout disk other).listedName) :
    slot = other := by
  rcases dir.used_cases sound below used with ⟨zero, name, -⟩ | ⟨number, holds, -, -, name⟩ <;>
    rcases dir.used_cases sound below' used' with ⟨zero', name', -⟩ | ⟨number', holds', -, -, name'⟩
  · rw [zero, zero']
  · exact absurd (same.symm.trans name) name'
  · exact absurd (same.trans name') name
  · exact dir.distinct slot other _ _ number number' holds holds' (.inl same)

theorem inodes_distinct (dir : DirOk layout disk entries) (sound : layout.Sound) {slot other : Nat}
    (below : slot < slotCount layout) (below' : other < slotCount layout)
    (used : (slotAt layout disk slot).used = true) (used' : (slotAt layout disk other).used = true)
    (same : (slotAt layout disk slot).inodeNum.toNat = (slotAt layout disk other).inodeNum.toNat) :
    slot = other := by
  rcases dir.used_cases sound below used with ⟨zero, -, first⟩ | ⟨number, holds, first, some, -⟩ <;>
    rcases dir.used_cases sound below' used' with
      ⟨zero', -, second⟩ | ⟨number', holds', second, some', -⟩
  · rw [zero, zero']
  · omega
  · omega
  · exact dir.distinct slot other _ _ number number' holds holds' (.inr (by omega))

/-- Every inode in use is named by one entry. -/
theorem referenced (dir : DirOk layout disk entries) (sound : layout.Sound) {number : Nat}
    (positive : 0 < number) (inside : number < layout.inodePageBlockCount)
    (live : (inodeAt layout disk number).type ≠ inodeTypeFree) :
    ∃! slot, slot < slotCount layout ∧ (slotAt layout disk slot).used = true ∧
      (slotAt layout disk slot).inodeNum.toNat = number := by
  have listed : entries.Lists number := by
    by_contra unlisted
    exact live (dir.free number positive inside unlisted)
  obtain ⟨slot, name, holds⟩ := listed
  have below := (dir.inside holds).2
  have used : (slotAt layout disk slot).used = true := by
    rw [dir.stored slot name number holds]
    exact DirEntry.used_for _ _
  have named : (slotAt layout disk slot).inodeNum.toNat = number := by
    rw [dir.stored slot name number holds]
    exact toNat_ofNat_inode sound inside
  refine ⟨slot, ⟨below, used, named⟩, ?_⟩
  rintro other ⟨below', used', named'⟩
  exact dir.inodes_distinct sound below' below used' used (named'.trans named.symm)

/-- The listing names each used slot once. -/
theorem listing_nodup (dir : DirOk layout disk entries) (sound : layout.Sound) :
    (((List.range (slotCount layout)).filterMap fun slot =>
      listedItem (slotAt layout disk slot)).map DirItem.name).Nodup := by
  rw [List.map_filterMap]
  have inRange : (List.range (slotCount layout)).filterMap
      (fun slot => (listedItem (slotAt layout disk slot)).map DirItem.name) =
        (List.range (slotCount layout)).filterMap fun slot =>
          if slot < slotCount layout ∧ (slotAt layout disk slot).used = true then
            some (slotAt layout disk slot).listedName else none := by
    apply List.filterMap_congr
    intro slot member
    rw [listedItem]
    by_cases used : (slotAt layout disk slot).used = true
    · rw [if_pos used, if_pos ⟨List.mem_range.mp member, used⟩]
      rfl
    · rw [if_neg used, if_neg fun both => used both.2]
      rfl
  rw [inRange]
  apply List.Nodup.filterMap _ List.nodup_range
  intro slot other name holds holds'
  rw [Option.mem_def, Option.ite_none_right_eq_some] at holds holds'
  obtain ⟨⟨below, used⟩, same⟩ := holds
  obtain ⟨⟨below', used'⟩, same'⟩ := holds'
  exact dir.names_distinct sound below below' used used'
    (by rw [Option.some.inj same, Option.some.inj same'])

theorem mem_listing (dir : DirOk layout disk entries) (sound : layout.Sound)
    {live : Name → Option UInt64} (binds : entries.Binds live) (name : Name) (inodeNum : UInt64) :
    (∃ item ∈ (List.range (slotCount layout)).filterMap
        fun slot => listedItem (slotAt layout disk slot),
      item.name = name ∧ item.inodeNum = inodeNum) ↔
      name = [47] ∧ inodeNum = 0 ∨ live name = some inodeNum := by
  have many := sound.inodeCount_ge
  have count := sound.dirCount_eq
  have some : 0 < slotCount layout := by
    rw [slotCount]
    omega
  constructor
  · rintro ⟨item, member, rfl, rfl⟩
    rw [List.mem_filterMap] at member
    obtain ⟨slot, within, listed⟩ := member
    rw [listedItem, Option.ite_none_right_eq_some] at listed
    obtain ⟨used, made⟩ := listed
    rw [← Option.some.inj made]
    rcases dir.used_cases sound (List.mem_range.mp within) used with
      ⟨-, listed, zero⟩ | ⟨number, holds, numbered, -⟩
    · exact .inl ⟨listed, UInt64.toNat_inj.mp zero⟩
    · right
      rw [binds]
      exact ⟨slot, by rw [holds, numbered]⟩
  · rintro (⟨rfl, rfl⟩ | bound)
    · refine ⟨⟨[47], 0, dirFlagUsed ||| dirFlagDir⟩, ?_, rfl, rfl⟩
      rw [List.mem_filterMap]
      refine ⟨0, List.mem_range.mpr some, ?_⟩
      rw [dir.root, formatRootEntry_eq, listedItem, if_pos root_used, root_listedName]
      rfl
    · obtain ⟨slot, holds⟩ := (binds name inodeNum).mp bound
      obtain ⟨short, other, positive, inside⟩ := dir.named slot name _ holds
      refine ⟨⟨name, inodeNum, dirFlagUsed ||| dirFlagFile⟩, ?_, rfl, rfl⟩
      rw [List.mem_filterMap]
      refine ⟨slot, List.mem_range.mpr (dir.inside holds).2, ?_⟩
      rw [dir.stored slot name _ holds, listedItem, if_pos (DirEntry.used_for _ _),
        DirEntry.listedName_for short (dir.text slot name _ holds)]
      simp only [DirEntry.for, UInt64.ofNat_toNat]

end DirOk

namespace NameInv

variable {uuid : Bytes 16} {layout : NebulaLayout} {system : FsSystem} {live : Name → Option UInt64}

theorem lookup_eq (inv : NameInv uuid layout system live) {name : Name} (now : UInt64)
    (other : name ≠ [47]) (short : name.length < dirNameMax) :
    (system.perform (.lookup name) now).1 =
      match live name with
      | some inodeNum => .inode inodeNum
      | none => .error .ENOENT := by
  obtain ⟨entries, dir, binds⟩ := inv.dir
  cases bound : live name with
  | some inodeNum =>
      obtain ⟨slot, holds⟩ := (binds name inodeNum).mp bound
      simp only [FsSystem.perform, nebulaFsLookup, dir.lookup_listed inv.ready holds,
        UInt64.ofNat_toNat]
  | none =>
      have absent : ∀ slot number, entries slot ≠ some (name, number) := by
        intro slot number holds
        have inside := (dir.named slot name number holds).2.2.2
        have same := toNat_ofNat_inode inv.ready.placed.sound inside
        rw [(binds name (UInt64.ofNat number)).mpr ⟨slot, by rw [same, holds]⟩] at bound
        contradiction
      simp only [FsSystem.perform, nebulaFsLookup, dir.lookup_absent inv.ready short other absent]

theorem refuses (inv : NameInv uuid layout system live) {name : Name}
    (text : ∀ byte ∈ name, byte ≠ 0) (long : dirNameMax ≤ name.length) :
    RefusesName system name := by
  obtain ⟨entries, dir, -⟩ := inv.dir
  have lookups := @DirOk.lookup_long system.state name long
  constructor
  · intro index mode now
    rcases dir.create_spec inv.ready text mode now with
      ⟨-, -, -, -, -, short, -⟩ | ⟨error, writes, -, -, -, -, -, ran⟩
    · exact absurd long (not_le.mpr short)
    · exact ⟨error, by simp only [FsSystem.perform, ran]⟩
  · intro index flags now
    exact ⟨.ENAMETOOLONG, by simp only [FsSystem.perform, nebulaFsOpen, run_bind_error lookups]⟩
  · intro now
    exact ⟨.ENAMETOOLONG, by simp only [FsSystem.perform, nebulaFsDelete, run_bind_error lookups]⟩
  · intro now
    exact ⟨.ENAMETOOLONG, by simp only [FsSystem.perform, nebulaFsLookup, lookups]⟩

theorem directoryIs (inv : NameInv uuid layout system live) : DirectoryIs layout system live := by
  obtain ⟨entries, dir, binds⟩ := inv.dir
  have sound := inv.ready.placed.sound
  constructor
  · exact fun name now other short => inv.lookup_eq now other short
  · exact fun name _ text long => inv.refuses text long
  · intro now
    refine ⟨_, ?_, dir.listing_nodup sound, dir.mem_listing sound binds⟩
    simp only [FsSystem.perform, inv.readdir_eq]
  · exact fun slot below other below' used used' same =>
      dir.names_distinct sound below below' used used' same
  · exact fun slot below other below' used used' same =>
      dir.inodes_distinct sound below below' used used' (congrArg UInt64.toNat same)
  · exact fun number positive inside live => dir.referenced sound positive inside live
  · exact dir.counted
  · exact dir.checked

end NameInv

/-- A formatted directory lists nothing. -/
theorem Volume.Fresh.dirOk {options : FormatOptions} {layout : NebulaLayout} {volume : Volume}
    (fresh : volume.Fresh options layout) : DirOk layout volume.disk fun _ => none := by
  obtain ⟨sound, -, -, formatted⟩ := fresh.spec
  have many := sound.inodeCount_ge
  have count := sound.dirCount_eq
  have some : 0 < slotCount layout := by
    rw [slotCount]
    omega
  have used : usedSlots layout volume.disk = {0} := by
    ext slot
    simp only [usedSlots, Finset.mem_filter, Finset.mem_range, Finset.mem_singleton]
    constructor
    · rintro ⟨below, used⟩
      by_contra other
      rw [formatted.slotAt_eq below, if_neg other, DirEntry.used_zero] at used
      contradiction
    · rintro rfl
      rw [formatted.slotAt_eq some, if_pos rfl]
      exact ⟨some, DirOk.root_used⟩
  constructor
  · rw [formatted.slotAt_eq some, if_pos rfl]
  · exact fun _ _ => rfl
  · intro slot positive below _
    rw [formatted.slotAt_eq below, if_neg (by omega), DirEntry.used_zero]
  · intro slot name number holds
    contradiction
  · intro slot name number holds
    contradiction
  · intro slot name number holds
    contradiction
  · intro slot other name name' number number' holds
    contradiction
  · intro number inside
    rw [formatted.inodeAt_eq inside]
    split_ifs
    · exact formatRootInode_valid _
    · exact fun live => absurd rfl live
  · intro slot name number holds
    contradiction
  · intro number positive inside _
    rw [formatted.inodeAt_eq inside, if_neg (by omega)]
    rfl
  · rw [formatted.dirHeaderAt_eq, used]
    rfl
  · rw [formatted.dirHeaderAt_eq]
    exact (dirHeaderChecksum_with _ _).symm

theorem Volume.Fresh.nameInv {options : FormatOptions} {layout : NebulaLayout} {volume : Volume}
    (fresh : volume.Fresh options layout) :
    NameInv options.uuid layout ⟨⟨volume, []⟩, fun _ => none⟩ fun _ => none := by
  obtain ⟨sound, capacity, -, formatted⟩ := fresh.spec
  constructor
  · exact ⟨⟨sound, capacity, fresh.sb⟩, rfl⟩
  · intro number inside extent
    rw [formatted.inodeAt_eq inside]
    split_ifs
    · exact ExtentMapEntry.sizeBlocks_zero
    · exact ExtentMapEntry.sizeBlocks_zero
  · intro index handle holds
    contradiction
  · refine ⟨_, fresh.dirOk, fun name inodeNum => ?_⟩
    simp

/-- After every run of calls on names from a formatted device, the directory is the map that the
results of the calls make. -/
theorem directory_refines_map {options : FormatOptions} {layout : NebulaLayout} {volume : Volume}
    (fresh : volume.Fresh options layout) (calls : List (FsCall × UInt64))
    (naming : ∀ call ∈ calls, call.1.Naming) :
    DirectoryIs layout (trackRun ⟨⟨volume, []⟩, fun _ => none⟩ (fun _ => none) calls).1
      (trackRun ⟨⟨volume, []⟩, fun _ => none⟩ (fun _ => none) calls).2 :=
  (fresh.nameInv.run naming).directoryIs

theorem directory_refines_map_plainDisk : ∃ layout mount,
    Volume.Fresh plainOptions layout ⟨plainDisk 65536 (by decide), mount⟩ ∧
    DirectoryIs layout
      (trackRun ⟨⟨⟨plainDisk 65536 (by decide), mount⟩, []⟩, fun _ => none⟩ (fun _ => none)
        [(.create 0 [97] 0, 0), (.create 1 [98] 0, 1), (.delete [97], 2), (.readdir, 3)]).1
      (trackRun ⟨⟨⟨plainDisk 65536 (by decide), mount⟩, []⟩, fun _ => none⟩ (fun _ => none)
        [(.create 0 [97] 0, 0), (.create 1 [98] 0, 1), (.delete [97], 2), (.readdir, 3)]).2 := by
  obtain ⟨layout, mount, fresh, -⟩ := plainDisk_fresh
  refine ⟨layout, mount, fresh, directory_refines_map fresh _ ?_⟩
  simp only [List.mem_cons, List.not_mem_nil, or_false, forall_eq_or_imp, forall_eq, FsCall.Naming]
  decide

end MiniFs
