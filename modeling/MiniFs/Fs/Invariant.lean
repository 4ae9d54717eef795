import MiniFs.Fs.CallEffects

/-!
# Runs of calls

The invariant of all calls holds of a device that has just been formatted and mounted, every effect
of a call keeps it, and so it holds in every run, with any number of handles on a file.
-/

namespace MiniFs

open Fs

namespace TableOk

variable {layout : NebulaLayout} {disk after : Disk} {entries : Entries} {number : Nat}
  {inode : NebulaInode}

theorem inodeAt_of_content (sound : layout.Sound)
    (same : ∀ lba, layout.inodePageLba ≤ lba → lba < layout.dataStartLba →
      after.content lba = disk.content lba) {number : Nat}
    (inside : number < layout.inodePageBlockCount) :
    inodeAt layout after number = inodeAt layout disk number := by
  have dirEq := sound.dir_eq
  have dataEq := sound.dataStart_eq
  rw [inodeAt, inodeAt, same _ (by omega) (by omega)]

theorem dirHeaderAt_of_content (sound : layout.Sound)
    (same : ∀ lba, layout.inodePageLba ≤ lba → lba < layout.dataStartLba →
      after.content lba = disk.content lba) :
    dirHeaderAt layout after = dirHeaderAt layout disk := by
  have dirEq := sound.dir_eq
  have dataEq := sound.dataStart_eq
  have many := sound.inodeCount_ge
  have count := sound.dirCount_eq
  rw [dirHeaderAt, dirHeaderAt, same _ (by omega) (by omega)]

theorem of_content (table : TableOk layout disk entries) (sound : layout.Sound)
    (same : ∀ lba, layout.inodePageLba ≤ lba → lba < layout.dataStartLba →
      after.content lba = disk.content lba) : TableOk layout after entries := by
  have many := sound.inodeCount_ge
  have root := inodeAt_of_content sound same (show 0 < layout.inodePageBlockCount by omega)
  refine ⟨table.toDirOk.of_content sound same, ?_, ?_, ?_⟩
  · rw [root]
    exact table.rootType
  · rw [root]
    exact table.rootNumber
  · rw [dirHeaderAt_of_content sound same]
    exact table.magic

/-- Storing another version of an inode in use. -/
theorem store (table : TableOk layout disk entries) (sound : layout.Sound)
    (live : entries.Live number) (inside : number < layout.inodePageBlockCount)
    (type : inode.type = (inodeAt layout disk number).type)
    (numbered : inode.inodeNum.toNat = number) (valid : inode.Valid) :
    TableOk layout (disk.push [inodeWrite layout number inode]) entries := by
  have inodes := @inodeAt_store layout disk number
  have header := @dirHeaderAt_inodeWrite layout disk sound number inside (NebulaInode.layout inode)
  refine ⟨?_, ?_, ?_, ?_⟩
  · refine table.toDirOk.setInode (fun slot => slotAt_inodeWrite sound inside _ slot)
      (fun index _ => inodes index inode) header valid ?_ ?_
    · rintro ⟨slot, name, holds⟩
      exact ⟨type.trans (table.listed slot name number holds).1, numbered⟩
    · intro positive unlisted
      rcases live with root | listed
      · omega
      · exact absurd listed unlisted
  · rw [inodes]
    split_ifs with root
    · rw [type, ← root]
      exact table.rootType
    · exact table.rootType
  · rw [inodes]
    split_ifs with root
    · exact UInt64.toNat_inj.mp (numbered.trans root.symm)
    · exact table.rootNumber
  · rw [inodeWrite, header]
    exact table.magic

/-- Taking a file off its slot, whatever else is written to the bitmap. -/
theorem unlist (table : TableOk layout disk entries) (sound : layout.Sound) {slot : Nat}
    {name : Name} {writes : List (Nat × Block)} (listed : entries slot = some (name, number))
    (pages : ∀ write ∈ writes, InBitmap layout write.1) :
    TableOk layout
      (((disk.push [slotWrite layout disk slot .zero, headerWrite layout disk (-1)]).push
        writes).push [(layout.inodePageLba + number, zeroBlock)])
      (Function.update entries slot none) ∧
    ∀ index < layout.inodePageBlockCount,
      inodeAt layout (((disk.push [slotWrite layout disk slot .zero,
        headerWrite layout disk (-1)]).push writes).push
          [(layout.inodePageLba + number, zeroBlock)]) index =
        if index = number then .zero else inodeAt layout disk index := by
  have stream := sound.streamMap_eq
  have inodeEq := sound.inode_eq
  have many := sound.inodeCount_ge
  obtain ⟨-, -, positive, inside⟩ := table.named slot name number listed
  have same : ∀ lba, layout.inodePageLba ≤ lba → lba < layout.dataStartLba →
      (((disk.push [slotWrite layout disk slot .zero, headerWrite layout disk (-1)]).push
        writes).push [(layout.inodePageLba + number, zeroBlock)]).content lba =
      (DirOk.unlistDisk layout disk slot number).content lba := by
    intro lba low high
    by_cases here : lba = layout.inodePageLba + number
    · rw [here, DirOk.unlistDisk, content_push_single, content_push_single]
    · have other : ∀ write ∈ [(layout.inodePageLba + number, zeroBlock)], write.1 ≠ lba := by
        simpa using Ne.symm here
      rw [DirOk.unlistDisk, content_push_of_ne other, content_push_of_ne other, content_push_of_ne]
      intro write member there
      have page := pages write member
      rw [InBitmap] at page
      omega
  have root := inodeAt_of_content sound same (show 0 < layout.inodePageBlockCount by omega)
  rw [DirOk.inodeAt_unlistDisk sound slot number (by omega), if_neg positive.ne] at root
  refine ⟨⟨(table.toDirOk.unlist sound listed).of_content sound same, ?_, ?_, ?_⟩, ?_⟩
  · rw [root]
    exact table.rootType
  · rw [root]
    exact table.rootNumber
  · rw [dirHeaderAt_of_content sound same, DirOk.unlistDisk, dirHeaderAt_inodeWrite sound inside,
      dirHeaderAt_entryWrites, DirPageHeader.magic_adjust]
    exact table.magic
  · intro index below
    rw [inodeAt_of_content sound same below, DirOk.inodeAt_unlistDisk sound slot number below]

end TableOk

theorem FsSystem.handles_setHandle {system : FsSystem} {index other : Nat} {handle : Option Handle}
    {found : Handle} (held : (system.setHandle index handle).handles other = some found) :
    other = index ∧ handle = some found ∨ other ≠ index ∧ system.handles other = some found := by
  simp only [FsSystem.setHandle] at held
  by_cases here : other = index
  · rw [here, Function.update_self] at held
    exact .inl ⟨here, held⟩
  · rw [Function.update_of_ne here] at held
    exact .inr ⟨here, held⟩

/-- A name stands for one inode, and an inode has one name. -/
theorem DirOk.names_unique {layout : NebulaLayout} {disk : Disk} {entries : Entries}
    (dir : DirOk layout disk entries) {name name' : Name} {number number' : Nat}
    (names : entries.Names name number) (names' : entries.Names name' number') :
    name = name' ↔ number = number' := by
  rcases names with ⟨rfl, rfl⟩ | ⟨slot, holds⟩ <;> rcases names' with ⟨rfl, rfl⟩ | ⟨slot', holds'⟩
  · simp
  · obtain ⟨-, other, positive, -⟩ := dir.named slot' name' number' holds'
    exact ⟨fun same => absurd same.symm other, fun same => absurd same positive.ne⟩
  · obtain ⟨-, other, positive, -⟩ := dir.named slot name number holds
    exact ⟨fun same => absurd same other, fun same => absurd same positive.ne'⟩
  · constructor
    · intro same
      have slots := dir.distinct slot slot' name name' number number' holds holds' (.inl same)
      rw [slots, holds', Option.some.injEq, Prod.mk.injEq] at holds
      exact holds.2.symm
    · intro same
      have slots := dir.distinct slot slot' name name' number number' holds holds' (.inr same)
      rw [slots, holds', Option.some.injEq, Prod.mk.injEq] at holds
      exact holds.1.symm

section Keep

variable {uuid : Bytes 16} {layout : NebulaLayout} {origin : Disk} {system : FsSystem}
  {entries : Entries}

/-- The blocks that hold inodes and the directory are not touched by growing a file. -/
theorem Grown.keeps_table {before after : FsState} {inode inode' : NebulaInode}
    (grown : Grown uuid layout before inode after inode') {lba : Nat}
    (low : layout.inodePageLba ≤ lba) (high : lba < layout.dataStartLba) :
    after.disk.content lba = before.disk.content lba := by
  have stream := grown.solid.sound.streamMap_eq
  have inodeEq := grown.solid.sound.inode_eq
  obtain ⟨writes, disk, inside⟩ := grown.writes
  rw [disk]
  refine content_push_of_ne fun write member here => ?_
  rcases inside write member with page | holds
  · rw [InBitmap] at page
    omega
  · have data := grown.inData _ holds
    rw [InData] at data
    omega

theorem Grown.inodeAt_kept {before after : FsState} {inode inode' : NebulaInode}
    (grown : Grown uuid layout before inode after inode') {number : Nat}
    (inside : number < layout.inodePageBlockCount) :
    inodeAt layout after.disk number = inodeAt layout before.disk number :=
  TableOk.inodeAt_of_content grown.solid.sound (fun _ low high => grown.keeps_table low high) inside

/-- The inodes after a file has grown and is stored. -/
theorem Grown.inodeAt_stored {before after : FsState} {inode inode' : NebulaInode}
    (grown : Grown uuid layout before inode after inode') {number : Nat} (stored : Nat)
    (last : NebulaInode) (inside : number < layout.inodePageBlockCount) :
    inodeAt layout (after.disk.push [inodeWrite layout stored last]) number =
      if number = stored then last else inodeAt layout before.disk number := by
  rw [inodeAt_store, grown.inodeAt_kept inside]

theorem MetaWrites.fileBlocks {writes : List (Nat × Block)} (inside : MetaWrites layout writes)
    (sound : layout.Sound) : ∀ write ∈ writes, FileBlock layout write.1 := by
  have room := sound.data_room
  intro write member
  have within := inside write member
  exact .inr (by omega)

/-- A failed create leaves the inodes in use as they were. -/
theorem Uncreated.live_kept {disk : Disk} {writes : List (Nat × Block)}
    (left : Uncreated layout disk entries writes)
    (root : inodeAt layout (disk.push writes) 0 = inodeAt layout disk 0)
    (inside : ∀ {number}, entries.Live number → number < layout.inodePageBlockCount) {number : Nat}
    (live : entries.Live number) :
    inodeAt layout (disk.push writes) number = inodeAt layout disk number := by
  have below := inside live
  rcases live with rfl | listed
  · exact root
  · rcases left.inodes number below with same | ⟨unlisted, -⟩
    · exact same
    · exact absurd listed unlisted

namespace FsInv

theorem push_writes (inv : FsInv uuid layout origin system entries) {after : Disk}
    {writes : List (Nat × Block)} (disk : after = system.state.disk.push writes)
    (inside : ∀ write ∈ writes, FileBlock layout write.1) :
    ∃ all, after = origin.push all ∧ ∀ write ∈ all, FileBlock layout write.1 := by
  obtain ⟨earlier, start, within⟩ := inv.writes
  refine ⟨earlier ++ writes, by rw [disk, start, Disk.push_push], fun write member => ?_⟩
  exact (List.mem_append.mp member).elim (within write) (inside write)

/-- Handles that stay have their names still, where the names and the types are kept. -/
theorem named_kept (inv : FsInv uuid layout origin system entries) {after : Disk}
    {entries' : Entries} {index : Nat} {handle : Handle} (held : system.handles index = some handle)
    (names : entries.Names handle.name handle.file.number →
      entries'.Names handle.name handle.file.number)
    (same : inodeAt layout after handle.file.number =
      inodeAt layout system.state.disk handle.file.number) :
    entries'.Names handle.name handle.file.number ∧
      handle.file.inode.type = (inodeAt layout after handle.file.number).type := by
  rw [same]
  exact ⟨names (inv.named held).1, (inv.named held).2⟩

theorem created (inv : FsInv uuid layout origin system entries) {name : Name} {slot number : Nat}
    {writes : List (Nat × Block)} {mode : UInt32} {now : UInt64}
    (created : Created layout system.state.disk entries name slot number
      (freshInode number inodeTypeFile mode now) writes)
    (magic : (dirHeaderAt layout (system.state.disk.push writes)).magic =
      (dirHeaderAt layout system.state.disk).magic) (index : Nat) :
    FsInv uuid layout origin
      ((system.withState (system.state.withDisk (system.state.disk.push writes))).setHandle index
        (some ⟨name, createdFile number mode now⟩))
      (Function.update entries slot (some (name, number))) := by
  have sound := inv.solid.sound
  have few := sound.inodeCount_ge
  have root := created.inodes 0 (by omega)
  rw [if_neg created.positive.ne] at root
  have numbered : (createdFile number mode now).number = number :=
    toNat_ofNat_inode sound created.bounded
  have kept : ∀ {name' number'}, entries.Names name' number' →
      Entries.Names (Function.update entries slot (some (name, number))) name' number' := by
    rintro name' number' (root | ⟨slot', holds⟩)
    · exact .inl root
    · refine .inr ⟨slot', ?_⟩
      rwa [Function.update_of_ne]
      rintro rfl
      rw [created.vacant] at holds
      contradiction
  have older : ∀ {number'}, entries.Live number' → number' ≠ number := by
    rintro number' (root | listed) rfl
    · exact absurd root created.positive.ne'
    · exact created.unlisted listed
  have table : TableOk layout (system.state.disk.push writes)
      (Function.update entries slot (some (name, number))) :=
    ⟨created.dir, by rw [root]; exact inv.dir.rootType, by rw [root]; exact inv.dir.rootNumber,
      magic.trans inv.dir.magic⟩
  refine ⟨inv.solid.push (created.inside.apart sound), table,
    inv.push_writes rfl (created.inside.fileBlocks sound), ?_, ?_⟩
  · intro other handle held
    rcases FsSystem.handles_setHandle held with ⟨-, same⟩ | ⟨-, held⟩
    · rw [Option.some.injEq] at same
      subst same
      refine ⟨.inr ⟨slot, ?_⟩, ?_⟩
      · rw [Function.update_self, numbered]
      · simp only [FsSystem.setHandle, FsSystem.withState, FsState.disk_withDisk]
        rw [numbered, created.inodes number created.bounded, if_pos rfl]
        rfl
    · refine inv.named_kept held kept ?_
      simp only [FsSystem.setHandle, FsSystem.withState, FsState.disk_withDisk]
      rw [created.inodes _ (inv.handle_lt held), if_neg (older (inv.named held).1.live)]
  · refine inv.owners.mono sound (fun _ _ => rfl) ?_
    rintro other inode (live | held)
    · simp only [FsSystem.setHandle, FsSystem.withState, FsState.disk_withDisk]
      by_cases here : other = number
      · right
        rw [here, created.inodes number created.bounded, if_pos rfl]
        exact fun _ => rfl
      · have before : entries.Live other := by
          rcases live with root | ⟨slot', name', holds⟩
          · exact .inl root
          · refine .inr ⟨slot', name', ?_⟩
            rwa [Function.update_of_ne] at holds
            rintro rfl
            rw [Function.update_self, Option.some.injEq, Prod.mk.injEq] at holds
            exact here holds.2.symm
        rw [created.inodes _ (inv.live_lt before), if_neg here]
        exact .inl ⟨_, .stored before, rfl⟩
    · rcases FsSystem.handles_setHandle held with ⟨-, same⟩ | ⟨-, held⟩
      · rw [Option.some.injEq] at same
        subst same
        exact .inr fun _ => rfl
      · exact .inl ⟨_, .opened held, rfl⟩

theorem uncreated (inv : FsInv uuid layout origin system entries) {writes : List (Nat × Block)}
    (left : Uncreated layout system.state.disk entries writes)
    (header : dirHeaderAt layout (system.state.disk.push writes) =
      dirHeaderAt layout system.state.disk)
    (root : inodeAt layout (system.state.disk.push writes) 0 = inodeAt layout system.state.disk 0) :
    FsInv uuid layout origin
      (system.withState (system.state.withDisk (system.state.disk.push writes))) entries := by
  have sound := inv.solid.sound
  have kept : ∀ {number}, entries.Live number →
    inodeAt layout (system.state.disk.push writes) number =
      inodeAt layout system.state.disk number := fun live => left.live_kept root inv.live_lt live
  refine ⟨inv.solid.push (left.inside.apart sound), ⟨left.dir, ?_, ?_, ?_⟩,
    inv.push_writes rfl (left.inside.fileBlocks sound), ?_, ?_⟩
  · simp only [FsSystem.withState, FsState.disk_withDisk]
    rw [root]
    exact inv.dir.rootType
  · simp only [FsSystem.withState, FsState.disk_withDisk]
    rw [root]
    exact inv.dir.rootNumber
  · simp only [FsSystem.withState, FsState.disk_withDisk]
    rw [header]
    exact inv.dir.magic
  · intro index handle held
    exact inv.named_kept held id (kept (inv.named held).1.live)
  · refine inv.owners.mono sound (fun _ _ => rfl) ?_
    rintro number inode (live | held)
    · simp only [FsSystem.withState, FsState.disk_withDisk]
      rw [kept live]
      exact .inl ⟨_, .stored live, rfl⟩
    · exact .inl ⟨_, .opened held, rfl⟩

/-- A handle on a file that grows, before the file is stored. -/
theorem grown (inv : FsInv uuid layout origin system entries) {index : Nat} {handle : Handle}
    (held : system.handles index = some handle) {next : NebulaFile} {middle : FsState}
    (grown : Grown uuid layout system.state handle.file.inode middle next.inode) :
    FsInv uuid layout origin ((system.withState middle).keepFile index handle next) entries := by
  have sound := inv.solid.sound
  have number : next.number = handle.file.number := by
    rw [NebulaFile.number, grown.rest]
  have type : next.inode.type = handle.file.inode.type := by
    rw [grown.rest]
  have inodes : ∀ {number}, entries.Live number → inodeAt layout middle.disk number =
      inodeAt layout system.state.disk number := fun live => grown.inodeAt_kept (inv.live_lt live)
  obtain ⟨writes, disk, inside⟩ := grown.writes
  refine ⟨grown.solid, inv.dir.of_content sound fun lba low high => grown.keeps_table low high,
    inv.push_writes disk ?_, ?_, ?_⟩
  · intro write member
    have stream := sound.streamMap_eq
    have inodeEq := sound.inode_eq
    have dirEq := sound.dir_eq
    have dataEq := sound.dataStart_eq
    rcases inside write member with page | holds
    · exact .inl page
    · have data := grown.inData _ holds
      rw [InData] at data
      exact .inr (by omega)
  · intro other found held'
    rcases FsSystem.handles_setHandle held' with ⟨-, same⟩ | ⟨-, held'⟩
    · rw [Option.some.injEq] at same
      subst same
      simp only [number, type]
      exact inv.named_kept held id (inodes (inv.named held).1.live)
    · exact inv.named_kept held' id (inodes (inv.named held').1.live)
  · refine inv.owners.grow (.opened held) grown ?_
    rintro other inode (live | held')
    · rw [show ((system.withState middle).keepFile index handle next).state = middle from rfl,
        inodes live]
      exact .inl ⟨_, .stored live, rfl⟩
    · rcases FsSystem.handles_setHandle held' with ⟨-, same⟩ | ⟨-, held'⟩
      · rw [Option.some.injEq] at same
        subst same
        exact .inr ⟨number, rfl⟩
      · exact .inl ⟨_, .opened held', rfl⟩

/-- An inode is stored that a handle has, up to what is not its extents. -/
theorem store (inv : FsInv uuid layout origin system entries) {index : Nat} {handle : Handle}
    (held : system.handles index = some handle) {inode : NebulaInode}
    (extents : inode.extents = handle.file.inode.extents)
    (type : inode.type = handle.file.inode.type)
    (numbered : inode.inodeNum = handle.file.inode.inodeNum) (valid : inode.Valid) :
    FsInv uuid layout origin (system.withState (system.state.withDisk (system.state.disk.push
      [inodeWrite layout handle.file.number inode]))) entries := by
  have sound := inv.solid.sound
  have inside := inv.handle_lt held
  have writes := DirOk.metaWrites_inode sound inside (NebulaInode.layout inode)
  obtain ⟨names, typed⟩ := inv.named held
  have stored := @inodeAt_store layout system.state.disk handle.file.number
  refine ⟨inv.solid.push (writes.apart sound), inv.dir.store sound names.live inside
    (type.trans typed) (congrArg UInt64.toNat numbered) valid,
    inv.push_writes rfl (writes.fileBlocks sound), ?_, ?_⟩
  · intro other found held'
    refine ⟨(inv.named held').1, ?_⟩
    simp only [FsSystem.withState, FsState.disk_withDisk, stored]
    split_ifs with same
    · rw [(inv.named held').2, same, type, typed]
    · exact (inv.named held').2
  · refine inv.owners.mono sound (fun _ _ => rfl) ?_
    rintro number found (live | held')
    · simp only [FsSystem.withState, FsState.disk_withDisk, stored]
      split_ifs with same
      · rw [same]
        exact .inl ⟨_, .opened held, extents⟩
      · exact .inl ⟨_, .stored live, rfl⟩
    · exact .inl ⟨_, .opened held', rfl⟩

/-- A handle is changed in what is neither its number, its type nor its extents, or put away. -/
theorem setHandle (inv : FsInv uuid layout origin system entries) (index : Nat)
    {handle : Option Handle} (named : ∀ found, handle = some found →
      (entries.Names found.name found.file.number ∧ found.file.inode.type =
        (inodeAt layout system.state.disk found.file.number).type) ∧
      Owners.Among (system.Holder layout entries) found.file.number found.file.inode) :
    FsInv uuid layout origin (system.setHandle index handle) entries := by
  refine ⟨inv.solid, inv.dir, inv.writes, ?_, ?_⟩
  · intro other found held
    rcases FsSystem.handles_setHandle held with ⟨-, same⟩ | ⟨-, held⟩
    · exact (named found same).1
    · exact inv.named held
  · refine inv.owners.mono inv.solid.sound (fun _ _ => rfl) ?_
    rintro number inode (live | held)
    · exact .inl ⟨_, .stored live, rfl⟩
    · rcases FsSystem.handles_setHandle held with ⟨-, same⟩ | ⟨-, held⟩
      · exact .inl (named _ same).2
      · exact .inl ⟨_, .opened held, rfl⟩

theorem keepFile (inv : FsInv uuid layout origin system entries) {index : Nat} {handle : Handle}
    (held : system.handles index = some handle) {file : NebulaFile}
    (extents : file.inode.extents = handle.file.inode.extents)
    (type : file.inode.type = handle.file.inode.type)
    (numbered : file.inode.inodeNum = handle.file.inode.inodeNum) :
    FsInv uuid layout origin (system.keepFile index handle file) entries := by
  refine inv.setHandle index fun found same => ?_
  rw [Option.some.injEq] at same
  subst same
  simp only [NebulaFile.number, numbered, type]
  exact ⟨inv.named held, _, .opened held, extents⟩

theorem deleted (inv : FsInv uuid layout origin system entries) {name : Name} {slot number : Nat}
    {after : FsState} {writes : List (Nat × Block)} (listed : entries slot = some (name, number))
    (solid : after.Solid uuid layout)
    (disk : after.disk = ((system.state.disk.push [slotWrite layout system.state.disk slot .zero,
      headerWrite layout system.state.disk (-1)]).push writes).push
        [(layout.inodePageLba + number, zeroBlock)])
    (pages : ∀ write ∈ writes, InBitmap layout write.1)
    (bits : ∀ lba, after.taken lba = true ↔ system.state.taken lba = true ∧
      ¬ (inodeAt layout system.state.disk number).Holds lba) :
    FsInv uuid layout origin ((system.withState after).dropHandles name)
      (Function.update entries slot none) := by
  have sound := inv.solid.sound
  have live : entries.Live number := .inr ⟨slot, name, listed⟩
  have inside := inv.live_lt live
  have positive := (inv.dir.named slot name number listed).2.2.1
  obtain ⟨table, inodes⟩ := inv.dir.unlist sound listed pages
  have names : ∀ {other number'}, other ≠ name → entries.Names other number' →
      Entries.Names (Function.update entries slot none) other number' := by
    rintro other number' apart (root | ⟨slot', holds⟩)
    · exact .inl root
    · refine .inr ⟨slot', ?_⟩
      rwa [Function.update_of_ne]
      rintro rfl
      rw [listed, Option.some.injEq, Prod.mk.injEq] at holds
      exact apart holds.1.symm
  have older : ∀ {number'}, Entries.Live (Function.update entries slot none) number' →
      entries.Live number' ∧ number' ≠ number := by
    rintro number' (root | ⟨slot', name', holds⟩)
    · exact ⟨.inl root, by omega⟩
    · by_cases here : slot' = slot
      · rw [here, Function.update_self] at holds
        contradiction
      · rw [Function.update_of_ne here] at holds
        refine ⟨.inr ⟨slot', name', holds⟩, ?_⟩
        intro same
        exact here (inv.dir.distinct slot' slot name' name number' number holds listed (.inr same))
  have left : ∀ {index handle}, ((system.withState after).dropHandles name).handles index =
      some handle → system.handles index = some handle ∧ handle.name ≠ name ∧
        handle.file.number ≠ number := by
    intro index handle held
    obtain ⟨found, other⟩ := Option.filter_eq_some_iff.mp held
    have apart : handle.name ≠ name := of_decide_eq_true other
    refine ⟨found, apart, fun same => ?_⟩
    exact apart ((inv.dir.names_unique (inv.named found).1 (.inr ⟨slot, listed⟩)).mpr same)
  have pushed : after.disk = system.state.disk.push ([slotWrite layout system.state.disk slot .zero,
      headerWrite layout system.state.disk (-1)] ++ writes ++
        [(layout.inodePageLba + number, zeroBlock)]) := by
    rw [disk, Disk.push_push, Disk.push_push, List.append_assoc]
  have within : ∀ write ∈ [slotWrite layout system.state.disk slot .zero,
      headerWrite layout system.state.disk (-1)] ++ writes ++
        [(layout.inodePageLba + number, zeroBlock)], FileBlock layout write.1 := by
    intro write member
    rcases List.mem_append.mp member with member | last
    · rcases List.mem_append.mp member with entry | page
      · exact (DirOk.metaWrites_entry sound (inv.dir.inside listed).2 .zero (-1)).fileBlocks sound
          write entry
      · exact .inl (pages write page)
    · exact (DirOk.metaWrites_inode sound inside zeroBlock).fileBlocks sound write last
  refine ⟨solid, ?_, inv.push_writes pushed within, ?_, ?_⟩
  · show TableOk layout after.disk _
    rw [disk]
    exact table
  · intro index handle held
    obtain ⟨held, apart, other⟩ := left held
    refine inv.named_kept held (names apart) ?_
    show inodeAt layout after.disk _ = _
    rw [disk, inodes _ (inv.handle_lt held), if_neg other]
  · refine inv.owners.free (.stored live) bits ?_
    rintro other inode (live' | held)
    · obtain ⟨live', apart⟩ := older live'
      refine ⟨apart, _, .stored live', ?_⟩
      show (inodeAt layout after.disk _).extents = _
      rw [disk, inodes _ (inv.live_lt live'), if_neg apart]
    · obtain ⟨held, -, apart⟩ := left held
      exact ⟨apart, _, .opened held, rfl⟩

theorem remounted (inv : FsInv uuid layout origin system entries) {mount : NebulaMount}
    (exact : Volume.Exact uuid layout ⟨system.state.disk, mount⟩)
    (bits : ∀ lba < layout.capacityBlocks,
      bitGet mount.bitmap.l0Bits lba = system.state.taken lba) :
    FsInv uuid layout origin
      (system.withState (system.state.withVolume ⟨system.state.disk, mount⟩)) entries := by
  refine ⟨⟨exact, inv.solid.small, inv.solid.faultFree⟩, inv.dir, inv.writes, inv.named, ?_⟩
  refine inv.owners.mono inv.solid.sound bits ?_
  rintro number inode (live | held)
  · exact .inl ⟨_, .stored live, rfl⟩
  · exact .inl ⟨_, .opened held, rfl⟩

/-- Every effect of a call keeps the invariant. -/
theorem keep (inv : FsInv uuid layout origin system entries) {call : FsCall} {result : FsResult}
    {after : FsSystem} {entries' : Entries}
    (effect : Effect uuid layout system entries call result after entries') :
    FsInv uuid layout origin after entries' := by
  cases effect with
  | idle => exact inv
  | created made magic => exact inv.created made magic _
  | uncreated left header root => exact inv.uncreated left header root
  | @opened index name flags number names =>
      have numbered := inv.live_number names.live
      refine inv.setHandle index fun found same => ?_
      rw [Option.some.injEq] at same
      subst same
      simp only [NebulaFile.number, numbered]
      exact ⟨⟨names, trivial⟩, _, .stored names.live, rfl⟩
  | short error held ends => exact inv.grown held ends.grown
  | @wrote index handle offset data stop next middle now held ends =>
      have held' : ((system.withState middle).keepFile index handle next).handles index =
          some { handle with file := next } := Function.update_self ..
      have stored := (inv.grown held ends.grown).store held'
        (next.inode.written_extents (offset + UInt64.ofNat data.length) now)
        (next.inode.written_type _ _) (next.inode.written_inodeNum _ _)
        (next.inode.written_valid _ _)
      have kept := @keepFile _ _ _ _ _ stored index _ held'
        ⟨next.inode.written (offset + UInt64.ofNat data.length) now, next.flags, false⟩
        (next.inode.written_extents _ _) (next.inode.written_type _ _)
        (next.inode.written_inodeNum _ _)
      have number : next.number = handle.file.number := by
        rw [NebulaFile.number, ends.grown.rest]
      simp only [FsSystem.keepFile, FsSystem.setHandle, FsSystem.withState, Function.update_idem,
        number] at kept ⊢
      exact kept
  | read time held => exact inv.keepFile held rfl rfl rfl
  | closed held => exact inv.setHandle _ (by rintro found ⟨⟩)
  | @stored index handle now held =>
      have stored := @store _ _ _ _ _ inv index handle held
        (NebulaInode.seal { handle.file.inode with mtimeNs := now }) rfl rfl rfl
        (NebulaInode.seal_valid _)
      exact stored.setHandle index (by rintro found ⟨⟩)
  | deleted listed solid disk pages bits => exact inv.deleted listed solid disk pages bits
  | remounted closed exact bits => exact inv.remounted exact bits

end FsInv

end Keep

/-! ## Runs -/

/-- What calls reach, each allowed where it is made, and what a client keeps track of
along the way. -/
inductive FsRun {γ : Type} (Allowed : FsSystem → FsCall → Prop)
    (track : FsSystem → FsCall → FsResult → γ → γ) (start : FsSystem) (first : γ) :
    FsSystem → γ → Prop
  | refl : FsRun Allowed track start first start first
  | call {middle : FsSystem} {ghost : γ} (run : FsRun Allowed track start first middle ghost)
      (call : FsCall) (now : UInt64) (allowed : Allowed middle call) :
      FsRun Allowed track start first (middle.perform call now).2
        (track middle call (middle.perform call now).1 ghost)

/-- The states that allowed calls reach. -/
abbrev FsReach (Allowed : FsSystem → FsCall → Prop) (start reached : FsSystem) : Prop :=
  FsRun Allowed (fun _ _ _ ghost => ghost) start () reached ()

/-- A property that the effects of allowed calls keep, over what is listed. -/
theorem FsRun.invariant {γ : Type} {options : FormatOptions} {layout : NebulaLayout} {origin : Disk}
    {Allowed : FsSystem → FsCall → Prop} {track : FsSystem → FsCall → FsResult → γ → γ}
    {start reached : FsSystem} {first ghost : γ} {entries : Entries}
    (run : FsRun Allowed track start first reached ghost)
    (formatted : Mountable options layout origin)
    (sane : ∀ {system call}, Allowed system call → call.Sane system)
    (inv : FsInv options.uuid layout origin start entries) {Inv : FsSystem → Entries → γ → Prop}
    (holds : Inv start entries first)
    (keeps : ∀ {system entries ghost call result after entries'},
      FsInv options.uuid layout origin system entries → Inv system entries ghost →
      Allowed system call → Effect options.uuid layout system entries call result after entries' →
      Inv after entries' (track system call result ghost)) :
    ∃ entries', FsInv options.uuid layout origin reached entries' ∧ Inv reached entries' ghost := by
  induction run with
  | refl => exact ⟨entries, inv, holds⟩
  | call _ call now allowed ih =>
      obtain ⟨before, inv', holds'⟩ := ih
      obtain ⟨after, effect⟩ := inv'.effect formatted (sane allowed) now
      exact ⟨after, inv'.keep effect, keeps inv' holds' allowed effect⟩

/-- A device that has just been formatted and mounted, without a handle. -/
abbrev FsSystem.fresh (volume : Volume) : FsSystem := ⟨⟨volume, []⟩, fun _ => none⟩

section Fresh

variable {options : FormatOptions} {layout : NebulaLayout} {volume : Volume}

theorem NebulaLayout.Sound.pages_fit (sound : layout.Sound)
    (small : layout.capacityBlocks ≤ 2 ^ 32) :
    layout.bitmapBlockCount < 2 ^ 32 := by
  have tight := sound.bitmap_tight
  omega

theorem Volume.Fresh.lists_nothing : ∀ {number : Nat}, Entries.Live (fun _ => none) number →
    number = 0 := by
  rintro number (root | ⟨slot, name, holds⟩)
  · exact root
  · contradiction

theorem Volume.Fresh.fsInv (fresh : volume.Fresh options layout)
    (small : layout.capacityBlocks ≤ 2 ^ 32) :
    FsInv options.uuid layout volume.disk (.fresh volume) fun _ => none := by
  obtain ⟨sound, -, -, formatted⟩ := fresh.spec
  have fits := sound.pages_fit small
  have many := sound.inodeCount_ge
  have root := formatted.inodeAt_eq (show 0 < layout.inodePageBlockCount by omega)
  rw [if_pos rfl] at root
  have empty : ∀ index, (inodeAt layout volume.disk 0).extents index = .zero := by
    rw [root]
    exact fun _ => rfl
  obtain ⟨mapped, nothing, -⟩ := NebulaInode.mapped_of_empty empty
  have only : ∀ {number inode}, (FsSystem.fresh volume).Holder layout (fun _ => none) number inode →
      number = 0 ∧ inode = inodeAt layout volume.disk 0 := by
    rintro number inode (live | held)
    · rw [Volume.Fresh.lists_nothing live]
      exact ⟨rfl, rfl⟩
    · contradiction
  refine ⟨⟨fresh.exact fits, small, rfl⟩, ⟨fresh.dirOk, ?_, ?_, ?_⟩, ⟨[], by simp, by simp⟩, ?_, ?_⟩
  · rw [root]
    rfl
  · rw [root]
    rfl
  · rw [formatted.dirHeaderAt_eq]
    rfl
  · intro index handle held
    contradiction
  · refine ⟨fun lba below metadata => ?_, ?_, ?_, ?_, ?_⟩
    · rw [FsState.taken, fresh.bits fits below, metadata]
    · intro number inode holder
      rw [(only holder).2]
      exact mapped
    · intro number inode lba holder holds
      rw [(only holder).2] at holds
      exact absurd holds (nothing lba)
    · intro number inode lba holder holds
      rw [(only holder).2] at holds
      exact absurd holds (nothing lba)
    · intro number inode number' inode' lba holder holder' _ _
      rw [(only holder).1, (only holder').1]

/-- The invariant holds of every state that calls reach. -/
theorem Volume.Fresh.reaches_fsInv (fresh : volume.Fresh options layout)
    (small : layout.capacityBlocks ≤ 2 ^ 32) {reached : FsSystem}
    (run : FsReach FsCall.Sane (.fresh volume) reached) :
    ∃ entries, FsInv options.uuid layout volume.disk reached entries := by
  obtain ⟨entries, inv, -⟩ := @FsRun.invariant _ options layout volume.disk FsCall.Sane _
    (.fresh volume) reached () () (fun _ => none) run fresh.mountable (fun sane => sane)
    (fresh.fsInv small) (fun _ _ _ => True) trivial fun _ _ _ _ => trivial
  exact ⟨entries, inv⟩

end Fresh

end MiniFs
