import MiniFs.Fs.Invariant

/-!
# Files do not touch each other

With any number of handles on a file, a call leaves every other file alone: its inode, the blocks it
holds, and what each of its handles reads.
-/

namespace MiniFs

open Fs

/-- The variable a call puts a handle into or takes it from. -/
def FsCall.holds : FsCall → Option Nat
  | .create index _ _ | .open index _ _ | .write index _ _ | .read index _ _ | .close index =>
      some index
  | _ => none

/-- The inode of the file a call changes. -/
def FsCall.target (system : FsSystem) : FsCall → Option Nat
  | .write index _ _ | .close index => (system.handles index).map fun handle => handle.file.number
  | .delete name =>
      match ((nebulaDirLookup name).run system.state).1 with
      | .ok inodeNum => some inodeNum.toNat
      | .error _ => none
  | _ => none

/-- A call leaves alone the files it does not change. -/
structure Isolated (layout : NebulaLayout) (system : FsSystem) (call : FsCall) (after : FsSystem) :
    Prop where
  stored : ∀ number < layout.inodePageBlockCount,
    (inodeAt layout system.state.disk number).type ≠ inodeTypeFree →
    call.target system ≠ some number →
    inodeAt layout after.state.disk number = inodeAt layout system.state.disk number ∧
      ∀ lba, (inodeAt layout system.state.disk number).Holds lba →
        after.state.disk.content lba = system.state.disk.content lba
  opened : ∀ index handle, system.handles index = some handle → call.holds ≠ some index →
    call.target system ≠ some handle.file.number → after.handles index = some handle ∧
      ∀ offset len now, (after.perform (.read index offset len) now).1 =
        (system.perform (.read index offset len) now).1

section Read

variable {state state' : FsState} {file : NebulaFile}

/-- What the read loop returns depends on the blocks of the file only. -/
theorem FsState.Serves.readLoop_congr (serves : state.Serves file.inode)
    (serves' : state'.Serves file.inode) (same : ∀ blk lba, file.inode.blockOf blk = some lba →
      state'.disk.content lba = state.disk.content lba)
    (offset : UInt64) (len fuel : Nat) (bytes : List UInt8) :
    ∃ result, (fileReadLoop file offset len fuel bytes).run state = (.ok result, state) ∧
      (fileReadLoop file offset len fuel bytes).run state' = (.ok result, state') := by
  induction fuel generalizing bytes with
  | zero => exact ⟨_, rfl, rfl⟩
  | succ fuel ih =>
      rw [fileReadLoop]
      split_ifs
      · simp only
        generalize (offset.toNat + bytes.length) % 2 ^ 64 = cur
        cases known : extentFind file.inode (cur / 4096) with
        | none => exact ih _
        | some index =>
            have mapped : file.inode.blockOf (cur / 4096) =
                some ((file.inode.extents index).physLba (cur / 4096)) := by
              rw [NebulaInode.blockOf, known, Option.map_some]
            have content := same _ _ mapped
            simp only [run_attempt_bind,
              FsState.run_ioRead_of_lt serves.faultFree (serves.onDevice _ _ mapped),
              FsState.run_ioRead_of_lt serves'.faultFree (serves'.onDevice _ _ mapped), content]
            exact ih _
      · exact ⟨_, rfl, rfl⟩

theorem FsState.Serves.read_congr (serves : state.Serves file.inode)
    (serves' : state'.Serves file.inode) (same : ∀ blk lba, file.inode.blockOf blk = some lba →
      state'.disk.content lba = state.disk.content lba)
    (offset : UInt64) (len : Nat) (now : UInt64) :
    ∃ result, (nebulaFileRead file offset len now).run state = (.ok result, state) ∧
      (nebulaFileRead file offset len now).run state' = (.ok result, state') := by
  rw [nebulaFileRead]
  split_ifs
  · exact ⟨_, rfl, rfl⟩
  · exact ⟨_, rfl, rfl⟩
  · exact ⟨_, rfl, rfl⟩
  · obtain ⟨⟨stop, bytes⟩, ran, ran'⟩ := serves.readLoop_congr serves' same offset
      (readLen file offset len) (readLen file offset len) []
    rw [run_bind_ok ran, run_bind_ok ran']
    cases stop with
    | none => exact ⟨_, rfl, rfl⟩
    | some error => exact ⟨_, rfl, rfl⟩

/-- A handle reads the same where its blocks are the same. -/
theorem FsSystem.read_congr {system after : FsSystem} {index : Nat} {handle : Handle}
    (held : system.handles index = some handle) (held' : after.handles index = some handle)
    (serves : system.state.Serves handle.file.inode)
    (serves' : after.state.Serves handle.file.inode)
    (same : ∀ blk lba, handle.file.inode.blockOf blk = some lba →
      after.state.disk.content lba = system.state.disk.content lba)
    (offset : UInt64) (len : Nat) (now : UInt64) :
    (after.perform (.read index offset len) now).1 =
      (system.perform (.read index offset len) now).1 := by
  obtain ⟨⟨result, file⟩, ran, ran'⟩ := serves.read_congr serves' same offset len now
  simp only [FsSystem.perform, held, held', ran, ran']
  cases result <;> rfl

end Read

section Keep

variable {uuid : Bytes 16} {layout : NebulaLayout} {origin : Disk} {system : FsSystem}
  {entries : Entries}

theorem MetaWrites.data_kept {writes : List (Nat × Block)} (inside : MetaWrites layout writes)
    (disk : Disk) {lba : Nat} (data : InData layout lba) :
    (disk.push writes).content lba = disk.content lba := by
  refine content_push_of_ne fun write member here => ?_
  have within := inside write member
  rw [InData] at data
  omega

theorem data_kept_of_pages {writes : List (Nat × Block)} (sound : layout.Sound)
    (pages : ∀ write ∈ writes, InBitmap layout write.1) (disk : Disk) {lba : Nat}
    (data : InData layout lba) : (disk.push writes).content lba = disk.content lba := by
  refine content_push_of_ne fun write member here => ?_
  have page := pages write member
  rw [here] at page
  exact not_inBitmap_of_inData sound data page

/-- A file that grows writes to no block of another file. -/
theorem Grown.others_kept {before after : FsState} {inode inode' : NebulaInode}
    (grown : Grown uuid layout before inode after inode') {lba : Nat} (inData : InData layout lba)
    (taken : before.taken lba = true) (other : ¬ inode.Holds lba) :
    after.disk.content lba = before.disk.content lba := by
  obtain ⟨writes, disk, inside⟩ := grown.writes
  rw [disk]
  refine content_push_of_ne fun write member here => ?_
  rcases inside write member with page | holds
  · rw [here] at page
    exact not_inBitmap_of_inData grown.solid.sound inData page
  · rw [here] at holds
    rw [grown.fresh lba holds other] at taken
    contradiction

/-- What an effect leaves alone: blocks of other files, other inodes and other handles. -/
structure Leaves (layout : NebulaLayout) (system : FsSystem) (entries : Entries) (call : FsCall)
    (after : FsSystem) : Prop where
  blocks : ∀ {number inode lba}, system.Holder layout entries number inode →
    call.target system ≠ some number → inode.Holds lba →
    after.state.disk.content lba = system.state.disk.content lba
  inodes : ∀ {number}, entries.Live number → call.target system ≠ some number →
    inodeAt layout after.state.disk number = inodeAt layout system.state.disk number
  handles : ∀ {index handle}, system.handles index = some handle → call.holds ≠ some index →
    call.target system ≠ some handle.file.number → after.handles index = some handle

theorem Leaves.of_kept {call : FsCall} {after : FsSystem}
    (inv : FsInv uuid layout origin system entries)
    (blocks : ∀ {lba}, InData layout lba →
      after.state.disk.content lba = system.state.disk.content lba)
    (inodes : ∀ {number}, entries.Live number → call.target system ≠ some number →
      inodeAt layout after.state.disk number = inodeAt layout system.state.disk number)
    (handles : ∀ {index handle}, system.handles index = some handle → call.holds ≠ some index →
      call.target system ≠ some handle.file.number → after.handles index = some handle) :
    Leaves layout system entries call after :=
  ⟨fun holder _ holds => blocks (inv.owners.inData holder holds), inodes, handles⟩

/-- A file grows, and its inode may be stored. -/
theorem Leaves.of_grown {call : FsCall} {index : Nat} {handle : Handle} {next : NebulaInode}
    {middle state : FsState} {file : NebulaFile} (inv : FsInv uuid layout origin system entries)
    (held : system.handles index = some handle)
    (grown : Grown uuid layout system.state handle.file.inode middle next)
    (blocks : ∀ {lba}, InData layout lba → state.disk.content lba = middle.disk.content lba)
    (inodes : ∀ {number}, number < layout.inodePageBlockCount → number ≠ handle.file.number →
      inodeAt layout state.disk number = inodeAt layout system.state.disk number)
    (target : call.target system = some handle.file.number) (holds : call.holds = some index) :
    Leaves layout system entries call ((system.withState state).keepFile index handle file) := by
  have ne : ∀ {number}, call.target system ≠ some number → number ≠ handle.file.number := by
    rintro number other rfl
    exact other target
  refine ⟨fun {number inode lba} holder other held' => ?_, fun live other => ?_, ?_⟩
  · have inData := inv.owners.inData holder held'
    refine (blocks inData).trans (grown.others_kept inData (inv.owners.taken holder held') ?_)
    exact fun mine => ne other (inv.owners.apart holder (.opened held) held' mine)
  · exact inodes (inv.live_lt live) (ne other)
  · intro index' handle' held' apart _
    rw [holds, ne_eq, Option.some.injEq] at apart
    simp only [FsSystem.keepFile, FsSystem.setHandle, FsSystem.withState]
    rwa [Function.update_of_ne (Ne.symm apart)]

theorem FsInv.leaves (inv : FsInv uuid layout origin system entries) {call : FsCall}
    {result : FsResult} {after : FsSystem} {entries' : Entries}
    (effect : Effect uuid layout system entries call result after entries') :
    Leaves layout system entries call after := by
  have sound := inv.solid.sound
  have elsewhere : ∀ {call : FsCall} (state : FsState) {index : Nat} (next : Option Handle)
      {index' handle'}, call.holds = some index → system.handles index' = some handle' →
      call.holds ≠ some index' →
      ((system.withState state).setHandle index next).handles index' = some handle' := by
    intro call state index next index' handle' holds held apart
    rw [holds, ne_eq, Option.some.injEq] at apart
    simp only [FsSystem.setHandle, FsSystem.withState]
    rwa [Function.update_of_ne (Ne.symm apart)]
  cases effect with
  | idle => exact .of_kept inv (fun _ => rfl) (fun _ _ => rfl) fun held _ _ => held
  | @created index name mode now slot number writes made =>
      refine .of_kept inv (fun data => made.inside.data_kept _ data) (fun {number'} live _ => ?_)
        fun held apart _ => elsewhere _ _ rfl held apart
      have apart : number' ≠ number := by
        rcases live with root | listed
        · exact root ▸ made.positive.ne
        · rintro rfl
          exact made.unlisted listed
      exact (made.inodes _ (inv.live_lt live)).trans (if_neg apart)
  | uncreated left header root =>
      exact .of_kept inv (fun data => left.inside.data_kept _ data)
        (fun live _ => left.live_kept root inv.live_lt live) fun held _ _ => held
  | opened => exact .of_kept inv (fun _ => rfl) (fun _ _ => rfl) fun held apart _ =>
      elsewhere system.state _ rfl held apart
  | short error held ends =>
      exact .of_grown inv held ends.grown (fun _ => rfl) (fun inside _ =>
        ends.grown.inodeAt_kept inside) (by rw [FsCall.target, held, Option.map_some]) rfl
  | wrote held ends =>
      have stored := DirOk.metaWrites_inode sound (inv.handle_lt held)
      refine .of_grown inv held ends.grown (fun data => (stored _).data_kept _ data)
        (fun inside apart => ?_) (by rw [FsCall.target, held, Option.map_some]) rfl
      exact (ends.grown.inodeAt_stored _ _ inside).trans (if_neg apart)
  | read => exact .of_kept inv (fun _ => rfl) (fun _ _ => rfl) fun held apart _ =>
      elsewhere system.state _ rfl held apart
  | closed => exact .of_kept inv (fun _ => rfl) (fun _ _ => rfl) fun held apart _ =>
      elsewhere system.state _ rfl held apart
  | @stored index handle now held =>
      have stored := DirOk.metaWrites_inode sound (inv.handle_lt held)
      refine .of_kept inv (fun data => (stored _).data_kept _ data) (fun live other => ?_)
        fun held apart _ => elsewhere _ _ rfl held apart
      rw [FsCall.target, held, Option.map_some, ne_eq, Option.some.injEq] at other
      exact (inodeAt_store _ _ _).trans (if_neg (Ne.symm other))
  | @deleted name slot number after writes listed solid disk pages =>
      obtain ⟨-, inodes⟩ := inv.dir.unlist sound listed pages
      rw [← disk] at inodes
      have live : entries.Live number := .inr ⟨slot, name, listed⟩
      have target : FsCall.target system (.delete name) = some number := by
        simp only [FsCall.target, inv.lookup_names (.inr ⟨slot, listed⟩),
          toNat_ofNat_inode sound (inv.live_lt live)]
      refine .of_kept inv (fun {lba} data => ?_) (fun {number'} live' other => ?_) ?_
      · show after.disk.content lba = _
        rw [disk, (DirOk.metaWrites_inode sound (inv.live_lt live) zeroBlock).data_kept _ data,
          data_kept_of_pages sound pages _ data,
          (DirOk.metaWrites_entry sound (inv.dir.inside listed).2 .zero (-1)).data_kept _ data]
      · rw [target, ne_eq, Option.some.injEq] at other
        exact (inodes _ (inv.live_lt live')).trans (if_neg (Ne.symm other))
      · intro index handle held _ other
        rw [target, ne_eq, Option.some.injEq] at other
        simp only [FsSystem.dropHandles, FsSystem.withState, held]
        refine Option.filter_eq_some_iff.mpr ⟨rfl, decide_eq_true fun same => other ?_⟩
        exact ((inv.dir.names_unique (inv.named held).1 (.inr ⟨slot, listed⟩)).mp same).symm
  | remounted => exact .of_kept inv (fun _ => rfl) (fun _ _ => rfl) fun held _ _ => held

theorem FsInv.live_iff (inv : FsInv uuid layout origin system entries) {number : Nat}
    (inside : number < layout.inodePageBlockCount) :
    entries.Live number ↔ (inodeAt layout system.state.disk number).type ≠ inodeTypeFree := by
  refine ⟨inv.live_used, fun used => ?_⟩
  by_contra dead
  rw [Entries.Live, not_or] at dead
  exact used (inv.dir.free number (by omega) inside dead.2)

end Keep

/-- In every state that calls reach, with any number of handles on a file, a call leaves alone the
stored inodes, the blocks and the handles of the files it does not change. -/
theorem files_isolated {options : FormatOptions} {layout : NebulaLayout} {volume : Volume}
    (fresh : volume.Fresh options layout) (small : layout.capacityBlocks ≤ 2 ^ 32)
    {reached : FsSystem}
    (run : FsReach FsCall.Sane (.fresh volume) reached) {call : FsCall} (sane : call.Sane reached)
    (now : UInt64) : Isolated layout reached call (reached.perform call now).2 := by
  obtain ⟨entries, inv⟩ := fresh.reaches_fsInv small run
  obtain ⟨entries', effect⟩ := inv.effect fresh.mountable sane now
  have inv' := inv.keep effect
  have leaves := inv.leaves effect
  constructor
  · intro number inside used other
    have live := (inv.live_iff inside).mpr used
    exact ⟨leaves.inodes live other, fun lba holds => leaves.blocks (.stored live) other holds⟩
  · intro index handle held apart other
    have held' := leaves.handles held apart other
    refine ⟨held', FsSystem.read_congr held held' ((inv.handle_backs held).serves inv.solid)
      ((inv'.handle_backs held').serves inv'.solid) fun blk lba mapped => ?_⟩
    exact leaves.blocks (.opened held) other
      ((inv.owners.mapped (.opened held)).holds_of_blockOf mapped)

theorem files_isolated_plainDisk : ∃ layout mount reached,
    Volume.Fresh plainOptions layout ⟨plainDisk 65536 (by decide), mount⟩ ∧
    reached = (((FsSystem.fresh ⟨plainDisk 65536 (by decide), mount⟩).perform
      (.create 0 [97] 0) 0).2.perform (.create 1 [98] 0) 1).2 ∧
    Isolated layout reached (.write 1 5000 [1, 2, 3])
      (reached.perform (.write 1 5000 [1, 2, 3]) 2).2 := by
  obtain ⟨layout, mount, fresh, total⟩ := plainDisk_fresh
  have run : FsReach FsCall.Sane (.fresh ⟨plainDisk 65536 (by decide), mount⟩) _ :=
    (FsRun.refl.call (.create 0 [97] 0) 0 (List.forall_mem_singleton.mpr (by decide))).call
      (.create 1 [98] 0) 1 (List.forall_mem_singleton.mpr (by decide))
  exact ⟨layout, mount, _, fresh, rfl, files_isolated fresh (by omega) run
    (show FsCall.Sane _ (.write 1 5000 [1, 2, 3]) from trivial) 2⟩

end MiniFs
