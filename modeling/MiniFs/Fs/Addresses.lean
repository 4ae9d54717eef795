import MiniFs.Fs.Rounds

/-!
# Addresses of extents

The allocator counts blocks in 64 bits and an extent keeps 32 bits of its first block.  The extent
of a run says where the run is exactly if the run starts below block 2^32.
-/

namespace MiniFs

open Fs

namespace ExtentMapEntry

/-- The entry sends the `n` logical blocks from `blk` on, and no others, to the blocks
from `lba` on. -/
structure Represents (entry : ExtentMapEntry) (blk n lba : Nat) : Prop where
  covers : ∀ other, entry.covers other = true ↔ blk ≤ other ∧ other < blk + n
  physLba : ∀ offset < n, entry.physLba (blk + offset) = lba + offset

variable {blk n lba : Nat}

theorem represents_for_iff (low : blk < 2 ^ 53) (positive : 0 < n) (few : n ≤ 256)
    (inside : lba + n ≤ 2 ^ 64) : (ExtentMapEntry.for blk n lba).Represents blk n lba ↔
    lba < 2 ^ 32 := by
  have offsetEq := emOffset_for (show blk < 2 ^ 63 by omega) n lba
  have sizeEq := sizeBlocks_for (show n < 2 ^ 24 by omega) blk lba
  have lbaEq : (ExtentMapEntry.for blk n lba).emLba.toNat = lba % 2 ^ 32 := by
    simp only [ExtentMapEntry.for, UInt32.toNat_ofNat']
  constructor
  · intro represents
    have first := represents.physLba 0 positive
    rw [ExtentMapEntry.physLba, offsetEq, lbaEq] at first
    omega
  · intro small
    refine ⟨fun other => ?_, fun offset below => ?_⟩
    · rw [covers_iff (by omega), offsetEq, sizeEq]
    · rw [ExtentMapEntry.physLba, offsetEq, lbaEq]
      omega

end ExtentMapEntry

/-- What a successful allocation has done: it took the first free run. -/
theorem blockAlloc_ok {n lba : Nat} {state after : FsState}
    (ran : (blockAlloc n).run state = (.ok lba, after)) :
    0 < n ∧ firstRun state.taken n (searchedBits state.mount) = some lba ∧
      ∀ offset < n, state.taken (lba + offset) = false ∧ after.taken (lba + offset) = true := by
  have mount := (state.next_idles state.mount.sb.bitmapLba.toNat).mount
  have result := nebulaBlockAlloc_result (state.next state.mount.sb.bitmapLba.toNat).1
    (state.next state.mount.sb.bitmapLba.toNat).2.disk
    (state.next state.mount.sb.bitmapLba.toNat).2.mount n
  simp only [blockAlloc, run_of] at ran
  rw [mount] at result ran
  generalize nebulaBlockAlloc _ _ state.mount n = done at result ran
  cases result with
  | error error start part sub inside => simp at ran
  | ok start positive free inside least room =>
      simp only [Prod.mk.injEq, Except.ok.injEq] at ran
      obtain ⟨rfl, rfl⟩ := ran
      refine ⟨positive, firstRun_eq_of_least positive free inside least, fun offset below => ?_⟩
      refine ⟨free offset below, ?_⟩
      simp only [FsState.taken, FsState.withVolume, NebulaMount.withBitmap_bitmap, markRun_l0Bits,
        bitGet_setRange, Bool.or_eq_true, decide_eq_true_eq]
      omega

/-- The extent that `next` has more than `file` sends the logical blocks to the run. -/
def StoresRun (file next : NebulaFile) (blk n lba : Nat) : Prop :=
  ∃ index, (file.inode.extents index).sizeBlocks = 0 ∧
    (∀ other, other ≠ index → next.inode.extents other = file.inode.extents other) ∧
    (next.inode.extents index).Represents blk n lba

section Round

variable {file next : NebulaFile} {state after : FsState} {curOff left lba : Nat}

/-- What a round that meets a block without an extent has done. -/
theorem fileWriteMap_stored (bounded : curOff < 2 ^ 64)
    (unknown : extentFind file.inode (curOff / 4096) = none)
    (ran : (fileWriteMap file (curOff / 4096) (curOff % 4096) left).run state =
      (.ok (.ok lba, next), after)) :
    (∀ offset < needBlks left (curOff % 4096),
      state.taken (lba + offset) = false ∧ after.taken (lba + offset) = true) ∧
    firstRun state.taken (needBlks left (curOff % 4096)) (searchedBits state.mount) = some lba ∧
    (StoresRun file next (curOff / 4096) (needBlks left (curOff % 4096)) lba ↔ lba < 2 ^ 32) := by
  obtain ⟨result, final, same, mapped⟩ :=
    fileWriteMap_result file (curOff / 4096) (curOff % 4096) left state
  rw [ran] at same
  cases same
  cases mapped with
  | found known => rw [known] at unknown; contradiction
  | added _ allocated appended =>
      obtain ⟨positive, found, marked⟩ := blockAlloc_ok allocated
      obtain ⟨-, inside, -⟩ := firstRun_eq_some positive found
      have searched : searchedBits state.mount < 2 ^ 64 := by
        have bound := state.mount.sb.deviceCapacityBlocks.toNat_lt
        rw [searchedBits]
        omega
      have few : needBlks left (curOff % 4096) ≤ 256 := by
        simp only [needBlks]
        split_ifs <;> omega
      have exactly :=
        ExtentMapEntry.represents_for_iff (show curOff / 4096 < 2 ^ 53 by omega) positive
        few (inside.trans searched.le)
      obtain ⟨here, empty, -, rfl⟩ := extentAppend_eq_some appended
      refine ⟨marked, found, ?_⟩
      rw [← exactly]
      constructor
      · rintro ⟨index, -, rest, represents⟩
        have same : index = here := by
          by_contra away
          have covered := (represents.covers (curOff / 4096)).mpr (by omega)
          simp only [Function.update_of_ne away, find?_finRange_eq_none.mp unknown index] at covered
          contradiction
        rw [same] at represents
        simpa only [Function.update_self] using represents
      · intro represents
        refine ⟨here, empty, fun other away => Function.update_of_ne away _ _, ?_⟩
        simpa only [Function.update_self] using represents

/-- A round of a write that meets a block without an extent allocates a run and stores an extent for
it, which sends the logical blocks to the run exactly if the first free run starts below 2^32. -/
theorem stored_run_iff (bounded : curOff < 2 ^ 64)
    (unknown : extentFind file.inode (curOff / 4096) = none)
    (ran : (fileWriteMap file (curOff / 4096) (curOff % 4096) left).run state =
      (.ok (.ok lba, next), after)) :
    (∀ offset < needBlks left (curOff % 4096),
      state.taken (lba + offset) = false ∧ after.taken (lba + offset) = true) ∧
    (StoresRun file next (curOff / 4096) (needBlks left (curOff % 4096)) lba ↔
      ∃ start < 2 ^ 32, firstRun state.taken (needBlks left (curOff % 4096))
        (searchedBits state.mount) = some start) := by
  obtain ⟨marked, found, stores⟩ := fileWriteMap_stored bounded unknown ran
  refine ⟨marked, ?_⟩
  rw [found, stores]
  simp only [Option.some.injEq, exists_eq_right']

variable {uuid : Bytes 16} {layout : NebulaLayout}

/-- The first byte of a file without extents is mapped to the first free block. -/
theorem run_fileWriteMap_first (exact : state.toVolume.Exact uuid layout)
    (faultFree : state.faults = []) (extents : ∀ index, file.inode.extents index = .zero)
    (found : firstRun state.taken 1 layout.capacityBlocks = some lba) :
    ∃ next, (fileWriteMap file 0 0 1).run state = (.ok (.ok lba, next), state.allocated lba 1) := by
  obtain ⟨-, -, holes⟩ := NebulaInode.mapped_of_empty extents
  have unknown : extentFind file.inode 0 = none := Option.map_eq_none_iff.mp (holes 0)
  have allocated := FsState.run_blockAlloc_first exact faultFree Nat.one_pos found
  have room : ∃ inode, extentAppend file.inode 0 1 lba = some inode := by
    rw [← Option.isSome_iff_exists, extentAppend, Option.isSome_map, List.find?_isSome]
    refine ⟨0, List.mem_finRange 0, ?_⟩
    rw [extents]
    decide
  obtain ⟨inode, appended⟩ := room
  have need : needBlks 1 0 = 1 := by decide
  refine ⟨⟨inode, file.flags, true⟩, ?_⟩
  simp only [fileWriteMap, unknown, need, run_attempt_bind, allocated, appended, run_pure]

end Round

theorem stored_run_near : ∃ (file next : NebulaFile) (state after : FsState) (lba : Nat),
    (fileWriteMap file (0 / 4096) (0 % 4096) 1).run state = (.ok (.ok lba, next), after) ∧
      StoresRun file next (0 / 4096) (needBlks 1 (0 % 4096)) lba := by
  obtain ⟨layout, -, number, state, total, -, -, first⟩ :=
    @plainDisk_created 65536 le_rfl (by decide) (by decide)
  have sound := first.exact.sound
  have room := sound.data_room
  have tail := sound.allocRootsTail_eq
  obtain ⟨lba, before, found⟩ :=
    firstRun_before Nat.one_pos (freeRun_one (first.free _ le_rfl (by omega)))
    (show layout.dataStartLba + 1 ≤ layout.capacityBlocks by omega)
  have extents := createdFile_extents number 0 0
  obtain ⟨-, -, holes⟩ := NebulaInode.mapped_of_empty extents
  obtain ⟨next, ran⟩ := run_fileWriteMap_first first.exact first.faultFree extents found
  refine ⟨_, next, state, _, lba, ran, ?_⟩
  rw [(@stored_run_iff _ _ _ _ 0 _ _ (by decide) (Option.map_eq_none_iff.mp (holes 0)) ran).2]
  have searched : searchedBits state.mount = layout.capacityBlocks := first.exact.searchedBits_eq
  rw [searched]
  exact ⟨lba, by omega, found⟩

/-- On a device of 32 TiB, with an allocation of 2^32 - 1 blocks before it, the first byte of a file
goes to a block that its extent does not name. -/
theorem stored_run_far : ∃ (mount : NebulaMount) (file next : NebulaFile)
    (created filled after : FsState) (start lba : Nat),
    nebulaMountDo (fun _ => zeroBlock) (plainDisk 8589934592 (by decide)) = .ok mount ∧
    (nebulaFileCreate 0 0).run ⟨⟨plainDisk 8589934592 (by decide), mount⟩, []⟩ =
      (.ok file, created) ∧
    (blockAlloc 4294967295).run created = (.ok start, filled) ∧
    extentFind file.inode 0 = none ∧
    (fileWriteMap file 0 0 1).run filled = (.ok (.ok lba, next), after) ∧
    ¬ StoresRun file next 0 1 lba := by
  obtain ⟨layout, mount, number, state, total, mounts, created, first⟩ :=
    @plainDisk_created 8589934592 (by decide) (by decide) (by decide)
  have sound := first.exact.sound
  have room := sound.data_room
  have tail := sound.allocRootsTail_eq
  have low : 0 < layout.dataStartLba ∧ layout.dataStartLba < 2 ^ 31 := by
    have tight := sound.bitmap_tight
    have bitmap := sound.bitmap_eq
    have stream := sound.streamMap_eq
    have streams := sound.streamMapCount_eq
    have inode := sound.inode_eq
    have inodes := sound.inodeCount_le
    have dir := sound.dir_eq
    have dirs := sound.dirCount_eq
    have data := sound.dataStart_eq
    omega
  have extents := createdFile_extents number 0 0
  obtain ⟨-, -, holes⟩ := NebulaInode.mapped_of_empty extents
  have unknown := Option.map_eq_none_iff.mp (holes 0)
  have guarded : ∀ lba < layout.dataStartLba, state.taken lba = true := by
    intro lba below
    exact first.backs.guarded lba (by omega) (by simp [lbaIsMetadata, below])
  obtain ⟨start, before, found⟩ := @firstRun_before state.taken 4294967295 layout.capacityBlocks
    layout.dataStartLba (by decide) (fun offset below => first.free _ (by omega) (by omega))
    (by omega)
  obtain ⟨free, -, -⟩ := firstRun_eq_some (by decide) found
  have allocated := FsState.run_blockAlloc_first first.exact first.faultFree (by decide) found
  have exact := FsState.exact_allocated first.exact (by decide) found
  obtain ⟨lba, -, found'⟩ := @firstRun_before (state.allocated start 4294967295).taken 1
    layout.capacityBlocks (layout.dataStartLba + 4294967295) Nat.one_pos (freeRun_one (by
      rw [FsState.taken_allocated, first.free _ (by omega) (by omega), decide_eq_false (by omega)]
      rfl)) (by omega)
  obtain ⟨next, ran⟩ := run_fileWriteMap_first exact first.faultFree extents found'
  refine ⟨mount, _, next, state, _, _, start, lba, mounts, created, allocated, unknown, ran, ?_⟩
  have stores := (@fileWriteMap_stored _ _ _ _ 0 _ _ (by decide) unknown ran).2.2
  rw [show needBlks 1 (0 % 4096) = 1 by decide] at stores
  rw [stores]
  intro near
  obtain ⟨free', -, -⟩ := firstRun_eq_some Nat.one_pos found'
  have clear := free' 0 Nat.one_pos
  rw [Nat.add_zero, FsState.taken_allocated, Bool.or_eq_false_iff, decide_eq_false_iff_not] at clear
  obtain ⟨outside, unused⟩ := clear
  have data : layout.dataStartLba ≤ lba := by
    by_contra below
    rw [guarded lba (by omega)] at unused
    exact Bool.noConfusion unused
  have positive : start ≠ 0 := by
    rintro rfl
    have unused := free 0 (by decide)
    rw [guarded 0 low.1] at unused
    exact Bool.noConfusion unused
  omega

end MiniFs
