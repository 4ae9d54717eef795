import MiniFs.Fs.Invariant
import MiniFs.Tools.Fsck

/-!
# Metadata that files do not touch

Whatever a client does with files, with any number of handles on them, only the bitmap, the inodes,
the directory and the data region are written.  The rest is as it was formatted, a check of the
device has nothing to report, and the device can be mounted, with the bitmap that is in memory.
-/

namespace MiniFs

open Fs

/-- What calls leave of a device as it was formatted. -/
structure MetadataKept (layout : NebulaLayout) (origin : Disk) (state : FsState) : Prop where
  writes : ∃ writes, state.disk = origin.push writes ∧ ∀ write ∈ writes, FileBlock layout write.1
  fixed : ∀ lba, ¬ FileBlock layout lba → state.disk.content lba = origin.content lba
  clean : FsckClean state.disk
  mounts : ∀ heap, ∃ mount, nebulaMountDo heap state.disk = .ok mount ∧
    nebulaHbmTotalFree mount.bitmap = nebulaHbmTotalFree state.mount.bitmap ∧
    ∀ lba < layout.capacityBlocks, bitGet mount.bitmap.l0Bits lba = state.taken lba

section Kept

variable {options : FormatOptions} {layout : NebulaLayout} {origin : Disk} {system : FsSystem}
  {entries : Entries}

theorem FsInv.fixed (inv : FsInv options.uuid layout origin system entries) {lba : Nat}
    (outside : ¬ FileBlock layout lba) :
    system.state.disk.content lba = origin.content lba := by
  obtain ⟨writes, disk, inside⟩ := inv.writes
  rw [disk]
  refine content_push_of_ne fun write member here => outside ?_
  rw [← here]
  exact inside write member

/-- The blocks a check looks at are in order. -/
theorem FsInv.cleanImage (inv : FsInv options.uuid layout origin system entries)
    (formatted : Formatted options layout origin.content) :
    CleanImage options layout (UInt64.ofNat layout.bitmapBlockCount) system.state.disk := by
  have sound := inv.solid.sound
  have bitmap := sound.bitmap_eq
  have stream := sound.streamMap_eq
  have inode := sound.inode_eq
  have dir := sound.dir_eq
  have data := sound.dataStart_eq
  have room := sound.data_room
  have tail := sound.allocRootsTail_eq
  have last := sound.sbTail_eq
  have capacity : system.state.disk.capacityBlocks = layout.capacityBlocks :=
    inv.solid.exact.capacity
  have same : origin.capacityBlocks = layout.capacityBlocks := by
    obtain ⟨writes, disk, -⟩ := inv.writes
    rw [← capacity, disk]
    rfl
  have image := CleanImage.of_formatted sound same formatted
  have low : ∀ {lba}, lba < layout.bitmapLba →
      system.state.disk.content lba = origin.content lba := by
    intro lba below
    refine inv.fixed fun block => ?_
    rw [FileBlock, InBitmap] at block
    omega
  have high : ∀ {lba}, layout.allocRootsTailLba ≤ lba →
      system.state.disk.content lba = origin.content lba := by
    intro lba above
    refine inv.fixed fun block => ?_
    rw [FileBlock, InBitmap] at block
    omega
  refine ⟨sound, capacity, ?_, ?_, ?_, ?_, ?_, ?_, ?_, ?_, ?_⟩
  · rw [low (by omega), image.mbr]
  · rw [low (by omega), image.sbHead]
  · rw [high (by omega), image.sbTail]
  · rw [low (by omega), image.uberblock]
  · intro slot positive below
    rw [low (by omega), image.slots slot positive below]
  · rw [low (by omega), image.rootsHead]
  · rw [high le_rfl, image.rootsTail]
  · have many := sound.inodeCount_ge
    refine ⟨inodeAt layout system.state.disk 0, ?_, ?_, inv.dir.rootType⟩
    · rw [inodeAt, Equiv.apply_symm_apply, Nat.add_zero]
    · exact inv.dir.valid 0 (by omega) (inv.live_used (.inl rfl))
  · refine ⟨dirHeaderAt layout system.state.disk, ?_, inv.dir.magic, inv.dir.checked.symm⟩
    rw [dirHeaderAt, Equiv.apply_symm_apply]

end Kept

/-- In every state that calls reach, with any number of handles, the fixed metadata is as it was
formatted, the device passes the checks, and it can be mounted with the bitmap that is in memory. -/
theorem metadata_kept {options : FormatOptions} {layout : NebulaLayout} {volume : Volume}
    (fresh : volume.Fresh options layout) (small : layout.capacityBlocks ≤ 2 ^ 32)
    {reached : FsSystem} (run : FsReach FsCall.Sane (.fresh volume) reached) :
    MetadataKept layout volume.disk reached.state := by
  obtain ⟨sound, -, -, formatted⟩ := fresh.spec
  obtain ⟨entries, inv⟩ := fresh.reaches_fsInv small run
  refine ⟨inv.writes, fun lba outside => inv.fixed outside, (inv.cleanImage formatted).clean, ?_⟩
  intro heap
  have exact := inv.solid.exact
  obtain ⟨mount, mounts, again, bits⟩ := exact.remount (inv.mountable fresh.mountable) heap
  refine ⟨mount, mounts, UInt64.toNat_inj.mp ?_, bits⟩
  rw [nebulaHbmTotalFree, nebulaHbmTotalFree, again.bitmap.device_count sound exact.capacity_lt,
    exact.bitmap.device_count sound exact.capacity_lt, freeBelow, freeBelow]
  exact Nat.count_congr fun lba below => by rw [bits lba below]

theorem metadata_kept_plainDisk : ∃ layout mount reached,
    Volume.Fresh plainOptions layout ⟨plainDisk 65536 (by decide), mount⟩ ∧
    reached = (((FsSystem.fresh ⟨plainDisk 65536 (by decide), mount⟩).perform
      (.create 0 [97] 0) 0).2.perform (.write 0 5000 [1, 2, 3]) 1).2 ∧
    MetadataKept layout (plainDisk 65536 (by decide)) reached.state := by
  obtain ⟨layout, mount, fresh, total⟩ := plainDisk_fresh
  have run : FsReach FsCall.Sane (.fresh ⟨plainDisk 65536 (by decide), mount⟩) _ :=
    (FsRun.refl.call (.create 0 [97] 0) 0 (List.forall_mem_singleton.mpr (by decide))).call
      (.write 0 5000 [1, 2, 3]) 1 trivial
  exact ⟨layout, mount, _, fresh, rfl, metadata_kept fresh (by omega) run⟩

end MiniFs
