import MiniFs.Fs.InodeAlloc

/-!
# Requests on a formatted device

What single requests and the inode functions do on a device whose superblock is the formatted one,
whatever requests fail.  Code that only reads leaves the device and the mount alone.
-/

namespace MiniFs

open Fs

/-- The mount has the superblock of the formatted device. -/
structure FsState.Placed (uuid : Bytes 16) (layout : NebulaLayout) (state : FsState) : Prop where
  sound : layout.Sound
  capacity : state.disk.capacityBlocks = layout.capacityBlocks
  sb : state.mount.sb = formatSuperblock uuid layout

namespace FsState

/-- Only requests have gone by. -/
structure Idles (before after : FsState) : Prop where
  volume : after.toVolume = before.toVolume
  faults : after.faults <:+ before.faults

theorem Idles.refl (state : FsState) : Idles state state := ⟨rfl, List.suffix_rfl⟩

theorem Idles.trans {first second third : FsState} (one : Idles first second)
    (two : Idles second third) : Idles first third :=
  ⟨two.volume.trans one.volume, two.faults.trans one.faults⟩

/-- Without faults to come, nothing has changed. -/
theorem Idles.eq {before after : FsState} (idles : Idles before after)
    (faultFree : before.faults = []) : after = before := by
  obtain ⟨volume, faults⟩ := idles
  rw [faultFree, List.suffix_nil] at faults
  cases before
  cases after
  simp_all

theorem Idles.disk {before after : FsState} (idles : Idles before after) :
    after.disk = before.disk := congrArg Volume.disk idles.volume

theorem Idles.mount {before after : FsState} (idles : Idles before after) :
    after.mount = before.mount := congrArg Volume.mount idles.volume

theorem next_idles (state : FsState) (lba : Nat) : Idles state (state.next lba).2 := by
  rw [next]
  cases faults : state.faults with
  | nil => exact .refl _
  | cons fails rest => exact ⟨rfl, by rw [faults]; exact List.suffix_cons _ _⟩

/-- A request fails only if that was to come. -/
theorem next_outcome (state : FsState) (lba : Nat) :
    (state.next lba).1 = .ok ∨
      (∃ fails ∈ state.faults, fails lba = true) ∧ (state.next lba).1 = .fail fun _ => false := by
  rw [next]
  cases faults : state.faults with
  | nil => exact .inl rfl
  | cons fails rest =>
      by_cases bad : fails lba = true
      · exact .inr ⟨⟨fails, List.mem_cons_self, bad⟩, by simp [bad]⟩
      · exact .inl (by simp [bad])

/-- A read of a block of the device without faults. -/
theorem run_ioRead_of_lt {state : FsState} {lba : Nat} (faultFree : state.faults = [])
    (inside : lba < state.disk.capacityBlocks) :
    (ioRead lba).run state = (.ok (state.disk.content lba), state) := by
  simp only [ioRead, run_of, next, faultFree]
  rw [nebulaIoRead_fault_free inside]
  simp [Except.map]

namespace Placed

variable {uuid : Bytes 16} {layout : NebulaLayout} {state after : FsState}

theorem capacity_lt (placed : state.Placed uuid layout) : layout.capacityBlocks < 2 ^ 52 :=
  placed.capacity ▸ state.disk.capacity_lt

theorem records (placed : state.Placed uuid layout) : state.mount.sb.Records uuid layout := by
  rw [placed.sb]
  exact formatSuperblock_records placed.sound placed.capacity_lt uuid

theorem of_volume (placed : state.Placed uuid layout) (volume : after.toVolume = state.toVolume) :
    after.Placed uuid layout where
  sound := placed.sound
  capacity := by
    rw [show after.disk = state.disk from congrArg Volume.disk volume]
    exact placed.capacity
  sb := by
    rw [show after.mount = state.mount from congrArg Volume.mount volume]
    exact placed.sb

theorem withDisk (placed : state.Placed uuid layout) {disk : Disk}
    (capacity : disk.capacityBlocks = state.disk.capacityBlocks) :
    (state.withDisk disk).Placed uuid layout :=
  ⟨placed.sound, capacity.trans placed.capacity, placed.sb⟩

/-- A block request of the device is read, unless it is to fail. -/
theorem ioRead_spec (placed : state.Placed uuid layout) {lba : Nat}
    (inside : lba < layout.capacityBlocks) :
    ∃ after, Idles state after ∧ ((ioRead lba).run state = (.ok (state.disk.content lba), after) ∨
      (∃ fails ∈ state.faults, fails lba = true) ∧
        (ioRead lba).run state = (.error Errno.EIO, after)) := by
  have range : ioRange state.disk lba 1 = .ok () := ioRange_eq_ok (by rw [placed.capacity]; omega)
  have idles := next_idles state lba
  have outcome := next_outcome state lba
  refine ⟨(state.next lba).2, idles, ?_⟩
  simp only [ioRead, run_of, nebulaIoRead, idles.disk, range]
  rcases outcome with good | ⟨faulty, bad⟩
  · exact .inl (by simp [good, Except.map])
  · exact .inr ⟨faulty, by simp [bad, Except.map]⟩

/-- A block request of the device is written, unless it is to fail. -/
theorem ioWrite_spec (placed : state.Placed uuid layout) {lba : Nat} (block : Block)
    (inside : lba < layout.capacityBlocks) :
    ∃ after, Idles state after ∧
      ((ioWrite lba block).run state =
          (.ok (), after.withDisk (state.disk.push [(lba, block)])) ∨
        (∃ fails ∈ state.faults, fails lba = true) ∧
          (ioWrite lba block).run state = (.error Errno.EIO, after)) := by
  have range : ioRange state.disk lba 1 = .ok () := ioRange_eq_ok (by rw [placed.capacity]; omega)
  have idles := next_idles state lba
  have outcome := next_outcome state lba
  refine ⟨(state.next lba).2, idles, ?_⟩
  simp only [ioWrite, run_of, nebulaIoWrite, List.length_singleton, idles.disk, range]
  rcases outcome with good | ⟨faulty, bad⟩
  · exact .inl (by simp [good, rangeWrites])
  · refine .inr ⟨faulty, ?_⟩
    simp only [bad, List.filter_false, Disk.push_nil]
    rw [← idles.disk, FsState.withDisk_self]

/-- A read without faults. -/
theorem run_ioRead (placed : state.Placed uuid layout) (faultFree : state.faults = []) {lba : Nat}
    (inside : lba < layout.capacityBlocks) :
    (ioRead lba).run state = (.ok (state.disk.content lba), state) := by
  obtain ⟨after, idles, done | ⟨⟨fails, member, -⟩, -⟩⟩ := placed.ioRead_spec inside
  · rw [done, idles.eq faultFree]
  · simp [faultFree] at member

/-- A write without faults. -/
theorem run_ioWrite (placed : state.Placed uuid layout) (faultFree : state.faults = []) {lba : Nat}
    (block : Block) (inside : lba < layout.capacityBlocks) :
    (ioWrite lba block).run state = (.ok (), state.withDisk (state.disk.push [(lba, block)])) := by
  obtain ⟨after, idles, done | ⟨⟨fails, member, -⟩, -⟩⟩ := placed.ioWrite_spec block inside
  · rw [done, idles.eq faultFree]
  · simp [faultFree] at member

end Placed

/-- Some request to another block than the directory header is to fail. -/
def Faulty (layout : NebulaLayout) (state : FsState) : Prop :=
  ∃ fails ∈ state.faults, ∃ lba, lba ≠ layout.dirPageLba ∧ fails lba = true

theorem not_faulty {layout : NebulaLayout} {state : FsState} (faultFree : state.faults = []) :
    ¬ state.Faulty layout := by
  rintro ⟨fails, member, -⟩
  simp [faultFree] at member

theorem Idles.faulty {layout : NebulaLayout} {before after : FsState} (idles : Idles before after)
    (faulty : after.Faulty layout) : before.Faulty layout := by
  obtain ⟨fails, member, bad⟩ := faulty
  exact ⟨fails, idles.faults.subset member, bad⟩

end FsState

/-- The inode stored under a number. -/
def inodeAt (layout : NebulaLayout) (disk : Disk) (number : Nat) : NebulaInode :=
  NebulaInode.layout.symm (disk.content (layout.inodePageLba + number))

/-- An inode that is not free has its checksum. -/
def NebulaInode.Valid (inode : NebulaInode) : Prop :=
  inode.type ≠ inodeTypeFree → inode.checksum = nebulaInodeChecksum inode

theorem nebulaInodeChecksum_with (inode : NebulaInode) (value : UInt32) :
    nebulaInodeChecksum { inode with checksum := value } = nebulaInodeChecksum inode := by
  rw [nebulaInodeChecksum, nebulaInodeChecksum]

theorem NebulaInode.seal_valid (inode : NebulaInode) : inode.seal.Valid := by
  intro _
  exact (nebulaInodeChecksum_with inode (nebulaInodeChecksum inode)).symm

namespace FsState.Placed

variable {uuid : Bytes 16} {layout : NebulaLayout} {state : FsState}

theorem inodeLba_eq (placed : state.Placed uuid layout) {number : Nat}
    (inside : number < layout.inodePageBlockCount) :
    inodeLba state.mount number = layout.inodePageLba + number ∧
      layout.inodePageLba + number < layout.capacityBlocks ∧
      layout.inodePageLba + number ≠ layout.dirPageLba := by
  have sound := placed.sound
  have bound := placed.capacity_lt
  have dir := sound.dir_eq
  have data := sound.dataStart_eq
  have room := sound.data_room
  have tail := sound.allocRootsTail_eq
  rw [inodeLba, placed.records.inodePageLba]
  omega

theorem inodeRead_spec (placed : state.Placed uuid layout) {inodeNum : UInt64}
    (inside : inodeNum.toNat < layout.inodePageBlockCount)
    (valid : (inodeAt layout state.disk inodeNum.toNat).Valid) :
    ∃ after, Idles state after ∧
      ((nebulaInodeRead inodeNum).run state =
          (.ok (inodeAt layout state.disk inodeNum.toNat), after) ∨
        state.Faulty layout ∧ ∃ error, (nebulaInodeRead inodeNum).run state =
          (.error error, after)) := by
  obtain ⟨lba, below, apart⟩ := placed.inodeLba_eq inside
  have bounded : ¬ state.mount.sb.inodePageBlockCount ≤ inodeNum := by
    rw [UInt64.le_iff_toNat_le, placed.records.inodePageBlockCount]
    omega
  simp only [nebulaInodeRead, run_mount_bind, if_neg bounded, lba]
  obtain ⟨after, idles, done | ⟨⟨fails, member, bad⟩, failed⟩⟩ := placed.ioRead_spec below
  · refine ⟨after, idles, .inl ?_⟩
    rw [run_bind_ok done]
    have good : ¬ ((inodeAt layout state.disk inodeNum.toNat).type ≠ inodeTypeFree ∧
        (inodeAt layout state.disk inodeNum.toNat).checksum ≠
          nebulaInodeChecksum (inodeAt layout state.disk inodeNum.toNat)) := by
      rintro ⟨live, wrong⟩
      exact wrong (valid live)
    simp only [inodeAt] at good ⊢
    rw [if_neg good, run_pure]
  · exact ⟨after, idles, .inr ⟨⟨fails, member, _, apart, bad⟩, _, run_bind_error failed⟩⟩

theorem inodeWrite_spec (placed : state.Placed uuid layout) {inode : NebulaInode}
    (inside : inode.inodeNum.toNat < layout.inodePageBlockCount) :
    ∃ after, Idles state after ∧
      ((nebulaInodeWrite inode).run state =
          (.ok (.ok (), inode.seal), after.withDisk (state.disk.push
            [(layout.inodePageLba + inode.inodeNum.toNat, NebulaInode.layout inode.seal)])) ∨
        state.Faulty layout ∧
          ∃ error, (nebulaInodeWrite inode).run state =
            (.ok (.error error, inode.seal), after)) := by
  obtain ⟨lba, below, apart⟩ := placed.inodeLba_eq inside
  have bounded : ¬ state.mount.sb.inodePageBlockCount ≤ inode.inodeNum := by
    rw [UInt64.le_iff_toNat_le, placed.records.inodePageBlockCount]
    omega
  simp only [nebulaInodeWrite, run_mount_bind, if_neg bounded, lba]
  obtain ⟨after, idles, done | ⟨⟨fails, member, bad⟩, failed⟩⟩ :=
    placed.ioWrite_spec (NebulaInode.layout inode.seal) below
  · refine ⟨after, idles, .inl ?_⟩
    rw [run_attempt_bind, done, run_pure]
  · refine ⟨after, idles, .inr ⟨⟨fails, member, _, apart, bad⟩, Errno.EIO, ?_⟩⟩
    rw [run_attempt_bind, failed, run_pure]

/-- The scan takes the first free inode. -/
theorem inodeAllocScan_spec (placed : state.Placed uuid layout) (type mode : UInt32) (now : UInt64)
    {remaining number : Nat} (walked : number + remaining = layout.inodePageBlockCount) :
    ∃ after, Idles state after ∧
      ((∃ found, number ≤ found ∧ found < layout.inodePageBlockCount ∧
          (inodeAt layout state.disk found).type = inodeTypeFree ∧
          (inodeAllocScan type mode now remaining number).run state =
            (.ok (UInt64.ofNat found), after.withDisk (state.disk.push
              [(layout.inodePageLba + found,
                NebulaInode.layout (freshInode found type mode now))]))) ∨
        (inodeAllocScan type mode now remaining number).run state = (.error .ENOSPC, after) ∧
          (∀ other, number ≤ other → other < layout.inodePageBlockCount →
            (inodeAt layout state.disk other).type ≠ inodeTypeFree) ∨
        state.Faulty layout ∧
          (inodeAllocScan type mode now remaining number).run state =
            (.error Errno.EIO, after)) := by
  induction remaining generalizing number state with
  | zero =>
      refine ⟨state, .refl _, .inr (.inl ⟨rfl, fun other low high => ?_⟩)⟩
      omega
  | succ remaining ih =>
      obtain ⟨lba, below, apart⟩ :=
        placed.inodeLba_eq (show number < layout.inodePageBlockCount by omega)
      simp only [inodeAllocScan, run_mount_bind, lba]
      obtain ⟨after, idles, done | ⟨⟨fails, member, bad⟩, failed⟩⟩ := placed.ioRead_spec below
      · simp only [run_bind_ok done]
        by_cases free : (inodeAt layout state.disk number).type = inodeTypeFree
        · have taken : ¬ (NebulaInode.layout.symm
              (state.disk.content (layout.inodePageLba + number))).type ≠ inodeTypeFree :=
            fun other => other free
          rw [if_neg taken]
          obtain ⟨last, idles', done' | ⟨⟨fails, member, bad⟩, failed⟩⟩ :=
            (placed.of_volume idles.volume).ioWrite_spec
              (NebulaInode.layout (freshInode number type mode now)) below
          · refine ⟨last, idles.trans idles', .inl ⟨number, le_rfl, by omega, free, ?_⟩⟩
            rw [run_bind_ok done', run_pure, idles.disk]
          · exact ⟨last, idles.trans idles', .inr (.inr
              ⟨idles.faulty ⟨fails, member, _, apart, bad⟩, run_bind_error failed⟩)⟩
        · have taken : (NebulaInode.layout.symm
              (state.disk.content (layout.inodePageLba + number))).type ≠ inodeTypeFree := free
          rw [if_pos taken]
          obtain ⟨last, idles', result⟩ :=
            ih (placed.of_volume idles.volume) (show number + 1 + remaining = _ by omega)
          rw [idles.disk] at result
          refine ⟨last, idles.trans idles', ?_⟩
          rcases result with ⟨found, low, high, freeFound, ran⟩ | ⟨ran, full⟩ | ⟨faulty, ran⟩
          · exact .inl ⟨found, by omega, high, freeFound, ran⟩
          · refine .inr (.inl ⟨ran, fun other low high => ?_⟩)
            rcases Nat.lt_or_ge number other with more | least
            · exact full other more high
            · rwa [show other = number by omega]
          · exact .inr (.inr ⟨idles.faulty faulty, ran⟩)
      · exact ⟨after, idles, .inr (.inr ⟨⟨fails, member, _, apart, bad⟩, run_bind_error failed⟩)⟩

theorem inodeFree_spec (placed : state.Placed uuid layout) {inodeNum : UInt64}
    (inside : inodeNum.toNat < layout.inodePageBlockCount) (notRoot : inodeNum ≠ 0)
    (live : (inodeAt layout state.disk inodeNum.toNat).type ≠ inodeTypeFree) :
    ∃ after, Idles state after ∧
      ((nebulaInodeFree inodeNum).run state =
          (.ok (), after.withDisk (state.disk.push
            [(layout.inodePageLba + inodeNum.toNat, zeroBlock)])) ∨
        state.Faulty layout ∧
          (nebulaInodeFree inodeNum).run state = (.error Errno.EIO, after)) := by
  obtain ⟨lba, below, apart⟩ := placed.inodeLba_eq inside
  have bounded : ¬ state.mount.sb.inodePageBlockCount ≤ inodeNum := by
    rw [UInt64.le_iff_toNat_le, placed.records.inodePageBlockCount]
    omega
  have used : ¬ (NebulaInode.layout.symm
      (state.disk.content (layout.inodePageLba + inodeNum.toNat))).type = inodeTypeFree := live
  simp only [nebulaInodeFree, run_mount_bind, if_neg notRoot, if_neg bounded, lba]
  obtain ⟨after, idles, done | ⟨⟨fails, member, bad⟩, failed⟩⟩ := placed.ioRead_spec below
  · rw [run_bind_ok done, if_neg used]
    obtain ⟨last, idles', done' | ⟨⟨fails, member, bad⟩, failed⟩⟩ :=
      (placed.of_volume idles.volume).ioWrite_spec zeroBlock below
    · exact ⟨last, idles.trans idles', .inl (by rw [done', idles.disk])⟩
    · exact ⟨last, idles.trans idles', .inr ⟨idles.faulty ⟨fails, member, _, apart, bad⟩, failed⟩⟩
  · exact ⟨after, idles, .inr ⟨⟨fails, member, _, apart, bad⟩, run_bind_error failed⟩⟩

end FsState.Placed

end MiniFs
