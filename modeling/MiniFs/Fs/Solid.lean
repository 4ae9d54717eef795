import MiniFs.Fs.NameCalls

/-!
# Blocks without faults

Block requests and allocator calls of a mounted device on which no request fails: each changes the
blocks it is for, and the bitmap follows.
-/

namespace MiniFs

open Fs

/-- A device of at most 2^32 blocks, mounted and exact, on which no request fails. -/
structure FsState.Solid (uuid : Bytes 16) (layout : NebulaLayout) (state : FsState) : Prop where
  exact : state.toVolume.Exact uuid layout
  small : layout.capacityBlocks ≤ 2 ^ 32
  faultFree : state.faults = []

/-- The bitmap has the block in use. -/
def FsState.taken (state : FsState) (lba : Nat) : Bool := bitGet state.mount.bitmap.l0Bits lba

/-- The block is a page of the bitmap. -/
def InBitmap (layout : NebulaLayout) (lba : Nat) : Prop :=
  layout.bitmapLba ≤ lba ∧ lba < layout.bitmapLba + layout.bitmapBlockCount

/-- The block is in the data region. -/
def InData (layout : NebulaLayout) (lba : Nat) : Prop :=
  layout.dataStartLba ≤ lba ∧ lba < layout.allocRootsTailLba

theorem not_inBitmap_of_inData {layout : NebulaLayout} (sound : layout.Sound) {lba : Nat}
    (inside : InData layout lba) : ¬ InBitmap layout lba := by
  have stream := sound.streamMap_eq
  have inode := sound.inode_eq
  have dir := sound.dir_eq
  have data := sound.dataStart_eq
  rw [InData] at inside
  rw [InBitmap]
  omega

/-- Inodes and the directory are no pages of the bitmap. -/
theorem MetaWrites.apart {layout : NebulaLayout} {writes : List (Nat × Block)}
    (inside : MetaWrites layout writes) (sound : layout.Sound) :
    ∀ write ∈ writes, ¬ InBitmap layout write.1 := by
  intro write member page
  have within := inside write member
  have stream := sound.streamMap_eq
  have inode := sound.inode_eq
  rw [InBitmap] at page
  omega

theorem InData.lt_capacity {layout : NebulaLayout} {lba : Nat} (inside : InData layout lba)
    (sound : layout.Sound) : lba < layout.capacityBlocks := by
  have tail := sound.allocRootsTail_eq
  exact inside.2.trans (by omega)

namespace FsState

/-- The state after a run of blocks is marked and its pages are written. -/
def allocated (state : FsState) (start n : Nat) : FsState :=
  state.withVolume
    ⟨state.disk.push (pageWrites
        (state.mount.withBitmap (markRun state.mount.bitmap start n)) start n),
      state.mount.withBitmap (markRun state.mount.bitmap start n)⟩

/-- The state after a run of blocks is cleared and its pages are written. -/
def freed (state : FsState) (start n : Nat) : FsState :=
  state.withVolume
    ⟨state.disk.push (pageWrites
        (state.mount.withBitmap (unmarkRun state.mount.bitmap start n)) start n),
      state.mount.withBitmap (unmarkRun state.mount.bitmap start n)⟩

theorem taken_allocated (state : FsState) (start n lba : Nat) :
    (state.allocated start n).taken lba =
      (decide (start ≤ lba ∧ lba < start + n) || state.taken lba) := by
  simp only [taken, allocated, withVolume, NebulaMount.withBitmap_bitmap, markRun_l0Bits,
    bitGet_setRange]

theorem taken_freed (state : FsState) (start n lba : Nat) :
    (state.freed start n).taken lba =
      (!decide (start ≤ lba ∧ lba < start + n) && state.taken lba) := by
  simp only [taken, freed, withVolume, NebulaMount.withBitmap_bitmap, unmarkRun_l0Bits,
    bitGet_clrRange]

@[simp] theorem taken_withDisk (state : FsState) (disk : Disk) (lba : Nat) :
    (state.withDisk disk).taken lba = state.taken lba := rfl

end FsState

/-- The pages of a run are written to the bitmap. -/
theorem pageWrites_inBitmap {uuid : Bytes 16} {layout : NebulaLayout} {mount : NebulaMount}
    (sound : layout.Sound) (records : mount.sb.Records uuid layout) {start n : Nat}
    (positive : 0 < n) (inside : start + n ≤ layout.capacityBlocks) :
    ∀ write ∈ pageWrites mount start n, InBitmap layout write.1 := by
  intro write member
  obtain ⟨page, low, high, rfl⟩ := mem_pageWrites positive member
  have covers := sound.bitmap_covers
  rw [InBitmap, records.bitmapLba]
  simp only [bitmapBitsPerPage] at high
  omega

namespace FsState

variable {uuid : Bytes 16} {layout : NebulaLayout} {state : FsState}

theorem exact_push (exact : state.toVolume.Exact uuid layout) {writes : List (Nat × Block)}
    (apart : ∀ write ∈ writes, ¬ InBitmap layout write.1) :
    (state.withDisk (state.disk.push writes)).toVolume.Exact uuid layout := by
  refine exact.push_apart fun write member page inside here => ?_
  apply apart write member
  rw [InBitmap, here]
  omega

theorem run_blockAlloc_first (exact : state.toVolume.Exact uuid layout)
    (faultFree : state.faults = []) {n start : Nat} (positive : 0 < n)
    (found : firstRun state.taken n layout.capacityBlocks = some start) :
    (blockAlloc n).run state = (.ok start, state.allocated start n) := by
  have allocated := exact.alloc_ok positive found
  simp only [blockAlloc, run_of, FsState.next, faultFree, allocated, FsState.allocated]

theorem exact_allocated (exact : state.toVolume.Exact uuid layout) {n start : Nat}
    (positive : 0 < n) (found : firstRun state.taken n layout.capacityBlocks = some start) :
    (state.allocated start n).toVolume.Exact uuid layout := by
  have later := exact.alloc (show IoOutcome.ok.Atomic from trivial) n
  rwa [exact.alloc_ok positive found] at later

end FsState

namespace FsState.Solid

variable {uuid : Bytes 16} {layout : NebulaLayout} {state : FsState}

theorem sound (solid : state.Solid uuid layout) : layout.Sound := solid.exact.sound

theorem ready (solid : state.Solid uuid layout) : state.Ready uuid layout :=
  ⟨⟨solid.exact.sound, solid.exact.capacity, solid.exact.sb⟩, solid.faultFree⟩

/-- Writes to other blocks than the bitmap keep the mount exact. -/
theorem push (solid : state.Solid uuid layout) {writes : List (Nat × Block)}
    (apart : ∀ write ∈ writes, ¬ InBitmap layout write.1) :
    (state.withDisk (state.disk.push writes)).Solid uuid layout :=
  ⟨exact_push solid.exact apart, solid.small, solid.faultFree⟩

theorem run_ioRead (solid : state.Solid uuid layout) {lba : Nat}
    (inside : lba < layout.capacityBlocks) :
    (ioRead lba).run state = (.ok (state.disk.content lba), state) :=
  solid.ready.placed.run_ioRead solid.faultFree inside

theorem run_ioWrite (solid : state.Solid uuid layout) {lba : Nat} (block : Block)
    (inside : lba < layout.capacityBlocks) :
    (ioWrite lba block).run state = (.ok (), state.withDisk (state.disk.push [(lba, block)])) :=
  solid.ready.placed.run_ioWrite solid.faultFree block inside

theorem next_eq (solid : state.Solid uuid layout) (lba : Nat) : state.next lba = (.ok, state) := by
  rw [FsState.next, solid.faultFree]

/-- An allocation takes the first free run. -/
theorem run_blockAlloc (solid : state.Solid uuid layout) {n start : Nat} (positive : 0 < n)
    (found : firstRun state.taken n layout.capacityBlocks = some start) :
    (blockAlloc n).run state = (.ok start, state.allocated start n) :=
  run_blockAlloc_first solid.exact solid.faultFree positive found

theorem run_blockAlloc_none (solid : state.Solid uuid layout) {n : Nat} (positive : 0 < n)
    (missing : firstRun state.taken n layout.capacityBlocks = none) :
    (blockAlloc n).run state = (.error .ENOSPC, state) := by
  have failed := solid.exact.alloc_none positive missing
  simp only [blockAlloc, run_of, solid.next_eq, failed]
  rfl

theorem allocated (solid : state.Solid uuid layout) {n start : Nat} (positive : 0 < n)
    (found : firstRun state.taken n layout.capacityBlocks = some start) :
    (state.allocated start n).Solid uuid layout :=
  ⟨exact_allocated solid.exact positive found, solid.small, solid.faultFree⟩

/-- A free of blocks in use. -/
theorem run_blockFree (solid : state.Solid uuid layout) {n start : Nat} (positive : 0 < n)
    (inside : start + n ≤ layout.capacityBlocks)
    (taken : ∀ lba, start ≤ lba → lba < start + n → state.taken lba = true) :
    (blockFree start n).run state = (.ok (), state.freed start n) ∧
      (state.freed start n).Solid uuid layout := by
  have bound := solid.exact.capacity_lt
  have unwrapped : start + n < 2 ^ 64 := by omega
  have accepted : FreeAccepted state.mount start n := by
    refine ⟨by omega, ?_, fun index below => ?_⟩
    · rw [solid.exact.records.deviceCapacityBlocks, Nat.mod_eq_of_lt unwrapped]
      exact inside
    · rw [Nat.mod_eq_of_lt (by omega)]
      exact taken _ (by omega) (by omega)
  have freed := solid.exact.free_ok accepted unwrapped
  have later := solid.exact.free (show IoOutcome.ok.Atomic from trivial) unwrapped
  rw [freed] at later
  refine ⟨?_, later, solid.small, solid.faultFree⟩
  simp only [blockFree, run_of, solid.next_eq, freed, FsState.freed]

/-- The pages of a marked run are the only blocks an allocation writes. -/
theorem allocated_writes (solid : state.Solid uuid layout) {n start : Nat} (positive : 0 < n)
    (inside : start + n ≤ layout.capacityBlocks) :
    ∃ writes, (state.allocated start n).disk = state.disk.push writes ∧
      ∀ write ∈ writes, InBitmap layout write.1 :=
  ⟨_, rfl, pageWrites_inBitmap solid.sound (by exact solid.exact.records) positive inside⟩

theorem freed_writes (solid : state.Solid uuid layout) {n start : Nat} (positive : 0 < n)
    (inside : start + n ≤ layout.capacityBlocks) :
    ∃ writes, (state.freed start n).disk = state.disk.push writes ∧
      ∀ write ∈ writes, InBitmap layout write.1 :=
  ⟨_, rfl, pageWrites_inBitmap solid.sound (by exact solid.exact.records) positive inside⟩

/-- With the metadata bits set, the first free run lies in the data region. -/
theorem firstRun_inData (solid : state.Solid uuid layout)
    (guarded : ∀ lba < layout.capacityBlocks, lbaIsMetadata layout lba = true →
      state.taken lba = true)
    {n start : Nat} (positive : 0 < n)
    (found : firstRun state.taken n layout.capacityBlocks = some start) :
    layout.dataStartLba ≤ start ∧ start + n ≤ layout.allocRootsTailLba := by
  have records := solid.exact.records
  have allocated := congrArg Prod.fst (solid.exact.alloc_ok positive found)
  exact @Volume.Guarded.alloc_inside uuid layout state.toVolume ⟨solid.exact.sb, guarded⟩ records
    .ok n start allocated

end FsState.Solid

end MiniFs
