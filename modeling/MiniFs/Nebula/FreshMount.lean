import MiniFs.Nebula.Mkfs

/-!
# Mounting a fresh device

A mount right after formatting sees the computed layout, finds exactly the data region free, and
agrees with the allocator roots about how much that is.  It does not depend on the head copy of the
superblock.
-/

namespace MiniFs

/-- `nebula_hbm_total_free`. -/
def nebulaHbmTotalFree (bitmap : HierBitmap) : UInt64 := bitmap.l2TotalFree

/-- `nebula_allocator_roots_read`. -/
def nebulaAllocatorRootsRead (disk : Disk) (lba : Nat) :
    Except Errno (Fin 64 → NebulaAllocatorRoot) :=
  (readBlock disk lba).map allocatorRootsLayout.symm

/-- The sum of `free_block_count` over allocator roots. -/
def rootsTotalFree (roots : List NebulaAllocatorRoot) : UInt64 :=
  roots.foldl (fun total root => total + root.freeBlockCount) 0

/-- The superblock records the layout. -/
structure NebulaSuperblock.Records (sb : NebulaSuperblock) (uuid : Bytes 16)
    (layout : NebulaLayout) :
    Prop where
  deviceUuid : sb.deviceUuid = uuid
  inodeSize : sb.inodeSize.toNat = layout.inodeSize
  deviceCapacityBlocks : sb.deviceCapacityBlocks.toNat = layout.capacityBlocks
  uberblockLba : sb.uberblockLba.toNat = layout.uberblockLba
  uberblockCount : sb.uberblockCount.toNat = layout.uberblockCount
  allocRootsHeadLba : sb.allocRootsHeadLba.toNat = layout.allocRootsHeadLba
  allocRootsTailLba : sb.allocRootsTailLba.toNat = layout.allocRootsTailLba
  bitmapLba : sb.bitmapLba.toNat = layout.bitmapLba
  bitmapBlockCount : sb.bitmapBlockCount.toNat = layout.bitmapBlockCount
  streamMapLba : sb.streamMapLba.toNat = layout.streamMapLba
  streamMapBlockCount : sb.streamMapBlockCount.toNat = layout.streamMapBlockCount
  inodePageLba : sb.inodePageLba.toNat = layout.inodePageLba
  inodePageBlockCount : sb.inodePageBlockCount.toNat = layout.inodePageBlockCount
  dirPageLba : sb.dirPageLba.toNat = layout.dirPageLba
  dirPageBlockCount : sb.dirPageBlockCount.toNat = layout.dirPageBlockCount
  dataStartLba : sb.dataStartLba.toNat = layout.dataStartLba
  dataBlockCount : sb.dataBlockCount.toNat = layout.dataBlockCount
  sbTailLba : sb.sbTailLba.toNat = layout.sbTailLba

section Fresh

variable {options : FormatOptions} {layout : NebulaLayout}

theorem formatSuperblock_records (sound : layout.Sound) (bound : layout.capacityBlocks < 2 ^ 52)
    (uuid : Bytes 16) : (formatSuperblock uuid layout).Records uuid layout := by
  have size := sound.inodeSize_eq
  have uber := sound.uberblock_eq
  have ubers := sound.uberblockCount_eq
  have roots := sound.allocRootsHead_eq
  have bitmap := sound.bitmap_eq
  have tight := sound.bitmap_tight
  have stream := sound.streamMap_eq
  have streams := sound.streamMapCount_eq
  have inode := sound.inode_eq
  have inodes := sound.inodeCount_le
  have dir := sound.dir_eq
  have dirs := sound.dirCount_eq
  have data := sound.dataStart_eq
  have count := sound.dataCount_eq
  have room := sound.data_room
  have tail := sound.allocRootsTail_eq
  have last := sound.sbTail_eq
  constructor
  · rfl
  · simp only [formatSuperblock, UInt32.toNat_ofNat']
    rw [if_pos (by omega)]
    exact Nat.mod_eq_of_lt (by omega)
  all_goals
    simp only [formatSuperblock, UInt64.toNat_ofNat', UInt32.toNat_ofNat']
    apply Nat.mod_eq_of_lt
    omega

/-- An interval of an initial segment counts its length. -/
theorem count_interval {start stop n : Nat} (order : start ≤ stop) (inside : stop ≤ n) :
    Nat.count (fun k => start ≤ k ∧ k < stop) n = stop - start := by
  have removed := @Nat.count_remove_interval (fun _ => True)
    (fun k => ¬ (start ≤ k ∧ k < start + (stop - start))) _ _ start (stop - start) n (by omega)
    (by simp) (by simp)
  have complement := Nat.count_add_count_not (fun k => start ≤ k ∧ k < stop) n
  have whole : Nat.count (fun _ => True) n = n := by simp
  rw [whole] at removed
  simp only [Nat.add_sub_cancel' order] at removed
  omega

/-- The free bits of a freshly formatted bitmap are those of the data region. -/
theorem freeBelow_formatBitmap (sound : layout.Sound) {bits : Nat → Block}
    (loaded : ∀ index < layout.capacityBlocks, bitGet bits index = lbaIsMetadata layout index) :
    freeBelow bits layout.capacityBlocks = layout.dataBlockCount := by
  have tail := sound.allocRootsTail_eq
  have count := sound.dataCount_eq
  have room := sound.data_room
  have same : freeBelow bits layout.capacityBlocks = Nat.count
      (fun index => layout.dataStartLba ≤ index ∧ index < layout.allocRootsTailLba)
      layout.capacityBlocks := by
    apply Nat.count_congr
    intro index inside
    rw [loaded index inside, lbaIsMetadata]
    simp only [Bool.or_eq_false_iff, decide_eq_false_iff_not]
    omega
  rw [same, count_interval (by omega) (by omega)]
  omega

/-- What a fresh mount has loaded. -/
theorem Mountable.Mounted.fresh_l0Bits {disk : Disk} {mount : NebulaMount}
    (mounted : Mountable.Mounted options layout disk mount)
    (formatted : ∀ page < layout.bitmapBlockCount,
      disk.content (layout.bitmapLba + page) = formatBitmap layout page) {index : Nat}
    (inside : index < layout.bitmapBlockCount * 32768) :
    bitGet mount.bitmap.l0Bits index =
      (decide (index < layout.capacityBlocks) && lbaIsMetadata layout index) := by
  have page : index / 32768 < layout.bitmapBlockCount := by omega
  rw [← bitGet_formatBitmap]
  exact bitGet_congr (by rw [mounted.l0Bits _ page, formatted _ page])

theorem Mountable.Mounted.fresh_totalFree {disk : Disk} {mount : NebulaMount} (sound : layout.Sound)
    (mounted : Mountable.Mounted options layout disk mount)
    (formatted : ∀ page < layout.bitmapBlockCount,
      disk.content (layout.bitmapLba + page) = formatBitmap layout page) :
    nebulaHbmTotalFree mount.bitmap = UInt64.ofNat layout.dataBlockCount := by
  have covers := sound.bitmap_covers
  rw [nebulaHbmTotalFree, mounted.l2TotalFree, hbmSummaries_total, min_eq_right covers,
    freeBelow_formatBitmap sound]
  · intro index inside
    rw [mounted.fresh_l0Bits formatted (by omega), decide_eq_true inside, Bool.true_and]
  · intro index beyond inside
    rw [mounted.fresh_l0Bits formatted inside, decide_eq_false (by omega), Bool.false_and]

theorem List.ofFn_val {α : Type} (n : Nat) (f : Nat → α) :
    (List.ofFn fun index : Fin n => f index) = (List.range n).map f := by
  apply List.ext_getElem
  · simp
  · simp

theorem rootsTotalFree_append (first second : List NebulaAllocatorRoot) :
    rootsTotalFree (first ++ second) = second.foldl (fun total root => total + root.freeBlockCount)
      (rootsTotalFree first) :=
  List.foldl_append

/-- The roots but the last share equally, and the last one takes the rest. -/
theorem rootsTotalFree_format (sound : layout.Sound) :
    rootsTotalFree ((List.range 128).map (formatRoot layout)) =
      UInt64.ofNat layout.dataBlockCount := by
  have room := sound.data_room
  have count := sound.dataCount_eq
  have shares : ∀ k ≤ 127, rootsTotalFree ((List.range k).map (formatRoot layout)) =
      UInt64.ofNat (k * ((layout.allocRootsTailLba - layout.dataStartLba) / 128)) := by
    intro k
    induction k with
    | zero => simp [rootsTotalFree]
    | succ k ih =>
        intro inside
        rw [List.range_succ, List.map_append, rootsTotalFree_append, ih (by omega), Nat.succ_mul,
          UInt64.ofNat_add]
        simp only [List.map_cons, List.map_nil, List.foldl_cons, List.foldl_nil, formatRoot]
        rw [if_neg (by omega), Nat.succ_mul, ← Nat.add_assoc, Nat.add_sub_cancel_left]
  rw [show List.range 128 = List.range 127 ++ [127] from List.range_succ, List.map_append,
    rootsTotalFree_append, shares 127 le_rfl]
  simp only [List.map_cons, List.map_nil, List.foldl_cons, List.foldl_nil, formatRoot, if_true]
  rw [← UInt64.ofNat_add]
  congr 1
  omega

theorem nebulaSuperblockRead_format {disk : Disk} {lba : Nat} (inside : lba < disk.capacityBlocks)
    {uuid : Bytes 16}
    (content : disk.content lba = NebulaSuperblock.layout (formatSuperblock uuid layout)) :
    nebulaSuperblockRead disk lba = .ok (formatSuperblock uuid layout) := by
  rw [nebulaSuperblockRead, readBlock_eq inside, content]
  simp only [Equiv.symm_apply_apply]
  rw [if_neg (by simp [formatSuperblock]),
    if_neg (by simp [formatSuperblock, nebulaSuperblockChecksum])]

theorem readBlock_congr {disk damaged : Disk}
    (capacity : damaged.capacityBlocks = disk.capacityBlocks) {lba : Nat}
    (same : damaged.content lba = disk.content lba) :
    readBlock damaged lba = readBlock disk lba := by
  simp only [readBlock, nebulaIoRead, ioRange, capacity, List.range_one, List.map_cons,
    List.map_nil, Nat.add_zero, same]

theorem nebulaUberblockReadSlot_congr {disk damaged : Disk}
    (capacity : damaged.capacityBlocks = disk.capacityBlocks) {slot : Nat}
    (same : slot < 128 → damaged.content (2 + slot) = disk.content (2 + slot)) :
    nebulaUberblockReadSlot damaged 2 128 slot = nebulaUberblockReadSlot disk 2 128 slot := by
  rw [nebulaUberblockReadSlot, nebulaUberblockReadSlot]
  split_ifs with beyond
  · rfl
  · have small : (2 + slot) % 2 ^ 64 = 2 + slot := Nat.mod_eq_of_lt (by omega)
    rw [small, readBlock_congr capacity (same (by omega))]

/-- The uberblock search reads the uberblock slots only. -/
theorem pickLatestUberblock_congr {disk damaged : Disk} {sb : NebulaSuperblock}
    (lba : sb.uberblockLba.toNat = 2) (count : sb.uberblockCount.toNat = 128)
    (capacity : damaged.capacityBlocks = disk.capacityBlocks)
    (same : ∀ slot < 128, damaged.content (2 + slot) = disk.content (2 + slot)) :
    pickLatestUberblock damaged sb = pickLatestUberblock disk sb := by
  have step : betterUberblock damaged sb = betterUberblock disk sb := by
    funext best slot
    rw [betterUberblock, betterUberblock, lba, count,
      nebulaUberblockReadSlot_congr capacity (same slot)]
  rw [pickLatestUberblock, pickLatestUberblock, step]

theorem nebulaHbmLoad_congr {heap : Nat → Block} {disk damaged : Disk} {lba count total : Nat}
    (capacity : damaged.capacityBlocks = disk.capacityBlocks)
    (same : ∀ page < count % 2 ^ 32, damaged.content (lba + page) = disk.content (lba + page)) :
    nebulaHbmLoad heap damaged lba count total = nebulaHbmLoad heap disk lba count total := by
  have read : nebulaIoRead .ok damaged lba (count % 2 ^ 32) =
      nebulaIoRead .ok disk lba (count % 2 ^ 32) := by
    have pages : (List.range (count % 2 ^ 32)).map (fun page => damaged.content (lba + page)) =
        (List.range (count % 2 ^ 32)).map fun page => disk.content (lba + page) := by
      apply List.map_congr_left
      intro page inside
      exact same page (List.mem_range.mp inside)
    simp only [nebulaIoRead, ioRange, capacity, pages]
  rw [nebulaHbmLoad, nebulaHbmLoad, read]

/-- A mount does not depend on the head superblock, as long as that is recognisably bad. -/
theorem nebulaMountDo_of_bad_head {disk damaged : Disk} {mount : NebulaMount} {heap : Nat → Block}
    (mountable : Mountable options layout disk)
    (tail : disk.content layout.sbTailLba =
      NebulaSuperblock.layout (formatSuperblock options.uuid layout))
    (capacity : damaged.capacityBlocks = disk.capacityBlocks)
    (same : ∀ lba, lba ≠ 1 → damaged.content lba = disk.content lba)
    (bad : ∃ error, nebulaSuperblockRead damaged 1 = .error error)
    (mounts : nebulaMountDo heap disk = .ok mount) : nebulaMountDo heap damaged = .ok mount := by
  have sound := mountable.sound
  have large := mountable.large
  have total := mountable.capacity
  have last := sound.sbTail_eq
  have bitmap := sound.bitmap_eq
  obtain ⟨-, slots, slotCount, pages, pageCount, -⟩ := mountable.superblock_toNat rfl
  obtain ⟨error, rejected⟩ := bad
  have mbr : nebulaMbrRead damaged = nebulaMbrRead disk := by
    rw [nebulaMbrRead, nebulaMbrRead, readBlock_congr capacity (same 0 (by decide))]
  have tailRead : nebulaSuperblockRead damaged (damaged.capacityBlocks - 1) =
      .ok (formatSuperblock options.uuid layout) := by
    apply nebulaSuperblockRead_format (by omega)
    rw [capacity, show disk.capacityBlocks - 1 = layout.sbTailLba by omega, same _ (by omega)]
    exact tail
  have superblock : mountSuperblock damaged (formatMbr options.uuid layout.capacityBlocks) =
      .ok (formatSuperblock options.uuid layout) := by
    have head : (formatMbr options.uuid layout.capacityBlocks).superblockHeadLba.toNat = 1 := rfl
    simp only [mountSuperblock, head, rejected, tailRead]
  have uberblock := pickLatestUberblock_congr slots slotCount capacity
    fun slot _ => same (2 + slot) (by omega)
  have load : ∀ total, nebulaHbmLoad heap damaged layout.bitmapLba layout.bitmapBlockCount total =
      nebulaHbmLoad heap disk layout.bitmapLba layout.bitmapBlockCount total := fun total =>
    nebulaHbmLoad_congr capacity fun page _ => same _ (by omega)
  rw [nebulaMountDo, mountable.nebulaMbrRead_eq] at mounts
  rw [nebulaMountDo, mbr, mountable.nebulaMbrRead_eq]
  simp only [mountable.mountSuperblock_eq, pages, pageCount] at mounts
  simp only [superblock, pages, pageCount, uberblock, load]
  exact mounts

end Fresh

/-- After formatting a device of at most `2 ^ 32` blocks, a mount succeeds; it sees the computed
layout, finds exactly the data region free, agrees with the allocator roots on its size, and stays
the same when the head superblock is replaced by anything its reader rejects. -/
theorem format_then_mount {options : FormatOptions} {raw disk : Disk}
    (small : raw.capacityBlocks ≤ 2 ^ 32) (done : nebulaFormat options raw = (.ok (), disk))
    (heap : Nat → Block) :
    ∃ layout mount head tail,
      nebulaLayoutComputeEx raw.capacityBlocks options.inodeSize = .ok layout ∧
      nebulaMountDo heap disk = .ok mount ∧ mount.sb.Records options.uuid layout ∧
      (∀ lba < raw.capacityBlocks, bitGet mount.bitmap.l0Bits lba = false ↔
        layout.dataStartLba ≤ lba ∧ lba < layout.allocRootsTailLba) ∧
      (nebulaHbmTotalFree mount.bitmap).toNat = layout.dataBlockCount ∧
      nebulaAllocatorRootsRead disk layout.allocRootsHeadLba = .ok head ∧
      nebulaAllocatorRootsRead disk layout.allocRootsTailLba = .ok tail ∧
      (rootsTotalFree (List.ofFn head ++ List.ofFn tail)).toNat = layout.dataBlockCount ∧
      ∀ damaged : Disk, damaged.capacityBlocks = disk.capacityBlocks →
        (∀ lba, lba ≠ 1 → damaged.content lba = disk.content lba) →
        (∃ error, nebulaSuperblockRead damaged 1 = .error error) →
        nebulaMountDo heap damaged = .ok mount := by
  cases computed : nebulaLayoutComputeEx raw.capacityBlocks options.inodeSize with
  | error error => simp [nebulaFormat, computed] at done
  | ok layout =>
      obtain ⟨sound, capacity, -⟩ := nebulaLayoutComputeEx_sound raw.capacity_lt computed
      rw [nebulaFormat_eq computed, Prod.mk.injEq] at done
      have content : disk.content =
          applyWrites raw.content (requestWrites (formatRequests options layout)) := by
        rw [← done.2, Disk.content_flush, Disk.content_push]
      have blocks : disk.capacityBlocks = layout.capacityBlocks := by
        rw [← done.2, capacity]
        rfl
      have formatted : Formatted options layout disk.content := by
        rw [content]
        exact formatted_of_requests sound
      have mountable := Mountable.of_formatted sound blocks formatted
      have tight := sound.bitmap_tight
      have covers := sound.bitmap_covers
      have room := sound.data_room
      have count := sound.dataCount_eq
      have tail := sound.allocRootsTail_eq
      have roots := sound.allocRootsHead_eq
      obtain ⟨mount, mounts, mounted⟩ := mountable.nebulaMountDo_ok heap (by omega)
      refine ⟨layout, mount, fun index => formatRoot layout index,
        fun index => formatRoot layout (64 + index), rfl, mounts, ?_, ?_, ?_, ?_, ?_, ?_, ?_⟩
      · rw [mounted.sb]
        exact formatSuperblock_records sound mountable.capacity_lt options.uuid
      · intro lba inside
        rw [mounted.fresh_l0Bits formatted.bitmap (by omega), decide_eq_true (by omega),
          Bool.true_and, lbaIsMetadata]
        simp only [Bool.or_eq_false_iff, decide_eq_false_iff_not]
        omega
      · rw [mounted.fresh_totalFree sound formatted.bitmap]
        exact Nat.mod_eq_of_lt (by omega)
      · rw [nebulaAllocatorRootsRead, roots, readBlock_eq (by omega), formatted.rootsHead]
        simp [Except.map]
      · rw [nebulaAllocatorRootsRead, readBlock_eq (by omega), formatted.rootsTail]
        simp [Except.map]
      · have listed : (List.ofFn fun index : Fin 64 => formatRoot layout index) ++
            (List.ofFn fun index : Fin 64 => formatRoot layout (64 + index)) =
            (List.range 128).map (formatRoot layout) := by
          rw [List.ofFn_val, List.ofFn_val 64 fun index => formatRoot layout (64 + index),
            show 128 = 64 + 64 from rfl, List.range_add, List.map_append, List.map_map]
          rfl
        rw [listed, rootsTotalFree_format sound]
        exact Nat.mod_eq_of_lt (by omega)
      · intro damaged damagedCapacity same bad
        exact nebulaMountDo_of_bad_head mountable formatted.sbTail damagedCapacity same bad mounts

/-- A device of zeros. -/
def zeroedDisk (capacityBlocks : Nat) (bound : capacityBlocks < 2 ^ 52) : Disk where
  capacityBlocks := capacityBlocks
  cells := ⟨fun _ => zeroBlock, []⟩
  capacity_lt := bound

/-- Format options with the default inode size. -/
def plainOptions : FormatOptions where
  inodeSize := 4096
  uuid := fun _ => 0
  uberblockNow := 0
  inodeNow := 0

/-- A device of zeros, formatted. -/
def plainDisk (capacityBlocks : Nat) (bound : capacityBlocks < 2 ^ 52) : Disk :=
  (nebulaFormat plainOptions (zeroedDisk capacityBlocks bound)).2

theorem nebulaFormat_zeroedDisk {capacityBlocks : Nat} (large : 65536 ≤ capacityBlocks)
    (bound : capacityBlocks < 2 ^ 52) :
    nebulaFormat plainOptions (zeroedDisk capacityBlocks bound) =
      (.ok (), plainDisk capacityBlocks bound) :=
  Prod.ext (nebulaFormat_ok large (.inl rfl)) rfl

theorem format_then_mount_plainDisk :
    (zeroedDisk 65536 (by decide)).capacityBlocks ≤ 2 ^ 32 ∧
      nebulaFormat plainOptions (zeroedDisk 65536 (by decide)) =
        (.ok (), plainDisk 65536 (by decide)) ∧
      ∃ mount, nebulaMountDo (fun _ => zeroBlock) (plainDisk 65536 (by decide)) = .ok mount := by
  have small : (zeroedDisk 65536 (by decide)).capacityBlocks ≤ 2 ^ 32 := by
    simp [zeroedDisk]
  have done := nebulaFormat_zeroedDisk le_rfl (show 65536 < 2 ^ 52 by decide)
  obtain ⟨-, mount, -, -, -, mounts, -⟩ := format_then_mount small done fun _ => zeroBlock
  exact ⟨small, done, mount, mounts⟩

end MiniFs
