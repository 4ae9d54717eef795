import MiniFs.Lib.Tiling
import MiniFs.Nebula.FreshMount

/-!
# The partition of a device

The regions of a computed layout, and the ranges of the allocator roots, follow one another: the
first from block 0 to the capacity, the second over the data region.
-/

namespace MiniFs

open Tiling

/-- The regions of a layout, in the order of the device. -/
def NebulaLayout.regions (layout : NebulaLayout) : List (Nat × Nat) :=
  [(layout.mbrLba, 1), (layout.sbHeadLba, 1), (layout.uberblockLba, layout.uberblockCount),
    (layout.allocRootsHeadLba, 1), (layout.bitmapLba, layout.bitmapBlockCount),
    (layout.streamMapLba, layout.streamMapBlockCount),
    (layout.inodePageLba, layout.inodePageBlockCount),
    (layout.dirPageLba, layout.dirPageBlockCount), (layout.dataStartLba, layout.dataBlockCount),
    (layout.allocRootsTailLba, 1), (layout.sbTailLba, 1)]

theorem NebulaLayout.Sound.chained {layout : NebulaLayout} (sound : layout.Sound) :
    Chained 0 layout.regions layout.capacityBlocks := by
  have mbr := sound.mbr_eq
  have head := sound.sbHead_eq
  have uberblock := sound.uberblock_eq
  have slots := sound.uberblockCount_eq
  have roots := sound.allocRootsHead_eq
  have bitmap := sound.bitmap_eq
  have stream := sound.streamMap_eq
  have inode := sound.inode_eq
  have dir := sound.dir_eq
  have data := sound.dataStart_eq
  have count := sound.dataCount_eq
  have tail := sound.allocRootsTail_eq
  have last := sound.sbTail_eq
  simp only [NebulaLayout.regions, Chained]
  omega

/-- The allocator roots in the blocks of write requests. -/
def writtenRoots (requests : List WriteRequest) : List NebulaAllocatorRoot :=
  requests.flatMap fun request => request.2.flatMap fun block =>
    List.ofFn (allocatorRootsLayout.symm block)

/-- The range of an allocator root. -/
def NebulaAllocatorRoot.range (root : NebulaAllocatorRoot) : Nat × Nat :=
  (root.rangeStartBlock.toNat, root.rangeEndBlock.toNat - root.rangeStartBlock.toNat)

theorem writtenRoots_init (layout : NebulaLayout) :
    writtenRoots (nebulaAllocatorRootsInit layout) = (List.range 128).map (formatRoot layout) := by
  simp only [writtenRoots, nebulaAllocatorRootsInit, List.flatMap_cons, List.flatMap_nil,
    List.append_nil, Equiv.symm_apply_apply]
  rw [List.ofFn_val, List.ofFn_val 64 fun index => formatRoot layout (64 + index),
    show List.range 128 = List.range 64 ++ (List.range 64).map (64 + ·) from @List.range_add 64 64,
    List.map_append, List.map_map]
  rfl

/-- Where the roots meet: the shares are equal, and the last root ends with the region. -/
def rootBoundary (layout : NebulaLayout) (id : Nat) : Nat :=
  if id = 128 then layout.allocRootsTailLba
  else layout.dataStartLba + id * ((layout.allocRootsTailLba - layout.dataStartLba) / 128)

section Roots

variable {layout : NebulaLayout}

theorem rootBoundary_le (sound : layout.Sound) {id : Nat} (inside : id < 128) :
    rootBoundary layout id ≤ rootBoundary layout (id + 1) := by
  have room := sound.data_room
  have share := Nat.div_mul_le_self (layout.allocRootsTailLba - layout.dataStartLba) 128
  generalize quotient : (layout.allocRootsTailLba - layout.dataStartLba) / 128 = per at share
  have upTo : id * per ≤ 127 * per := Nat.mul_le_mul_right per (by omega)
  rw [rootBoundary, rootBoundary, quotient, if_neg (by omega)]
  split_ifs with last
  · omega
  · rw [Nat.add_mul, Nat.one_mul]
    omega

/-- The numbers of a root are those of its range, in 64 bits. -/
theorem formatRoot_range (sound : layout.Sound) (bound : layout.capacityBlocks < 2 ^ 52) {id : Nat}
    (inside : id < 128) :
    (formatRoot layout id).rangeStartBlock.toNat = rootBoundary layout id ∧
      (formatRoot layout id).rangeEndBlock.toNat = rootBoundary layout (id + 1) ∧
      (formatRoot layout id).freeBlockCount.toNat =
        rootBoundary layout (id + 1) - rootBoundary layout id := by
  have tail := sound.allocRootsTail_eq
  have room := sound.data_room
  have share := Nat.div_mul_le_self (layout.allocRootsTailLba - layout.dataStartLba) 128
  have start : layout.dataStartLba + id * ((layout.allocRootsTailLba - layout.dataStartLba) / 128) =
      rootBoundary layout id := by
    rw [rootBoundary, if_neg (by omega)]
  have finish : (if id = 127 then layout.allocRootsTailLba else layout.dataStartLba +
      (id + 1) * ((layout.allocRootsTailLba - layout.dataStartLba) / 128)) =
      rootBoundary layout (id + 1) := by
    rw [rootBoundary]
    simp only [Nat.reduceEqDiff]
  have top : rootBoundary layout (id + 1) ≤ layout.allocRootsTailLba := by
    rw [rootBoundary]
    split_ifs with last
    · exact le_rfl
    · have upTo : (id + 1) * ((layout.allocRootsTailLba - layout.dataStartLba) / 128) ≤
          128 * ((layout.allocRootsTailLba - layout.dataStartLba) / 128) :=
        Nat.mul_le_mul_right _ (by omega)
      omega
  have order := rootBoundary_le sound inside
  have small : ∀ {number : Nat}, number ≤ layout.allocRootsTailLba →
      (UInt64.ofNat number).toNat = number := fun {number} below =>
    UInt64.toNat_ofNat_of_lt (show number < 2 ^ 64 by omega)
  simp only [formatRoot, start, finish]
  exact ⟨small (by omega), small top, small (by omega)⟩

theorem roots_chained (sound : layout.Sound) (bound : layout.capacityBlocks < 2 ^ 52) :
    Chained layout.dataStartLba
      ((writtenRoots (nebulaAllocatorRootsInit layout)).map NebulaAllocatorRoot.range)
      layout.allocRootsTailLba := by
  have steps := @chained_steps (rootBoundary layout) 128 0 fun id _ inside =>
    rootBoundary_le sound (by omega)
  have first : rootBoundary layout 0 = layout.dataStartLba := by simp [rootBoundary]
  have last : rootBoundary layout (0 + 128) = layout.allocRootsTailLba := by simp [rootBoundary]
  rw [first, last, ← List.range_eq_range'] at steps
  rw [writtenRoots_init, List.map_map]
  convert steps using 1
  apply List.map_congr_left
  intro id member
  obtain ⟨start, finish, -⟩ := formatRoot_range sound bound (List.mem_range.mp member)
  simp only [Function.comp_apply, NebulaAllocatorRoot.range, start, finish]

end Roots

/-- Every capacity from 256 MiB on has a layout, whose regions partition the device, with a data
region and just enough bitmap pages, and whose allocator roots partition the data region. -/
theorem layout_partitions_device {capacityBlocks inodeSize : Nat} (large : 65536 ≤ capacityBlocks)
    (bound : capacityBlocks < 2 ^ 52) (size : inodeSize = 4096 ∨ inodeSize = 8192) :
    ∃ layout, nebulaLayoutComputeEx capacityBlocks inodeSize = .ok layout ∧
      Partitions 0 layout.regions capacityBlocks ∧ 0 < layout.dataBlockCount ∧
      IsLeast {pages | capacityBlocks ≤ pages * bitmapBitsPerPage} layout.bitmapBlockCount ∧
      (writtenRoots (nebulaAllocatorRootsInit layout)).length = 128 ∧
      Partitions layout.dataStartLba
        ((writtenRoots (nebulaAllocatorRootsInit layout)).map NebulaAllocatorRoot.range)
        (layout.dataStartLba + layout.dataBlockCount) ∧
      ∀ root ∈ writtenRoots (nebulaAllocatorRootsInit layout),
        root.freeBlockCount.toNat = root.rangeEndBlock.toNat - root.rangeStartBlock.toNat := by
  obtain ⟨layout, computed⟩ := nebulaLayoutComputeEx_ok large bound size
  obtain ⟨sound, capacity, -⟩ := nebulaLayoutComputeEx_sound bound computed
  have room := sound.data_room
  have count := sound.dataCount_eq
  have covers := sound.bitmap_covers
  have tight := sound.bitmap_tight
  refine ⟨layout, computed, capacity ▸ sound.chained.partitions, by omega, ⟨?_, ?_⟩, ?_, ?_, ?_⟩
  · show capacityBlocks ≤ layout.bitmapBlockCount * 32768
    omega
  · intro pages enough
    have enough : capacityBlocks ≤ pages * 32768 := enough
    omega
  · rw [writtenRoots_init, List.length_map, List.length_range]
  · rw [Nat.add_comm, count]
    exact (roots_chained sound (capacity ▸ bound)).partitions
  · intro root member
    rw [writtenRoots_init, List.mem_map] at member
    obtain ⟨id, inside, rfl⟩ := member
    obtain ⟨start, finish, free⟩ :=
      formatRoot_range sound (capacity ▸ bound) (List.mem_range.mp inside)
    rw [start, finish, free]

/-- The smallest device, with inodes of 4 KiB. -/
theorem layout_partitions_smallest : ∃ layout, nebulaLayoutComputeEx 65536 4096 = .ok layout ∧
    Partitions 0 layout.regions 65536 := by
  obtain ⟨layout, computed, partitions, -⟩ :=
    layout_partitions_device le_rfl (show 65536 < 2 ^ 52 by decide) (.inl rfl : 4096 = 4096 ∨ _)
  exact ⟨layout, computed, partitions⟩

end MiniFs
