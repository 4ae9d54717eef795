import MiniFs.Nebula.Io

/-!
# Device layout

The region boundaries of a formatted device, computed from its capacity.  The regions follow one
another without gaps: head metadata, bitmap, stream map, inodes, directory, data, and two tail
blocks.
-/

namespace MiniFs

/-- `struct nebula_layout`. -/
structure NebulaLayout where
  capacityBlocks : Nat
  inodeSize : Nat
  mbrLba : Nat
  sbHeadLba : Nat
  uberblockLba : Nat
  uberblockCount : Nat
  allocRootsHeadLba : Nat
  bitmapLba : Nat
  bitmapBlockCount : Nat
  streamMapLba : Nat
  streamMapBlockCount : Nat
  inodePageLba : Nat
  inodePageBlockCount : Nat
  dirPageLba : Nat
  dirPageBlockCount : Nat
  dataStartLba : Nat
  dataBlockCount : Nat
  allocRootsTailLba : Nat
  sbTailLba : Nat
  deriving DecidableEq, Repr

/-- `NEBULA_BITMAP_BITS_PER_PAGE`. -/
abbrev bitmapBitsPerPage : Nat := 32768

/-- `div_ceil`, in 64 bits. -/
def divCeil (a b : Nat) : Nat := (a + b - 1) % 2 ^ 64 / b

/-- `clamp_u64`. -/
def clampU64 (value low high : Nat) : Nat :=
  if value < low then low else if high < value then high else value

theorem divCeil_pages {capacityBlocks : Nat} (bound : capacityBlocks < 2 ^ 52) :
    divCeil capacityBlocks bitmapBitsPerPage = (capacityBlocks + 32767) / 32768 := by
  rw [divCeil, Nat.mod_eq_of_lt (by simp only [bitmapBitsPerPage]; omega)]
  rfl

theorem clampU64_inodes (wanted : Nat) :
    clampU64 wanted 8192 32768 = max 8192 (min wanted 32768) := by
  simp only [clampU64]
  split_ifs <;> omega

/-- `nebula_layout_compute_ex`. -/
def nebulaLayoutComputeEx (capacityBlocks inodeSize : Nat) : Except Errno NebulaLayout :=
  if capacityBlocks < 65536 then .error .EINVAL
  else if inodeSize ≠ 4096 ∧ inodeSize ≠ 8192 then .error .EINVAL
  else
    let bitmapLba := 131
    let bitmapBlockCount := divCeil capacityBlocks bitmapBitsPerPage
    let streamMapLba := bitmapLba + bitmapBlockCount
    let streamMapBlockCount := 256
    let inodePageBlockCount := clampU64 (capacityBlocks / 8) 8192 32768
    let inodePageLba := streamMapLba + streamMapBlockCount
    let dirPageBlockCount := inodePageBlockCount
    let dirPageLba := inodePageLba + inodePageBlockCount
    let cursor := dirPageLba + dirPageBlockCount
    if capacityBlocks < cursor + 2 then .error .EINVAL
    else
      .ok
        { capacityBlocks, inodeSize
          mbrLba := 0
          sbHeadLba := 1
          uberblockLba := 2
          uberblockCount := 128
          allocRootsHeadLba := 130
          bitmapLba, bitmapBlockCount, streamMapLba, streamMapBlockCount
          inodePageLba, inodePageBlockCount, dirPageLba, dirPageBlockCount
          dataStartLba := cursor
          dataBlockCount := capacityBlocks - 2 - cursor
          allocRootsTailLba := capacityBlocks - 2
          sbTailLba := capacityBlocks - 1 }

/-- The arithmetic facts about a computed layout that the rest of the development uses. -/
structure NebulaLayout.Sound (layout : NebulaLayout) : Prop where
  inodeSize_eq : layout.inodeSize = 4096 ∨ layout.inodeSize = 8192
  capacity_ge : 65536 ≤ layout.capacityBlocks
  mbr_eq : layout.mbrLba = 0
  sbHead_eq : layout.sbHeadLba = 1
  uberblock_eq : layout.uberblockLba = 2
  uberblockCount_eq : layout.uberblockCount = 128
  allocRootsHead_eq : layout.allocRootsHeadLba = 130
  bitmap_eq : layout.bitmapLba = 131
  bitmap_covers : layout.capacityBlocks ≤ layout.bitmapBlockCount * 32768
  bitmap_tight : layout.bitmapBlockCount * 32768 < layout.capacityBlocks + 32768
  streamMap_eq : layout.streamMapLba = layout.bitmapLba + layout.bitmapBlockCount
  streamMapCount_eq : layout.streamMapBlockCount = 256
  inode_eq : layout.inodePageLba = layout.streamMapLba + layout.streamMapBlockCount
  inodeCount_ge : 8192 ≤ layout.inodePageBlockCount
  inodeCount_le : layout.inodePageBlockCount ≤ 32768
  dir_eq : layout.dirPageLba = layout.inodePageLba + layout.inodePageBlockCount
  dirCount_eq : layout.dirPageBlockCount = layout.inodePageBlockCount
  dataStart_eq : layout.dataStartLba = layout.dirPageLba + layout.dirPageBlockCount
  data_room : layout.dataStartLba + 16384 ≤ layout.allocRootsTailLba
  dataCount_eq : layout.dataBlockCount + layout.dataStartLba = layout.allocRootsTailLba
  allocRootsTail_eq : layout.allocRootsTailLba + 2 = layout.capacityBlocks
  sbTail_eq : layout.sbTailLba + 1 = layout.capacityBlocks

/-- Every accepted capacity leaves a data region of at least one 64 MiB chunk. -/
theorem nebulaLayoutComputeEx_sound {capacityBlocks inodeSize : Nat} {layout : NebulaLayout}
    (bound : capacityBlocks < 2 ^ 52)
    (computed : nebulaLayoutComputeEx capacityBlocks inodeSize = .ok layout) :
    layout.Sound ∧ layout.capacityBlocks = capacityBlocks ∧ layout.inodeSize = inodeSize := by
  simp only [nebulaLayoutComputeEx] at computed
  split_ifs at computed with small size room
  have sizes : inodeSize = 4096 ∨ inodeSize = 8192 := by
    rcases Nat.decEq inodeSize 4096 with different | same
    · rcases Nat.decEq inodeSize 8192 with other | same
      · exact absurd ⟨different, other⟩ size
      · exact .inr same
    · exact .inl same
  rw [divCeil_pages bound, clampU64_inodes] at computed room
  simp only [Except.ok.injEq] at computed
  subst computed
  refine ⟨?_, rfl, rfl⟩
  constructor <;> first | rfl | exact sizes | (simp only []; omega)

/-- Every capacity from 256 MiB on has a layout. -/
theorem nebulaLayoutComputeEx_ok {capacityBlocks inodeSize : Nat} (large : 65536 ≤ capacityBlocks)
    (bound : capacityBlocks < 2 ^ 52) (size : inodeSize = 4096 ∨ inodeSize = 8192) :
    ∃ layout, nebulaLayoutComputeEx capacityBlocks inodeSize = .ok layout := by
  simp only [nebulaLayoutComputeEx]
  rw [divCeil_pages bound, clampU64_inodes, if_neg (by omega), if_neg (by omega), if_neg (by omega)]
  exact ⟨_, rfl⟩

end MiniFs
