import MiniFs.Nebula.Mount

/-!
# Formatting

Formatting writes every metadata region and never the data region, superblocks last, and ends with a
flush.  It issues its requests unconditionally one after another, so each of its stages is the list
of its requests.
-/

namespace MiniFs

/-- A write request: first block and contents. -/
abbrev WriteRequest : Type := Nat × List Block

/-- Issue requests in order up to the first that fails. -/
def issueAll (disk : Disk) : List WriteRequest → Except Errno Unit × Disk
  | [] => (.ok (), disk)
  | request :: rest =>
      match nebulaIoWrite .ok disk request.1 request.2 with
      | (.ok (), disk) => issueAll disk rest
      | (.error error, disk) => (.error error, disk)

/-- What `mkfs` is given, and what it takes from the clock. -/
structure FormatOptions where
  inodeSize : Nat
  uuid : Bytes 16
  uberblockNow : UInt64
  inodeNow : UInt64

/-- The record of `nebula_mbr_write`. -/
def formatMbr (uuid : Bytes 16) (capacityBlocks : Nat) : NebulaMbr :=
  let mbr : NebulaMbr :=
    { magic := magicMbr
      versionMajor := 1
      versionMinor := 0
      pad0 := 0
      deviceUuid := uuid
      deviceCapacityBlocks := UInt64.ofNat capacityBlocks
      superblockHeadLba := 1
      checksum := 0
      reserved := fun _ => 0 }
  { mbr with checksum := nebulaMbrChecksum mbr }

/-- `nebula_mbr_write`. -/
def nebulaMbrWrite (uuid : Bytes 16) (capacityBlocks : Nat) : List WriteRequest :=
  [(0, [NebulaMbr.layout (formatMbr uuid capacityBlocks)])]

/-- The record of slot 0 in `nebula_uberblock_init_region`. -/
def formatUberblock (layout : NebulaLayout) (now : UInt64) : NebulaUberblock :=
  let ub : NebulaUberblock :=
    { magic := magicUb
      txgId := 0
      timestampNs := now
      bitmapRootLba := UInt64.ofNat layout.bitmapLba
      streamMapLba := UInt64.ofNat layout.streamMapLba
      streamMapHeadOffset := 0
      allocRootsCount := 128
      checksum := 0
      reserved := fun _ => 0 }
  { ub with checksum := nebulaUberblockChecksum ub }

/-- `nebula_uberblock_init_region`. -/
def nebulaUberblockInitRegion (layout : NebulaLayout) (now : UInt64) : List WriteRequest :=
  ((List.range layout.uberblockCount).map fun slot => (layout.uberblockLba + slot, [zeroBlock])) ++
    [(layout.uberblockLba, [NebulaUberblock.layout (formatUberblock layout now)])]

/-- One record of `fill_roots`. -/
def formatRoot (layout : NebulaLayout) (id : Nat) : NebulaAllocatorRoot :=
  let dataStart := layout.dataStartLba
  let dataEnd := layout.allocRootsTailLba
  let perRoot := (dataEnd - dataStart) / 128
  let rangeStart := dataStart + id * perRoot
  let rangeEnd := if id = 127 then dataEnd else dataStart + (id + 1) * perRoot
  let root : NebulaAllocatorRoot :=
    { rootId := UInt32.ofNat id
      pad0 := 0
      rangeStartBlock := UInt64.ofNat rangeStart
      rangeEndBlock := UInt64.ofNat rangeEnd
      freeBlockCount := UInt64.ofNat (rangeEnd - rangeStart)
      lastAllocHint := UInt64.ofNat rangeStart
      bitmapRegionLba := UInt64.ofNat layout.bitmapLba
      streamMapRegionLba := UInt64.ofNat layout.streamMapLba
      checksum := 0
      reserved := fun _ => 0 }
  { root with checksum := nebulaAllocatorRootChecksum root }

/-- `nebula_allocator_roots_init`. -/
def nebulaAllocatorRootsInit (layout : NebulaLayout) : List WriteRequest :=
  [(layout.allocRootsHeadLba, [allocatorRootsLayout fun index => formatRoot layout index]),
    (layout.allocRootsTailLba, [allocatorRootsLayout fun index => formatRoot layout (64 + index)])]

/-- `write_zeros` and `zero_region`: zeros in batches of 64 blocks. -/
def writeZeros (lba n : Nat) : List WriteRequest :=
  if n = 0 then []
  else (lba, List.replicate (min n 64) zeroBlock) :: writeZeros (lba + min n 64) (n - min n 64)
termination_by n

/-- `lba_is_metadata`. -/
def lbaIsMetadata (layout : NebulaLayout) (lba : Nat) : Bool :=
  lba < layout.dataStartLba || layout.allocRootsTailLba ≤ lba

/-- The pages of `nebula_bitmap_init`: the bits of the metadata blocks. -/
def formatBitmap (layout : NebulaLayout) : Nat → Block := fun page =>
  (List.range (min (page * bitmapBitsPerPage + bitmapBitsPerPage) layout.capacityBlocks -
      page * bitmapBitsPerPage)).foldl
    (fun current bit =>
      if lbaIsMetadata layout (page * bitmapBitsPerPage + bit) then
        bitSet (fun _ => current) bit 0
      else current)
    zeroBlock

/-- `nebula_bitmap_init`. -/
def nebulaBitmapInit (layout : NebulaLayout) : List WriteRequest :=
  ((List.range layout.bitmapBlockCount).map fun page =>
    (layout.bitmapLba + page, [formatBitmap layout page])) ++
    writeZeros layout.streamMapLba layout.streamMapBlockCount

/-- The root inode of `nebula_inode_page_init`. -/
def formatRootInode (now : UInt64) : NebulaInode :=
  let inode : NebulaInode :=
    { NebulaInode.zero with
      magic := magicInode
      version := 1
      inodeNum := 0
      type := inodeTypeDir
      mode := 0o755
      sizeBytes := 0
      allocSizeBytes := 0
      atimeNs := now
      mtimeNs := now
      ctimeNs := now
      nlink := 1
      flags := 0 }
  { inode with checksum := nebulaInodeChecksum inode }

/-- `nebula_inode_page_init`. -/
def nebulaInodePageInit (layout : NebulaLayout) (now : UInt64) : List WriteRequest :=
  writeZeros layout.inodePageLba layout.inodePageBlockCount ++
    [(layout.inodePageLba, [NebulaInode.layout (formatRootInode now)])]

/-- The header of `nebula_dir_page_init`. -/
def formatDirHeader (layout : NebulaLayout) : DirPageHeader :=
  let header : DirPageHeader :=
    { magic := magicDirPage
      version := 1
      entrySize := 1024
      capacity := UInt64.ofNat ((layout.dirPageBlockCount - 1) * 4)
      numEntries := 1
      checksum := 0
      reserved := fun _ => 0 }
  { header with checksum := dirHeaderChecksum header }

/-- The entry of `nebula_dir_page_init` for the root directory. -/
def formatRootEntry : DirEntry :=
  { DirEntry.zero with
    hash := fnv1aHash [47]
    inodeNum := 0
    nameLen := 1
    flags := dirFlagUsed ||| dirFlagDir
    name := bytesOfList 1000 [47] }

/-- `nebula_dir_page_init`. -/
def nebulaDirPageInit (layout : NebulaLayout) : List WriteRequest :=
  writeZeros layout.dirPageLba layout.dirPageBlockCount ++
    [(layout.dirPageLba, [DirPageHeader.layout (formatDirHeader layout)]),
      (layout.dirPageLba + 1,
        [dirBlockLayout fun slot => if slot = 0 then formatRootEntry else .zero])]

/-- The record of `nebula_superblock_write_both`. -/
def formatSuperblock (uuid : Bytes 16) (layout : NebulaLayout) : NebulaSuperblock :=
  let sb : NebulaSuperblock :=
    { magic := magicSb
      versionMajor := 1
      versionMinor := 0
      inodeSize := UInt32.ofNat (if layout.inodeSize ≠ 0 then layout.inodeSize else 4096)
      deviceUuid := uuid
      deviceCapacityBlocks := UInt64.ofNat layout.capacityBlocks
      uberblockLba := UInt64.ofNat layout.uberblockLba
      uberblockCount := UInt32.ofNat layout.uberblockCount
      pad0 := 0
      allocRootsHeadLba := UInt64.ofNat layout.allocRootsHeadLba
      allocRootsTailLba := UInt64.ofNat layout.allocRootsTailLba
      bitmapLba := UInt64.ofNat layout.bitmapLba
      bitmapBlockCount := UInt64.ofNat layout.bitmapBlockCount
      streamMapLba := UInt64.ofNat layout.streamMapLba
      streamMapBlockCount := UInt64.ofNat layout.streamMapBlockCount
      inodePageLba := UInt64.ofNat layout.inodePageLba
      inodePageBlockCount := UInt64.ofNat layout.inodePageBlockCount
      dirPageLba := UInt64.ofNat layout.dirPageLba
      dirPageBlockCount := UInt64.ofNat layout.dirPageBlockCount
      dataStartLba := UInt64.ofNat layout.dataStartLba
      dataBlockCount := UInt64.ofNat layout.dataBlockCount
      sbTailLba := UInt64.ofNat layout.sbTailLba
      checksum := 0
      pad1 := 0
      reserved := fun _ => 0 }
  { sb with checksum := nebulaSuperblockChecksum sb }

/-- `nebula_superblock_write_both`. -/
def nebulaSuperblockWriteBoth (uuid : Bytes 16) (layout : NebulaLayout) : List WriteRequest :=
  [(layout.sbHeadLba, [NebulaSuperblock.layout (formatSuperblock uuid layout)]),
    (layout.sbTailLba, [NebulaSuperblock.layout (formatSuperblock uuid layout)])]

/-- The requests of `mkfs`, in order. -/
def formatRequests (options : FormatOptions) (layout : NebulaLayout) : List WriteRequest :=
  nebulaMbrWrite options.uuid layout.capacityBlocks ++
    nebulaUberblockInitRegion layout options.uberblockNow ++
    nebulaAllocatorRootsInit layout ++
    nebulaBitmapInit layout ++
    nebulaInodePageInit layout options.inodeNow ++
    nebulaDirPageInit layout ++
    nebulaSuperblockWriteBoth options.uuid layout

/-- `main` of `nebula_format`, on an open device. -/
def nebulaFormat (options : FormatOptions) (disk : Disk) : Except Errno Unit × Disk :=
  match nebulaLayoutComputeEx disk.capacityBlocks options.inodeSize with
  | .error error => (.error error, disk)
  | .ok layout =>
      match issueAll disk (formatRequests options layout) with
      | (.error error, disk) => (.error error, disk)
      | (.ok (), disk) => nebulaIoFlush .ok disk

/-! ## What formatting leaves on the device -/

/-- The block writes of requests. -/
def requestWrites (requests : List WriteRequest) : List (Nat × Block) :=
  requests.flatMap fun request => rangeWrites request.1 request.2

@[simp] theorem requestWrites_append (first second : List WriteRequest) :
    requestWrites (first ++ second) = requestWrites first ++ requestWrites second := by
  simp [requestWrites]

/-- Every request lies in `[low, high)`. -/
def RequestsWithin (low high : Nat) (requests : List WriteRequest) : Prop :=
  ∀ request ∈ requests, low ≤ request.1 ∧ request.1 + request.2.length ≤ high

theorem RequestsWithin.append {low high : Nat} {first second : List WriteRequest}
    (one : RequestsWithin low high first) (two : RequestsWithin low high second) :
    RequestsWithin low high (first ++ second) := by
  intro request member
  exact (List.mem_append.mp member).elim (one request) (two request)

theorem RequestsWithin.mono {low low' high high' : Nat} {requests : List WriteRequest}
    (within : RequestsWithin low high requests) (below : low' ≤ low) (above : high ≤ high') :
    RequestsWithin low' high' requests := fun request member =>
  ⟨below.trans (within request member).1, (within request member).2.trans above⟩

theorem issueAll_of_within {disk : Disk} {low : Nat} {requests : List WriteRequest}
    (within : RequestsWithin low disk.capacityBlocks requests) :
    issueAll disk requests = (.ok (), disk.push (requestWrites requests)) := by
  induction requests generalizing disk with
  | nil => simp [issueAll, requestWrites]
  | cons request rest ih =>
      have here := within request (.head _)
      have later : RequestsWithin low (disk.push (rangeWrites request.1 request.2)).capacityBlocks
          rest := fun other member => within other (.tail _ member)
      rw [issueAll, nebulaIoWrite_fault_free here.2]
      simp only [ih later]
      simp [requestWrites, Disk.push, WriteCache.push, List.append_assoc]

/-- Requests leave the blocks outside their range alone. -/
theorem applyWrites_of_within {base : Nat → Block} {low high cell : Nat}
    {requests : List WriteRequest} (within : RequestsWithin low high requests)
    (outside : cell < low ∨ high ≤ cell) :
    applyWrites base (requestWrites requests) cell = base cell := by
  apply applyWrites_of_not_mem
  intro write member
  obtain ⟨request, issued, inRequest⟩ := List.mem_flatMap.mp member
  have bounds := rangeWrites_bounds inRequest
  have range := within request issued
  omega

theorem writeZeros_within (lba n : Nat) : RequestsWithin lba (lba + n) (writeZeros lba n) := by
  induction lba, n using writeZeros.induct with
  | case1 lba =>
      rw [writeZeros, if_pos rfl]
      exact fun request member => nomatch member
  | case2 lba n some ih =>
      rw [writeZeros, if_neg some]
      intro request member
      rcases List.mem_cons.mp member with rfl | member
      · simp only [List.length_replicate]
        omega
      · have := ih request member
        omega

theorem applyWrites_writeZeros {base : Nat → Block} {lba n cell : Nat} (low : lba ≤ cell)
    (high : cell < lba + n) :
    applyWrites base (requestWrites (writeZeros lba n)) cell = zeroBlock := by
  induction lba, n using writeZeros.induct generalizing base with
  | case1 lba => omega
  | case2 lba n some ih =>
      rw [writeZeros, if_neg some]
      have split : requestWrites ((lba, List.replicate (min n 64) zeroBlock) ::
          writeZeros (lba + min n 64) (n - min n 64)) =
          rangeWrites lba (List.replicate (min n 64) zeroBlock) ++
            requestWrites (writeZeros (lba + min n 64) (n - min n 64)) := rfl
      rw [split, applyWrites_append]
      by_cases first : cell < lba + min n 64
      · rw [applyWrites_of_within (writeZeros_within _ _) (.inl first)]
        have inside : cell - lba < (List.replicate (min n 64) zeroBlock).length := by
          rw [List.length_replicate]
          omega
        have value := @applyWrites_rangeWrites_get _ base lba _ _ inside
        rw [Nat.add_sub_cancel' low] at value
        rw [value]
        simp
      · exact ih (by omega) (by omega)

/-- The requests that write one block for each index. -/
theorem blockRequests_within (lba n : Nat) (block : Nat → Block) :
    RequestsWithin lba (lba + n) ((List.range n).map fun index =>
      (lba + index, [block index])) := by
  intro request member
  obtain ⟨index, inside, rfl⟩ := List.mem_map.mp member
  rw [List.mem_range] at inside
  simp only [List.length_singleton]
  omega

theorem applyWrites_blockRequests {base : Nat → Block} {lba n index : Nat} (block : Nat → Block)
    (inside : index < n) :
    applyWrites base (requestWrites ((List.range n).map fun index => (lba + index, [block index])))
      (lba + index) = block index := by
  have member : ∀ write ∈ requestWrites
      ((List.range n).map fun index => (lba + index, [block index])),
      ∃ other < n, write = (lba + other, block other) := by
    intro write issued
    obtain ⟨request, listed, inRequest⟩ := List.mem_flatMap.mp issued
    obtain ⟨other, below, rfl⟩ := List.mem_map.mp listed
    refine ⟨other, List.mem_range.mp below, ?_⟩
    simpa [rangeWrites] using inRequest
  apply applyWrites_of_mem
  · refine ⟨(lba + index, block index), ?_, rfl⟩
    refine List.mem_flatMap.mpr ⟨(lba + index, [block index]), ?_, .head _⟩
    exact List.mem_map.mpr ⟨index, List.mem_range.mpr inside, rfl⟩
  · intro write issued here
    obtain ⟨other, _, rfl⟩ := member write issued
    rw [show other = index by simp only at here; omega]

/-- A single-block request. -/
theorem applyWrites_request {base : Nat → Block} {lba cell : Nat} {block : Block} :
    applyWrites base (requestWrites [(lba, [block])]) cell =
      if cell = lba then block else base cell := by
  simp [requestWrites, rangeWrites, Function.update_apply]

theorem requestWrites_cons (request : WriteRequest) (rest : List WriteRequest) :
    requestWrites (request :: rest) = requestWrites [request] ++ requestWrites rest := by
  simp [requestWrites]

/-- What a formatted device holds in its metadata regions. -/
structure Formatted (options : FormatOptions) (layout : NebulaLayout) (content : Nat → Block) :
    Prop where
  mbr : content 0 = NebulaMbr.layout (formatMbr options.uuid layout.capacityBlocks)
  sbHead : content 1 = NebulaSuperblock.layout (formatSuperblock options.uuid layout)
  uberblock : content 2 = NebulaUberblock.layout (formatUberblock layout options.uberblockNow)
  bitmap : ∀ page < layout.bitmapBlockCount,
    content (layout.bitmapLba + page) = formatBitmap layout page
  rootInode : content layout.inodePageLba = NebulaInode.layout (formatRootInode options.inodeNow)
  inodes : ∀ number, 0 < number → number < layout.inodePageBlockCount →
    content (layout.inodePageLba + number) = zeroBlock
  dirHeader : content layout.dirPageLba = DirPageHeader.layout (formatDirHeader layout)
  dirFirst : content (layout.dirPageLba + 1) =
    dirBlockLayout fun slot => if slot = 0 then formatRootEntry else .zero
  dirRest : ∀ block, 1 < block → block < layout.dirPageBlockCount →
    content (layout.dirPageLba + block) = zeroBlock
  sbTail : content layout.sbTailLba = NebulaSuperblock.layout (formatSuperblock options.uuid layout)
  slots : ∀ slot, 0 < slot → slot < 128 → content (2 + slot) = zeroBlock
  rootsHead : content 130 = allocatorRootsLayout fun index => formatRoot layout index
  rootsTail : content layout.allocRootsTailLba =
    allocatorRootsLayout fun index => formatRoot layout (64 + index)

section Formatted

variable {options : FormatOptions} {layout : NebulaLayout} {base : Nat → Block}

theorem nebulaUberblockInitRegion_within (sound : layout.Sound) (now : UInt64) :
    RequestsWithin 2 130 (nebulaUberblockInitRegion layout now) := by
  rw [nebulaUberblockInitRegion, sound.uberblock_eq, sound.uberblockCount_eq]
  exact (blockRequests_within 2 128 fun _ => zeroBlock).append (by simp [RequestsWithin])

theorem nebulaBitmapInit_within (sound : layout.Sound) :
    RequestsWithin layout.bitmapLba layout.inodePageLba (nebulaBitmapInit layout) := by
  have stream := sound.streamMap_eq
  have inode := sound.inode_eq
  exact ((blockRequests_within _ _ _).mono le_rfl (by omega)).append
    ((writeZeros_within _ _).mono (by omega) (by omega))

theorem nebulaInodePageInit_within (sound : layout.Sound) (now : UInt64) :
    RequestsWithin layout.inodePageLba layout.dirPageLba (nebulaInodePageInit layout now) := by
  have dir := sound.dir_eq
  have some := sound.inodeCount_ge
  refine ((writeZeros_within _ _).mono le_rfl (by omega)).append ?_
  simp only [RequestsWithin, List.mem_singleton, forall_eq, List.length_singleton]
  omega

theorem nebulaDirPageInit_within (sound : layout.Sound) :
    RequestsWithin layout.dirPageLba layout.dataStartLba (nebulaDirPageInit layout) := by
  have data := sound.dataStart_eq
  have same := sound.dirCount_eq
  have some := sound.inodeCount_ge
  refine ((writeZeros_within _ _).mono le_rfl (by omega)).append ?_
  simp only [RequestsWithin, List.mem_cons, List.not_mem_nil, or_false, forall_eq_or_imp, forall_eq,
    List.length_singleton]
  omega

/-- The superblock stage changes its two blocks only. -/
theorem applyWrites_superblocks (sound : layout.Sound) {cell : Nat} :
    applyWrites base (requestWrites (nebulaSuperblockWriteBoth options.uuid layout)) cell =
      if cell = layout.sbTailLba ∨ cell = 1 then
        NebulaSuperblock.layout (formatSuperblock options.uuid layout)
      else base cell := by
  rw [nebulaSuperblockWriteBoth, requestWrites_cons, applyWrites_append, applyWrites_request,
    applyWrites_request, sound.sbHead_eq]
  split_ifs <;> simp_all

/-- The allocator root stage changes its two blocks only. -/
theorem applyWrites_roots (sound : layout.Sound) {cell : Nat}
    (head : cell ≠ 130) (tail : cell ≠ layout.allocRootsTailLba) :
    applyWrites base (requestWrites (nebulaAllocatorRootsInit layout)) cell = base cell := by
  rw [nebulaAllocatorRootsInit, requestWrites_cons, applyWrites_append, applyWrites_request,
    applyWrites_request, sound.allocRootsHead_eq, if_neg tail, if_neg head]

/-- The device after all requests of a format. -/
theorem applyWrites_formatRequests (base : Nat → Block) :
    applyWrites base (requestWrites (formatRequests options layout)) =
      applyWrites (applyWrites (applyWrites (applyWrites (applyWrites (applyWrites (applyWrites base
        (requestWrites (nebulaMbrWrite options.uuid layout.capacityBlocks)))
        (requestWrites (nebulaUberblockInitRegion layout options.uberblockNow)))
        (requestWrites (nebulaAllocatorRootsInit layout)))
        (requestWrites (nebulaBitmapInit layout)))
        (requestWrites (nebulaInodePageInit layout options.inodeNow)))
        (requestWrites (nebulaDirPageInit layout)))
        (requestWrites (nebulaSuperblockWriteBoth options.uuid layout)) := by
  simp only [formatRequests, requestWrites_append, applyWrites_append]

/-- The stages from the bitmap on leave the head copy of the allocator roots alone. -/
theorem format_roots (sound : layout.Sound) {cell : Nat} (head : cell < 131) (other : cell ≠ 1) :
    applyWrites base (requestWrites (formatRequests options layout)) cell =
      applyWrites (applyWrites (applyWrites base
        (requestWrites (nebulaMbrWrite options.uuid layout.capacityBlocks)))
        (requestWrites (nebulaUberblockInitRegion layout options.uberblockNow)))
        (requestWrites (nebulaAllocatorRootsInit layout)) cell := by
  have bitmap := sound.bitmap_eq
  have stream := sound.streamMap_eq
  have inode := sound.inode_eq
  have dir := sound.dir_eq
  have data := sound.dataStart_eq
  have room := sound.data_room
  have tail := sound.allocRootsTail_eq
  have last := sound.sbTail_eq
  rw [applyWrites_formatRequests, applyWrites_superblocks sound, if_neg (by omega),
    applyWrites_of_within (nebulaDirPageInit_within sound) (.inl (by omega)),
    applyWrites_of_within (nebulaInodePageInit_within sound _) (.inl (by omega)),
    applyWrites_of_within (nebulaBitmapInit_within sound) (.inl (by omega))]

/-- The stages after the uberblocks leave the blocks up to them alone, superblock apart. -/
theorem format_head (sound : layout.Sound) {cell : Nat} (head : cell < 130) (other : cell ≠ 1) :
    applyWrites base (requestWrites (formatRequests options layout)) cell =
      applyWrites (applyWrites base
        (requestWrites (nebulaMbrWrite options.uuid layout.capacityBlocks)))
        (requestWrites (nebulaUberblockInitRegion layout options.uberblockNow)) cell := by
  have data := sound.dataStart_eq
  have dir := sound.dir_eq
  have inode := sound.inode_eq
  have stream := sound.streamMap_eq
  have bitmap := sound.bitmap_eq
  have room := sound.data_room
  rw [format_roots sound (by omega) other, applyWrites_roots sound (by omega) (by omega)]

theorem formatted_of_requests (sound : layout.Sound) :
    Formatted options layout
      (applyWrites base (requestWrites (formatRequests options layout))) := by
  have bitmap := sound.bitmap_eq
  have stream := sound.streamMap_eq
  have inode := sound.inode_eq
  have inodes := sound.inodeCount_ge
  have dir := sound.dir_eq
  have dirs := sound.dirCount_eq
  have data := sound.dataStart_eq
  have room := sound.data_room
  have tail := sound.allocRootsTail_eq
  have last := sound.sbTail_eq
  constructor
  · rw [format_head sound (by omega) (by omega),
      applyWrites_of_within (nebulaUberblockInitRegion_within sound _) (.inl (by omega)),
      nebulaMbrWrite, applyWrites_request, if_pos rfl]
  · rw [applyWrites_formatRequests, applyWrites_superblocks sound, if_pos (.inr rfl)]
  · rw [format_head sound (by omega) (by omega), nebulaUberblockInitRegion, requestWrites_append,
      applyWrites_append, applyWrites_request, sound.uberblock_eq, if_pos rfl]
  · intro page inside
    rw [applyWrites_formatRequests, applyWrites_superblocks sound, if_neg (by omega),
      applyWrites_of_within (nebulaDirPageInit_within sound) (.inl (by omega)),
      applyWrites_of_within (nebulaInodePageInit_within sound _) (.inl (by omega)),
      nebulaBitmapInit, requestWrites_append, applyWrites_append,
      applyWrites_of_within (writeZeros_within _ _) (.inl (by omega)),
      applyWrites_blockRequests _ inside]
  · rw [applyWrites_formatRequests, applyWrites_superblocks sound, if_neg (by omega),
      applyWrites_of_within (nebulaDirPageInit_within sound) (.inl (by omega)),
      nebulaInodePageInit, requestWrites_append, applyWrites_append, applyWrites_request,
      if_pos rfl]
  · intro number positive inside
    rw [applyWrites_formatRequests, applyWrites_superblocks sound, if_neg (by omega),
      applyWrites_of_within (nebulaDirPageInit_within sound) (.inl (by omega)),
      nebulaInodePageInit, requestWrites_append, applyWrites_append, applyWrites_request,
      if_neg (by omega), applyWrites_writeZeros (by omega) (by omega)]
  · rw [applyWrites_formatRequests, applyWrites_superblocks sound, if_neg (by omega),
      nebulaDirPageInit, requestWrites_append, applyWrites_append, requestWrites_cons,
      applyWrites_append, applyWrites_request, if_neg (by omega), applyWrites_request, if_pos rfl]
  · rw [applyWrites_formatRequests, applyWrites_superblocks sound, if_neg (by omega),
      nebulaDirPageInit, requestWrites_append, applyWrites_append, requestWrites_cons,
      applyWrites_append, applyWrites_request, if_pos rfl]
  · intro block after inside
    rw [applyWrites_formatRequests, applyWrites_superblocks sound, if_neg (by omega),
      nebulaDirPageInit, requestWrites_append, applyWrites_append, requestWrites_cons,
      applyWrites_append, applyWrites_request, if_neg (by omega), applyWrites_request,
      if_neg (by omega), applyWrites_writeZeros (by omega) (by omega)]
  · rw [applyWrites_formatRequests, applyWrites_superblocks sound, if_pos (.inl rfl)]
  · intro slot positive inside
    rw [format_head sound (by omega) (by omega), nebulaUberblockInitRegion, requestWrites_append,
      applyWrites_append, applyWrites_request, sound.uberblock_eq, if_neg (by omega),
      sound.uberblockCount_eq, applyWrites_blockRequests (fun _ => zeroBlock) inside]
  · rw [format_roots sound (by omega) (by omega), nebulaAllocatorRootsInit, requestWrites_cons,
      applyWrites_append, applyWrites_request, if_neg (by omega), applyWrites_request,
      sound.allocRootsHead_eq, if_pos rfl]
  · rw [applyWrites_formatRequests, applyWrites_superblocks sound, if_neg (by omega),
      applyWrites_of_within (nebulaDirPageInit_within sound) (.inr (by omega)),
      applyWrites_of_within (nebulaInodePageInit_within sound _) (.inr (by omega)),
      applyWrites_of_within (nebulaBitmapInit_within sound) (.inr (by omega)),
      nebulaAllocatorRootsInit, requestWrites_cons, applyWrites_append, applyWrites_request,
      if_pos rfl]

/-- Formatting leaves the data region alone. -/
theorem format_data (sound : layout.Sound) {cell : Nat} (low : layout.dataStartLba ≤ cell)
    (high : cell < layout.allocRootsTailLba) :
    applyWrites base (requestWrites (formatRequests options layout)) cell = base cell := by
  have bitmap := sound.bitmap_eq
  have stream := sound.streamMap_eq
  have inode := sound.inode_eq
  have dir := sound.dir_eq
  have data := sound.dataStart_eq
  have room := sound.data_room
  have tail := sound.allocRootsTail_eq
  have last := sound.sbTail_eq
  rw [applyWrites_formatRequests, applyWrites_superblocks sound, if_neg (by omega),
    applyWrites_of_within (nebulaDirPageInit_within sound) (.inr (by omega)),
    applyWrites_of_within (nebulaInodePageInit_within sound _) (.inr (by omega)),
    applyWrites_of_within (nebulaBitmapInit_within sound) (.inr (by omega)),
    applyWrites_roots sound (by omega) (by omega),
    applyWrites_of_within (nebulaUberblockInitRegion_within sound _) (.inr (by omega)),
    nebulaMbrWrite, applyWrites_request, if_neg (by omega)]

theorem formatRequests_within (sound : layout.Sound) :
    RequestsWithin 0 layout.capacityBlocks (formatRequests options layout) := by
  have bitmap := sound.bitmap_eq
  have stream := sound.streamMap_eq
  have inode := sound.inode_eq
  have dir := sound.dir_eq
  have data := sound.dataStart_eq
  have room := sound.data_room
  have tail := sound.allocRootsTail_eq
  have last := sound.sbTail_eq
  have head := sound.sbHead_eq
  have roots := sound.allocRootsHead_eq
  refine ((((((RequestsWithin.append ?_ ?_).append ?_).append ?_).append ?_).append ?_).append ?_)
  · simp only [RequestsWithin, nebulaMbrWrite, List.mem_singleton, forall_eq,
      List.length_singleton]
    omega
  · exact (nebulaUberblockInitRegion_within sound _).mono (by omega) (by omega)
  · simp only [RequestsWithin, nebulaAllocatorRootsInit, List.mem_cons, List.not_mem_nil, or_false,
      forall_eq_or_imp, forall_eq, List.length_singleton]
    omega
  · exact (nebulaBitmapInit_within sound).mono (by omega) (by omega)
  · exact (nebulaInodePageInit_within sound _).mono (by omega) (by omega)
  · exact (nebulaDirPageInit_within sound).mono (by omega) (by omega)
  · simp only [RequestsWithin, nebulaSuperblockWriteBoth, List.mem_cons, List.not_mem_nil, or_false,
      forall_eq_or_imp, forall_eq, List.length_singleton]
    omega

end Formatted

theorem nebulaFormat_eq {options : FormatOptions} {disk : Disk} {layout : NebulaLayout}
    (computed : nebulaLayoutComputeEx disk.capacityBlocks options.inodeSize = .ok layout) :
    nebulaFormat options disk =
      (.ok (), (disk.push (requestWrites (formatRequests options layout))).flush) := by
  obtain ⟨sound, capacity, -⟩ := nebulaLayoutComputeEx_sound disk.capacity_lt computed
  have within := @formatRequests_within options layout sound
  rw [capacity] at within
  rw [nebulaFormat, computed]
  simp only [issueAll_of_within within, nebulaIoFlush]

/-- Formatting succeeds on every device of at least 256 MiB. -/
theorem nebulaFormat_ok {options : FormatOptions} {disk : Disk}
    (large : 65536 ≤ disk.capacityBlocks)
    (size : options.inodeSize = 4096 ∨ options.inodeSize = 8192) :
    (nebulaFormat options disk).1 = .ok () := by
  obtain ⟨layout, computed⟩ := nebulaLayoutComputeEx_ok large disk.capacity_lt size
  rw [nebulaFormat_eq computed]

/-- A formatted device has its metadata regions written, the data region as it was, and nothing in
the write cache. -/
theorem nebulaFormat_spec {options : FormatOptions} {disk formatted : Disk}
    (done : nebulaFormat options disk = (.ok (), formatted)) :
    ∃ layout, layout.Sound ∧ layout.capacityBlocks = disk.capacityBlocks ∧
      formatted.capacityBlocks = disk.capacityBlocks ∧ formatted.cells.pending = [] ∧
      Formatted options layout formatted.content ∧
      ∀ lba, layout.dataStartLba ≤ lba → lba < layout.allocRootsTailLba →
        formatted.content lba = disk.content lba := by
  cases computed : nebulaLayoutComputeEx disk.capacityBlocks options.inodeSize with
  | error error => simp [nebulaFormat, computed] at done
  | ok layout =>
      obtain ⟨sound, capacity, -⟩ := nebulaLayoutComputeEx_sound disk.capacity_lt computed
      rw [nebulaFormat_eq computed, Prod.mk.injEq] at done
      obtain ⟨-, rfl⟩ := done
      refine ⟨layout, sound, capacity, rfl, rfl, ?_, fun lba low high => ?_⟩
      · rw [Disk.content_flush, Disk.content_push]
        exact formatted_of_requests sound
      · rw [Disk.content_flush, Disk.content_push, format_data sound low high]

/-- The page loop of `nebula_bitmap_init`, after its first `n` bits. -/
theorem bitGet_formatPage (layout : NebulaLayout) (page : Nat) {n bit : Nat} (fits : n ≤ 32768)
    (inside : bit < 32768) :
    bitGet (fun _ => (List.range n).foldl
      (fun current bit =>
        if lbaIsMetadata layout (page * bitmapBitsPerPage + bit) then
          bitSet (fun _ => current) bit 0
        else current)
      zeroBlock) bit = (decide (bit < n) && lbaIsMetadata layout (page * 32768 + bit)) := by
  induction n with
  | zero => simp [bitGet, pagedByte, zeroBlock]
  | succ n ih =>
      have before := ih (by omega)
      have later : bit ≠ n → (bit < n + 1 ↔ bit < n) := by omega
      rw [List.range_succ, List.foldl_append]
      simp only [List.foldl_cons, List.foldl_nil]
      by_cases marks : lbaIsMetadata layout (page * bitmapBitsPerPage + n) = true
      · simp only [if_pos marks]
        have onePage : ∀ pages : Nat → Block, bitGet (fun _ => pages 0) bit = bitGet pages bit :=
          fun pages => bitGet_congr (by rw [Nat.div_eq_of_lt inside])
        rw [onePage, bitGet_bitSet, before]
        by_cases here : bit = n
        · simp [here, show lbaIsMetadata layout (page * 32768 + n) = true from marks]
        · simp [here, later here]
      · simp only [if_neg marks, before]
        by_cases here : bit = n
        · simp [here, marks]
        · simp [later here]

/-- A formatted device has the bits of exactly its metadata blocks set. -/
theorem bitGet_formatBitmap (layout : NebulaLayout) (index : Nat) :
    bitGet (formatBitmap layout) index =
      (decide (index < layout.capacityBlocks) && lbaIsMetadata layout index) := by
  have split : index = index / 32768 * 32768 + index % 32768 := (Nat.div_add_mod' _ _).symm
  have inside : index % 32768 < 32768 := Nat.mod_lt _ (by decide)
  have page : bitGet (formatBitmap layout) index =
      bitGet (fun _ => formatBitmap layout (index / 32768)) (index % 32768) := by
    have offset : index % 32768 / 8 = index / 8 % 4096 ∧ index % 32768 % 8 = index % 8 ∧
        index / 8 / 4096 = index / 32768 ∧ index % 32768 / 8 % 4096 = index / 8 % 4096 := by
      refine ⟨?_, ?_, ?_, ?_⟩ <;> omega
    obtain ⟨-, bit, whole, byte⟩ := offset
    simp only [bitGet, pagedByte, whole, bit, byte]
  rw [page, formatBitmap,
    bitGet_formatPage layout _ (by simp only [bitmapBitsPerPage]; omega) inside, ← split]
  congr 1
  rw [decide_eq_decide]
  simp only [bitmapBitsPerPage]
  omega

/-! ## Mounting a formatted device -/

/-- The blocks a mount validates are as formatting left them. -/
structure Mountable (options : FormatOptions) (layout : NebulaLayout) (disk : Disk) : Prop where
  sound : layout.Sound
  capacity : disk.capacityBlocks = layout.capacityBlocks
  mbr : disk.content 0 = NebulaMbr.layout (formatMbr options.uuid layout.capacityBlocks)
  sbHead : disk.content 1 = NebulaSuperblock.layout (formatSuperblock options.uuid layout)
  uberblock : disk.content 2 = NebulaUberblock.layout (formatUberblock layout options.uberblockNow)

namespace Mountable

variable {options : FormatOptions} {layout : NebulaLayout} {disk : Disk}

theorem of_formatted (sound : layout.Sound) (capacity : disk.capacityBlocks = layout.capacityBlocks)
    (formatted : Formatted options layout disk.content) : Mountable options layout disk :=
  ⟨sound, capacity, formatted.mbr, formatted.sbHead, formatted.uberblock⟩

/-- Writes past the first three blocks keep a device mountable. -/
theorem of_content (mountable : Mountable options layout disk) {after : Disk}
    (capacity : after.capacityBlocks = disk.capacityBlocks)
    (head : ∀ lba < 3, after.content lba = disk.content lba) : Mountable options layout after where
  sound := mountable.sound
  capacity := capacity.trans mountable.capacity
  mbr := (head 0 (by decide)).trans mountable.mbr
  sbHead := (head 1 (by decide)).trans mountable.sbHead
  uberblock := (head 2 (by decide)).trans mountable.uberblock

theorem capacity_lt (mountable : Mountable options layout disk) : layout.capacityBlocks < 2 ^ 52 :=
  mountable.capacity ▸ disk.capacity_lt

theorem large (mountable : Mountable options layout disk) : 65536 ≤ disk.capacityBlocks :=
  mountable.capacity ▸ mountable.sound.capacity_ge

theorem nebulaMbrRead_eq (mountable : Mountable options layout disk) :
    nebulaMbrRead disk = .ok (formatMbr options.uuid layout.capacityBlocks) := by
  have large := mountable.large
  rw [nebulaMbrRead, readBlock_eq (by omega), mountable.mbr]
  simp only [Equiv.symm_apply_apply]
  rw [if_neg (by simp [formatMbr]), if_neg (by simp [formatMbr, nebulaMbrChecksum])]

theorem mountSuperblock_eq (mountable : Mountable options layout disk) :
    mountSuperblock disk (formatMbr options.uuid layout.capacityBlocks) =
      .ok (formatSuperblock options.uuid layout) := by
  have large := mountable.large
  have read : nebulaSuperblockRead disk 1 = .ok (formatSuperblock options.uuid layout) := by
    rw [nebulaSuperblockRead, readBlock_eq (by omega), mountable.sbHead]
    simp only [Equiv.symm_apply_apply]
    rw [if_neg (by simp [formatSuperblock]),
      if_neg (by simp [formatSuperblock, nebulaSuperblockChecksum])]
  simp only [mountSuperblock, formatMbr, UInt64.reduceToNat, read]

/-- The superblock holds the layout. -/
theorem superblock_toNat (mountable : Mountable options layout disk) {sb : NebulaSuperblock}
    (formatted : sb = formatSuperblock options.uuid layout) :
    sb.deviceCapacityBlocks.toNat = layout.capacityBlocks ∧
      sb.uberblockLba.toNat = 2 ∧ sb.uberblockCount.toNat = 128 ∧
      sb.bitmapLba.toNat = layout.bitmapLba ∧
      sb.bitmapBlockCount.toNat = layout.bitmapBlockCount ∧
      sb.inodePageLba.toNat = layout.inodePageLba ∧
      sb.inodePageBlockCount.toNat = layout.inodePageBlockCount ∧
      sb.dirPageLba.toNat = layout.dirPageLba ∧
      sb.dirPageBlockCount.toNat = layout.dirPageBlockCount ∧
      sb.dataStartLba.toNat = layout.dataStartLba := by
  have sound := mountable.sound
  have bound := mountable.capacity_lt
  have bitmap := sound.bitmap_eq
  have tight := sound.bitmap_tight
  have stream := sound.streamMap_eq
  have inode := sound.inode_eq
  have inodes := sound.inodeCount_le
  have dir := sound.dir_eq
  have dirs := sound.dirCount_eq
  have data := sound.dataStart_eq
  have room := sound.data_room
  have tail := sound.allocRootsTail_eq
  subst formatted
  simp only [formatSuperblock, UInt64.toNat_ofNat', UInt32.toNat_ofNat', sound.uberblock_eq,
    sound.uberblockCount_eq]
  refine ⟨?_, trivial, trivial, ?_, ?_, ?_, ?_, ?_, ?_, ?_⟩ <;> apply Nat.mod_eq_of_lt <;> omega

/-- Slot 0 is valid, so the search finds an uberblock. -/
theorem pickLatestUberblock_ok (mountable : Mountable options layout disk) :
    ∃ found, pickLatestUberblock disk (formatSuperblock options.uuid layout) = .ok found := by
  obtain ⟨-, lba, count, -⟩ := mountable.superblock_toNat rfl
  have large := mountable.large
  have valid : nebulaUberblockReadSlot disk 2 128 0 =
      .ok (formatUberblock layout options.uberblockNow) := by
    have slot : (2 + 0) % 2 ^ 64 = 2 := rfl
    rw [nebulaUberblockReadSlot, if_neg (by omega), slot, readBlock_eq (by omega),
      mountable.uberblock]
    simp only [Equiv.symm_apply_apply]
    rw [if_neg (by simp [formatUberblock]),
      if_neg (by simp [formatUberblock, nebulaUberblockChecksum])]
  have kept : ∀ slots : List Nat, (∀ slot ∈ slots, slot < 128) →
      ∀ best : NebulaUberblock × Nat, best.2 < 128 → ∃ found : NebulaUberblock × Nat,
        slots.foldl (betterUberblock disk (formatSuperblock options.uuid layout)) (some best) =
          some found ∧ found.2 < 128 := by
    intro slots
    induction slots with
    | nil => exact fun _ best small => ⟨best, rfl, small⟩
    | cons slot slots ih =>
        intro all best small
        have rest := ih fun other member => all other (List.mem_cons_of_mem _ member)
        rw [List.foldl_cons, betterUberblock]
        split
        · exact rest best small
        · simp only
          split_ifs
          · exact rest _ (all slot List.mem_cons_self)
          · exact rest best small
  obtain ⟨found, picked, small⟩ := kept ((List.range 127).map Nat.succ)
    (fun slot member => by
      obtain ⟨index, inside, rfl⟩ := List.mem_map.mp member
      have := List.mem_range.mp inside
      omega)
    (formatUberblock layout options.uberblockNow, 0) (show 0 < 128 by decide)
  refine ⟨found, ?_⟩
  rw [pickLatestUberblock, count, List.range_succ_eq_map, List.foldl_cons, betterUberblock, lba,
    count, valid]
  simp only [picked]
  rw [if_neg (by omega)]

/-- What a mount of a formatted device returns. -/
structure Mounted (options : FormatOptions) (layout : NebulaLayout) (disk : Disk)
    (mount : NebulaMount) : Prop where
  sb : mount.sb = formatSuperblock options.uuid layout
  totalBlocks : mount.bitmap.totalBlocks = layout.capacityBlocks
  numPages : mount.bitmap.numPages = layout.bitmapBlockCount
  numGroups : mount.bitmap.numGroups = (layout.bitmapBlockCount + 63) / 64
  l0Bits : ∀ page < layout.bitmapBlockCount,
    mount.bitmap.l0Bits page = disk.content (layout.bitmapLba + page)
  l1FreeCounts : mount.bitmap.l1FreeCounts =
    (hbmSummaries mount.bitmap.l0Bits layout.capacityBlocks layout.bitmapBlockCount).1
  l2TotalFree : mount.bitmap.l2TotalFree =
    (hbmSummaries mount.bitmap.l0Bits layout.capacityBlocks layout.bitmapBlockCount).2

/-- A device whose page count fits the 32-bit read request mounts, and the loaded bitmap is the one
on the device. -/
theorem nebulaMountDo_ok (mountable : Mountable options layout disk) (heap : Nat → Block)
    (fits : layout.bitmapBlockCount < 2 ^ 32) :
    ∃ mount, nebulaMountDo heap disk = .ok mount ∧ Mounted options layout disk mount := by
  have sound := mountable.sound
  have tight := sound.bitmap_tight
  have covers := sound.bitmap_covers
  have least := sound.capacity_ge
  have bitmapStart := sound.bitmap_eq
  have room := sound.data_room
  have data := sound.dataStart_eq
  have dir := sound.dir_eq
  have inode := sound.inode_eq
  have stream := sound.streamMap_eq
  have tail := sound.allocRootsTail_eq
  have capacity := mountable.capacity
  obtain ⟨found, picked⟩ := mountable.pickLatestUberblock_ok
  obtain ⟨blocks, -, -, lba, count, -⟩ := mountable.superblock_toNat rfl
  have inside : layout.bitmapLba + layout.bitmapBlockCount ≤ disk.capacityBlocks := by omega
  have some : layout.bitmapBlockCount ≠ 0 := by omega
  have loaded := @nebulaHbmLoad_ok layout.capacityBlocks layout.bitmapBlockCount heap disk
    layout.bitmapLba _ some fits (nebulaIoRead_fault_free inside)
  rw [← lba, ← count, ← blocks] at loaded
  refine ⟨⟨formatMbr options.uuid layout.capacityBlocks, formatSuperblock options.uuid layout,
      found.1, found.2, _⟩, nebulaMountDo_ok_iff.mpr ⟨mountable.nebulaMbrRead_eq,
        mountable.mountSuperblock_eq, rfl, picked, loaded⟩, ?_⟩
  rw [lba, count, blocks]
  refine ⟨rfl, rfl, rfl, rfl, ?_, rfl, rfl⟩
  intro page below
  simp [List.getD_eq_getElem?_getD, below]

end Mountable

end MiniFs
