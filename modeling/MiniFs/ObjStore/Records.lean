import MiniFs.Nebula.Mkfs
import MiniFs.ObjStore.ObjectStore

/-!
# Chunk records and the bitmap

Every recorded chunk lies in the data region, is marked in the loaded bitmap and in the bitmap on
the device, and overlaps no other recorded chunk.  This holds at every primitive action of the
store, whatever fails.
-/

namespace MiniFs.ObjStore

/-- The blocks `[lba, lba + n)` are in the data region. -/
def InData (layout : NebulaLayout) (lba n : Nat) : Prop :=
  layout.dataStartLba ≤ lba ∧ lba + n ≤ layout.allocRootsTailLba

/-- A block of the device outside the data region. -/
def IsMetadata (layout : NebulaLayout) (index : Nat) : Prop :=
  index < layout.capacityBlocks ∧ ¬ (layout.dataStartLba ≤ index ∧ index < layout.allocRootsTailLba)

/-- The chunk's blocks. -/
def Chunk.Covers (c : Chunk) (index : Nat) : Prop :=
  c.lbaStart.toNat ≤ index ∧ index < c.lbaStart.toNat + kChunkBlocks

/-- A block of some recorded chunk. -/
def RecordedBlock (db : Db) (index : Nat) : Prop :=
  ∃ cid c, db.chunk? cid = some c ∧ c.Covers index

/-- The bitmap pages on the device, as a reader sees them. -/
def bitmapPages (layout : NebulaLayout) (disk : Disk) : Nat → Block :=
  fun page => disk.content (layout.bitmapLba + page)

/-- A page image has the bits set that stand for the wanted blocks. -/
def ImageMarks (wanted : Nat → Prop) (page : Nat) (image : Block) : Prop :=
  ∀ index, index / 32768 = page → wanted index → bitGet (fun _ => image) index = true

/-- An image of a bitmap page that the device holds or may come to hold. -/
def PageImage (layout : NebulaLayout) (disk : Disk) (page : Nat) (image : Block) : Prop :=
  image = disk.cells.durable (layout.bitmapLba + page) ∨
    (layout.bitmapLba + page, image) ∈ disk.cells.pending

theorem bitGet_image (pages : Nat → Block) (index : Nat) :
    bitGet (fun _ => pages (index / 32768)) index = bitGet pages index :=
  bitGet_congr rfl

theorem imageMarks_page {wanted : Nat → Prop} {pages : Nat → Block}
    (marks : ∀ index, wanted index → bitGet pages index = true) (page : Nat) :
    ImageMarks wanted page (pages page) := by
  rintro index rfl want
  rw [bitGet_image]
  exact marks index want

/-- What holds of every image of a page holds of the page that a reader sees. -/
theorem content_of_pageImage {layout : NebulaLayout} {disk : Disk} {page : Nat} {P : Block → Prop}
    (all : ∀ image, PageImage layout disk page image → P image) :
    P (disk.content (layout.bitmapLba + page)) := by
  apply applyWrites_of_forall _ (List.Sublist.refl _)
  · exact all _ (.inl rfl)
  · rintro ⟨cell, image⟩ member rfl
    exact all image (.inr member)

/-- The device part: it mounts, its first blocks are not being written, and every image of a bitmap
page marks the metadata blocks. -/
structure DeviceOk (options : FormatOptions) (layout : NebulaLayout) (disk : Disk) : Prop where
  mountable : Mountable options layout disk
  pending_ge : ∀ write ∈ disk.cells.pending, 3 ≤ write.1
  reserved : ∀ page < layout.bitmapBlockCount, ∀ image, PageImage layout disk page image →
    ImageMarks (IsMetadata layout) page image

/-- The offset of the next reservation in a chunk: whole blocks, within the chunk. -/
structure Chunk.OffsetOk (c : Chunk) : Prop where
  aligned : c.writeOffset.toNat % 4096 = 0
  within : c.writeOffset.toNat ≤ 67108864

/-- Blocks that hold `n` bytes. -/
def blocksFor (n : Nat) : Nat := (n + 4095) / 4096

theorem roundUpBlock_toNat {bytes : UInt32} (small : bytes.toNat ≤ 67108864) :
    (roundUpBlock bytes).toNat = blocksFor bytes.toNat * 4096 := by
  have sum : (bytes + 4095).toNat = bytes.toNat + 4095 := by
    rw [UInt32.toNat_add]
    exact Nat.mod_eq_of_lt (by simp; omega)
  rw [roundUpBlock, UInt32.toNat_mul, UInt32.toNat_div, sum]
  exact Nat.mod_eq_of_lt (by simp; omega)

theorem Chunk.spaceLeft_toNat {c : Chunk} (ok : c.OffsetOk) :
    c.spaceLeft.toNat = 67108864 - c.writeOffset.toNat :=
  UInt32.toNat_sub_of_le _ _ (UInt32.le_iff_toNat_le.mpr ok.within)

/-- The defensive clamp of `reserve` never fires. -/
theorem Chunk.fit_eq {c : Chunk} (ok : c.OffsetOk) (maxLength : UInt32) :
    (c.fit maxLength).1.toNat = min maxLength.toNat (67108864 - c.writeOffset.toNat) ∧
      (c.fit maxLength).2.toNat =
        blocksFor (min maxLength.toNat (67108864 - c.writeOffset.toNat)) * 4096 := by
  have space := Chunk.spaceLeft_toNat ok
  have least : (min maxLength c.spaceLeft).toNat =
      min maxLength.toNat (67108864 - c.writeOffset.toNat) := by
    rw [← space, show min maxLength c.spaceLeft =
      if maxLength ≤ c.spaceLeft then maxLength else c.spaceLeft from rfl]
    split_ifs with order
    · exact (min_eq_left (UInt32.le_iff_toNat_le.mp order)).symm
    · exact (min_eq_right
        (UInt32.le_iff_toNat_le.mp (UInt32.le_of_lt (UInt32.not_le.mp order)))).symm
  have padded := @roundUpBlock_toNat (min maxLength c.spaceLeft) (by omega)
  have aligned := ok.aligned
  have within := ok.within
  have noClamp : ¬ c.spaceLeft < roundUpBlock (min maxLength c.spaceLeft) := by
    rw [UInt32.lt_iff_toNat_lt, padded, least, space, blocksFor]
    omega
  simp only [Chunk.fit, if_neg noClamp, least, padded, and_self]

/-- The recorded chunks. -/
structure RecordsOk (layout : NebulaLayout) (db : Db) : Prop where
  ident : ∀ {cid c}, db.chunk? cid = some c → c.chunkId = cid
  inside : ∀ {cid c}, db.chunk? cid = some c → InData layout c.lbaStart.toNat kChunkBlocks
  offset : ∀ {cid c}, db.chunk? cid = some c → c.OffsetOk
  disjoint : ∀ {cid c cid' c'}, db.chunk? cid = some c → db.chunk? cid' = some c' → cid ≠ cid' →
    ∀ index, c.Covers index → ¬ c'.Covers index

/-- The recorded chunks are marked on the device. -/
def RecordsMarked (layout : NebulaLayout) (db : Db) (disk : Disk) : Prop :=
  ∀ index, RecordedBlock db index → bitGet (bitmapPages layout disk) index = true

/-- The active chunk is ahead of its record. -/
structure ActiveOk (db : Db) (a : Chunk) : Prop where
  offset : a.OffsetOk
  unsealed : a.isSealed = false
  record : ∃ r, db.chunk? a.chunkId = some r ∧ r.lbaStart = a.lbaStart ∧
    r.writeOffset ≤ a.writeOffset ∧ r.isSealed = false

/-- The memory part: the loaded bitmap marks what must not be allocated. -/
structure MemOk (options : FormatOptions) (layout : NebulaLayout) (db : Db) (mem : StoreMem) :
    Prop where
  sb : mem.mount.sb = formatSuperblock options.uuid layout
  numPages : mem.mount.bitmap.numPages = layout.bitmapBlockCount
  reserved : ∀ index, IsMetadata layout index → bitGet mem.mount.bitmap.l0Bits index = true
  marked : ∀ index, RecordedBlock db index → bitGet mem.mount.bitmap.l0Bits index = true
  active : ∀ a, mem.active = some a → ActiveOk db a

/-- A run that is allocated and not recorded yet. -/
structure Floating (layout : NebulaLayout) (db : Db) (disk : Disk) (mem : StoreMem) (lba : Nat) :
    Prop where
  inside : InData layout lba kChunkBlocks
  loaded : ∀ index, lba ≤ index → index < lba + kChunkBlocks →
    bitGet mem.mount.bitmap.l0Bits index = true
  marked : ∀ index, lba ≤ index → index < lba + kChunkBlocks →
    bitGet (bitmapPages layout disk) index = true
  apart : ∀ index, lba ≤ index → index < lba + kChunkBlocks → ¬ RecordedBlock db index

/-- The invariant of the media: it holds at every cut of a run, and of what a crash of the database
alone would leave. -/
structure MediaOk (options : FormatOptions) (layout : NebulaLayout) (media : Media) : Prop where
  device : DeviceOk options layout media.disk
  records : RecordsOk layout media.view
  marked : RecordsMarked layout media.view media.disk
  past : ∀ recovered, media.db.Recoverable recovered →
    RecordsOk layout recovered ∧ ∀ index, RecordedBlock recovered index →
      RecordedBlock media.view index

/-- The invariant of an open store. -/
structure BaseInv (options : FormatOptions) (layout : NebulaLayout) (mem : StoreMem)
    (media : Media) : Prop extends MediaOk options layout media where
  memory : MemOk options layout media.view mem

section Device

variable {options : FormatOptions} {layout : NebulaLayout} {disk : Disk}

/-- The bitmap is below the data region. -/
theorem page_lt_data (sound : layout.Sound) {page : Nat} (inside : page < layout.bitmapBlockCount) :
    layout.bitmapLba + page < layout.dataStartLba := by
  have stream := sound.streamMap_eq
  have inode := sound.inode_eq
  have dir := sound.dir_eq
  have data := sound.dataStart_eq
  omega

/-- The page of a device block is one of the bitmap's. -/
theorem page_lt_count (sound : layout.Sound) {index : Nat}
    (inside : index < layout.capacityBlocks) :
    index / 32768 < layout.bitmapBlockCount := by
  have covers := sound.bitmap_covers
  rw [Nat.div_lt_iff_lt_mul (by decide)]
  omega

theorem InData.lt_capacity (sound : layout.Sound) {lba n : Nat} (inside : InData layout lba n) :
    lba + n < layout.capacityBlocks := by
  have tail := sound.allocRootsTail_eq
  have bound := inside.2
  omega

theorem InData.ge_three (sound : layout.Sound) {lba n : Nat} (inside : InData layout lba n) :
    3 ≤ lba := by
  have bitmap := sound.bitmap_eq
  have stream := sound.streamMap_eq
  have inode := sound.inode_eq
  have dir := sound.dir_eq
  have data := sound.dataStart_eq
  have bound := inside.1
  omega

/-- A mark survives writes whose images of its page have it. -/
theorem bitGet_bitmapPages_push {writes : List (Nat × Block)} {index : Nat}
    (marked : bitGet (bitmapPages layout disk) index = true)
    (images : ∀ write ∈ writes, write.1 = layout.bitmapLba + index / 32768 →
      bitGet (fun _ => write.2) index = true) :
    bitGet (bitmapPages layout (disk.push writes)) index = true := by
  rw [← bitGet_image] at marked ⊢
  simp only [bitmapPages, Disk.content_push] at marked ⊢
  exact @applyWrites_of_forall _ _ _ _ _ (fun image => bitGet (fun _ => image) index = true)
    (List.Sublist.refl _) marked images

theorem DeviceOk.push (ok : DeviceOk options layout disk) {writes : List (Nat × Block)}
    (past : ∀ write ∈ writes, 3 ≤ write.1)
    (images : ∀ page < layout.bitmapBlockCount, ∀ image, (layout.bitmapLba + page, image) ∈ writes →
      ImageMarks (IsMetadata layout) page image) :
    DeviceOk options layout (disk.push writes) where
  mountable := ok.mountable.of_content rfl fun lba head => by
    rw [Disk.content_push]
    exact applyWrites_of_not_mem _ fun write member => by
      have := past write member
      omega
  pending_ge := by
    intro write member
    rw [Disk.cells_push, WriteCache.pending_push, List.mem_append] at member
    exact member.elim (ok.pending_ge write) (past write)
  reserved := by
    intro page inside image held
    rcases held with rfl | member
    · exact ok.reserved page inside _ (.inl rfl)
    · rw [Disk.cells_push, WriteCache.pending_push, List.mem_append] at member
      rcases member with old | new
      · exact ok.reserved page inside image (.inr old)
      · exact images page inside image new

/-- Writes to the data region do not concern the metadata. -/
theorem DeviceOk.push_data (ok : DeviceOk options layout disk) {writes : List (Nat × Block)}
    (inside : ∀ write ∈ writes, InData layout write.1 1) :
    DeviceOk options layout (disk.push writes) := by
  have sound := ok.mountable.sound
  refine ok.push (fun write member => (inside write member).ge_three sound) ?_
  intro page below image member
  have low := (inside _ member).1
  have bound := page_lt_data sound below
  simp only at low
  omega

theorem DeviceOk.flush (ok : DeviceOk options layout disk) :
    DeviceOk options layout disk.flush where
  mountable := ok.mountable.of_content rfl fun _ _ => rfl
  pending_ge := fun write member => absurd member (by simp)
  reserved := by
    intro page inside image held
    rcases held with rfl | member
    · exact content_of_pageImage (ok.reserved page inside)
    · simp at member

/-- Data writes leave the bitmap alone. -/
theorem bitmapPages_push_data (sound : layout.Sound) {writes : List (Nat × Block)}
    (inside : ∀ write ∈ writes, InData layout write.1 1) {page : Nat}
    (below : page < layout.bitmapBlockCount) :
    bitmapPages layout (disk.push writes) page = bitmapPages layout disk page := by
  simp only [bitmapPages, Disk.content_push]
  apply applyWrites_of_not_mem
  intro write member
  have low := (inside write member).1
  have bound := page_lt_data sound below
  omega

end Device

section Records

variable {options : FormatOptions} {layout : NebulaLayout} {mem : StoreMem} {media : Media}

theorem RecordsOk.lt_capacity (sound : layout.Sound) {db : Db} (ok : RecordsOk layout db)
    {index : Nat} (recorded : RecordedBlock db index) : index < layout.capacityBlocks := by
  obtain ⟨cid, c, found, covers⟩ := recorded
  have bound := (ok.inside found).lt_capacity sound
  have high := covers.2
  omega

theorem MediaOk.sound (inv : MediaOk options layout media) : layout.Sound :=
  inv.device.mountable.sound

/-- What a reservation takes off its chunk. -/
structure Carved (c : Chunk) (maxLength : UInt32) (r : Reservation) (c' : Chunk) : Prop where
  chunkId : r.chunkId = c.chunkId
  offset : r.offsetBytes = c.writeOffset
  length : r.lengthBytes.toNat = min maxLength.toNat (67108864 - c.writeOffset.toNat)
  padded : r.paddedBytes.toNat = blocksFor r.lengthBytes.toNat * 4096
  lba : r.physicalLba = c.lbaStart + (c.writeOffset / 4096).toUInt64
  next : c' = { c with writeOffset := c'.writeOffset, nextIdx := c'.nextIdx }
  advance : c'.writeOffset.toNat = c.writeOffset.toNat + blocksFor r.lengthBytes.toNat * 4096
  offsetOk : c'.OffsetOk

theorem Chunk.take_carved {c : Chunk} {maxLength length padded : UInt32} (ok : c.OffsetOk)
    (positive : 0 < length)
    (actual : length.toNat = min maxLength.toNat (67108864 - c.writeOffset.toNat))
    (whole : padded.toNat = blocksFor length.toNat * 4096) :
    Carved c maxLength (c.take length padded positive).1 (c.take length padded positive).2 := by
  have aligned := ok.aligned
  have within := ok.within
  have fits : c.writeOffset.toNat + blocksFor length.toNat * 4096 ≤ 67108864 := by
    rw [blocksFor]
    omega
  have advance : (c.writeOffset + padded).toNat =
      c.writeOffset.toNat + blocksFor length.toNat * 4096 := by
    rw [UInt32.toNat_add, whole]
    exact Nat.mod_eq_of_lt (by omega)
  refine ⟨rfl, rfl, actual, whole, rfl, rfl, advance, ⟨?_, ?_⟩⟩
  · exact (congrArg (· % 4096) advance).trans (by omega)
  · exact advance.trans_le fits

theorem Chunk.carve_carved {c : Chunk} {maxLength : UInt32} (ok : c.OffsetOk)
    (room : c.writeOffset < kChunkSize) (some : 0 < maxLength) :
    Carved c maxLength (c.carve maxLength room some).1 (c.carve maxLength room some).2 := by
  obtain ⟨length, padded⟩ := Chunk.fit_eq ok maxLength
  exact Chunk.take_carved ok _ length (by rw [padded, length])

/-- Data writes keep the invariant. -/
theorem MediaOk.push_data (inv : MediaOk options layout media) {writes : List (Nat × Block)}
    (inside : ∀ write ∈ writes, InData layout write.1 1) :
    MediaOk options layout (media.withDisk (media.disk.push writes)) where
  device := inv.device.push_data inside
  records := inv.records
  marked := by
    intro index recorded
    have below := page_lt_count inv.sound (inv.records.lt_capacity inv.sound recorded)
    rw [Media.disk_withDisk, ← bitGet_image, bitmapPages_push_data inv.sound inside below,
      bitGet_image]
    exact inv.marked index recorded
  past := inv.past

theorem MediaOk.flush (inv : MediaOk options layout media) :
    MediaOk options layout (media.withDisk media.disk.flush) where
  device := inv.device.flush
  records := inv.records
  marked := inv.marked
  past := inv.past

/-- A database write that keeps the recorded blocks, or is synced, keeps the invariant if the new
records are good. -/
theorem MediaOk.commit (inv : MediaOk options layout media) {sync : Bool} {batch : Batch}
    (records : RecordsOk layout (media.view.apply batch))
    (marked : RecordsMarked layout (media.view.apply batch) media.disk)
    (kept : sync = false → ∀ index, RecordedBlock media.view index →
      RecordedBlock (media.view.apply batch) index) :
    MediaOk options layout (media.commit sync batch) := by
  refine ⟨inv.device, ?_, ?_, ?_⟩
  · rw [Media.view_commit]
    exact records
  · rw [Media.view_commit]
    exact marked
  · intro recovered recoverable
    rw [Media.view_commit]
    cases sync with
    | true =>
        obtain ⟨keptBatches, rfl⟩ := recoverable
        have whole : (media.commit true batch).db.durable = media.view.apply batch := rfl
        have none : (media.commit true batch).db.unsynced = [] := rfl
        rw [whole, none]
        simpa using records
    | false =>
        rcases LoggedMap.Recoverable.of_write recoverable with old | new
        · exact ⟨(inv.past recovered old).1, fun index block =>
            kept rfl index ((inv.past recovered old).2 index block)⟩
        · have view : recovered = media.view.apply batch :=
            new.trans (LoggedMap.view_write _ _ _)
          subst view
          exact ⟨records, fun _ block => block⟩

/-- A database write that concerns no chunk record. -/
theorem recordedBlock_apply_other {db : Db} {batch : Batch} (other : ∀ c, MetaPut.chunk c ∉ batch)
    {index : Nat} : RecordedBlock (db.apply batch) index ↔ RecordedBlock db index := by
  have same : ∀ cid, (db.apply batch).chunk? cid = db.chunk? cid :=
    fun cid => Db.chunk?_apply_of_not_mem fun c member => absurd member (other c)
  simp only [RecordedBlock, same]

theorem RecordsOk.apply_other {db : Db} {batch : Batch} (ok : RecordsOk layout db)
    (other : ∀ c, MetaPut.chunk c ∉ batch) : RecordsOk layout (db.apply batch) := by
  have same : ∀ cid, (db.apply batch).chunk? cid = db.chunk? cid :=
    fun cid => Db.chunk?_apply_of_not_mem fun c member => absurd member (other c)
  exact ⟨fun found => ok.ident (same _ ▸ found), fun found => ok.inside (same _ ▸ found),
    fun found => ok.offset (same _ ▸ found),
    fun first second => ok.disjoint (same _ ▸ first) (same _ ▸ second)⟩

theorem ActiveOk.apply_other {db : Db} {batch : Batch} {a : Chunk} (ok : ActiveOk db a)
    (other : ∀ c, MetaPut.chunk c ∉ batch) : ActiveOk (db.apply batch) a := by
  have same : ∀ cid, (db.apply batch).chunk? cid = db.chunk? cid :=
    fun cid => Db.chunk?_apply_of_not_mem fun c member => absurd member (other c)
  exact ⟨ok.offset, ok.unsealed, by simpa only [same] using ok.record⟩

theorem MediaOk.commit_other (inv : MediaOk options layout media) {sync : Bool} {batch : Batch}
    (other : ∀ c, MetaPut.chunk c ∉ batch) : MediaOk options layout (media.commit sync batch) :=
  inv.commit (inv.records.apply_other other)
    (fun index block => inv.marked index ((recordedBlock_apply_other other).mp block))
    fun _ _ block => (recordedBlock_apply_other other).mpr block

theorem BaseInv.commit_other (inv : BaseInv options layout mem media) {sync : Bool} {batch : Batch}
    (other : ∀ c, MetaPut.chunk c ∉ batch) :
    BaseInv options layout mem (media.commit sync batch) where
  toMediaOk := inv.toMediaOk.commit_other other
  memory := by
    rw [Media.view_commit]
    exact ⟨inv.memory.sb, inv.memory.numPages, inv.memory.reserved,
      fun index block => inv.memory.marked index ((recordedBlock_apply_other other).mp block),
      fun a current => (inv.memory.active a current).apply_other other⟩

/-- A page image of the loaded bitmap, with a run marked, marks what the loaded bitmap does. -/
theorem imageMarks_markRun {wanted : Nat → Prop} {bitmap : HierBitmap} {start n page : Nat}
    (marks : ∀ index, wanted index → bitGet bitmap.l0Bits index = true) :
    ImageMarks wanted page ((markRun bitmap start n).l0Bits page) := by
  refine imageMarks_page (fun index want => ?_) page
  rw [markRun_l0Bits, bitGet_setRange, marks index want, Bool.or_true]

theorem MemOk.searchedBits_le {db : Db} (ok : MemOk options layout db mem)
    (mountable : Mountable options layout media.disk) :
    searchedBits mem.mount ≤ layout.capacityBlocks := by
  rw [searchedBits, (mountable.superblock_toNat ok.sb).1]
  exact min_le_right _ _

/-- The pages of a run that the allocator may pick are the bitmap's own. -/
theorem BaseInv.pageWrites_mem (inv : BaseInv options layout mem media) {start n : Nat}
    (positive : 0 < n) (inside : start + n ≤ searchedBits mem.mount) {write : Nat × Block}
    (member : write ∈
      pageWrites (mem.mount.withBitmap (markRun mem.mount.bitmap start n)) start n) :
    ∃ page < layout.bitmapBlockCount,
      write = (layout.bitmapLba + page, (markRun mem.mount.bitmap start n).l0Bits page) := by
  obtain ⟨page, -, high, rfl⟩ := mem_pageWrites positive member
  have capacity := inv.memory.searchedBits_le inv.device.mountable
  obtain ⟨-, -, -, lba, -⟩ := inv.device.mountable.superblock_toNat inv.memory.sb
  refine ⟨page, lt_of_le_of_lt high ?_, ?_⟩
  · exact page_lt_count inv.sound (by omega)
  · rw [NebulaMount.withBitmap_sb, lba, NebulaMount.withBitmap_bitmap]

/-- Writing pages of the loaded bitmap, with a run marked, keeps the device part. -/
theorem BaseInv.push_pages (inv : BaseInv options layout mem media) {start n : Nat}
    {part : List (Nat × Block)}
    (images : ∀ write ∈ part, ∃ page < layout.bitmapBlockCount,
      write = (layout.bitmapLba + page, (markRun mem.mount.bitmap start n).l0Bits page)) :
    BaseInv options layout mem (media.withDisk (media.disk.push part)) where
  device := by
    refine inv.device.push ?_ ?_
    · intro write member
      obtain ⟨page, -, rfl⟩ := images write member
      have bitmap := inv.sound.bitmap_eq
      simp only
      omega
    · intro page below image member
      obtain ⟨page', -, same⟩ := images _ member
      rw [Prod.mk.injEq] at same
      rw [same.2, show page' = page by omega]
      exact imageMarks_markRun inv.memory.reserved
  records := inv.records
  marked := by
    intro index recorded
    refine bitGet_bitmapPages_push (inv.marked index recorded) ?_
    intro write member here
    obtain ⟨page, -, rfl⟩ := images write member
    have same : page = index / 32768 := by
      simp only at here
      omega
    exact imageMarks_markRun inv.memory.marked index same.symm recorded
  past := inv.past
  memory := inv.memory

/-- An allocation hands out a run of the data region that no record covers. -/
theorem BaseInv.alloc_ok (inv : BaseInv options layout mem media) {start : Nat}
    (free : FreeRun (bitGet mem.mount.bitmap.l0Bits) kChunkBlocks start)
    (inside : start + kChunkBlocks ≤ searchedBits mem.mount) :
    BaseInv options layout
        { mem with mount := mem.mount.withBitmap (markRun mem.mount.bitmap start kChunkBlocks) }
        (media.withDisk (media.disk.push (pageWrites
          (mem.mount.withBitmap (markRun mem.mount.bitmap start kChunkBlocks)) start
          kChunkBlocks))) ∧
      Floating layout media.view
        (media.disk.push (pageWrites
          (mem.mount.withBitmap (markRun mem.mount.bitmap start kChunkBlocks)) start kChunkBlocks))
        { mem with mount := mem.mount.withBitmap (markRun mem.mount.bitmap start kChunkBlocks) }
        start := by
  have capacity := inv.memory.searchedBits_le inv.device.mountable
  have clear : ∀ index, start ≤ index → index < start + kChunkBlocks →
      bitGet mem.mount.bitmap.l0Bits index = false := by
    intro index low high
    have := free (index - start) (by omega)
    rwa [Nat.add_sub_cancel' low] at this
  have data : ∀ index, start ≤ index → index < start + kChunkBlocks →
      layout.dataStartLba ≤ index ∧ index < layout.allocRootsTailLba := by
    intro index low high
    by_contra outside
    have taken := inv.memory.reserved index ⟨by omega, outside⟩
    simp [clear index low high] at taken
  have set : ∀ index, bitGet mem.mount.bitmap.l0Bits index = true →
      bitGet (markRun mem.mount.bitmap start kChunkBlocks).l0Bits index = true := by
    intro index taken
    rw [markRun_l0Bits, bitGet_setRange, taken, Bool.or_true]
  have run : ∀ index, start ≤ index → index < start + kChunkBlocks →
      bitGet (markRun mem.mount.bitmap start kChunkBlocks).l0Bits index = true := by
    intro index low high
    rw [markRun_l0Bits, bitGet_setRange, decide_eq_true ⟨low, high⟩, Bool.true_or]
  have positive : 0 < kChunkBlocks := by decide
  obtain ⟨-, -, -, lba, -⟩ := inv.device.mountable.superblock_toNat inv.memory.sb
  have pushed := inv.push_pages fun write member => inv.pageWrites_mem positive inside member
  refine ⟨⟨pushed.toMediaOk, ?_⟩, ?_⟩
  · exact ⟨inv.memory.sb, by simpa using inv.memory.numPages,
      fun index here => set index (inv.memory.reserved index here),
      fun index here => set index (inv.memory.marked index here), inv.memory.active⟩
  · have first := data start le_rfl (by omega)
    have last := data (start + kChunkBlocks - 1) (by omega) (by omega)
    refine ⟨⟨first.1, by omega⟩, run, ?_, ?_⟩
    · intro index low high
      rw [← bitGet_image]
      have image := @applyWrites_pageWrites
        (mem.mount.withBitmap (markRun mem.mount.bitmap start kChunkBlocks)) start kChunkBlocks
        (index / bitmapBitsPerPage) media.disk.content (Nat.div_le_div_right low)
        (Nat.div_le_div_right (by omega))
      rw [NebulaMount.withBitmap_sb, lba] at image
      rw [bitmapPages, Disk.content_push, image]
      exact (bitGet_image _ _).trans (run index low high)
    · intro index low high recorded
      have taken := inv.memory.marked index recorded
      simp [clear index low high] at taken

/-- The counters are no part of the invariant. -/
theorem BaseInv.congr_mem (inv : BaseInv options layout mem media) {mem' : StoreMem}
    (mount : mem'.mount = mem.mount) (active : mem'.active = mem.active) :
    BaseInv options layout mem' media where
  toMediaOk := inv.toMediaOk
  memory :=
    { sb := mount ▸ inv.memory.sb
      numPages := mount ▸ inv.memory.numPages
      reserved := mount ▸ inv.memory.reserved
      marked := mount ▸ inv.memory.marked
      active := fun a current => inv.memory.active a (active ▸ current) }

/-- Recording a chunk on marked blocks that no other record covers keeps the invariant. -/
theorem BaseInv.put_chunk (inv : BaseInv options layout mem media) {sync : Bool} {batch : Batch}
    {c : Chunk} (member : .chunk c ∈ batch)
    (only : ∀ other, MetaPut.chunk other ∈ batch → other = c)
    (offset : c.OffsetOk) (inside : InData layout c.lbaStart.toNat kChunkBlocks)
    (marked : ∀ index, c.Covers index → bitGet (bitmapPages layout media.disk) index = true)
    (loaded : ∀ index, c.Covers index → bitGet mem.mount.bitmap.l0Bits index = true)
    (apart : ∀ {cid c'}, media.view.chunk? cid = some c' → cid ≠ c.chunkId →
      ∀ index, c.Covers index → ¬ c'.Covers index)
    (kept : sync = false → ∀ index, RecordedBlock media.view index →
      RecordedBlock (media.view.apply batch) index)
    {active : Option Chunk}
    (activeOk : ∀ a, active = some a → ActiveOk (media.view.apply batch) a) :
    BaseInv options layout { mem with active } (media.commit sync batch) := by
  have here : (media.view.apply batch).chunk? c.chunkId = some c :=
    Db.chunk?_apply_of_mem member only
  have there : ∀ {cid}, cid ≠ c.chunkId →
      (media.view.apply batch).chunk? cid = media.view.chunk? cid := fun different =>
    Db.chunk?_apply_of_not_mem fun other listed => only other listed ▸ different.symm
  have found : ∀ {cid c'}, (media.view.apply batch).chunk? cid = some c' →
      (cid = c.chunkId ∧ c' = c) ∨ (cid ≠ c.chunkId ∧ media.view.chunk? cid = some c') := by
    intro cid c' stored
    by_cases same : cid = c.chunkId
    · rw [same, here, Option.some.injEq] at stored
      exact .inl ⟨same, stored.symm⟩
    · exact .inr ⟨same, there same ▸ stored⟩
  have recorded : ∀ {index}, RecordedBlock (media.view.apply batch) index →
      c.Covers index ∨ RecordedBlock media.view index := by
    rintro index ⟨cid, c', stored, covers⟩
    rcases found stored with ⟨-, rfl⟩ | ⟨-, old⟩
    · exact .inl covers
    · exact .inr ⟨cid, c', old, covers⟩
  refine ⟨inv.toMediaOk.commit ?_ ?_ kept, ?_⟩
  · constructor
    · intro cid c' stored
      rcases found stored with ⟨same, rfl⟩ | ⟨-, old⟩
      · exact same.symm
      · exact inv.records.ident old
    · intro cid c' stored
      rcases found stored with ⟨-, rfl⟩ | ⟨-, old⟩
      · exact inside
      · exact inv.records.inside old
    · intro cid c' stored
      rcases found stored with ⟨-, rfl⟩ | ⟨-, old⟩
      · exact offset
      · exact inv.records.offset old
    · intro cid c₁ cid' c₂ first second different index
      rcases found first with ⟨same₁, rfl⟩ | ⟨other₁, old₁⟩
      · rcases found second with ⟨same₂, rfl⟩ | ⟨other₂, old₂⟩
        · exact absurd (same₁.trans same₂.symm) different
        · exact apart old₂ other₂ index
      · rcases found second with ⟨same₂, rfl⟩ | ⟨other₂, old₂⟩
        · exact fun covers again => apart old₁ other₁ index again covers
        · exact inv.records.disjoint old₁ old₂ different index
  · exact fun index block => (recorded block).elim (marked index) (inv.marked index)
  · rw [Media.view_commit]
    exact ⟨inv.memory.sb, inv.memory.numPages, inv.memory.reserved,
      fun index block => (recorded block).elim (loaded index) (inv.memory.marked index), activeOk⟩

/-- The record of the active chunk may be brought up to date: with a snapshot, or sealed. -/
theorem BaseInv.put_active (inv : BaseInv options layout mem media) {sync : Bool} {batch : Batch}
    {a c : Chunk} (current : mem.active = some a) (ident : c.chunkId = a.chunkId)
    (lba : c.lbaStart = a.lbaStart) (offset : c.OffsetOk)
    (member : .chunk c ∈ batch) (only : ∀ other, MetaPut.chunk other ∈ batch → other = c)
    {active : Option Chunk}
    (activeOk : ∀ a, active = some a → ActiveOk (media.view.apply batch) a) :
    BaseInv options layout { mem with active } (media.commit sync batch) := by
  obtain ⟨r, record, same, -, -⟩ := (inv.memory.active a current).record
  have covers : ∀ index, c.Covers index ↔ r.Covers index := by
    intro index
    rw [Chunk.Covers, Chunk.Covers, lba, same]
  have block : ∀ index, c.Covers index → RecordedBlock media.view index :=
    fun index covered => ⟨a.chunkId, r, record, (covers index).mp covered⟩
  refine inv.put_chunk member only offset ?_ (fun index covered =>
    inv.marked index (block index covered))
    (fun index covered => inv.memory.marked index (block index covered)) ?_ ?_ activeOk
  · rw [lba, ← same]
    exact inv.records.inside record
  · intro cid c' stored different index covered
    rw [ident] at different
    exact inv.records.disjoint record stored different.symm index ((covers index).mp covered)
  · rintro - index ⟨cid, c', stored, covered⟩
    by_cases replaced : cid = c.chunkId
    · refine ⟨c.chunkId, c, Db.chunk?_apply_of_mem member only, (covers index).mpr ?_⟩
      rw [replaced, ident, record, Option.some.injEq] at stored
      rwa [stored]
    · refine ⟨cid, c', ?_, covered⟩
      rwa [Db.chunk?_apply_of_not_mem fun other listed => only other listed ▸ Ne.symm replaced]

end Records

end MiniFs.ObjStore
