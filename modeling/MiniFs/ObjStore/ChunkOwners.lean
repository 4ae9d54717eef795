import MiniFs.ObjStore.AppendLog

/-!
# Chunk ownership across losses of power

The record of a new chunk is synced before the bitmap page that marks its blocks is flushed.  A loss
of power in between may keep the record and lose the page; the blocks are then free in the bitmap
that the next mount loads.  Nothing else can part the two.
-/

namespace MiniFs.ObjStore

/-- A loss of power: some of the unflushed block writes and of the unsynced batches are lost. -/
def anyLoss (media left : Media) : Prop :=
  ∃ kept batches, kept.Sublist media.disk.cells.pending ∧ left = media.crash kept batches

/-- Where the bitmap page of a block is. -/
def bitmapPageLba (index : Nat) : Nat := 131 + index / bitmapBitsPerPage

/-- The bitmap page has the bit of the block set. -/
def MarkedIn (index : Nat) (image : Block) : Prop := bitGet (fun _ => image) index = true

/-- What writes put into the bitmap page of a block, in order. -/
def pageImages (index : Nat) (writes : List (Nat × Block)) : List Block :=
  (writes.filter (·.1 = bitmapPageLba index)).map Prod.snd

/-- The mark of a block outlives a loss of power: the page as last flushed has it and so has every
write of the page since, or a write is kept from which on every write of the page has it. -/
def MarkOutlives (disk : Disk) (kept : List (Nat × Block)) (index : Nat) : Prop :=
  MarkedIn index (disk.cells.durable (bitmapPageLba index)) ∧
      (∀ image ∈ pageImages index disk.cells.pending, MarkedIn index image) ∨
    ∃ older newer older' newer', pageImages index disk.cells.pending = older ++ newer ∧
      pageImages index kept = older' ++ newer' ∧ older'.Sublist older ∧ newer'.Sublist newer ∧
      newer' ≠ [] ∧ ∀ image ∈ newer, MarkedIn index image

/-- A loss of power that spares the bitmap pages of the recorded chunks that are left, or what these
say of the chunks. -/
def recordedLoss (media left : Media) : Prop :=
  ∃ kept batches, kept.Sublist media.disk.cells.pending ∧ left = media.crash kept batches ∧
    ∀ index, RecordedBlock left.view index →
      pageImages index kept = pageImages index media.disk.cells.pending ∨
        MarkOutlives media.disk kept index

/-- In every run, an open store has the blocks of every recorded chunk marked in the bitmap that it
loaded, and no two records share a block. -/
def ChunksOwned (act : Media → (op : PrimOp) → op.Res → Media → Prop)
    (crash : Media → Media → Prop) (disk : Disk) : Prop :=
  ∀ media mem log, SystemReaches (fun _ => act) crash (freshSystem disk) ⟨media, .idle mem, log⟩ →
    (∀ index, RecordedBlock media.view index → bitGet mem.mount.bitmap.l0Bits index = true) ∧
    ∀ cid c cid' c', media.view.chunk? cid = some c → media.view.chunk? cid' = some c' →
      cid ≠ cid' → ∀ index, c.Covers index → ¬ c'.Covers index

section Loss

variable {options : FormatOptions} {layout : NebulaLayout} {disk : Disk} {media left : Media}

theorem DeviceOk.cut (ok : DeviceOk options layout disk) {kept : List (Nat × Block)}
    (sub : kept.Sublist disk.cells.pending) : DeviceOk options layout (disk.cut kept) where
  mountable := ok.mountable.of_content rfl fun lba head => by
    have settled : disk.cells.Settled lba := fun write member => by
      have := ok.pending_ge write member
      omega
    exact (settled.cut sub).trans settled.content_eq.symm
  pending_ge := fun write member => absurd member (List.not_mem_nil)
  reserved := by
    intro page inside image held
    rcases held with rfl | member
    · apply applyWrites_of_forall _ sub
      · exact ok.reserved page inside _ (.inl rfl)
      · rintro ⟨cell, image⟩ member rfl
        exact ok.reserved page inside image (.inr member)
    · exact absurd member List.not_mem_nil

/-- The last image of a page is one of its writes, or the page as it was. -/
theorem getLast_getD {images : List Block} {base : Block} {P : Block → Prop} (initially : P base)
    (written : ∀ image ∈ images, P image) : P (images.getLast?.getD base) := by
  cases last : images.getLast? with
  | none => exact initially
  | some image => exact written image (List.mem_of_getLast? last)

theorem applyWrites_pageImages (base : Nat → Block) (index : Nat) (writes : List (Nat × Block)) :
    applyWrites base writes (bitmapPageLba index) =
      (pageImages index writes).getLast?.getD (base (bitmapPageLba index)) :=
  applyWrites_eq_getLast base writes _

/-- A mark that outlives the loss is there after it. -/
theorem MarkOutlives.marked {kept : List (Nat × Block)} {index : Nat}
    (outlives : MarkOutlives disk kept index) (sub : kept.Sublist disk.cells.pending) :
    MarkedIn index (applyWrites disk.cells.durable kept (bitmapPageLba index)) := by
  rw [applyWrites_pageImages]
  rcases outlives with ⟨flushed, since⟩ |
    ⟨older, newer, older', newer', -, left, -, later, some, marks⟩
  · have fewer : (pageImages index kept).Sublist (pageImages index disk.cells.pending) :=
      (sub.filter _).map _
    exact getLast_getD flushed fun image member => since image (fewer.subset member)
  · have ends := List.getLast?_eq_some_getLast some
    rw [left, List.getLast?_append, ends]
    exact marks _ (later.subset (List.mem_of_getLast? ends))

/-- A loss that spares the pages of the recorded chunks keeps the invariant. -/
theorem MediaOk.recordedLoss (ok : MediaOk options layout media) (lost : recordedLoss media left) :
    MediaOk options layout left := by
  obtain ⟨kept, batches, sub, rfl, spared⟩ := lost
  obtain ⟨records, older⟩ := ok.past _ (media.db.recoverable_crash batches)
  have view : (media.crash kept batches).view = (media.db.crash batches).view := rfl
  refine ⟨ok.device.cut sub, records, ?_, ?_⟩
  · intro index recorded
    have page : layout.bitmapLba + index / 32768 = bitmapPageLba index := by
      rw [ok.sound.bitmap_eq]
      rfl
    rw [← bitGet_image]
    show MarkedIn index (applyWrites media.disk.cells.durable kept _)
    rw [page]
    rcases spared index recorded with same | outlives
    · have marked := ok.marked index (older index recorded)
      rw [← bitGet_image] at marked
      change MarkedIn index
        (applyWrites media.disk.cells.durable media.disk.cells.pending _) at marked
      rw [page, applyWrites_pageImages] at marked
      rwa [applyWrites_pageImages, same]
    · exact outlives.marked sub
  · intro recovered recoverable
    have only : recovered = (media.crash kept batches).view := by
      obtain ⟨rest, rfl⟩ := recoverable
      simp [Media.crash, Media.view, LoggedMap.crash, LoggedMap.view]
    rw [only]
    exact ⟨records, fun index recorded => recorded⟩

end Loss

theorem actOk_answeredAct : ActOk False False answeredAct where
  sub := fun acted => acted.1
  freshObj := fun never => never.elim
  freshChunk := fun never => never.elim
  reads := fun acted => acted.2

/-- On a freshly formatted device, recorded chunks stay owned in the runs in which no loss of power
takes a bitmap page of a recorded chunk. -/
theorem chunks_stay_owned {disk : Disk} (fresh : FreshDevice disk) (fits : BitmapFits disk) :
    ChunksOwned answeredAct recordedLoss disk := by
  intro media mem log run
  obtain ⟨options, layout, count, start⟩ := freshSystem_inv fresh fits False False answeredAct
  have survives : ∀ ⦃media left⦄, recordedLoss media left → MediaOk options layout media →
      ¬ False ∧ MediaOk options layout left := fun _ _ lost ok => ⟨id, ok.recordedLoss lost⟩
  have inv := start.reaches actOk_answeredAct count survives run
  cases inv with
  | idle L logs inv =>
      exact ⟨inv.memory.marked, fun cid c cid' c' found found' => inv.records.disjoint found found'⟩

/-- A run whose write is acknowledged, then a loss of power and another opening. -/
theorem chunks_stay_owned_plainDisk : ∃ disk media media' mem mem', FreshDevice disk ∧
    BitmapFits disk ∧
    SystemReaches (fun _ => answeredAct) recordedLoss (freshSystem disk)
      ⟨media, .idle mem, writtenLog⟩ ∧
    recordedLoss media (media.crash [] 0) ∧
    SystemReaches (fun _ => answeredAct) recordedLoss ⟨media.crash [] 0, .closed, writtenLog⟩
      ⟨media', .idle mem', writtenLog⟩ ∧
    writtenLog samplePath = some [[0]] ∧ (∃ c, media'.view.chunk? 1 = some c) ∧
    ChunksOwned answeredAct recordedLoss disk := by
  obtain ⟨disk, media, media', mem, mem', run⟩ :=
    firstRun (fun _ media op _ => answeredAct_okExec media op) recordedLoss
  obtain ⟨c, recorded, -⟩ := run.adopted
  refine ⟨disk, media, media', mem, mem', run.fresh, run.fits, run.written, ?_, ?_,
    writtenLog_samplePath, ⟨c, recorded⟩, chunks_stay_owned run.fresh run.fits⟩
  · exact ⟨[], 0, List.nil_sublist _, rfl, fun index _ => .inl (by rw [run.flushed])⟩
  · rw [Media.crash_settled run.flushed run.synced]
    exact run.reopened

/-- A new store whose first write has recorded its chunk, reopened after a loss of power. -/
theorem openStore_recorded {disk : Disk} {mount : NebulaMount} {start : Nat} {left : Media}
    (mounts : nebulaMountDo (fun _ => zeroBlock) disk = .ok mount) (device : left.disk = disk)
    (view : left.view = ((createdMedia disk).recorded disk 1 start).view) :
    (openStore true).run okExec left =
      (some (.ok ⟨mount, 2, 2, some (freshChunk 1 start), true⟩),
        left.commit true [.nextObj 2, .nextChunk 2]) := by
  have kept : ∀ key : MetaKey, (∀ cid, key ≠ .chunk cid) → key ≠ .nextChunk →
      left.view.lookup key = (createdMedia disk).view.lookup key := by
    intro key record counter
    rw [view, Media.recorded_lookup record counter]
  refine openStore_reopens (device ▸ mounts) (kept _ (by simp) (by simp)) ?_ ?_ ?_ ?_
  · rw [kept _ (by simp) (by simp)]
    rfl
  · rw [kept _ (by simp) (by simp)]
    rfl
  · rw [view]
    simp only [Media.recorded, Media.view_commit, Media.view_withDisk]
    rw [Db.lookup_apply_of_not_mem (by simp [MetaPut.key])]
    exact @Db.lookup_apply_of_mem _ _ (.nextChunk 2) (by simp) (by simp)
  · have found : (left.commit true [.nextObj 2, .nextChunk 2]).view.chunk? 1 =
        some (freshChunk 1 start) := by
      rw [Media.view_commit, Db.chunk?_apply_of_not_mem (by simp), view, Media.recorded,
        Media.view_commit]
      exact @Db.chunk?_apply_of_mem _ _ (freshChunk 1 start) (by simp) (by simp)
    have absent : (left.commit true [.nextObj 2, .nextChunk 2]).view.lookup (.chunk 2) = none := by
      rw [Media.view_commit, Db.lookup_apply_of_not_mem (by simp [MetaPut.key]), view]
      simp only [Media.recorded, Media.view_commit, Media.view_withDisk]
      rw [Db.lookup_apply_of_not_mem (by simp [MetaPut.key, freshChunk]),
        Db.lookup_apply_of_not_mem (by simp [MetaPut.key])]
      rfl
    rw [show (2 ^ 32 : Nat) = 4294967294 + 1 + 1 from rfl, scanChunks_found found]
    exact scanChunks_missing absent _

/-- A loss of power between the record of a chunk and the flush of its bitmap page. -/
theorem record_outlives_page :
    ¬ ∀ disk, FreshDevice disk → ChunksOwned answeredAct anyLoss disk := by
  intro claim
  obtain ⟨layout, mount, mounts, exact, inside, free⟩ := plainDisk_two_chunks
  have spec := claim (plainDisk 65536 (by decide)) (by
    obtain ⟨-, -, done, -⟩ := plainDisk_volume
    exact ⟨_, _, done⟩)
  have settled : (plainDisk 65536 (by decide)).cells.pending = [] := by
    obtain ⟨-, -, done, -⟩ := plainDisk_volume
    obtain ⟨-, -, -, -, settled, -⟩ := nebulaFormat_spec done
    exact settled
  generalize plainDisk 65536 (by decide) = disk at mounts exact spec settled
  obtain ⟨start, base, mount₁, before, allocated, -, -⟩ := exact.alloc_before
    (show 0 < kChunkBlocks by decide) (fun offset below => free offset (by omega)) (by omega)
  have opened := @freshSystem_opens (fun _ => answeredAct) anyLoss disk _
    (fun media op _ => answeredAct_okExec media op) mounts
  have created :=
    @create_reaches anyLoss (newMem mount) (openedMedia disk) (fun _ => none) samplePath
    (by decide) rfl
  obtain ⟨s, recorded, left⟩ :=
    @write_records (createdMedia disk) ((newMem mount).advanced 1) anyLoss
    start base mount₁ (Function.update (fun _ => none) samplePath (some []))
    (createdMedia_bound disk) rfl allocated
  -- the page write is lost, the record is not
  obtain ⟨same, unmarked⟩ : base.cut [] = disk ∧ bitGet mount.bitmap.l0Bits start = false := by
    have result := nebulaBlockAlloc_result .ok disk mount kChunkBlocks
    rw [show nebulaBlockAlloc .ok disk mount kChunkBlocks = _ from allocated] at result
    cases result with
    | ok _ _ run =>
        refine ⟨?_, run 0 (by decide)⟩
        obtain ⟨capacity, ⟨durable, pending⟩, bound⟩ := disk
        obtain rfl : pending = [] := settled
        rfl
  have lost : anyLoss s.media (s.media.crash [] 0) := ⟨[], 0, List.nil_sublist _, rfl⟩
  have device : (s.media.crash [] 0).disk = disk := by
    rw [left]
    exact same
  have view : (s.media.crash [] 0).view = ((createdMedia disk).recorded disk 1 start).view := by
    rw [left]
    rfl
  have reopen := Prog.reaches_run okExec answeredAct_okExec (openStore true) (s.media.crash [] 0)
  rw [openStore_recorded mounts device view] at reopen
  obtain ⟨owned, -⟩ := spec _ _ _ (((opened.trans created).trans recorded).trans
    (.head (.crash lost) (.head (.openStore true) ((SystemReaches.opening reopen).tail .opened))))
  have marked := owned start ⟨1, freshChunk 1 start, ?_, ?_⟩
  · exact absurd (unmarked.symm.trans marked) (by decide)
  · rw [Media.view_commit, Db.chunk?_apply_of_not_mem (by simp), view, Media.recorded,
      Media.view_commit]
    exact @Db.chunk?_apply_of_mem _ _ (freshChunk 1 start) (by simp) (by simp)
  · have bound := exact.capacity_lt
    have lba : (freshChunk 1 start).lbaStart.toNat = start := by
      show (UInt64.ofNat start).toNat = start
      rw [UInt64.toNat_ofNat', Nat.mod_eq_of_lt (by omega)]
    rw [Chunk.Covers, lba, kChunkBlocks]
    omega

end MiniFs.ObjStore
