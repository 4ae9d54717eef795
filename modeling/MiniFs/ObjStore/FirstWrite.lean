import MiniFs.ObjStore.Discipline

/-!
# The first write of a store

On a fresh device a store is opened, an object is created, and a write to it takes the first chunk.
Nothing fails, so the media after the write and after another opening can be written down.
-/

namespace MiniFs.ObjStore

/-- The memory of a store that has taken a chunk id. -/
def StoreMem.named (mem : StoreMem) (mount : NebulaMount) : StoreMem :=
  { mem with mount := mount, nextChunkId := mem.nextChunkId + 1 }

/-- The reservation of some bytes from a fresh chunk, and the chunk after it. -/
def freshCarve (cid : UInt32) (start : Nat) (n : UInt32) (positive : 0 < n) : Reservation × Chunk :=
  (freshChunk cid start).carve n (freshChunk_room cid start) positive

/-- The memory after a reservation from a fresh chunk. -/
def StoreMem.carved (mem : StoreMem) (mount : NebulaMount) (chunk : Chunk) : StoreMem :=
  { mem.named mount with active := some chunk }

/-- The media after a chunk has been allocated and recorded. -/
def Media.recorded (media : Media) (disk : Disk) (cid : UInt32) (start : Nat) : Media :=
  ((media.withDisk disk).commit true [.nextChunk (cid + 1)]).commit true
    [.chunk (freshChunk cid start)]

/-- The batch of a write of one segment. -/
def oneSegmentBatch (oid : UInt64) (a : ObjectAttrs) (len : Nat) (carved : Reservation × Chunk) :
    Batch :=
  carved.1.staged oid a.size ++ [.attrs (a.grown len 1 0)] ++ [.chunk carved.2]

section Batch

variable {media : Media} {disk : Disk} {cid : UInt32} {start len : Nat} {db : Db} {oid : UInt64}
  {a : ObjectAttrs} {carved : Reservation × Chunk}

theorem Media.recorded_lookup {key : MetaKey} (record : ∀ cid, key ≠ .chunk cid)
    (counter : key ≠ .nextChunk) :
    (media.recorded disk cid start).view.lookup key = media.view.lookup key := by
  simp only [Media.recorded, Media.view_commit, Media.view_withDisk]
  rw [Db.lookup_apply_of_not_mem (by simpa [MetaPut.key] using fun same => record _ same.symm),
    Db.lookup_apply_of_not_mem (by simpa [MetaPut.key] using fun same => counter same.symm)]

theorem oneSegmentBatch_path {path : ByteString} :
    (db.apply (oneSegmentBatch oid a len carved)).lookup (.path path) = db.lookup (.path path) :=
  Db.lookup_apply_of_not_mem (by
    simp [oneSegmentBatch, Reservation.staged, stageChunkRev, MetaPut.key])

theorem oneSegmentBatch_attrs :
    (db.apply (oneSegmentBatch oid a len carved)).lookup (.attrs a.objectId) =
      some (ObjectAttrs.layout.bytes (a.grown len 1 0)) :=
  @Db.lookup_apply_of_mem _ _ (.attrs (a.grown len 1 0)) (by simp [oneSegmentBatch]) (by
    simp [oneSegmentBatch, Reservation.staged, stageChunkRev, MetaPut.key])

theorem oneSegmentBatch_extent :
    (db.apply (oneSegmentBatch oid a len carved)).extent? oid a.size = some carved.1.extent := by
  have stored := @Db.lookup_apply_of_mem db (oneSegmentBatch oid a len carved)
    (.extent oid a.size carved.1.extent) (by simp [oneSegmentBatch, Reservation.staged]) (by
      simp [oneSegmentBatch, Reservation.staged, stageChunkRev, MetaPut.key])
  simp only [MetaPut.key] at stored
  rw [Db.extent?, stored, MetaPut.value, Option.bind_some, Packed.ofBytes?_bytes]

end Batch

section OneSegment

variable {mem : StoreMem} {media : Media} {start : Nat} {disk after : Disk} {mount : NebulaMount}
  {cid n : UInt32} {positive : 0 < n} {oid : UInt64} {a : ObjectAttrs} {path : ByteString}
  {data : List UInt8}

theorem freshCarve_physicalLba :
    (freshCarve cid start n positive).1.physicalLba = UInt64.ofNat start := by
  show UInt64.ofNat start + ((0 : UInt32) / 4096).toUInt64 = _
  rw [show ((0 : UInt32) / 4096).toUInt64 = 0 from rfl, UInt64.add_zero]

theorem freshCarve_lengthBytes (small : n ≤ 67108864) :
    (freshCarve cid start n positive).1.lengthBytes = n := by
  have ok : (freshChunk cid start).OffsetOk := ⟨rfl, Nat.zero_le _⟩
  have length := (Chunk.fit_eq ok n).1
  rw [UInt32.le_iff_toNat_le] at small
  rw [← UInt32.toNat_inj]
  exact length.trans (min_eq_left (show n.toNat ≤ 67108864 - 0 from small))

theorem reserve_run (idle : mem.active = none)
    (allocated :
      nebulaBlockAlloc .ok media.disk mem.mount kChunkBlocks = (.ok start, disk, mount)) :
    (reserve n mem).run okExec media =
      ((.ok (freshCarve mem.nextChunkId start n positive).1,
          mem.carved mount (freshCarve mem.nextChunkId start n positive).2),
        media.recorded disk mem.nextChunkId start) := by
  have alloc : okExec (.blockAlloc mem.mount kChunkBlocks) media =
      ((.ok start, mount), media.withDisk disk) := by
    rw [okExec, PrimOp.exec, allocated]
  rw [reserve, dif_pos positive, idle, reserveFresh, Prog.run_call, alloc]
  rfl

theorem okExec_ioWrite {blocks : List Block} (here : media.disk = disk)
    (inside : start + blocks.length ≤ disk.capacityBlocks) :
    okExec (.ioWrite (UInt64.ofNat start).toNat blocks) media =
      (.ok (), media.withDisk (disk.push (rangeWrites start blocks))) := by
  have bound := disk.capacity_lt
  subst here
  rw [UInt64.toNat_ofNat', Nat.mod_eq_of_lt (by omega), okExec, PrimOp.exec,
    nebulaIoWrite_fault_free inside]

/-- The data path of a single byte. -/
theorem writeSegment_byte {byte : UInt8} (here : media.disk = disk)
    (inside : start + 1 ≤ disk.capacityBlocks) :
    ((writeSegment [byte] (freshCarve cid start 1 (by decide)).1).refine storeSem mem).run okExec
        media =
      ((.ok (), mem), media.withDisk (disk.push (rangeWrites start (toBlocks 1 [byte])))) := by
  have bulk : (freshCarve cid start 1 (by decide)).1.bulkBytes = 0 := by
    rw [Reservation.bulkBytes, freshCarve_lengthBytes (by decide)]
    rfl
  rw [writeSegment, bulk, if_neg (by decide), writeTail, bulk, freshCarve_lengthBytes (by decide),
    freshCarve_physicalLba, if_pos (by decide), Prog.refine_call,
    show ((0 : UInt32) / 4096).toUInt64 = 0 from rfl, UInt64.add_zero, storeSem]
  show ((_ : PrimProg _) >>= _).run _ _ = _
  rw [Prog.run_bind, Prog.run_call, show List.drop (0 : UInt32).toNat [byte] = [byte] from rfl,
    okExec_ioWrite here inside]
  rfl

section Calls

variable (some_ : data ≠ []) (length : data.length = n.toNat) (small : n ≤ 67108864)
  (idle : mem.active = none)
  (allocated : nebulaBlockAlloc .ok media.disk mem.mount kChunkBlocks = (.ok start, disk, mount))
  (wrote : ((writeSegment data (freshCarve mem.nextChunkId start n positive).1).refine storeSem
      (mem.carved mount (freshCarve mem.nextChunkId start n positive).2)).run okExec
        (media.recorded disk mem.nextChunkId start) =
    ((.ok (), mem.carved mount (freshCarve mem.nextChunkId start n positive).2),
      (media.recorded disk mem.nextChunkId start).withDisk after))

include some_ length small idle allocated wrote

theorem writeLoop_run (logical : UInt64) :
    ((writeLoop oid data logical [] 0).refine storeSem mem).run okExec media =
      ((.ok ((freshCarve mem.nextChunkId start n positive).1.staged oid logical, 1),
          mem.carved mount (freshCarve mem.nextChunkId start n positive).2),
        (media.recorded disk mem.nextChunkId start).withDisk after) := by
  have ended : ∀ logical batch, writeLoop oid [] logical batch 1 = .ret (.ok (batch, 1)) := by
    intro logical batch
    rw [writeLoop, dif_pos rfl]
  have bound := UInt32.le_iff_toNat_le.mp small
  have wanted : UInt32.ofNat (min data.length 4294967295) = n := by
    rw [length, min_eq_left (bound.trans (by decide)), UInt32.ofNat_toNat]
  rw [writeLoop, dif_neg some_, Prog.refine_call, wanted]
  show (reserve n mem >>= _).run _ _ = _
  rw [Prog.run_bind, @reserve_run mem media start disk mount n positive idle allocated]
  simp only [freshCarve_lengthBytes small, ← length, List.take_length, List.drop_length,
    show (0 : UInt64) + 1 = 1 from rfl, ended]
  rw [Prog.refine_bind, Prog.run_bind, wrote]
  rfl

/-- A write of one segment to an object, by a store without an active chunk. -/
theorem write_run (valid : validateObjectPath path = true)
    (bound : media.view.lookup (.path path) = some (Packed.u64.bytes oid))
    (attrs : media.view.lookup (.attrs oid) = some (ObjectAttrs.layout.bytes a)) :
    ((write path (.bytes data) 0).refine storeSem mem).run okExec media =
      ((.ok (), mem.carved mount (freshCarve mem.nextChunkId start n positive).2),
        ((media.recorded disk mem.nextChunkId start).withDisk after.flush).commit mem.syncMetadata
          (oneSegmentBatch oid a data.length (freshCarve mem.nextChunkId start n positive))) := by
  have first : okExec (.get (.path path)) media = (.ok (some (Packed.u64.bytes oid)), media) :=
    Prod.ext (congrArg Except.ok bound) rfl
  have second :
    okExec (.get (.attrs oid)) media = (.ok (some (ObjectAttrs.layout.bytes a)), media) :=
    Prod.ext (congrArg Except.ok attrs) rfl
  have fits := UInt32.le_iff_toNat_le.mp small
  rw [write, valid, if_neg (by decide), if_neg (by simp [Source.isNull]), writeObject,
    Prog.refine_call]
  simp only [storeSem, Prog.run_bind, Prog.run_call, Prog.run_ret, first, statusOfGet,
    decodePathGet, Packed.ofBytes?_bytes, Prog.refine_call, second, decodeAttrsGet]
  rw [show (Source.bytes data).len = data.length from rfl, if_neg (by simpa using some_), if_neg (by
    rw [length, Nat.not_lt]
    exact fits.trans (by decide)), Prog.refine_bind, Prog.run_bind,
    show (Source.bytes data).data = data from rfl,
    @writeLoop_run mem media start disk after mount n positive oid data some_ length small idle
      allocated wrote]
  rfl

end Calls

end OneSegment

/-- A fresh device of 256 MiB has room for two chunks. -/
theorem plainDisk_two_chunks : ∃ layout mount,
    nebulaMountDo (fun _ => zeroBlock) (plainDisk 65536 (by decide)) = .ok mount ∧
    Volume.Exact plainOptions.uuid layout ⟨plainDisk 65536 (by decide), mount⟩ ∧
    layout.dataStartLba + (kChunkBlocks + kChunkBlocks) ≤ layout.capacityBlocks ∧
    FreeRun (bitGet mount.bitmap.l0Bits) (kChunkBlocks + kChunkBlocks) layout.dataStartLba := by
  obtain ⟨layout, mount, computed, mounts, exact, -, total, bits⟩ :=
    @plainDisk_mounted 65536 le_rfl (by decide) (by decide)
  have inodes : layout.inodePageBlockCount = 8192 := by
    have small : (nebulaLayoutComputeEx 65536 plainOptions.inodeSize).map
        NebulaLayout.inodePageBlockCount = .ok 8192 := by decide
    rw [computed] at small
    simpa [Except.map] using small
  have sound := exact.sound
  have data := sound.dataStart_eq
  have dir := sound.dir_eq
  have dirs := sound.dirCount_eq
  have inode := sound.inode_eq
  have streams := sound.streamMapCount_eq
  have stream := sound.streamMap_eq
  have bitmap := sound.bitmap_eq
  have tight := sound.bitmap_tight
  have tail := sound.allocRootsTail_eq
  have two : kChunkBlocks + kChunkBlocks = 32768 := rfl
  rw [two]
  refine ⟨layout, mount, mounts, exact, by omega, fun offset below => ?_⟩
  rw [bits _ (by omega), lbaIsMetadata_data (by omega) (by omega)]

section Reopen

variable {media : Media} {mount : NebulaMount} {root : ByteString} {nextObjectId : UInt64}
  {nextChunkId : UInt32} {active : Option Chunk}

/-- The scan stops at the first missing record. -/
theorem scanChunks_missing {id : UInt32} (absent : media.view.lookup (.chunk id) = none)
    (fuel : Nat) :
    (scanChunks (fuel + 1) id active).run okExec media = (some (.ok active), media) := by
  have get : okExec (.get (.chunk id)) media = (.ok (media.view.lookup (.chunk id)), media) := rfl
  rw [scanChunks, Prog.run_call, get, absent]
  rfl

theorem scanChunks_found {id : UInt32} {c : Chunk} (found : media.view.chunk? id = some c)
    (fuel : Nat) : (scanChunks (fuel + 1) id active).run okExec media =
      (scanChunks fuel (id + 1) (if c.isSealed then active else some c)).run okExec media := by
  obtain ⟨bytes, stored, decoded⟩ := Option.bind_eq_some_iff.mp found
  have get : okExec (.get (.chunk id)) media = (.ok (media.view.lookup (.chunk id)), media) := rfl
  rw [scanChunks, Prog.run_call, get, stored]
  simp only [statusOfGet, decodeChunkGet, decoded]

/-- Opening a store that has been opened before. -/
theorem openStore_reopens (mounts : nebulaMountDo (fun _ => zeroBlock) media.disk = .ok mount)
    (entry : media.view.lookup (.path [47]) = some root)
    (schema : media.view.lookup .schema = some (Packed.u32.bytes kSchemaVersion))
    (objects : media.view.lookup .nextObj = some (Packed.u64.bytes nextObjectId))
    (chunks : media.view.lookup .nextChunk = some (Packed.u32.bytes nextChunkId))
    (scanned : (scanChunks (2 ^ 32) 1 none).run okExec
        (media.commit true [.nextObj nextObjectId, .nextChunk nextChunkId]) =
      (some (.ok active), media.commit true [.nextObj nextObjectId, .nextChunk nextChunkId])) :
    (openStore true).run okExec media =
      (some (.ok ⟨mount, nextObjectId, nextChunkId, active, true⟩),
        media.commit true [.nextObj nextObjectId, .nextChunk nextChunkId]) := by
  have mounted : okExec .mount media = (.ok mount, media) := Prod.ext mounts rfl
  have get : ∀ key, okExec (.get key) media = (.ok (media.view.lookup key), media) := fun _ => rfl
  have opened : openRootEntry.run okExec media = (.ok (), media) := by
    rw [openRootEntry, Prog.run_call, get, entry]
    rfl
  have checked : initOrCheckSchema.run okExec media = (.ok (), media) := by
    rw [initOrCheckSchema, Prog.run_call, get, schema]
    simp only [Packed.ofBytes?_bytes]
    rfl
  have counted : readCounters.run okExec media = (.ok (nextObjectId, nextChunkId),
      media.commit true [.nextObj nextObjectId, .nextChunk nextChunkId]) := by
    rw [readCounters, Prog.run_call, get, objects]
    simp only [counterOfGet, Packed.ofBytes?_bytes, Prog.run_call, get, chunks]
    rfl
  have metadata : metadataOpen.run okExec media = (.ok (nextObjectId, nextChunkId),
      media.commit true [.nextObj nextObjectId, .nextChunk nextChunkId]) := by
    rw [metadataOpen, Prog.run_bind, opened, Prog.run_bind, checked, counted]
  rw [openStore, Prog.run_call, mounted]
  simp only [Prog.run_bind, metadata, scanned, Prog.run_ret]

end Reopen

/-- The path `/a/b/c/d`. -/
def samplePath : ByteString := [47, 97, 47, 98, 47, 99, 47, 100]

/-- The memory of a new store after a create. -/
def createdMem (mount : NebulaMount) : StoreMem := { newMem mount with nextObjectId := 2 }

/-- A new store after a create of the sample path. -/
def createdMedia (disk : Disk) : Media :=
  ((openedMedia disk).commit true [.nextObj 2]).commit true
    [.attrs (newAttrs 1 0), .path samplePath 1]

theorem create_run (disk : Disk) (mount : NebulaMount) :
    ((create samplePath 0).refine storeSem (newMem mount)).run okExec (openedMedia disk) =
      ((.ok (), createdMem mount), createdMedia disk) := rfl

/-- A new store after a create of the sample path and a write of one byte to it. -/
def writtenMedia (disk base : Disk) (start : Nat) : Media :=
  (((createdMedia disk).recorded base 1 start).withDisk
    (base.push (rangeWrites start (toBlocks 1 [0]))).flush).commit true
      (oneSegmentBatch 1 (newAttrs 1 0) 1 (freshCarve 1 start 1 (by decide)))

section Written

variable {disk base : Disk} {start : Nat}

theorem writtenMedia_path {path : ByteString} :
    (writtenMedia disk base start).view.lookup (.path path) =
      (createdMedia disk).view.lookup (.path path) := by
  rw [writtenMedia, Media.view_commit, oneSegmentBatch_path, Media.view_withDisk,
    Media.recorded_lookup (by simp) (by simp)]

theorem writtenMedia_extent : (writtenMedia disk base start).view.extent? 1 0 =
    some (freshCarve 1 start 1 (by decide)).1.extent := by
  rw [writtenMedia, Media.view_commit]
  exact oneSegmentBatch_extent

end Written

/-- The memory after the write. -/
def writtenMem (mount : NebulaMount) (start : Nat) : StoreMem :=
  (createdMem mount).carved mount (freshCarve 1 start 1 (by decide)).2

/-- The log after the write. -/
def writtenLog : Log := Function.update (fun _ => none) samplePath (some [[0]])

theorem writtenLog_samplePath : writtenLog samplePath = some [[0]] := Function.update_self _ _ _

/-- An action that advances the object id counter to 2 only, and the chunk id counter to 2 and where
only the create has been. -/
def FirstAct (before : Media) (op : PrimOp) : Prop :=
  (∀ id, op = .write true [.nextObj id] → id = 2) ∧
    ∀ id, op = .write true [.nextChunk id] → id = 2 ∧ before.view = (createdMedia before.disk).view

theorem PrimOp.Opening.firstAct {op : PrimOp} (opening : op.Opening) (before : Media) :
    FirstAct before op := by
  constructor
  · rintro id rfl
    obtain ⟨version, wrong⟩ := opening _ rfl
    contradiction
  · rintro id rfl
    obtain ⟨version, wrong⟩ := opening _ rfl
    contradiction

section Run

variable {disk base : Disk} {start : Nat} {mount mount₁ : NebulaMount}

theorem create_runsBy :
    ((create samplePath 0).refine storeSem (newMem mount)).RunsBy okExec FirstAct
    (openedMedia disk) := by
  refine ⟨by simp [FirstAct], ⟨?_, by simp⟩, by simp [FirstAct], trivial⟩
  rintro id ⟨⟩
  rfl

theorem firstAct_of_putsOnly {op : PrimOp} (none : op.PutsOnly fun _ => False) (before : Media) :
    FirstAct before op := by
  constructor
  · rintro id rfl
    exact (none _ (.head _)).elim
  · rintro id rfl
    exact (none _ (.head _)).elim

variable (allocated : nebulaBlockAlloc .ok disk mount kChunkBlocks = (.ok start, base, mount₁))

include allocated

theorem reserve_runsBy :
    (reserve 1 (createdMem mount)).RunsBy okExec FirstAct (createdMedia disk) := by
  have alloc : okExec (.blockAlloc mount kChunkBlocks) (createdMedia disk) =
      ((.ok start, mount₁), (createdMedia disk).withDisk base) := by
    rw [okExec, PrimOp.exec, show (createdMedia disk).disk = disk from rfl, allocated]
  rw [reserve, dif_pos (by decide)]
  simp only [createdMem, newMem, reserveFresh, Prog.runsBy_call, alloc]
  refine ⟨by simp [FirstAct], ⟨by simp, ?_⟩, by simp [FirstAct], trivial⟩
  rintro id ⟨⟩
  exact ⟨rfl, rfl⟩

theorem writeLoop_runsBy : ((writeLoop 1 [0] 0 [] 0).refine storeSem (createdMem mount)).RunsBy
    okExec FirstAct (createdMedia disk) := by
  have reserved :=
    @reserve_run (createdMem mount) (createdMedia disk) start base mount₁ 1 (by decide)
    rfl allocated
  have ended : ∀ logical batch, writeLoop 1 [] logical batch 1 = .ret (.ok (batch, 1)) := by
    intro logical batch
    rw [writeLoop, dif_pos rfl]
  rw [writeLoop, dif_neg (by decide), Prog.refine_call]
  show (reserve 1 (createdMem mount) >>= _).RunsBy _ _ _
  rw [Prog.runsBy_bind, reserved]
  refine ⟨reserve_runsBy allocated, ?_⟩
  simp only [freshCarve_lengthBytes (show (1 : UInt32) ≤ 67108864 by decide), Prog.refine_bind,
    Prog.runsBy_bind]
  refine ⟨(writeSegment_issues _ _ _).runsBy (fun state op none => firstAct_of_putsOnly none state)
    _, ?_⟩
  generalize Prog.run okExec _ _ = wrote
  obtain ⟨⟨status | done, mem'⟩, media'⟩ := wrote
  · trivial
  · simp only [List.drop_length, show (1 : UInt32).toNat = [(0 : UInt8)].length from rfl,
      show (0 : UInt64) + 1 = 1 from rfl, ended]
    trivial

theorem write_runsBy (within : start + 1 ≤ base.capacityBlocks) :
    ((write samplePath (.bytes [0]) 0).refine storeSem (createdMem mount)).RunsBy
    okExec FirstAct (createdMedia disk) := by
  have first : okExec (.get (.path samplePath)) (createdMedia disk) =
      (.ok (some (Packed.u64.bytes 1)), createdMedia disk) := rfl
  have second : okExec (.get (.attrs 1)) (createdMedia disk) =
      (.ok (some (ObjectAttrs.layout.bytes (newAttrs 1 0))), createdMedia disk) := rfl
  have wrote :=
    @writeLoop_run (createdMem mount) (createdMedia disk) start base _ mount₁ 1 (by decide)
    1 [0] (by decide) rfl (by decide) rfl allocated (writeSegment_byte rfl within) 0
  rw [write, if_neg (by decide), if_neg (by decide), writeObject, Prog.refine_call]
  simp only [storeSem, Prog.runsBy_bind, Prog.runsBy_call, Prog.run_call, Prog.run_ret, first,
    statusOfGet, decodePathGet, Packed.ofBytes?_bytes, Prog.refine_call, second, decodeAttrsGet]
  refine ⟨⟨by simp [FirstAct], trivial⟩, ⟨by simp [FirstAct], trivial⟩, ?_⟩
  rw [if_neg (by decide), if_neg (by decide), Prog.refine_bind, Prog.runsBy_bind]
  refine ⟨writeLoop_runsBy allocated, ?_⟩
  rw [show Prog.run okExec ((writeLoop 1 (Source.bytes [0]).data (newAttrs 1 0).size [] 0).refine
    storeSem (createdMem mount)) (createdMedia disk) = _ from wrote]
  exact ⟨by simp [FirstAct], by simp [FirstAct, Reservation.staged], trivial⟩

end Run

/-- A fresh device of 256 MiB, and its first chunk. -/
theorem plainDisk_first_chunk : ∃ disk mount start base mount₁, FreshDevice disk ∧ BitmapFits disk ∧
    nebulaMountDo (fun _ => zeroBlock) disk = .ok mount ∧
    nebulaBlockAlloc .ok disk mount kChunkBlocks = (.ok start, base, mount₁) ∧
    start + 1 ≤ base.capacityBlocks := by
  obtain ⟨layout, mount, mounts, exact, inside, free⟩ := plainDisk_two_chunks
  have fresh : FreshDevice (plainDisk 65536 (by decide)) ∧
    BitmapFits (plainDisk 65536 (by decide)) := by
    obtain ⟨layout, mount, done, -, exact, total, -⟩ := plainDisk_volume
    refine ⟨⟨_, _, done⟩, ?_⟩
    rw [BitmapFits, exact.capacity, total]
    decide
  generalize plainDisk 65536 (by decide) = disk at mounts exact fresh
  obtain ⟨start, base, mount₁, before, allocated, later, -⟩ := exact.alloc_before
    (show 0 < kChunkBlocks by decide) (fun offset below => free offset (by omega)) (by omega)
  refine ⟨disk, mount, start, base, mount₁, fresh.1, fresh.2, mounts, allocated, ?_⟩
  rw [later.capacity]
  have two : kChunkBlocks + kChunkBlocks = 32768 := rfl
  omega

section Reached

variable {act : Option Call → Media → (op : PrimOp) → op.Res → Media → Prop}
  {crash : Media → Media → Prop} {disk base : Disk} {start : Nat} {mount mount₁ : NebulaMount}
  (lawful : ∀ call media op, FirstAct media op →
    act call media op (okExec op media).1 (okExec op media).2)

include lawful

theorem firstAct_opens (mounts : nebulaMountDo (fun _ => zeroBlock) disk = .ok mount) :
    SystemReaches act crash (freshSystem disk)
      ⟨openedMedia disk, .idle (newMem mount), fun _ => none⟩ := by
  exact freshSystem_opens (fun media op opening => lawful none media op (opening.firstAct _)) mounts

theorem firstAct_creates :
    SystemReaches act crash ⟨openedMedia disk, .idle (newMem mount), fun _ => none⟩
    ⟨createdMedia disk, .idle (createdMem mount),
      Function.update (fun _ => none) samplePath (some [])⟩ := by
  have created := (@create_runsBy disk mount).reaches (lawful (some (.create samplePath 0)))
  rw [create_run] at created
  exact @SystemReaches.call act crash _ _ (fun _ => none) (.create samplePath 0) _ _ _ created

theorem firstAct_writes
    (allocated : nebulaBlockAlloc .ok disk mount kChunkBlocks = (.ok start, base, mount₁))
    (within : start + 1 ≤ base.capacityBlocks) :
    SystemReaches act crash ⟨createdMedia disk, .idle (createdMem mount),
      Function.update (fun _ => none) samplePath (some [])⟩
      ⟨writtenMedia disk base start, .idle (writtenMem mount₁ start), writtenLog⟩ := by
  have wrote :=
    (write_runsBy allocated within).reaches (lawful (some (.write samplePath (.bytes [0]) 0)))
  rw [@write_run (createdMem mount) (createdMedia disk) start base _ mount₁ 1 (by decide) 1
    (newAttrs 1 0) samplePath [0] (by decide) rfl (by decide) rfl allocated
    (writeSegment_byte rfl within) (by decide) rfl rfl] at wrote
  have acknowledged := @SystemReaches.call act crash _ _
    (Function.update (fun _ => none) samplePath (some [])) (.write samplePath (.bytes [0]) 0) _ _ _
      wrote
  have log : Log.returned (Function.update (fun _ => none) samplePath (some []))
      (.write samplePath (.bytes [0]) 0) (.ok ()) = writtenLog := by
    simp [Log.returned, Call.acknowledge, Source.data, writtenLog]
  rwa [log] at acknowledged

theorem firstAct_written (mounts : nebulaMountDo (fun _ => zeroBlock) disk = .ok mount)
    (allocated : nebulaBlockAlloc .ok disk mount kChunkBlocks = (.ok start, base, mount₁))
    (within : start + 1 ≤ base.capacityBlocks) :
    SystemReaches act crash (freshSystem disk)
      ⟨writtenMedia disk base start, .idle (writtenMem mount₁ start), writtenLog⟩ :=
  ((firstAct_opens lawful mounts).trans (firstAct_creates lawful)).trans
    (firstAct_writes lawful allocated within)

end Reached

/-! ## Opening again -/

section Again

variable {disk base : Disk} {start : Nat} {mount mount₁ : NebulaMount}

/-- Where nothing is pending, nothing is lost. -/
theorem Media.crash_settled {media : Media} (flushed : media.disk.cells.pending = [])
    (synced : media.db.unsynced = []) : media.crash [] 0 = media := by
  obtain ⟨⟨capacity, ⟨durable, pending⟩, bound⟩, ⟨map, batches⟩⟩ := media
  obtain rfl : pending = [] := flushed
  obtain rfl : batches = [] := synced
  rfl

theorem recorded_lookups {db : Db} (same : ((createdMedia disk).recorded base 1 start).view = db) :
    db.lookup .nextObj = some (Packed.u64.bytes 2) ∧ db.lookup .nextChunk =
      some (Packed.u32.bytes 2) ∧ db.lookup .schema = some (Packed.u32.bytes kSchemaVersion) ∧
      db.lookup (.path [47]) = some (Packed.u64.bytes 0) ∧ db.lookup (.chunk 2) = none := by
  subst same
  refine ⟨?_, ?_, ?_, ?_, ?_⟩
  · rw [Media.recorded_lookup (by simp) (by simp)]
    rfl
  · simp only [Media.recorded, Media.view_commit, Media.view_withDisk]
    rw [Db.lookup_apply_of_not_mem (by simp [MetaPut.key])]
    exact @Db.lookup_apply_of_mem _ _ (.nextChunk 2) (by simp) (by simp)
  · rw [Media.recorded_lookup (by simp) (by simp)]
    rfl
  · rw [Media.recorded_lookup (by simp) (by simp)]
    rfl
  · simp only [Media.recorded, Media.view_commit, Media.view_withDisk]
    rw [Db.lookup_apply_of_not_mem (by simp [MetaPut.key, freshChunk]),
      Db.lookup_apply_of_not_mem (by simp [MetaPut.key])]
    rfl

theorem writtenMedia_chunk : (writtenMedia disk base start).view.chunk? 1 =
    some (freshCarve 1 start 1 (by decide)).2 := by
  rw [writtenMedia, Media.view_commit]
  exact @Db.chunk?_apply_of_mem _ _ (freshCarve 1 start 1 (by decide)).2
    (by simp [oneSegmentBatch]) (by simp [oneSegmentBatch, Reservation.staged, stageChunkRev])

/-- The device mounts after the write. -/
theorem writtenMedia_mounts (fresh : FreshDevice disk) (fits : BitmapFits disk)
    (mounts : nebulaMountDo (fun _ => zeroBlock) disk = .ok mount)
    (allocated : nebulaBlockAlloc .ok disk mount kChunkBlocks = (.ok start, base, mount₁))
    (within : start + 1 ≤ base.capacityBlocks) :
    ∃ mount', nebulaMountDo (fun _ => zeroBlock) (writtenMedia disk base start).disk =
      .ok mount' := by
  have actOk : ActOk False False fun before op answer after => okExec op before = (answer, after) :=
    { sub := fun acted => ⟨_, acted⟩
      freshObj := fun never => never.elim
      freshChunk := fun never => never.elim
      reads := by
        rintro before key answer after acted rfl
        exact nomatch congrArg Prod.fst acted }
  obtain ⟨options, layout, count, first⟩ := freshSystem_inv fresh fits False False
    fun before op answer after => okExec op before = (answer, after)
  have run := @firstAct_written (fun _ before op answer after => okExec op before = (answer, after))
    noCrash disk base start mount mount₁ (fun _ _ _ _ => rfl) mounts allocated within
  have inv := first.reaches actOk count (fun _ _ lost => lost.elim) run
  obtain ⟨mount', mounts', -⟩ :=
    inv.cut.media.device.mountable.nebulaMountDo_ok (fun _ => zeroBlock) count
  exact ⟨mount', mounts'⟩

theorem writtenMedia_reopens
    (mounts : nebulaMountDo (fun _ => zeroBlock) (writtenMedia disk base start).disk = .ok mount) :
    (openStore true).run okExec (writtenMedia disk base start) =
      (some (.ok ⟨mount, 2, 2, some (freshCarve 1 start 1 (by decide)).2, true⟩),
        (writtenMedia disk base start).commit true [.nextObj 2, .nextChunk 2]) := by
  obtain ⟨objects, chunks, schema, entry, missing⟩ := @recorded_lookups disk base start _ rfl
  have kept : ∀ {key}, (∀ put ∈ oneSegmentBatch 1 (newAttrs 1 0) 1
      (freshCarve 1 start 1 (by decide)), put.key ≠ key) →
      (writtenMedia disk base start).view.lookup key =
        ((createdMedia disk).recorded base 1 start).view.lookup key := by
    intro key apart
    rw [writtenMedia, Media.view_commit, Db.lookup_apply_of_not_mem apart, Media.view_withDisk]
  have others : (freshCarve 1 start 1 (by decide)).2.chunkId ≠ 2 :=
    show (1 : UInt32) ≠ 2 by decide
  have found : ((writtenMedia disk base start).commit true
      [.nextObj 2, .nextChunk 2]).view.chunk? 1 = some (freshCarve 1 start 1 (by decide)).2 := by
    rw [Media.view_commit, Db.chunk?_apply_of_not_mem (by simp), writtenMedia_chunk]
  have absent : ((writtenMedia disk base start).commit true
      [.nextObj 2, .nextChunk 2]).view.lookup (.chunk 2) = none := by
    rw [Media.view_commit, Db.lookup_apply_of_not_mem (by simp [MetaPut.key]), kept, missing]
    simpa [oneSegmentBatch, Reservation.staged, stageChunkRev, MetaPut.key] using others
  refine openStore_reopens mounts ((kept ?_).trans entry) ((kept ?_).trans schema)
    ((kept ?_).trans objects) ((kept ?_).trans chunks) ?_
  · simp [oneSegmentBatch, Reservation.staged, stageChunkRev, MetaPut.key]
  · simp [oneSegmentBatch, Reservation.staged, stageChunkRev, MetaPut.key]
  · simp [oneSegmentBatch, Reservation.staged, stageChunkRev, MetaPut.key]
  · simp [oneSegmentBatch, Reservation.staged, stageChunkRev, MetaPut.key]
  · rw [show (2 ^ 32 : Nat) = 4294967294 + 1 + 1 from rfl, scanChunks_found found]
    exact scanChunks_missing absent _

theorem firstAct_reopens {act : Option Call → Media → (op : PrimOp) → op.Res → Media → Prop}
    {crash : Media → Media → Prop} {log : Log}
    (lawful : ∀ call media op, FirstAct media op →
      act call media op (okExec op media).1 (okExec op media).2)
    (mounts : nebulaMountDo (fun _ => zeroBlock) (writtenMedia disk base start).disk = .ok mount) :
    SystemReaches act crash ⟨writtenMedia disk base start, .closed, log⟩
      ⟨(writtenMedia disk base start).commit true [.nextObj 2, .nextChunk 2],
        .idle ⟨mount, 2, 2, some (freshCarve 1 start 1 (by decide)).2, true⟩, log⟩ := by
  have runs : (openStore true).RunsBy okExec FirstAct (writtenMedia disk base start) :=
    (openStore_opening true).runsBy (fun _ _ opening => opening.firstAct _) _
  have reach := runs.reaches (lawful none)
  rw [writtenMedia_reopens mounts] at reach
  exact .head (.openStore true) ((SystemReaches.opening reach).tail .opened)

end Again

/-- A run without failures: a store is opened on a fresh device, an object is created, a byte is
written to it, and the store is opened again. -/
structure FirstRun (act : Option Call → Media → (op : PrimOp) → op.Res → Media → Prop)
    (crash : Media → Media → Prop) (disk : Disk) (media media' : Media)
    (mem mem' : StoreMem) : Prop where
  fresh : FreshDevice disk
  fits : BitmapFits disk
  written : SystemReaches act crash (freshSystem disk) ⟨media, .idle mem, writtenLog⟩
  flushed : media.disk.cells.pending = []
  synced : media.db.unsynced = []
  reopened : SystemReaches act crash ⟨media, .closed, writtenLog⟩ ⟨media', .idle mem', writtenLog⟩
  adopted : ∃ c, media'.view.chunk? 1 = some c ∧ c.isSealed = false ∧ mem'.active = some c

/-- There is such a run wherever its actions are allowed. -/
theorem firstRun {act : Option Call → Media → (op : PrimOp) → op.Res → Media → Prop}
    (lawful : ∀ call media op, FirstAct media op →
      act call media op (okExec op media).1 (okExec op media).2)
    (crash : Media → Media → Prop) :
    ∃ disk media media' mem mem', FirstRun act crash disk media media' mem mem' := by
  obtain ⟨disk, mount, start, base, mount₁, fresh, fits, mounts, allocated, within⟩ :=
    plainDisk_first_chunk
  obtain ⟨mount', mounts'⟩ := writtenMedia_mounts fresh fits mounts allocated within
  refine ⟨disk, _, _, _, _, fresh, fits, firstAct_written lawful mounts allocated within, rfl, rfl,
    firstAct_reopens lawful mounts', (freshCarve 1 start 1 (by decide)).2, ?_, rfl, rfl⟩
  rw [Media.view_commit, Db.chunk?_apply_of_not_mem (by simp), writtenMedia_chunk]

end MiniFs.ObjStore
