import MiniFs.ObjStore.Calls

/-!
# The write call

The segment loop reserves space past everything committed or staged, so the blocks it writes belong
to no segment.  After the barrier the staged segments are durable, and the commit adds them to the
ledger together with the record of the chunk that holds them.
-/

namespace MiniFs.ObjStore

variable {options : FormatOptions} {layout : NebulaLayout} {Fresh Keyed : Prop} {L : Ledger}
  {Next : Ledger → Prop} {act : Media → (op : PrimOp) → op.Res → Media → Prop} {mem : StoreMem}
  {media : Media}

theorem mem_rangeWrites_toBlocks {lba n : Nat} {bytes : List UInt8} {write : Nat × Block}
    (member : write ∈ rangeWrites lba (toBlocks n bytes)) :
    ∃ k < n, write = (lba + k, padBlock bytes k) := by
  obtain ⟨k, inside, rfl⟩ := mem_rangeWrites.mp member
  rw [toBlocks, List.length_map, List.length_range] at inside
  refine ⟨k, inside, Prod.ext rfl ?_⟩
  funext index
  simp [toBlocks, padBlock]

theorem padBlock_take {data : List UInt8} {m k : Nat} (inside : (k + 1) * 4096 ≤ m) :
    padBlock (data.take m) k = padBlock data k := by
  funext index
  have bound := index.isLt
  simp only [padBlock, List.getD_eq_getElem?_getD]
  rw [List.getElem?_take_of_lt (by omega)]

theorem padBlock_drop (data : List UInt8) (m : Nat) :
    padBlock (data.drop (m * 4096)) 0 = padBlock data m := by
  funext index
  simp [padBlock, List.getD_eq_getElem?_getD]

/-- The reservation is for the data, and its blocks are in the data region and not in use. -/
structure Target (layout : NebulaLayout) (db : Db) (r : Reservation) (data : List UInt8) :
    Prop where
  length : data.length = r.lengthBytes.toNat
  inside : ∀ k < blocksFor data.length, InData layout (r.physicalLba.toNat + k) 1
  avoid : ∀ k < blocksFor data.length, ¬ UsedBlock db (r.physicalLba.toNat + k)

/-- Data writes to blocks that are not in use. -/
theorem StoreInv.push (inv : StoreInv options layout Fresh Keyed L mem media)
    {writes : List (Nat × Block)} (inside : ∀ write ∈ writes, InData layout write.1 1)
    (avoid : ∀ write ∈ writes, ¬ UsedBlock media.view write.1) :
    StoreInv options layout Fresh Keyed L mem (media.withDisk (media.disk.push writes)) where
  toMediaOk := inv.toMediaOk.push_data inside
  memory := inv.memory
  ids := inv.ids
  counter := inv.counter
  extents := inv.extents
  durable := fun fresh keyed => (inv.durable fresh keyed).push avoid
  objCounter := inv.objCounter

/-- A device write of a call. -/
theorem StoreInv.ioWrite (actOk : ActOk Fresh Keyed act)
    (inv : StoreInv options layout Fresh Keyed L mem media) {lba : Nat} {blocks : List Block}
    {answer : Except Errno Unit} {after : Media}
    (acted : act media (.ioWrite lba blocks) answer after)
    (inside : ∀ k < blocks.length, InData layout (lba + k) 1)
    (avoid : ∀ k < blocks.length, ¬ UsedBlock media.view (lba + k)) :
    CallStep options layout Fresh Keyed (fun L' => L' = L ∨ Next L') media (.ioWrite lba blocks)
        after ∧
      StoreInv options layout Fresh Keyed L mem after ∧
      ∃ part : List (Nat × Block), part.Sublist (rangeWrites lba blocks) ∧
        after = media.withDisk (media.disk.push part) ∧
        (answer = .ok () → part = rangeWrites lba blocks) := by
  obtain ⟨part, sub, rfl, whole⟩ := primAct_ioWrite (actOk.sub acted)
  have offset : ∀ write ∈ part, ∃ k < blocks.length, write.1 = lba + k := by
    intro write member
    obtain ⟨low, high⟩ := rangeWrites_bounds (sub.subset member)
    exact ⟨write.1 - lba, by omega, by omega⟩
  have inv' := @StoreInv.push _ _ _ _ _ _ _ inv part
    (fun write member => by
      obtain ⟨k, below, here⟩ := offset write member
      exact here ▸ inside k below)
    fun write member => by
      obtain ⟨k, below, here⟩ := offset write member
      exact here ▸ avoid k below
  refine ⟨⟨⟨inv'.toMediaOk, inv'.ids, inv'.extents,
    fun fresh keyed => ⟨L, .inl rfl, inv'.durable fresh keyed⟩⟩, ?_, fun _ => ChunksGrow.refl _⟩,
    inv', part, sub, rfl, whole⟩
  rintro index ⟨low, high⟩ used
  apply avoid (index - lba) (by omega)
  rwa [Nat.add_sub_cancel' low]

/-- What the data path of a segment leaves behind. -/
structure SegmentPost (options : FormatOptions) (layout : NebulaLayout) (Fresh Keyed : Prop)
    (L : Ledger) (mem : StoreMem) (media : Media) (lba : Nat) (data : List UInt8)
    (result : Except Status Unit × StoreMem) (media' : Media) : Prop where
  memory : result.2 = mem
  inv : StoreInv options layout Fresh Keyed L mem media'
  writes : ∃ writes, media' = media.withDisk (media.disk.push writes) ∧
    (∀ write ∈ writes, ∃ k < blocksFor data.length, write = (lba + k, padBlock data k)) ∧
    (result.1 = .ok () → ∀ k < blocksFor data.length, ∃ write ∈ writes, write.1 = lba + k)

/-- The two requests of a segment, in numbers. -/
theorem Target.split {db : Db} {r : Reservation} {data : List UInt8} (sound : layout.Sound)
    (small : layout.capacityBlocks < 2 ^ 52) (target : Target layout db r data) :
    r.bulkBytes.toNat = data.length / 4096 * 4096 ∧
      (r.bulkBytes / 4096).toNat = data.length / 4096 ∧
      (r.lengthBytes - r.bulkBytes).toNat = data.length % 4096 ∧
      (r.physicalLba + (r.bulkBytes / 4096).toUInt64).toNat =
        r.physicalLba.toNat + data.length / 4096 := by
  have positive := UInt32.lt_iff_toNat_lt.mp r.length_pos
  have length := target.length
  have first := (target.inside 0 (by rw [blocksFor]; simp at positive; omega)).lt_capacity sound
  have bound := r.lengthBytes.toNat_lt
  have bulk : r.bulkBytes.toNat = data.length / 4096 * 4096 := by
    rw [Reservation.bulkBytes, UInt32.toNat_mul, UInt32.toNat_div, length]
    exact Nat.mod_eq_of_lt (by simp; omega)
  have count : (r.bulkBytes / 4096).toNat = data.length / 4096 := by
    rw [UInt32.toNat_div, bulk]
    simp
  refine ⟨bulk, count, ?_, ?_⟩
  · rw [UInt32.toNat_sub_of_le _ _ (UInt32.le_iff_toNat_le.mpr (by rw [bulk]; omega)), bulk, length]
    omega
  · rw [UInt64.toNat_add, UInt32.toNat_toUInt64, count]
    exact Nat.mod_eq_of_lt (by omega)

/-- The padded last block of a segment, after its whole blocks. -/
theorem writeTail_safe (actOk : ActOk Fresh Keyed act) {r : Reservation} {data : List UInt8}
    {media₀ : Media} {writes : List (Nat × Block)}
    (inv : StoreInv options layout Fresh Keyed L mem (media₀.withDisk (media₀.disk.push writes)))
    (target : Target layout media₀.view r data)
    (images : ∀ write ∈ writes, ∃ k < blocksFor data.length,
      write = (r.physicalLba.toNat + k, padBlock data k))
    (all : ∀ k < data.length / 4096, ∃ write ∈ writes, write.1 = r.physicalLba.toNat + k) :
    ((writeTail data r).refine storeSem mem).Safe act
      (fun before op _ after =>
        CallStep options layout Fresh Keyed (fun L' => L' = L ∨ Next L') before op after)
      (SegmentPost options layout Fresh Keyed L mem media₀ r.physicalLba.toNat data)
      (media₀.withDisk (media₀.disk.push writes)) := by
  obtain ⟨bulkBytes, -, tailBytes, start⟩ :=
    target.split inv.sound inv.device.mountable.capacity_lt
  simp only [writeTail]
  split_ifs with some
  · intro answer after acted
    rw [UInt32.lt_iff_toNat_lt, tailBytes, UInt32.toNat_zero] at some
    have last : data.length / 4096 < blocksFor data.length := by
      rw [blocksFor]
      omega
    have place : ∀ k < (toBlocks 1 (data.drop r.bulkBytes.toNat)).length,
        (r.physicalLba + (r.bulkBytes / 4096).toUInt64).toNat + k =
          r.physicalLba.toNat + data.length / 4096 := by
      intro k below
      simp only [toBlocks, List.length_map, List.length_range] at below
      omega
    obtain ⟨step, inv', part, sub, rfl, whole⟩ := inv.ioWrite actOk acted
      (fun k below => place k below ▸ target.inside _ last)
      fun k below => place k below ▸ target.avoid _ last
    have tailImages : ∀ write ∈ part,
        write = (r.physicalLba.toNat + data.length / 4096, padBlock data (data.length / 4096)) := by
      intro write member
      obtain ⟨k, below, rfl⟩ := mem_rangeWrites_toBlocks (sub.subset member)
      obtain rfl : k = 0 := by omega
      rw [start, bulkBytes, padBlock_drop, Nat.add_zero]
    have merged : (media₀.withDisk (media₀.disk.push writes)).withDisk
        ((media₀.withDisk (media₀.disk.push writes)).disk.push part) =
        media₀.withDisk (media₀.disk.push (writes ++ part)) := by
      simp [Media.withDisk, Disk.push, WriteCache.push]
    refine ⟨step, ?_⟩
    have post : ∀ result : Except Status Unit, (result = .ok () → answer = .ok ()) →
        SegmentPost options layout Fresh Keyed L mem media₀ r.physicalLba.toNat data (result, mem)
          ((media₀.withDisk (media₀.disk.push writes)).withDisk
            ((media₀.withDisk (media₀.disk.push writes)).disk.push part)) := by
      intro result success
      refine ⟨rfl, inv', writes ++ part, merged, ?_, ?_⟩
      · intro write member
        rcases List.mem_append.mp member with old | new
        · exact images write old
        · exact ⟨_, last, tailImages write new⟩
      · intro done k below
        by_cases bulkBlock : k < data.length / 4096
        · obtain ⟨write, member, here⟩ := all k bulkBlock
          exact ⟨write, List.mem_append_left _ member, here⟩
        · obtain rfl : k = data.length / 4096 := by
            rw [blocksFor] at below
            omega
          refine ⟨_, List.mem_append_right _ (whole (success done) ▸ mem_rangeWrites.mpr
            ⟨0, by simp [toBlocks], rfl⟩), ?_⟩
          simp only [start, Nat.add_zero]
    cases answer with
    | ok done => exact post _ fun _ => rfl
    | error error => exact post _ (by simp)
  · rw [UInt32.lt_iff_toNat_lt, tailBytes, UInt32.toNat_zero] at some
    refine ⟨rfl, inv, writes, rfl, images, fun _ k below => all k ?_⟩
    rw [blocksFor] at below
    omega

/-- The data path of a segment writes the padded bytes to the target, or a part of them. -/
theorem writeSegment_safe (actOk : ActOk Fresh Keyed act)
    (inv : StoreInv options layout Fresh Keyed L mem media) {r : Reservation} {data : List UInt8}
    (target : Target layout media.view r data) :
    ((writeSegment data r).refine storeSem mem).Safe act
      (fun before op _ after =>
        CallStep options layout Fresh Keyed (fun L' => L' = L ∨ Next L') before op after)
      (SegmentPost options layout Fresh Keyed L mem media r.physicalLba.toNat data) media := by
  obtain ⟨bulkBytes, count, -, -⟩ :=
    target.split inv.sound inv.device.mountable.capacity_lt
  have idle : media = media.withDisk (media.disk.push []) := by simp
  rw [writeSegment]
  by_cases some : 0 < r.bulkBytes
  · rw [if_pos some]
    intro answer after acted
    have request : ∀ k < (toBlocks (r.bulkBytes / 4096).toNat
        (data.take (r.bulkBytes).toNat)).length, k < data.length / 4096 := by
      intro k below
      rwa [toBlocks, List.length_map, List.length_range, count] at below
    have within : ∀ k < data.length / 4096, k < blocksFor data.length := by
      intro k below
      rw [blocksFor]
      omega
    obtain ⟨step, inv', part, sub, rfl, whole⟩ := inv.ioWrite actOk acted
      (fun k below => target.inside k (within k (request k below)))
      fun k below => target.avoid k (within k (request k below))
    have images : ∀ write ∈ part, ∃ k < data.length / 4096,
        write = (r.physicalLba.toNat + k, padBlock data k) := by
      intro write member
      obtain ⟨k, below, rfl⟩ := mem_rangeWrites_toBlocks (sub.subset member)
      rw [count] at below
      refine ⟨k, below, ?_⟩
      rw [bulkBytes, padBlock_take (Nat.mul_le_mul_right 4096 below)]
    have images' : ∀ write ∈ part, ∃ k < blocksFor data.length,
        write = (r.physicalLba.toNat + k, padBlock data k) := by
      intro write member
      obtain ⟨k, below, here⟩ := images write member
      exact ⟨k, within k below, here⟩
    refine ⟨step, ?_⟩
    cases answer with
    | error error => exact ⟨rfl, inv', part, rfl, images', by simp⟩
    | ok done =>
        refine writeTail_safe actOk inv' target images' ?_
        intro k below
        refine ⟨_, whole rfl ▸ mem_rangeWrites.mpr ⟨k, ?_, rfl⟩, rfl⟩
        rwa [toBlocks, List.length_map, List.length_range, count]
  · rw [if_neg some]
    have none : data.length / 4096 = 0 := by
      rw [UInt32.lt_iff_toNat_lt, bulkBytes, UInt32.toNat_zero] at some
      omega
    have tailSafe := @writeTail_safe _ _ _ _ _ Next _ _ actOk r data media []
      (by simpa using inv) target (by simp) (by simp [none])
    rwa [← idle] at tailSafe

/-! ## The segment loop -/

/-- Segments that are on the device and not committed. -/
structure Staged (mem : StoreMem) (media : Media) (segs : List Segment) : Prop where
  apart : segs.Pairwise fun first second => first.entry.Apart second.entry
  fresh : ∀ ⦃oid off e⦄, media.view.extent? oid off = some e → ∀ seg ∈ segs, e.Apart seg.entry
  each : ∀ seg ∈ segs, ∃ c, media.view.chunk? seg.entry.chunkId = some c ∧
    seg.Written media.disk c ∧ seg.entry.stop ≤ reach media.view mem seg.entry.chunkId ∧
      seg.entry.stop ≤ 67108864

/-- The record of a chunk is not ahead of its reach. -/
theorem BaseInv.record_le_reach (inv : BaseInv options layout mem media) {cid : UInt32} {c : Chunk}
    (found : media.view.chunk? cid = some c) :
    c.writeOffset.toNat ≤ reach media.view mem cid := by
  cases current : mem.active with
  | none =>
      rw [reach_of_idle current, found]
      rfl
  | some a =>
      rw [reach_of_active current]
      split_ifs with same
      · obtain ⟨r, record, -, order, -⟩ := (inv.memory.active a current).record
        rw [same, found, Option.some.injEq] at record
        exact record ▸ UInt32.le_iff_toNat_le.mp order
      · rw [found]
        rfl

/-- Committed extents are within the reach of their chunks. -/
theorem StoreInv.stop_le_reach (inv : StoreInv options layout Fresh Keyed L mem media)
    (fresh : Fresh) {oid off : UInt64} {e : ExtentEntry}
    (stored : media.view.extent? oid off = some e) :
    e.stop ≤ reach media.view mem e.chunkId := by
  obtain ⟨c, found, inside⟩ := ((inv.extents fresh).placed stored).record
  exact inside.trans (inv.record_le_reach found)

/-- `reserve` as part of a call. -/
theorem reserve_callSafe (actOk : ActOk Fresh Keyed act)
    (inv : StoreInv options layout Fresh Keyed L mem media) (maxLength : UInt32) :
    (reserve maxLength mem).Safe act
      (fun before op _ after =>
        CallStep options layout Fresh Keyed (fun L' => L' = L ∨ Next L') before op after)
      (fun result media' => ReservePost options layout Fresh mem media maxLength result media' ∧
        StoreInv options layout Fresh Keyed L result.2 media') media := by
  have strong := @Prog.Safe.strengthen _ _ _ _ _ _
    (fun before op _ after =>
      CallStep options layout Fresh Keyed (fun L' => L' = L ∨ Next L') before op after) _
    (fun media' => RecordsOk layout media'.view ∧ (Fresh → ExtentsOk media'.view) ∧
      (Fresh → Keyed → Durable L media')) _ _
    (reserve_safe actOk inv.toEngineInv maxLength)
    ⟨inv.records, inv.extents, inv.durable⟩ fun before op _ after kept step =>
      ⟨⟨step.media.records, fun fresh => (kept.2.1 fresh).grow step.frame.extent?
        (step.frame.grow fresh), fun fresh keyed =>
          (kept.2.2 fresh keyed).chunkStep fresh kept.1 step⟩,
        CallStep.of_chunkStep kept.1 kept.2.1 kept.2.2 step⟩
  refine strong.mono fun result media' done => ⟨done.1, done.1.inv, done.2.2.1, done.2.2.2, ?_⟩
  intro keyed
  rw [Db.nextObj?, done.1.frame.other _ (by simp) (by simp), done.1.objectId]
  exact inv.objCounter keyed

/-- The segment that a reservation is for. -/
def Reservation.segment (r : Reservation) (data : List UInt8)
    (length : data.length = r.lengthBytes.toNat) (aligned : r.offsetBytes.toNat % 4096 = 0) :
    Segment where
  entry := r.extent
  data := data
  length_eq := length
  positive := length ▸ UInt32.lt_iff_toNat_lt.mp r.length_pos
  aligned := aligned

/-- Device pages below the data region do not touch a segment. -/
theorem Segment.Written.push_below {seg : Segment} {disk : Disk} {c : Chunk}
    (written : seg.Written disk c) (inside : InData layout c.lbaStart.toNat kChunkBlocks)
    {pages : List (Nat × Block)} (below : ∀ write ∈ pages, write.1 < layout.dataStartLba) :
    seg.Written (disk.push pages) c := by
  intro k bound
  rw [Disk.content_push, applyWrites_of_not_mem]
  · exact written k bound
  · intro write member
    have low := inside.1
    have high := below write member
    rw [ExtentEntry.lba]
    omega

section Reserved

variable {mem' : StoreMem} {media' : Media} {maxLength : UInt32} {r : Reservation}
  {segs : List Segment}

/-- A reservation leaves the staged segments in place. -/
theorem Staged.reserve (staged : Staged mem media segs) (fresh : Fresh)
    (inv : StoreInv options layout Fresh Keyed L mem media)
    (frame : ChunkFrame layout Fresh media media')
    (ok : ReserveOk Fresh mem media maxLength r mem' media') : Staged mem' media' segs where
  apart := staged.apart
  fresh := fun oid off _ stored => staged.fresh (frame.extent? oid off ▸ stored)
  each := by
    intro seg member
    obtain ⟨c, found, written, stop, fits⟩ := staged.each seg member
    obtain ⟨c', found', lba, -⟩ := frame.grow fresh found
    obtain ⟨pages, pushed, below⟩ := frame.disk
    refine ⟨c', found', ?_, stop.trans (ok.reach_mono fresh _), fits⟩
    have kept := written.push_below (inv.records.inside found) below
    rw [pushed]
    intro k bound
    rw [ExtentEntry.lba_congr lba]
    exact kept k bound

/-- An extent within the old reach is apart from the reserved one. -/
theorem ReserveOk.apart (ok : ReserveOk Fresh mem media maxLength r mem' media') (fresh : Fresh)
    {e : ExtentEntry} (stop : e.stop ≤ reach media.view mem e.chunkId) : e.Apart r.extent := by
  by_cases same : e.chunkId = r.chunkId
  · refine .inr (.inl (stop.trans ?_))
    rw [same]
    exact ok.reach_before fresh
  · exact .inl same

/-- The blocks of a reservation. -/
theorem ReserveOk.target (ok : ReserveOk Fresh mem media maxLength r mem' media')
    (inv' : StoreInv options layout Fresh Keyed L mem' media') {data : List UInt8}
    (length : data.length = r.lengthBytes.toNat) : Target layout media'.view r data := by
  obtain ⟨c, found, lba, start⟩ := ok.record
  have aligned := ok.aligned
  have fits := ok.fits
  rw [← length] at fits
  refine ⟨length, ?_, ?_⟩
  · intro k below
    have region := inv'.records.inside found
    simp only [InData, kChunkBlocks] at region ⊢
    omega
  · rintro k below ⟨cid, c', found', low, high⟩
    have offset := (inv'.records.offset found').within
    by_cases same : cid = r.chunkId
    · rw [same, found, Option.some.injEq] at found'
      subst found'
      omega
    · refine inv'.records.disjoint found' found same (r.physicalLba.toNat + k) ⟨low, ?_⟩ ⟨?_, ?_⟩
      · simp only [kChunkBlocks]
        omega
      · omega
      · simp only [kChunkBlocks]
        omega

end Reserved

/-- The staged segments with one more, whose blocks have been written. -/
theorem Staged.extend {segs : List Segment} {seg : Segment} {c : Chunk}
    (staged : Staged mem media segs) (records : RecordsOk layout media.view)
    (apart : ∀ old ∈ segs, old.entry.Apart seg.entry)
    (fresh : ∀ ⦃oid off e⦄, media.view.extent? oid off = some e → e.Apart seg.entry)
    (found : media.view.chunk? seg.entry.chunkId = some c)
    (stop : seg.entry.stop ≤ reach media.view mem seg.entry.chunkId)
    (fits : seg.entry.stop ≤ 67108864) {writes : List (Nat × Block)}
    (images : ∀ write ∈ writes, ∃ k < seg.entry.blocks,
      write = (seg.entry.lba c + k, padBlock seg.data k))
    (all : ∀ k < seg.entry.blocks, ∃ write ∈ writes, write.1 = seg.entry.lba c + k) :
    Staged mem (media.withDisk (media.disk.push writes)) (segs ++ [seg]) where
  apart := by
    rw [List.pairwise_append]
    refine ⟨staged.apart, List.pairwise_singleton _ _, ?_⟩
    intro old member new here
    rw [List.mem_singleton] at here
    exact here ▸ apart old member
  fresh := by
    intro oid off e stored new member
    rw [List.mem_append, List.mem_singleton] at member
    rcases member with earlier | rfl
    · exact staged.fresh stored new earlier
    · exact fresh stored
  each := by
    intro other member
    rw [List.mem_append, List.mem_singleton] at member
    rcases member with earlier | rfl
    · obtain ⟨c', found', written, stop', fits'⟩ := staged.each other earlier
      refine ⟨c', found', ?_, stop', fits'⟩
      intro k below
      rw [Media.disk_withDisk, Disk.content_push, applyWrites_of_not_mem]
      · exact written k below
      · intro write listed
        obtain ⟨k', below', rfl⟩ := images write listed
        exact ((apart other earlier).lba_ne records other.aligned seg.aligned found' found fits'
          fits below below').symm
    · refine ⟨c, found, ?_, stop, fits⟩
      intro k below
      rw [Media.disk_withDisk, Disk.content_push]
      refine applyWrites_of_mem _ (all k below) ?_
      intro write listed here
      obtain ⟨k', below', rfl⟩ := images write listed
      simp only at here
      rw [show k' = k by omega]

/-- The staged segments after a reservation and the writes to it. -/
theorem Staged.reserved {segs : List Segment} {mem' : StoreMem} {media' : Media}
    {maxLength : UInt32} {r : Reservation} (staged : Staged mem media segs) (fresh : Fresh)
    (inv : StoreInv options layout Fresh Keyed L mem media)
    (inv' : StoreInv options layout Fresh Keyed L mem' media')
    (frame : ChunkFrame layout Fresh media media')
    (ok : ReserveOk Fresh mem media maxLength r mem' media') {data : List UInt8}
    (length : data.length = r.lengthBytes.toNat) {writes : List (Nat × Block)}
    (images : ∀ write ∈ writes, ∃ k < blocksFor data.length,
      write = (r.physicalLba.toNat + k, padBlock data k))
    (all : ∀ k < blocksFor data.length, ∃ write ∈ writes, write.1 = r.physicalLba.toNat + k) :
    Staged mem' (media'.withDisk (media'.disk.push writes))
      (segs ++ [r.segment data length ok.aligned]) := by
  obtain ⟨c, found, lba, -⟩ := ok.record
  have start : r.extent.lba c = r.physicalLba.toNat := lba.symm
  rw [length, ← start] at images all
  refine @Staged.extend _ _ _ segs (r.segment data length ok.aligned) c
    (staged.reserve fresh inv frame ok) inv'.records ?_ ?_ found ok.reach_after ok.fits writes
    images all
  · intro old member
    obtain ⟨-, -, -, within, -⟩ := staged.each old member
    exact ok.apart fresh within
  · intro oid off e stored
    exact ok.apart fresh (inv.stop_le_reach fresh (frame.extent? oid off ▸ stored))

/-- What the segment loop leaves behind. -/
structure LoopPost (options : FormatOptions) (layout : NebulaLayout) (Fresh Keyed : Prop)
    (L : Ledger) (segs : List Segment) (oid logical : UInt64) (rest : List UInt8) (batch : Batch)
    (result : Except Status (Batch × UInt64) × StoreMem) (media : Media) : Prop where
  inv : StoreInv options layout Fresh Keyed L result.2 media
  staged : ∀ batch' added, result.1 = .ok (batch', added) →
    ∃ more : List Segment, (Fresh → Staged result.2 media (segs ++ more)) ∧
      more.flatMap (·.data) = rest ∧ batch' = batch ++ stageAll oid logical more

/-- The segment loop stages segments that hold the rest of the data. -/
theorem writeLoop_safe (actOk : ActOk Fresh Keyed act) (oid : UInt64) :
    ∀ (rest : List UInt8) (logical : UInt64) (batch : Batch) (added : UInt64) (mem : StoreMem)
      (media : Media) (segs : List Segment), StoreInv options layout Fresh Keyed L mem media →
      (Fresh → Staged mem media segs) →
      ((writeLoop oid rest logical batch added).refine storeSem mem).Safe act
        (fun before op _ after =>
          CallStep options layout Fresh Keyed (fun L' => L' = L ∨ Next L') before op after)
        (LoopPost options layout Fresh Keyed L segs oid logical rest batch) media := by
  intro rest
  induction total : rest.length using Nat.strong_induction_on generalizing rest with
  | _ size ih =>
      intro logical batch added mem media segs inv staged
      rw [writeLoop]
      split_ifs with empty
      · subst empty
        refine ⟨inv, ?_⟩
        intro batch' added' done
        simp only [Except.ok.injEq, Prod.mk.injEq] at done
        exact ⟨[], by simpa using staged, rfl, by simp [stageAll, done.1]⟩
      · refine (reserve_callSafe actOk inv _).bind ?_
        rintro ⟨answer, mem₁⟩ media₁ ⟨post, inv₁⟩
        cases answer with
        | error status => exact ⟨inv₁, by simp⟩
        | ok r =>
            have ok := post.reserved r rfl
            have wanted : r.lengthBytes.toNat ≤ rest.length := by
              have limit := ok.length_le
              rw [UInt32.toNat_ofNat'] at limit
              exact limit.trans ((Nat.mod_le _ _).trans (min_le_left _ _))
            have length : (rest.take r.lengthBytes.toNat).length = r.lengthBytes.toNat := by
              rw [List.length_take]
              omega
            have positive := UInt32.lt_iff_toNat_lt.mp r.length_pos
            rw [Prog.refine_bind]
            refine (writeSegment_safe actOk inv₁ (ok.target inv₁ length)).bind ?_
            rintro ⟨answer, mem₂⟩ media₂ ⟨same, inv₂, writes, rfl, images, all⟩
            obtain rfl : mem₁ = mem₂ := same.symm
            cases answer with
            | error status => exact ⟨inv₂, by simp⟩
            | ok done =>
                have staged₂ : Fresh → Staged mem₁ (media₁.withDisk (media₁.disk.push writes))
                    (segs ++ [r.segment (rest.take r.lengthBytes.toNat) length ok.aligned]) :=
                  fun fresh => (staged fresh).reserved fresh inv inv₁ post.frame ok length images
                    (all rfl)
                have shorter : (rest.drop r.lengthBytes.toNat).length < size := by
                  rw [List.length_drop]
                  simp only [UInt32.toNat_zero] at positive
                  omega
                refine (ih _ shorter _ rfl _ _ _ _ _ _ inv₂ staged₂).mono ?_
                rintro result media' ⟨inv', found⟩
                refine ⟨inv', ?_⟩
                intro batch' added' done'
                obtain ⟨more, staged', whole, rfl⟩ := found batch' added' done'
                refine ⟨r.segment (rest.take r.lengthBytes.toNat) length ok.aligned :: more, ?_, ?_,
                  ?_⟩
                · simpa using staged'
                · rw [List.flatMap_cons, whole]
                  exact List.take_append_drop _ _
                · rw [stageAll, List.append_assoc]
                  rfl

/-! ## The commit -/

/-- Segments that do not overlap are no longer than the device. -/
theorem segments_room {db : Db} (records : RecordsOk layout db) (sound : layout.Sound)
    (small : layout.capacityBlocks < 2 ^ 52) {segs : List Segment}
    (apart : segs.Pairwise fun first second => first.entry.Apart second.entry)
    (each : ∀ seg ∈ segs, (∃ c, db.chunk? seg.entry.chunkId = some c) ∧
      seg.entry.stop ≤ 67108864) :
    Tiling.total (·.data.length) segs < 2 ^ 64 := by
  have start : ∀ seg ∈ segs, ∀ c, db.chunk? seg.entry.chunkId = some c →
      (((db.chunk? seg.entry.chunkId).map seg.entry.lba).getD 0) = seg.entry.lba c := by
    intro seg _ c found
    rw [found]
    rfl
  have blocks : Tiling.total (·.entry.blocks) segs ≤ layout.capacityBlocks := by
    refine @Tiling.total_le_of_disjoint _
      (fun seg => ((db.chunk? seg.entry.chunkId).map seg.entry.lba).getD 0) _ _ _ ?_ ?_
    · intro seg member
      obtain ⟨⟨c, found⟩, fits⟩ := each seg member
      have region := (records.inside found).lt_capacity sound
      have aligned := seg.aligned
      simp only [ExtentEntry.stop, kChunkBlocks] at fits region
      rw [start seg member c found, ExtentEntry.lba]
      omega
    · refine apart.imp_of_mem ?_
      intro first second member member' apart
      obtain ⟨⟨c, found⟩, fits⟩ := each first member
      obtain ⟨⟨c', found'⟩, fits'⟩ := each second member'
      simp only [start first member c found, start second member' c' found']
      by_contra overlap
      have some := first.blocks_pos
      have some' := second.blocks_pos
      have common :=
        @ExtentEntry.Apart.lba_ne _ _ _ _ apart records first.aligned second.aligned _ _
        found found' fits fits'
        (max (first.entry.lba c) (second.entry.lba c') - first.entry.lba c)
        (max (first.entry.lba c) (second.entry.lba c') - second.entry.lba c') (by omega) (by omega)
      omega
  have bytes : Tiling.total (·.data.length) segs ≤ Tiling.total (·.entry.blocks) segs * 4096 := by
    clear apart each start blocks
    induction segs with
    | nil => exact Nat.zero_le _
    | cons seg rest ih =>
        have here := seg.length_le_blocks
        rw [Tiling.total_cons, Tiling.total_cons]
        omega
  omega

/-- The batch that a write commits. -/
abbrev commitBatch (oid logical : UInt64) (segs : List Segment) (a : ObjectAttrs)
    (active : Option Chunk) : Batch :=
  stageAll oid logical segs ++ [.attrs a] ++ (active.map MetaPut.chunk).toList

/-- The commit batch holds extents, reverse entries, attributes and the active chunk only. -/
theorem mem_commitBatch {oid logical : UInt64} {segs : List Segment} {a : ObjectAttrs}
    {active : Option Chunk} {put : MetaPut} (member : put ∈ commitBatch oid logical segs a active) :
    (∃ seg ∈ segs, ∃ off, put = .extent oid off seg.entry) ∨
      (∃ cid idx rev, put = .chunkRev cid idx rev) ∨ put = .attrs a ∨
      ∃ c, active = some c ∧ put = .chunk c := by
  simp only [commitBatch, List.mem_append, List.mem_singleton] at member
  rcases member with (staged | attrs) | chunk
  · obtain ⟨before, seg, after, rfl, here⟩ := mem_stageAll.mp staged
    simp only [Segment.staged, stageChunkRev, List.mem_cons, List.not_mem_nil, or_false] at here
    rcases here with rfl | rfl
    · exact .inl ⟨seg, by simp, _, rfl⟩
    · exact .inr (.inl ⟨_, _, _, rfl⟩)
  · exact .inr (.inr (.inl attrs))
  · cases active with
    | none => simp at chunk
    | some c => exact .inr (.inr (.inr ⟨c, rfl, by simpa using chunk⟩))

/-- An extent after the commit was there before or is one of the staged. -/
theorem extent?_commitBatch {db : Db} {oid logical : UInt64} {segs : List Segment}
    {a : ObjectAttrs} {active : Option Chunk} {oid' off : UInt64} {e : ExtentEntry}
    (stored : (db.apply (commitBatch oid logical segs a active)).extent? oid' off = some e) :
    db.extent? oid' off = some e ∨ ∃ before seg after, segs = before ++ seg :: after ∧ oid' = oid ∧
      off = logical + UInt64.ofNat (Tiling.total (·.data.length) before) ∧ e = seg.entry := by
  obtain ⟨bytes, there, decoded⟩ := Option.bind_eq_some_iff.mp stored
  rcases Db.lookup_apply_cases there with old | ⟨put, listed, key, value⟩
  · exact .inl (Option.bind_eq_some_iff.mpr ⟨bytes, old, decoded⟩)
  · rcases List.mem_append.mp listed with first | chunk
    · rcases List.mem_append.mp first with staged | attrs
      · obtain ⟨before, seg, after, whole, here⟩ := mem_stageAll.mp staged
        simp only [Segment.staged, stageChunkRev, List.mem_cons, List.not_mem_nil, or_false] at here
        rcases here with rfl | rfl
        · simp only [MetaPut.key, MetaKey.extent.injEq] at key
          rw [← value, MetaPut.value, Packed.ofBytes?_bytes, Option.some.injEq] at decoded
          exact .inr ⟨before, seg, after, whole, key.1.symm, key.2.symm, decoded.symm⟩
        · simp [MetaPut.key] at key
      · rw [List.mem_singleton] at attrs
        simp [attrs, MetaPut.key] at key
    · obtain ⟨c, -, rfl⟩ : ∃ c, active = some c ∧ put = .chunk c := by
        cases active with
        | none => simp at chunk
        | some c => exact ⟨c, rfl, by simpa using chunk⟩
      simp [MetaPut.key] at key

/-- The commit of staged segments keeps the extents in order. -/
theorem ExtentsOk.commit {db : Db} {oid logical : UInt64} {segs : List Segment} {a : ObjectAttrs}
    {active : Option Chunk} (ok : ExtentsOk db)
    (apart : segs.Pairwise fun first second => first.entry.Apart second.entry)
    (fresh : ∀ ⦃oid off e⦄, db.extent? oid off = some e → ∀ seg ∈ segs, e.Apart seg.entry)
    (placed : ∀ seg ∈ segs, seg.entry.Placed (db.apply (commitBatch oid logical segs a active)))
    (grow : ChunksGrow db (db.apply (commitBatch oid logical segs a active))) :
    ExtentsOk (db.apply (commitBatch oid logical segs a active)) where
  placed := by
    intro oid' off e stored
    rcases extent?_commitBatch stored with old | ⟨before, seg, after, rfl, -, -, rfl⟩
    · exact (ok.placed old).grow grow
    · exact placed seg (by simp)
  apart := by
    intro oid₁ off₁ e₁ oid₂ off₂ e₂ stored₁ stored₂ different
    rcases extent?_commitBatch stored₁ with old₁ | ⟨before₁, seg₁, after₁, whole₁, rfl, rfl, rfl⟩
    · rcases extent?_commitBatch stored₂ with old₂ | ⟨before₂, seg₂, after₂, whole₂, rfl, rfl, rfl⟩
      · exact ok.apart old₁ old₂ different
      · exact fresh old₁ seg₂ (by simp [whole₂])
    · rcases extent?_commitBatch stored₂ with old₂ | ⟨before₂, seg₂, after₂, whole₂, rfl, rfl, rfl⟩
      · exact (fresh old₂ seg₁ (by simp [whole₁])).symm
      · rcases Tiling.place_trichotomy (whole₁.symm.trans whole₂) with
          ⟨rfl, -⟩ | ⟨middle, rfl, -⟩ | ⟨middle, rfl, -⟩
        · exact absurd rfl different
        · rw [whole₂, List.append_assoc, List.cons_append] at apart
          exact (List.pairwise_cons.mp (List.pairwise_append.mp apart).2.1).1 seg₂ (by simp)
        · rw [whole₁, List.append_assoc, List.cons_append] at apart
          exact ((List.pairwise_cons.mp (List.pairwise_append.mp apart).2.1).1 seg₁ (by simp)).symm

/-- A batch with the snapshot of the active chunk brings its record up to its reach. -/
theorem EngineInv.commit_snapshot (inv : EngineInv options layout Fresh mem media) {sync : Bool}
    {batch : Batch} (noChunk : ∀ c, MetaPut.chunk c ∉ batch)
    (noCounter : ∀ id, MetaPut.nextChunk id ∉ batch) :
    EngineInv options layout Fresh mem
        (media.commit sync (batch ++ (mem.active.map MetaPut.chunk).toList)) ∧
      ∀ cid c, media.view.chunk? cid = some c → ∃ c',
        (media.view.apply (batch ++ (mem.active.map MetaPut.chunk).toList)).chunk? cid = some c' ∧
          c'.lbaStart = c.lbaStart ∧ reach media.view mem cid ≤ c'.writeOffset.toNat := by
  cases current : mem.active with
  | none =>
      simp only [Option.map_none, Option.toList_none, List.append_nil]
      refine ⟨inv.commit_other noChunk noCounter, ?_⟩
      intro cid c found
      refine ⟨c, ?_, rfl, ?_⟩
      · rwa [Db.chunk?_apply_of_not_mem fun c member => absurd member (noChunk c)]
      · rw [reach_of_idle current, found]
        rfl
  | some a =>
      simp only [Option.map_some, Option.toList_some]
      have ok := inv.memory.active a current
      obtain ⟨r, record, lba, order, open_⟩ := ok.record
      have member : MetaPut.chunk a ∈ batch ++ [.chunk a] := by simp
      have only : ∀ other, MetaPut.chunk other ∈ batch ++ [.chunk a] → other = a := by
        intro other listed
        rcases List.mem_append.mp listed with wrong | here
        · exact absurd wrong (noChunk other)
        · simpa using here
      have stored := @Db.chunk?_apply_of_mem media.view _ a member only
      have there : ∀ {cid}, cid ≠ a.chunkId →
          (media.view.apply (batch ++ [.chunk a])).chunk? cid = media.view.chunk? cid :=
        fun different => Db.chunk?_apply_of_not_mem fun other listed =>
          only other listed ▸ different.symm
      have counter : (media.view.apply (batch ++ [.chunk a])).nextChunk? = media.view.nextChunk? :=
        Db.nextChunk?_apply_of_not_mem (by simpa using noCounter)
      have base := @BaseInv.put_active _ _ _ _ inv.toBaseInv sync _ a a current rfl rfl ok.offset
        member only (some a) (by
          rintro _ ⟨⟩
          exact ⟨ok.offset, ok.unsealed, a, stored, rfl, UInt32.le_refl _, ok.unsealed⟩)
      refine ⟨⟨base.congr_mem rfl current, ?_, ?_⟩, ?_⟩
      · intro fresh cid c found
        rw [Media.view_commit] at found ⊢
        rw [counter]
        by_cases same : cid = a.chunkId
        · rw [same]
          exact inv.ids fresh record
        · exact inv.ids fresh (there same ▸ found)
      · intro fresh
        rw [ChunkCounter, Media.view_commit, counter]
        exact inv.counter fresh
      · intro cid c found
        rw [reach_of_active current]
        by_cases same : a.chunkId = cid
        · subst same
          rw [record, Option.some.injEq] at found
          exact ⟨a, stored, by rw [← lba, found], by rw [if_pos rfl]⟩
        · rw [if_neg same, found, there (Ne.symm same)]
          exact ⟨c, found, rfl, le_rfl⟩

/-- The store after the commit of a write. -/
theorem StoreInv.commit_write {path : ByteString} {o : Object} {a : ObjectAttrs}
    {oid logical : UInt64} {segs : List Segment}
    (inv : StoreInv options layout Fresh Keyed L mem media)
    (settled : media.disk.cells.pending = []) (staged : Fresh → Staged mem media segs)
    (origin : Fresh → Keyed → L path = some o ∧ oid = o.oid ∧ logical = UInt64.ofNat o.size ∧
      a.objectId = o.oid ∧ a.size = UInt64.ofNat (o.size + Tiling.total (·.data.length) segs)) :
    StoreInv options layout Fresh Keyed (Function.update L path (some (o.append a segs))) mem
        (media.commit mem.syncMetadata (commitBatch oid logical segs a mem.active)) ∧
      ChunksGrow media.view (media.view.apply (commitBatch oid logical segs a mem.active)) := by
  have others : ∀ put ∈ stageAll oid logical segs ++ [.attrs a],
      (∀ c, put ≠ .chunk c) ∧ ∀ id, put ≠ .nextChunk id := by
    intro put member
    have listed := @mem_commitBatch oid logical segs a none put (by simpa using member)
    rcases listed with ⟨_, _, _, rfl⟩ | ⟨_, _, _, rfl⟩ | rfl | ⟨_, wrong, -⟩
    · simp
    · simp
    · simp
    · simp at wrong
  obtain ⟨engine, records⟩ := @EngineInv.commit_snapshot _ _ _ _ _ inv.toEngineInv
    mem.syncMetadata _ (fun c member => (others _ member).1 c rfl)
    fun id member => (others _ member).2 id rfl
  have grow : ChunksGrow media.view
      (media.view.apply (commitBatch oid logical segs a mem.active)) := by
    intro cid c there
    obtain ⟨c', there', lba, reached⟩ := records cid c there
    exact ⟨c', there', lba, UInt32.le_iff_toNat_le.mpr ((inv.record_le_reach there).trans reached)⟩
  refine ⟨⟨engine, fun fresh => ?_, fun fresh keyed => ?_, fun keyed => ?_⟩, grow⟩
  · rw [Media.view_commit]
    refine (inv.extents fresh).commit (staged fresh).apart (staged fresh).fresh ?_ grow
    intro seg member
    obtain ⟨c, there, -, stop, -⟩ := (staged fresh).each seg member
    obtain ⟨c', there', -, reached⟩ := records _ c there
    exact ⟨seg.aligned, c', there', stop.trans reached⟩
  · obtain ⟨found, rfl, rfl, ident, size⟩ := origin fresh keyed
    have now := (inv.durable fresh keyed).now
    have fresh' : ∀ ⦃old⦄, L.Holds old → ∀ seg ∈ segs, old.entry.Apart seg.entry := by
      intro old held seg member
      obtain ⟨oid, off, stored⟩ := now.holds_iff.mpr ⟨old, held, rfl⟩
      exact (staged fresh).fresh stored seg member
    have room : o.size + Tiling.total (·.data.length) segs < 2 ^ 64 := by
      rw [Object.size, ← Tiling.total_append]
      refine segments_room inv.records inv.sound inv.device.mountable.capacity_lt ?_ ?_
      · rw [List.pairwise_append]
        exact ⟨now.sound.within found, (staged fresh).apart,
          fun old member seg member' => fresh' ⟨path, o, found, member⟩ seg member'⟩
      · intro seg member
        rcases List.mem_append.mp member with old | new
        · obtain ⟨c, there, stop, -⟩ := now.stored ⟨path, o, found, old⟩
          exact ⟨⟨c, there⟩, stop.trans (inv.records.offset there).within⟩
        · obtain ⟨c, there, -, -, fits⟩ := (staged fresh).each seg new
          exact ⟨⟨c, there⟩, fits⟩
    have write : WriteBatch o a segs (commitBatch o.oid (UInt64.ofNat o.size) segs a mem.active) :=
      ⟨ident, ⟨_, rfl, by cases mem.active <;> simp⟩, room⟩
    refine (inv.durable fresh keyed).commit (Appended.le ⟨o, a, segs, found, rfl, rfl⟩) ?_ grow
    refine now.append found write ?_ (staged fresh).apart fresh' ?_ grow
    · rw [size, UInt64.toNat_ofNat']
      exact Nat.mod_eq_of_lt room
    · intro seg member
      obtain ⟨c, there, written, stop, -⟩ := (staged fresh).each seg member
      obtain ⟨c', there', lba, reached⟩ := records _ c there
      have same : seg.entry.lba c' = seg.entry.lba c := ExtentEntry.lba_congr lba
      refine ⟨c', there', stop.trans reached, ?_, ?_⟩
      · rwa [Segment.Written, same]
      · intro k _ write' pending
        rw [settled] at pending
        exact absurd pending (by simp)
  · rw [Media.view_commit, Db.nextObj?_apply_of_not_mem]
    · exact inv.objCounter keyed
    · intro id member
      rcases mem_commitBatch member with ⟨_, -, _, wrong⟩ | ⟨_, _, _, wrong⟩ | wrong |
        ⟨_, -, wrong⟩ <;>
        simp at wrong

/-- Barrier and commit. -/
theorem commitWrite_safe (actOk : ActOk Fresh Keyed act) {path : ByteString} {o : Object}
    {segs : List Segment} {a : ObjectAttrs} {oid logical added now : UInt64} {data : List UInt8}
    (inv : StoreInv options layout Fresh Keyed L mem media)
    (origin : Fresh → Keyed →
      L path = some o ∧ a = o.attrs ∧ oid = o.oid ∧ logical = UInt64.ofNat o.size)
    (staged : Fresh → Staged mem media segs) (whole : segs.flatMap (·.data) = data) :
    ((commitWrite a data.length now (stageAll oid logical segs) added).refine storeSem mem).Safe act
      (fun before op _ after => CallStep options layout Fresh Keyed
        (fun L' => L' = L ∨ Appended L path data L') before op after)
      (CallPost options layout Fresh Keyed L (Appended L path data)) media := by
  have failed : ∀ {mem' media'} status, StoreInv options layout Fresh Keyed L mem' media' →
      CallPost options layout Fresh Keyed L (Appended L path data) (.error status, mem') media' :=
    fun status kept => ⟨fun _ _ => kept, by simp⟩
  intro answer after acted
  rcases primAct_ioFlush (actOk.sub acted) with ⟨rfl, rfl⟩ | ⟨rfl, unchanged⟩
  · have inv₁ : StoreInv options layout Fresh Keyed L mem (media.withDisk media.disk.flush) :=
      ⟨⟨⟨inv.toMediaOk.flush, inv.memory⟩, inv.ids, inv.counter⟩, inv.extents,
        fun fresh keyed => (inv.durable fresh keyed).flush, inv.objCounter⟩
    have staged₁ : Fresh → Staged mem (media.withDisk media.disk.flush) segs := fun fresh =>
      ⟨(staged fresh).apart, (staged fresh).fresh, (staged fresh).each⟩
    refine ⟨CallStep.of_silent inv inv₁.toMediaOk inv₁.ids inv₁.durable (fun _ => id)
      (fun _ _ => rfl) fun _ => ChunksGrow.refl _, ?_⟩
    obtain ⟨inv₂, grow⟩ := @StoreInv.commit_write _ _ _ _ _ _ _ path o
      (a.grown data.length added now) oid logical segs inv₁ rfl staged₁ (by
        intro fresh keyed
        obtain ⟨found, rfl, rfl, rfl⟩ := origin fresh keyed
        have sizes := ((inv.durable fresh keyed).now.attrs found).2
        refine ⟨found, rfl, rfl, sizes.1, ?_⟩
        rw [← whole, Tiling.length_flatMap_eq_total, UInt64.ofNat_add, ← sizes.2,
          UInt64.ofNat_toNat]
        rfl)
    have appended : Fresh → Keyed → Appended L path data (Function.update L path
        (some (o.append (a.grown data.length added now) segs))) :=
      fun fresh keyed => ⟨o, _, segs, (origin fresh keyed).1, whole, rfl⟩
    intro done after₂ acted₂
    rcases primAct_write (actOk.sub acted₂) with ⟨rfl, rfl⟩ | ⟨rfl, unchanged⟩
    · exact ⟨CallStep.commit inv₂ appended fun _ => grow, by simp, fun _ => ⟨_, appended, inv₂⟩⟩
    · obtain rfl := unchanged.symm
      exact ⟨CallStep.stay inv₁ fun _ => id, failed _ inv₁⟩
  · obtain rfl := unchanged.symm
    exact ⟨CallStep.stay inv fun _ => id, failed _ inv⟩

/-- A write of no bytes changes nothing but the history. -/
theorem StoreInv.append_nil {path : ByteString} {o : Object}
    (inv : StoreInv options layout Fresh Keyed L mem media)
    (found : Fresh → Keyed → L path = some o) :
    StoreInv options layout Fresh Keyed (Function.update L path (some (o.append o.attrs []))) mem
      media where
  toEngineInv := inv.toEngineInv
  extents := inv.extents
  durable := fun fresh keyed => by
    refine ⟨(inv.durable fresh keyed).now.append_nil (found fresh keyed), ?_⟩
    intro recovered recoverable
    obtain ⟨earlier, le, persist, grow⟩ := (inv.durable fresh keyed).past recoverable
    exact ⟨earlier, le.trans (Appended.le ⟨o, _, [], found fresh keyed, rfl, rfl⟩), persist, grow⟩
  objCounter := inv.objCounter

/-- `write` after the checks of its arguments. -/
theorem writeObject_safe (actOk : ActOk Fresh Keyed act) {path : ByteString} {source : Source}
    {now : UInt64} (inv : StoreInv options layout Fresh Keyed L mem media)
    (valid : validateObjectPath path = true) (length : source.data.length = source.len) :
    ((writeObject path source now).refine storeSem mem).Safe act
      (fun before op _ after => CallStep options layout Fresh Keyed
        (fun L' => L' = L ∨ Appended L path source.data L') before op after)
      (CallPost options layout Fresh Keyed L (Appended L path source.data)) media := by
  have failed : ∀ {mem' media'} status, StoreInv options layout Fresh Keyed L mem' media' →
      CallPost options layout Fresh Keyed L (Appended L path source.data) (.error status, mem')
        media' :=
    fun status kept => ⟨fun _ _ => kept, by simp⟩
  intro bytes after acted
  obtain ⟨rfl, unchanged⟩ := actOk.get acted
  obtain rfl := unchanged.symm
  refine ⟨CallStep.stay inv fun _ => id, ?_⟩
  simp only [Prog.bind, statusOfGet]
  cases bound : decodePathGet (media.view.lookup (.path path)) with
  | error status => exact failed status inv
  | ok oid =>
      intro bytes after acted
      obtain ⟨rfl, unchanged⟩ := actOk.get acted
      obtain rfl := unchanged.symm
      refine ⟨CallStep.stay inv fun _ => id, ?_⟩
      simp only [Prog.bind]
      cases read : decodeAttrsGet (media.view.lookup (.attrs oid)) with
      | error status => exact failed status inv
      | ok a =>
          have origin : ∃ o : Object, Fresh → Keyed → L path = some o ∧ a = o.attrs ∧
              oid = o.oid ∧ a.size = UInt64.ofNat o.size := by
            by_cases both : Fresh ∧ Keyed
            · have now := (inv.durable both.1 both.2).now
              rw [now.decodePathGet_eq valid] at bound
              cases found : L path with
              | none => simp [found] at bound
              | some o =>
                  simp only [found, Except.ok.injEq] at bound
                  rw [← bound, now.decodeAttrsGet_eq found, Except.ok.injEq] at read
                  refine ⟨o, fun _ _ => ⟨rfl, read.symm, bound.symm, ?_⟩⟩
                  rw [← read, ← (now.attrs found).2.2, UInt64.ofNat_toNat]
            · exact ⟨⟨oid, a, []⟩, fun fresh keyed => absurd ⟨fresh, keyed⟩ both⟩
          obtain ⟨o, origin⟩ := origin
          simp only
          split_ifs with none large
          · refine ⟨by simp, fun _ => ⟨_, fun fresh keyed => ⟨o, o.attrs, [],
              (origin fresh keyed).1, ?_, rfl⟩, inv.append_nil fun fresh keyed =>
                (origin fresh keyed).1⟩⟩
            exact (List.length_eq_zero_iff.mp (length.trans none)).symm
          · exact failed _ inv
          · rw [Prog.refine_bind]
            refine (writeLoop_safe actOk oid source.data a.size [] 0 mem media [] inv fun _ =>
              ⟨.nil, by simp, by simp⟩).bind ?_
            rintro ⟨answer, mem'⟩ media' ⟨inv', found⟩
            cases answer with
            | error status => exact failed status inv'
            | ok result =>
                obtain ⟨batch, added⟩ := result
                obtain ⟨segs, staged, whole, rfl⟩ := found batch added rfl
                rw [List.nil_append, ← length]
                exact commitWrite_safe actOk inv' origin staged whole

/-- Every action of `write` keeps the media sound, and its commit adds the segments. -/
theorem write_safe (actOk : ActOk Fresh Keyed act)
    (inv : StoreInv options layout Fresh Keyed L mem media)
    (path : ByteString) (source : Source) (now : UInt64) :
    ((write path source now).refine storeSem mem).Safe act
      (fun before op _ after => CallStep options layout Fresh Keyed
        (fun L' => L' = L ∨ Appended L path source.data L') before op after)
      (CallPost options layout Fresh Keyed L (Appended L path source.data)) media := by
  rw [write]
  split_ifs with invalid null
  · exact ⟨fun _ _ => inv, by simp⟩
  · exact ⟨fun _ _ => inv, by simp⟩
  · refine writeObject_safe actOk inv (by simpa using invalid) ?_
    cases source with
    | null len => simpa [Source.isNull, Source.len, Source.data, eq_comm] using null
    | bytes data => rfl

end MiniFs.ObjStore
