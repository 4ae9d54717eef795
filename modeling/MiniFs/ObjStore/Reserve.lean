import MiniFs.ObjStore.Records

/-!
# Reservations

What `reserve` does to the media and the memory, action by action.  Everything below is relative to
a relation `act` on actions, a part of `primAct`; `Fresh` says that under it the chunk counter is
not advanced past its last value, and `Keyed` that the object counter is not.
-/

namespace MiniFs.ObjStore

/-- The actions are primitive actions, no counter is advanced to 0 of which this is said, and no
database read fails. -/
structure ActOk (Fresh Keyed : Prop)
    (act : Media → (op : PrimOp) → op.Res → Media → Prop) : Prop where
  sub : ∀ {before op answer after}, act before op answer after → primAct before op answer after
  freshObj : Keyed → ∀ {before id answer after},
    act before (.write true [.nextObj id]) answer after → id ≠ 0
  freshChunk : Fresh → ∀ {before id answer after},
    act before (.write true [.nextChunk id]) answer after → id ≠ 0
  reads : ∀ {before key answer after}, act before (.get key) answer after → answer ≠ .error ()

/-- What a read of such actions answers. -/
theorem ActOk.get {Fresh Keyed : Prop} {act : Media → (op : PrimOp) → op.Res → Media → Prop}
    (actOk : ActOk Fresh Keyed act) {before after : Media} {key : MetaKey}
    {answer : Except Unit (Option ByteString)} (acted : act before (.get key) answer after) :
    answer = .ok (before.view.lookup key) ∧ after = before := by
  obtain ⟨answered, same⟩ := primAct_get (actOk.sub acted)
  exact ⟨answered.resolve_right (actOk.reads acted), same⟩

/-- Records are neither moved nor shortened. -/
def ChunksGrow (before after : Db) : Prop :=
  ∀ ⦃cid c⦄, before.chunk? cid = some c →
    ∃ c', after.chunk? cid = some c' ∧ c'.lbaStart = c.lbaStart ∧ c.writeOffset ≤ c'.writeOffset

theorem ChunksGrow.refl (db : Db) : ChunksGrow db db :=
  fun _ _ found => ⟨_, found, rfl, UInt32.le_refl _⟩

theorem ChunksGrow.trans {first second third : Db} (one : ChunksGrow first second)
    (two : ChunksGrow second third) : ChunksGrow first third := by
  intro cid c found
  obtain ⟨c', found', lba', offset'⟩ := one found
  obtain ⟨c'', found'', lba'', offset''⟩ := two found'
  exact ⟨c'', found'', lba''.trans lba', UInt32.le_trans offset' offset''⟩

/-- The chunk counter is above every recorded id. -/
def ChunkIdsBelow (db : Db) : Prop :=
  ∀ ⦃cid c⦄, db.chunk? cid = some c → ∃ next, db.nextChunk? = some next ∧ cid < next

/-- The chunk counter in memory is not behind the persisted one. -/
def ChunkCounter (db : Db) (mem : StoreMem) : Prop :=
  ∃ next, db.nextChunk? = some next ∧ next ≤ mem.nextChunkId

/-- What the chunk engine does to the media: chunk records and the chunk counter in the database,
and blocks below the data region on the device. -/
structure ChunkFrame (layout : NebulaLayout) (Fresh : Prop) (before after : Media) : Prop where
  other : ∀ key, (∀ cid, key ≠ .chunk cid) → key ≠ .nextChunk →
    after.view.lookup key = before.view.lookup key
  disk : ∃ pages, after.disk = before.disk.push pages ∧
    ∀ write ∈ pages, write.1 < layout.dataStartLba
  grow : Fresh → ChunksGrow before.view after.view
  keys : before.view.WellKeyed → after.view.WellKeyed

/-- One action of the chunk engine. -/
structure ChunkStep (options : FormatOptions) (layout : NebulaLayout) (Fresh : Prop)
    (before : Media) (op : PrimOp) (after : Media) : Prop where
  frame : ChunkFrame layout Fresh before after
  media : MediaOk options layout after
  ids : Fresh → ChunkIdsBelow after.view
  recovers : ∀ recovered, after.db.Recoverable recovered →
    before.db.Recoverable recovered ∨ recovered = after.view
  writes : ∀ index, op.Writes index → index < layout.dataStartLba

/-- How far a chunk is taken: in memory if it is active, else by its record. -/
def reach (db : Db) (mem : StoreMem) (cid : UInt32) : Nat :=
  match mem.active with
  | some a => if a.chunkId = cid then a.writeOffset.toNat else
      ((db.chunk? cid).map (·.writeOffset.toNat)).getD 0
  | none => ((db.chunk? cid).map (·.writeOffset.toNat)).getD 0

/-- What a successful reservation guarantees. -/
structure ReserveOk (Fresh : Prop) (mem : StoreMem) (media : Media) (maxLength : UInt32)
    (r : Reservation) (mem' : StoreMem) (media' : Media) : Prop where
  record : ∃ c, media'.view.chunk? r.chunkId = some c ∧
    r.physicalLba.toNat = c.lbaStart.toNat + r.offsetBytes.toNat / 4096 ∧
      c.writeOffset.toNat ≤ r.offsetBytes.toNat
  aligned : r.offsetBytes.toNat % 4096 = 0
  fits : r.offsetBytes.toNat + blocksFor r.lengthBytes.toNat * 4096 ≤ 67108864
  length_le : r.lengthBytes.toNat ≤ maxLength.toNat
  reach_mono : Fresh → ∀ cid, reach media.view mem cid ≤ reach media'.view mem' cid
  reach_before : Fresh → reach media.view mem r.chunkId ≤ r.offsetBytes.toNat
  reach_after : r.offsetBytes.toNat + blocksFor r.lengthBytes.toNat * 4096 ≤
    reach media'.view mem' r.chunkId

/-- The invariant of the chunk engine. -/
structure EngineInv (options : FormatOptions) (layout : NebulaLayout) (Fresh : Prop)
    (mem : StoreMem) (media : Media) : Prop extends BaseInv options layout mem media where
  ids : Fresh → ChunkIdsBelow media.view
  counter : Fresh → ChunkCounter media.view mem

/-- What `reserve` leaves behind. -/
structure ReservePost (options : FormatOptions) (layout : NebulaLayout) (Fresh : Prop)
    (mem : StoreMem) (media : Media) (maxLength : UInt32)
    (result : Except Status Reservation × StoreMem) (media' : Media) : Prop where
  inv : EngineInv options layout Fresh result.2 media'
  frame : ChunkFrame layout Fresh media media'
  objectId : result.2.nextObjectId = mem.nextObjectId
  sync : result.2.syncMetadata = mem.syncMetadata
  reserved : ∀ r, result.1 = .ok r → ReserveOk Fresh mem media maxLength r result.2 media'

section Frame

variable {layout : NebulaLayout} {Fresh : Prop}

theorem ChunkFrame.refl (media : Media) : ChunkFrame layout Fresh media media where
  other := fun _ _ _ => rfl
  disk := ⟨[], by simp, by simp⟩
  grow := fun _ => ChunksGrow.refl _
  keys := id

theorem ChunkFrame.trans {first second third : Media} (one : ChunkFrame layout Fresh first second)
    (two : ChunkFrame layout Fresh second third) : ChunkFrame layout Fresh first third where
  other := fun key chunk counter =>
    (two.other key chunk counter).trans (one.other key chunk counter)
  disk := by
    obtain ⟨pages, pushed, below⟩ := one.disk
    obtain ⟨pages', pushed', below'⟩ := two.disk
    refine ⟨pages ++ pages', ?_, ?_⟩
    · rw [pushed', pushed]
      simp [Disk.push, WriteCache.push]
    · intro write member
      exact (List.mem_append.mp member).elim (below write) (below' write)
  grow := fun fresh => (one.grow fresh).trans (two.grow fresh)
  keys := fun keyed => two.keys (one.keys keyed)

theorem ChunkFrame.withDisk (media : Media) {pages : List (Nat × Block)}
    (below : ∀ write ∈ pages, write.1 < layout.dataStartLba) :
    ChunkFrame layout Fresh media (media.withDisk (media.disk.push pages)) where
  other := fun _ _ _ => rfl
  disk := ⟨pages, rfl, below⟩
  grow := fun _ => ChunksGrow.refl _
  keys := id

/-- A put of the chunk counter. -/
theorem ChunkFrame.commit_nextChunk (media : Media) (sync : Bool) (id : UInt32) :
    ChunkFrame layout Fresh media (media.commit sync [.nextChunk id]) where
  other := by
    intro key _ counter
    rw [Media.view_commit]
    exact Db.lookup_apply_of_not_mem (by simpa [MetaPut.key] using Ne.symm counter)
  disk := ⟨[], by simp, by simp⟩
  grow := by
    intro _ cid c found
    refine ⟨c, ?_, rfl, UInt32.le_refl _⟩
    rw [Media.view_commit, Db.chunk?_apply_of_not_mem (by simp)]
    exact found
  keys := fun keyed => by
    rw [Media.view_commit]
    exact keyed.apply _

/-- A put of one chunk record that continues the old one, if there is one. -/
theorem ChunkFrame.commit_chunk (media : Media) (sync : Bool) (c : Chunk)
    (continues : Fresh → ∀ {old}, media.view.chunk? c.chunkId = some old →
      c.lbaStart = old.lbaStart ∧ old.writeOffset ≤ c.writeOffset) :
    ChunkFrame layout Fresh media (media.commit sync [.chunk c]) where
  other := by
    intro key chunk _
    rw [Media.view_commit]
    exact Db.lookup_apply_of_not_mem (by simpa [MetaPut.key] using (chunk c.chunkId).symm)
  disk := ⟨[], by simp, by simp⟩
  grow := by
    intro fresh cid old found
    rw [Media.view_commit, Db.chunk?_apply_chunk]
    split_ifs with same
    · subst same
      obtain ⟨lba, offset⟩ := continues fresh found
      exact ⟨c, rfl, lba, offset⟩
    · exact ⟨old, found, rfl, UInt32.le_refl _⟩
  keys := fun keyed => by
    rw [Media.view_commit]
    exact keyed.apply _

end Frame

section Reserve

variable {options : FormatOptions} {layout : NebulaLayout} {Fresh Keyed : Prop}
  {act : Media → (op : PrimOp) → op.Res → Media → Prop} {mem : StoreMem} {media : Media}

/-- A synced write leaves nothing but the new view to recover. -/
theorem recoverable_commit {sync : Bool} {batch : Batch} {recovered : Db}
    (recoverable : (media.commit sync batch).db.Recoverable recovered) :
    media.db.Recoverable recovered ∨ recovered = (media.commit sync batch).view :=
  LoggedMap.Recoverable.of_write recoverable

theorem EngineInv.fresh_id (inv : EngineInv options layout Fresh mem media) (fresh : Fresh)
    {cid : UInt32} {c : Chunk} (found : media.view.chunk? cid = some c) :
    cid < mem.nextChunkId := by
  obtain ⟨next, persisted, below⟩ := inv.ids fresh found
  obtain ⟨next', persisted', order⟩ := inv.counter fresh
  rw [persisted, Option.some.injEq] at persisted'
  exact UInt32.lt_of_lt_of_le (persisted' ▸ below) order

/-- Dropping the active chunk keeps the invariant. -/
theorem EngineInv.drop_active (inv : EngineInv options layout Fresh mem media) :
    EngineInv options layout Fresh { mem with active := none } media where
  toMediaOk := inv.toMediaOk
  memory := { inv.memory with active := fun _ none => nomatch none }
  ids := inv.ids
  counter := inv.counter

theorem Db.nextChunk?_apply_of_not_mem {db : Db} {batch : Batch}
    (untouched : ∀ id, MetaPut.nextChunk id ∉ batch) :
    (db.apply batch).nextChunk? = db.nextChunk? := by
  rw [Db.nextChunk?, Db.nextChunk?, Db.lookup_apply_of_not_mem]
  intro put member
  cases put with
  | nextChunk id => exact absurd member (untouched id)
  | _ => simp [MetaPut.key]

theorem Db.nextChunk?_apply_nextChunk (db : Db) (id : UInt32) :
    (db.apply [.nextChunk id]).nextChunk? = some id := by
  have stored := @Db.lookup_apply_of_mem db [.nextChunk id] (.nextChunk id) (.head _) (by simp)
  simp only [MetaPut.key] at stored
  simp [Db.nextChunk?, stored, MetaPut.value]

/-- Advancing a counter that is not at its last value. -/
theorem UInt32.lt_add_one {id : UInt32} (room : id + 1 ≠ 0) : id < id + 1 := by
  rw [UInt32.lt_iff_toNat_lt, UInt32.toNat_add]
  have bound := id.toNat_lt
  have last : id.toNat + 1 ≠ 4294967296 := by
    intro full
    apply room
    apply UInt32.toNat_inj.mp
    rw [UInt32.toNat_add, UInt32.toNat_one, full]
    rfl
  rw [UInt32.toNat_one, Nat.mod_eq_of_lt (by omega)]
  omega

/-- The effect of `allocate_chunk_id` on the invariant. -/
theorem EngineInv.allocateChunkId (actOk : ActOk Fresh Keyed act)
    (inv : EngineInv options layout Fresh mem media) {answer : Bool} {after : Media}
    (acted : act media (.write true [.nextChunk (mem.nextChunkId + 1)]) answer after) :
    EngineInv options layout Fresh { mem with nextChunkId := mem.nextChunkId + 1 } after ∧
      ChunkStep options layout Fresh media (.write true [.nextChunk (mem.nextChunkId + 1)]) after ∧
      after.disk = media.disk ∧ (∀ cid, after.view.chunk? cid = media.view.chunk? cid) ∧
      (Fresh → mem.nextChunkId < mem.nextChunkId + 1) ∧
      (answer = true → after.view.nextChunk? = some (mem.nextChunkId + 1)) := by
  have advance : Fresh → mem.nextChunkId < mem.nextChunkId + 1 := fun fresh =>
    UInt32.lt_add_one (actOk.freshChunk fresh acted)
  rcases primAct_write (actOk.sub acted) with ⟨rfl, rfl⟩ | ⟨rfl, rfl⟩
  · have base := @BaseInv.commit_other _ _ _ _ inv.toBaseInv true
      [.nextChunk (mem.nextChunkId + 1)] (by simp)
    have same : ∀ cid, (media.commit true [.nextChunk (mem.nextChunkId + 1)]).view.chunk? cid =
        media.view.chunk? cid := by
      intro cid
      rw [Media.view_commit, Db.chunk?_apply_of_not_mem (by simp)]
    have counter : (media.commit true [.nextChunk (mem.nextChunkId + 1)]).view.nextChunk? =
        some (mem.nextChunkId + 1) := by
      rw [Media.view_commit, Db.nextChunk?_apply_nextChunk]
    have ids : Fresh → ChunkIdsBelow
        (media.commit true [.nextChunk (mem.nextChunkId + 1)]).view := by
      intro fresh cid c found
      rw [same] at found
      exact ⟨_, counter, UInt32.lt_trans (inv.fresh_id fresh found) (advance fresh)⟩
    exact ⟨⟨base.congr_mem rfl rfl, ids, fun _ => ⟨_, counter, UInt32.le_refl _⟩⟩,
      ⟨ChunkFrame.commit_nextChunk media _ _, base.toMediaOk, ids,
        fun _ => recoverable_commit, fun _ written => written.elim⟩, rfl, same, advance,
        fun _ => counter⟩
  · refine ⟨⟨inv.toBaseInv.congr_mem rfl rfl, inv.ids, ?_⟩,
      ⟨ChunkFrame.refl _, inv.toMediaOk, inv.ids, fun _ => .inl, fun _ written => written.elim⟩,
      rfl, fun _ => rfl, advance, fun wrong => nomatch wrong⟩
    intro fresh
    obtain ⟨next, persisted, order⟩ := inv.counter fresh
    exact ⟨next, persisted, UInt32.le_trans order (UInt32.le_of_lt (advance fresh))⟩

theorem reach_of_idle {db : Db} (idle : mem.active = none) (cid : UInt32) :
    reach db mem cid = ((db.chunk? cid).map (·.writeOffset.toNat)).getD 0 := by
  rw [reach, idle]

theorem reach_of_active {db : Db} {a : Chunk} (current : mem.active = some a) (cid : UInt32) :
    reach db mem cid = if a.chunkId = cid then a.writeOffset.toNat else
      ((db.chunk? cid).map (·.writeOffset.toNat)).getD 0 := by
  rw [reach, current]

/-- The physical address of a reservation. -/
theorem Carved.physicalLba_toNat {c c' : Chunk} {maxLength : UInt32} {r : Reservation}
    (carved : Carved c maxLength r c') (bound : c.lbaStart.toNat < 2 ^ 52) :
    r.physicalLba.toNat = c.lbaStart.toNat + r.offsetBytes.toNat / 4096 := by
  have small := c.writeOffset.toNat_lt
  rw [carved.lba, carved.offset, UInt64.toNat_add, UInt32.toNat_toUInt64, UInt32.toNat_div]
  exact Nat.mod_eq_of_lt (by simp; omega)

theorem MediaOk.lba_lt (inv : MediaOk options layout media) {cid : UInt32} {c : Chunk}
    (found : media.view.chunk? cid = some c) : c.lbaStart.toNat < 2 ^ 52 := by
  have inside := (inv.records.inside found).lt_capacity inv.sound
  have bound := inv.device.mountable.capacity_lt
  omega

theorem Carved.room_le {c c' : Chunk} {maxLength : UInt32} {r : Reservation}
    (carved : Carved c maxLength r c') :
    r.offsetBytes.toNat + blocksFor r.lengthBytes.toNat * 4096 ≤ 67108864 := by
  rw [carved.offset, ← carved.advance]
  exact carved.offsetOk.within

/-- A chunk record, put alone and continuing the old one, is one action of the chunk engine. -/
theorem ChunkStep.put_chunk {c : Chunk} {mem' : StoreMem}
    (base : BaseInv options layout mem' (media.commit true [.chunk c]))
    (continues : Fresh → ∀ {old}, media.view.chunk? c.chunkId = some old →
      c.lbaStart = old.lbaStart ∧ old.writeOffset ≤ c.writeOffset)
    (ids : Fresh → ChunkIdsBelow (media.commit true [.chunk c]).view) :
    ChunkStep options layout Fresh media (.write true [.chunk c]) (media.commit true [.chunk c])
      where
  frame := ChunkFrame.commit_chunk media true c continues
  media := base.toMediaOk
  ids := ids
  recovers := fun _ => recoverable_commit
  writes := fun _ written => written.elim

/-- Recording a fresh chunk at an allocated run. -/
theorem EngineInv.record_fresh (inv : EngineInv options layout Fresh mem media) {lba : Nat}
    (floating : Floating layout media.view media.disk mem lba) {cid : UInt32}
    (unused : Fresh → media.view.chunk? cid = none)
    (below : Fresh → ∃ next, media.view.nextChunk? = some next ∧ cid < next)
    {c' : Chunk} (next : c' = { freshChunk cid lba with
      writeOffset := c'.writeOffset, nextIdx := c'.nextIdx }) (offset : c'.OffsetOk) :
    EngineInv options layout Fresh { mem with active := some c' }
        (media.commit true [.chunk (freshChunk cid lba)]) ∧
      ChunkStep options layout Fresh media (.write true [.chunk (freshChunk cid lba)])
        (media.commit true [.chunk (freshChunk cid lba)]) ∧
      (freshChunk cid lba).lbaStart.toNat = lba := by
  have capacity := floating.inside.lt_capacity inv.sound
  have bound := inv.device.mountable.capacity_lt
  have start : (freshChunk cid lba).lbaStart.toNat = lba := by
    rw [freshChunk, UInt64.toNat_ofNat']
    exact Nat.mod_eq_of_lt (by omega)
  have covers : ∀ index, (freshChunk cid lba).Covers index ↔
      lba ≤ index ∧ index < lba + kChunkBlocks := by
    intro index
    rw [Chunk.Covers, start]
  have base : BaseInv options layout { mem with active := some c' }
      (media.commit true [.chunk (freshChunk cid lba)]) := by
    refine @BaseInv.put_chunk _ _ _ _ inv.toBaseInv true [.chunk (freshChunk cid lba)]
      (freshChunk cid lba) (.head _) (by simp) ⟨rfl, Nat.zero_le _⟩ ?_ ?_ ?_ ?_
      (fun wrong => absurd wrong (by decide)) _ ?_
    · rw [start]
      exact floating.inside
    · intro index covered
      exact floating.marked index ((covers index).mp covered).1 ((covers index).mp covered).2
    · intro index covered
      exact floating.loaded index ((covers index).mp covered).1 ((covers index).mp covered).2
    · intro other c found _ index covered again
      exact floating.apart index ((covers index).mp covered).1 ((covers index).mp covered).2
        ⟨other, c, found, again⟩
    · intro a current
      rw [Option.some.injEq] at current
      subst current
      refine ⟨offset, by rw [next]; rfl, freshChunk cid lba, ?_, by rw [next], ?_, rfl⟩
      · rw [next, Db.chunk?_apply_chunk, if_pos rfl]
      · exact UInt32.le_iff_toNat_le.mpr (Nat.zero_le _)
  have counter : (media.commit true [.chunk (freshChunk cid lba)]).view.nextChunk? =
      media.view.nextChunk? := by
    rw [Media.view_commit, Db.nextChunk?_apply_of_not_mem (by simp)]
  have ids : Fresh → ChunkIdsBelow (media.commit true [.chunk (freshChunk cid lba)]).view := by
    intro fresh other c found
    rw [counter]
    rw [Media.view_commit, Db.chunk?_apply_chunk] at found
    split_ifs at found with same
    · rw [show other = cid from same]
      exact below fresh
    · exact inv.ids fresh found
  refine ⟨⟨base, ids, ?_⟩, ChunkStep.put_chunk base ?_ ids, start⟩
  · intro fresh
    rw [ChunkCounter, counter]
    exact inv.counter fresh
  · intro fresh old found
    rw [show (freshChunk cid lba).chunkId = cid from rfl, unused fresh] at found
    contradiction

/-- A reservation from a fresh chunk. -/
theorem ReserveOk.of_fresh {media' : Media} {mem' : StoreMem} {maxLength : UInt32}
    {r : Reservation} {c c' : Chunk} (carved : Carved c maxLength r c') (idle : mem.active = none)
    (bound : c.lbaStart.toNat < 2 ^ 52) (stored : media'.view.chunk? c.chunkId = some c)
    (unused : Fresh → media.view.chunk? c.chunkId = none)
    (grow : Fresh → ChunksGrow media.view media'.view) :
    ReserveOk Fresh mem media maxLength r { mem' with active := some c' } media' := by
  have ident : c'.chunkId = c.chunkId := by rw [carved.next]
  have old : Fresh → reach media.view mem c.chunkId = 0 := by
    intro fresh
    rw [reach_of_idle idle, unused fresh]
    rfl
  refine ⟨⟨c, ?_, carved.physicalLba_toNat bound, ?_⟩, ?_, carved.room_le, ?_, ?_, ?_, ?_⟩
  · rw [carved.chunkId]
    exact stored
  · rw [carved.offset]
  · have aligned := carved.offsetOk.aligned
    rw [carved.advance] at aligned
    rw [carved.offset]
    omega
  · rw [carved.length]
    exact min_le_left _ _
  · intro fresh cid
    rw [@reach_of_active { mem' with active := some c' } _ c' rfl cid, ident]
    split_ifs with same
    · rw [← same, old fresh]
      exact Nat.zero_le _
    · rw [reach_of_idle idle]
      cases found : media.view.chunk? cid with
      | none => exact Nat.zero_le _
      | some before =>
          obtain ⟨after, found', -, order⟩ := grow fresh found
          rw [found']
          exact UInt32.le_iff_toNat_le.mp order
  · intro fresh
    rw [carved.chunkId, old fresh]
    exact Nat.zero_le _
  · rw [@reach_of_active { mem' with active := some c' } _ c' rfl, carved.chunkId, if_pos ident,
      carved.advance, carved.offset]

/-- The pages that an allocation writes are below the data region. -/
theorem EngineInv.blockAlloc_writes (inv : EngineInv options layout Fresh mem media) (index : Nat)
    (written : (PrimOp.blockAlloc mem.mount kChunkBlocks).Writes index) :
    index < layout.dataStartLba := by
  obtain ⟨start, page, found, -, high, rfl⟩ := written
  obtain ⟨-, inside, -⟩ := firstRun_eq_some (by decide) found
  have capacity := inv.memory.searchedBits_le inv.device.mountable
  obtain ⟨-, -, -, lba, -⟩ := inv.device.mountable.superblock_toNat inv.memory.sb
  rw [lba]
  refine page_lt_data inv.sound (lt_of_le_of_lt high (page_lt_count inv.sound ?_))
  have positive : 0 < kChunkBlocks := by decide
  omega

/-- `reserve` with no active chunk. -/
theorem reserveFresh_safe (actOk : ActOk Fresh Keyed act)
    (inv : EngineInv options layout Fresh mem media)
    (idle : mem.active = none) {maxLength : UInt32} (some : 0 < maxLength) :
    (reserveFresh maxLength some mem).Safe act
      (fun before op _ after => ChunkStep options layout Fresh before op after)
      (ReservePost options layout Fresh mem media maxLength) media := by
  rintro ⟨status, mount⟩ after acted
  obtain ⟨disk, result, rfl⟩ := primAct_blockAlloc (actOk.sub acted)
  have frame : ∀ {pages : List (Nat × Block)} {start : Nat},
      (∀ write ∈ pages, ∃ page < layout.bitmapBlockCount,
        write = (layout.bitmapLba + page,
          (markRun mem.mount.bitmap start kChunkBlocks).l0Bits page)) →
      ChunkFrame layout Fresh media (media.withDisk (media.disk.push pages)) := by
    intro pages start images
    refine ChunkFrame.withDisk media fun write member => ?_
    obtain ⟨page, below, rfl⟩ := images write member
    exact page_lt_data inv.sound below
  cases result with
  | error error start part sub inside =>
      have images : ∀ write ∈ part, ∃ page < layout.bitmapBlockCount,
          write = (layout.bitmapLba + page,
            (markRun mem.mount.bitmap start kChunkBlocks).l0Bits page) := by
        intro write member
        obtain ⟨positive, bound⟩ := inside (List.ne_nil_of_mem member)
        exact inv.pageWrites_mem positive bound (sub.subset member)
      have pushed := inv.push_pages images
      have kept : EngineInv options layout Fresh mem
          (media.withDisk (media.disk.push part)) := ⟨pushed, inv.ids, inv.counter⟩
      refine ⟨⟨frame images, pushed.toMediaOk, inv.ids, fun _ => .inl, inv.blockAlloc_writes⟩, ?_⟩
      exact ⟨kept, frame images, rfl, rfl, by simp⟩
  | ok start positive free inside least room =>
      have images := fun write member => @BaseInv.pageWrites_mem _ _ _ _ inv.toBaseInv start
        kChunkBlocks positive inside write member
      obtain ⟨base, floating⟩ := inv.toBaseInv.alloc_ok free inside
      have inv₁ : EngineInv options layout Fresh
          { mem with mount := mem.mount.withBitmap (markRun mem.mount.bitmap start kChunkBlocks) }
          (media.withDisk (media.disk.push (pageWrites
            (mem.mount.withBitmap (markRun mem.mount.bitmap start kChunkBlocks)) start
            kChunkBlocks))) := ⟨base, inv.ids, inv.counter⟩
      refine ⟨⟨frame images, base.toMediaOk, inv.ids, fun _ => .inl, inv.blockAlloc_writes⟩, ?_⟩
      intro named after₂ acted₂
      obtain ⟨inv₂, step₂, disk₂, same₂, advance, persisted⟩ := inv₁.allocateChunkId actOk acted₂
      refine ⟨step₂, ?_⟩
      cases named with
      | false =>
          exact ⟨inv₂, (frame images).trans step₂.frame, rfl, rfl, by simp⟩
      | true =>
          have unused : Fresh → after₂.view.chunk? mem.nextChunkId = none := by
            intro fresh
            rw [same₂, Option.eq_none_iff_forall_ne_some]
            intro c found
            exact absurd (inv.fresh_id fresh found) (UInt32.lt_irrefl _)
          have below : Fresh → ∃ next, after₂.view.nextChunk? = Option.some next ∧
              mem.nextChunkId < next := fun fresh => ⟨_, persisted rfl, advance fresh⟩
          have floating₂ : Floating layout after₂.view after₂.disk
              { mem with
                mount := mem.mount.withBitmap (markRun mem.mount.bitmap start kChunkBlocks)
                nextChunkId := mem.nextChunkId + 1 } start := by
            refine ⟨floating.inside, floating.loaded, disk₂ ▸ floating.marked, ?_⟩
            rintro index low high ⟨cid, c, found, covered⟩
            exact floating.apart index low high ⟨cid, c, same₂ cid ▸ found, covered⟩
          have carved := @Chunk.carve_carved (freshChunk mem.nextChunkId start) _
            ⟨rfl, Nat.zero_le _⟩ (freshChunk_room mem.nextChunkId start) some
          obtain ⟨inv₃, step₃, lba₃⟩ := inv₂.record_fresh floating₂ unused below carved.next
            carved.offsetOk
          intro recorded after₃ acted₃
          rcases primAct_write (actOk.sub acted₃) with ⟨rfl, rfl⟩ | ⟨rfl, rfl⟩
          · refine ⟨step₃, inv₃, ((frame images).trans step₂.frame).trans step₃.frame, rfl, rfl, ?_⟩
            intro r done
            simp only [Except.ok.injEq] at done
            subst done
            have stored : (after₂.commit true
                [.chunk (freshChunk mem.nextChunkId start)]).view.chunk? mem.nextChunkId =
                Option.some (freshChunk mem.nextChunkId start) := by
              rw [Media.view_commit, Db.chunk?_apply_chunk]
              exact if_pos rfl
            exact ReserveOk.of_fresh carved idle (inv₃.lba_lt stored) stored
              (fun fresh => same₂ _ ▸ unused fresh)
              fun fresh cid c found => ((step₂.frame.trans step₃.frame).grow fresh) found
          · refine ⟨⟨ChunkFrame.refl _, inv₂.toMediaOk, inv₂.ids, fun _ => .inl, fun _ written =>
              written.elim⟩, ?_⟩
            exact ⟨inv₂, (frame images).trans step₂.frame, rfl, rfl, by simp⟩

/-- Recording the active chunk as it is, and dropping it. -/
theorem EngineInv.seal (inv : EngineInv options layout Fresh mem media) {c c' : Chunk}
    (current : mem.active = some c) (ident : c'.chunkId = c.chunkId)
    (start : c'.lbaStart = c.lbaStart) (offset : c'.writeOffset = c.writeOffset) :
    EngineInv options layout Fresh { mem with active := none } (media.commit true [.chunk c']) ∧
      ChunkStep options layout Fresh media (.write true [.chunk c'])
        (media.commit true [.chunk c']) ∧
      ∀ cid, reach (media.commit true [.chunk c']).view { mem with active := none } cid =
        reach media.view mem cid := by
  have ok := inv.memory.active c current
  obtain ⟨r, record, lba, order, -⟩ := ok.record
  have base : BaseInv options layout { mem with active := none }
      (media.commit true [.chunk c']) :=
    inv.toBaseInv.put_active current ident start ⟨offset ▸ ok.offset.aligned,
      offset ▸ ok.offset.within⟩ (.head _) (by simp) fun _ none => nomatch none
  have counter : (media.commit true [.chunk c']).view.nextChunk? = media.view.nextChunk? := by
    rw [Media.view_commit, Db.nextChunk?_apply_of_not_mem (by simp)]
  have ids : Fresh → ChunkIdsBelow (media.commit true [.chunk c']).view := by
    intro fresh other stored found
    rw [counter]
    rw [Media.view_commit, Db.chunk?_apply_chunk] at found
    split_ifs at found with same
    · rw [same, ident]
      exact inv.ids fresh record
    · exact inv.ids fresh found
  refine ⟨⟨base, ids, ?_⟩, ChunkStep.put_chunk base ?_ ids, ?_⟩
  · intro fresh
    rw [ChunkCounter, counter]
    exact inv.counter fresh
  · intro fresh old found
    rw [ident, record, Option.some.injEq] at found
    subst found
    exact ⟨start.trans lba.symm, offset ▸ order⟩
  · intro cid
    rw [reach_of_idle rfl, reach_of_active current, Media.view_commit, Db.chunk?_apply_chunk, ident]
    by_cases same : c.chunkId = cid
    · rw [if_pos same, if_pos same.symm, ← offset]
      rfl
    · rw [if_neg same, if_neg (Ne.symm same)]

/-- A reservation from the active chunk. -/
theorem ReserveOk.of_active (inv : EngineInv options layout Fresh mem media) {maxLength : UInt32}
    {r : Reservation} {c c' : Chunk} (current : mem.active = some c)
    (carved : Carved c maxLength r c') :
    ReserveOk Fresh mem media maxLength r { mem with active := some c' } media := by
  obtain ⟨record, found, lba, order, -⟩ := (inv.memory.active c current).record
  have ident : c'.chunkId = c.chunkId := by rw [carved.next]
  have after : ∀ cid, reach media.view { mem with active := some c' } cid =
      if c.chunkId = cid then c'.writeOffset.toNat else reach media.view mem cid := by
    intro cid
    rw [@reach_of_active { mem with active := some c' } _ c' rfl cid, ident]
    split_ifs with same
    · rfl
    · rw [reach_of_active current, if_neg same]
  have here : reach media.view mem c.chunkId = c.writeOffset.toNat := by
    rw [reach_of_active current, if_pos rfl]
  refine ⟨⟨record, carved.chunkId ▸ found, ?_, ?_⟩, ?_, carved.room_le, ?_, ?_, ?_, ?_⟩
  · rw [lba]
    exact carved.physicalLba_toNat (lba ▸ inv.lba_lt found)
  · rw [carved.offset]
    exact UInt32.le_iff_toNat_le.mp order
  · rw [carved.offset]
    exact (inv.memory.active c current).offset.aligned
  · rw [carved.length]
    exact min_le_left _ _
  · intro _ cid
    rw [after]
    split_ifs with same
    · rw [← same, here, carved.advance]
      exact Nat.le_add_right _ _
    · exact le_rfl
  · intro _
    rw [carved.chunkId, here, carved.offset]
  · rw [carved.chunkId, after, if_pos rfl, carved.advance, carved.offset]

/-- The invariant after a reservation from the active chunk. -/
theorem EngineInv.carve (inv : EngineInv options layout Fresh mem media) {maxLength : UInt32}
    {r : Reservation} {c c' : Chunk} (current : mem.active = some c)
    (carved : Carved c maxLength r c') :
    EngineInv options layout Fresh { mem with active := some c' } media where
  toMediaOk := inv.toMediaOk
  memory :=
    { inv.memory with
      active := by
        intro a chosen
        obtain ⟨record, found, lba, order, open_⟩ := (inv.memory.active c current).record
        rw [Option.some.injEq] at chosen
        subst chosen
        refine ⟨carved.offsetOk, ?_, record, ?_, ?_, ?_, open_⟩
        · rw [carved.next]
          exact (inv.memory.active c current).unsealed
        · rw [carved.next]
          exact found
        · rw [carved.next]
          exact lba
        · refine UInt32.le_trans order (UInt32.le_iff_toNat_le.mpr ?_)
          rw [carved.advance]
          exact Nat.le_add_right _ _ }
  ids := inv.ids
  counter := inv.counter

/-- A reservation after a step that left the reach of every chunk as it was. -/
theorem ReservePost.after {mem₁ : StoreMem} {media₁ : Media} {maxLength : UInt32}
    {result : Except Status Reservation × StoreMem} {media' : Media}
    (post : ReservePost options layout Fresh mem₁ media₁ maxLength result media')
    (frame : ChunkFrame layout Fresh media media₁)
    (same : ∀ cid, reach media₁.view mem₁ cid = reach media.view mem cid)
    (objectId : mem₁.nextObjectId = mem.nextObjectId)
    (sync : mem₁.syncMetadata = mem.syncMetadata) :
    ReservePost options layout Fresh mem media maxLength result media' where
  inv := post.inv
  frame := frame.trans post.frame
  objectId := post.objectId.trans objectId
  sync := post.sync.trans sync
  reserved := fun r done =>
    { post.reserved r done with
      reach_mono := fun fresh cid =>
        (same cid).symm.trans_le ((post.reserved r done).reach_mono fresh cid)
      reach_before := fun fresh =>
        (same _).symm.trans_le ((post.reserved r done).reach_before fresh) }

/-- Every action of `reserve` is one of the chunk engine. -/
theorem reserve_safe (actOk : ActOk Fresh Keyed act)
    (inv : EngineInv options layout Fresh mem media) (maxLength : UInt32) :
    (reserve maxLength mem).Safe act
      (fun before op _ after => ChunkStep options layout Fresh before op after)
      (ReservePost options layout Fresh mem media maxLength) media := by
  rw [reserve]
  split_ifs with some
  · cases current : mem.active with
    | none => exact reserveFresh_safe actOk inv current some
    | some c =>
        simp only
        split_ifs with room
        · have carved := Chunk.carve_carved (inv.memory.active c current).offset room some
          refine ⟨inv.carve current carved, ChunkFrame.refl _, rfl, rfl, ?_⟩
          intro r done
          simp only [Except.ok.injEq] at done
          subst done
          exact ReserveOk.of_active inv current carved
        · intro answer after acted
          rcases primAct_write (actOk.sub acted) with ⟨rfl, rfl⟩ | ⟨rfl, rfl⟩
          · obtain ⟨sealed, step, same⟩ :=
              @EngineInv.seal _ _ _ _ _ inv c { c with isSealed := true } current rfl rfl rfl
            refine ⟨step, ?_⟩
            exact (reserveFresh_safe actOk sealed rfl some).mono fun result media' post =>
              post.after step.frame same rfl rfl
          · exact ⟨⟨ChunkFrame.refl _, inv.toMediaOk, inv.ids, fun _ => .inl, fun _ written =>
              written.elim⟩, inv.drop_active, ChunkFrame.refl _, rfl, rfl, by simp⟩
  · exact ⟨inv, ChunkFrame.refl _, rfl, rfl, by simp⟩

end Reserve

end MiniFs.ObjStore
