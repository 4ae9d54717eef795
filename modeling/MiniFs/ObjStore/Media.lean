import MiniFs.Lib.LoggedMap
import MiniFs.Lib.Prog
import MiniFs.Nebula.BlockAlloc
import MiniFs.ObjStore.Common

/-!
# What the object store runs on

A device and a metadata database, and the primitive actions on them.  The environment decides how
each action goes: device writes and flushes and database reads and writes may fail.
-/

namespace MiniFs.ObjStore

/-- A database state. -/
abbrev Db : Type := SortedMap ByteString ByteString

/-- `MetadataStore::Batch`: the puts of one write batch. -/
abbrev Batch : Type := List MetaPut

/-- The device and the database. -/
structure Media where
  disk : Disk
  db : LoggedMap ByteString ByteString

/-- What readers of the database see. -/
def Media.view (media : Media) : Db := media.db.view

/-- The media with another device state. -/
def Media.withDisk (media : Media) (disk : Disk) : Media := { media with disk }

/-- Apply a batch to the database. -/
def Media.commit (media : Media) (sync : Bool) (batch : Batch) : Media :=
  { media with db := media.db.write sync (batch.map MetaPut.encode) }

/-- The primitive actions. -/
inductive PrimOp
  /-- `DB::Get`. -/
  | get (key : MetaKey)
  /-- `DB::Put` and `DB::Write`. -/
  | write (sync : Bool) (batch : Batch)
  /-- `nebula_io_write`. -/
  | ioWrite (lba : Nat) (blocks : List Block)
  /-- `nebula_io_flush`. -/
  | ioFlush
  /-- `nebula_block_alloc`, on a loaded mount. -/
  | blockAlloc (loaded : NebulaMount) (n : Nat)
  /-- `nebula_fs_mount`. -/
  | mount

/-- What each primitive action returns. -/
abbrev PrimOp.Res : PrimOp → Type
  | get _ => Except Unit (Option ByteString)
  | write _ _ => Bool
  | ioWrite _ _ => Except Errno Unit
  | ioFlush => Except Errno Unit
  | blockAlloc _ _ => Except Errno Nat × NebulaMount
  | mount => Except Errno NebulaMount

/-- What the environment decides about one action: the fate of the request, and what a fresh buffer
holds. -/
structure Chance where
  io : IoOutcome
  heap : Nat → Block

/-- The effect of a primitive action.  A database write that fails has no effect, and a database
read that fails does not say whether the key is there. -/
def PrimOp.exec (chance : Chance) : (op : PrimOp) → Media → op.Res × Media
  | .get key, media =>
      match chance.io with
      | .ok => (.ok (media.db.view.get key.encode), media)
      | .fail _ => (.error (), media)
  | .write sync batch, media =>
      match chance.io with
      | .ok => (true, media.commit sync batch)
      | .fail _ => (false, media)
  | .ioWrite lba blocks, media =>
      let result := nebulaIoWrite chance.io media.disk lba blocks
      (result.1, media.withDisk result.2)
  | .ioFlush, media =>
      let result := nebulaIoFlush chance.io media.disk
      (result.1, media.withDisk result.2)
  | .blockAlloc loaded n, media =>
      let result := nebulaBlockAlloc chance.io media.disk loaded n
      ((result.1, result.2.2), media.withDisk result.2.1)
  | .mount, media => (nebulaMountDo chance.heap media.disk, media)

/-- The device blocks that an action requests to write. -/
def PrimOp.Writes : PrimOp → Nat → Prop
  | .ioWrite lba blocks, index => lba ≤ index ∧ index < lba + blocks.length
  | .blockAlloc loaded n, index => ∃ start page,
      firstRun (bitGet loaded.bitmap.l0Bits) n (searchedBits loaded) = some start ∧
        start / bitmapBitsPerPage ≤ page ∧ page ≤ (start + n - 1) / bitmapBitsPerPage ∧
          index = loaded.sb.bitmapLba.toNat + page
  | _, _ => False

/-- Programs over the primitive actions. -/
abbrev PrimProg : Type → Type := Prog PrimOp PrimOp.Res

/-- A primitive action under some decision of the environment. -/
def primAct (before : Media) (op : PrimOp) (answer : op.Res) (after : Media) : Prop :=
  ∃ chance, op.exec chance before = (answer, after)

/-- An action that is no failed database read. -/
def PrimOp.Answered : (op : PrimOp) → op.Res → Prop
  | .get _, answer => answer ≠ .error ()
  | _, _ => True

/-- Power loss: the device keeps some of its unflushed writes, the database a prefix of its unsynced
batches. -/
def Media.crash (media : Media) (keptWrites : List (Nat × Block)) (keptBatches : Nat) : Media where
  disk := media.disk.cut keptWrites
  db := media.db.crash keptBatches

namespace Db

/-- Apply a batch. -/
def apply (db : Db) (batch : Batch) : Db := db.insertAll (batch.map MetaPut.encode)

/-- The raw value under a key. -/
def lookup (db : Db) (key : MetaKey) : Option ByteString := db.get key.encode

theorem lookup_apply_of_not_mem {db : Db} {batch : Batch} {key : MetaKey}
    (untouched : ∀ put ∈ batch, put.key ≠ key) : (db.apply batch).lookup key = db.lookup key := by
  apply SortedMap.get_insertAll_of_not_mem
  intro entry member
  obtain ⟨put, listed, rfl⟩ := List.mem_map.mp member
  simpa [MetaPut.encode] using untouched put listed

theorem lookup_apply_of_mem {db : Db} {batch : Batch} {put : MetaPut} (member : put ∈ batch)
    (only : ∀ other ∈ batch, other.key = put.key → other.value = put.value) :
    (db.apply batch).lookup put.key = some put.value := by
  apply SortedMap.get_insertAll_of_mem
  · exact List.mem_map.mpr ⟨put, member, rfl⟩
  · intro entry listed here
    obtain ⟨other, inBatch, rfl⟩ := List.mem_map.mp listed
    exact only other inBatch (by simpa [MetaPut.encode] using here)

/-- A value after a batch was there before or was put by it. -/
theorem lookup_apply_cases {db : Db} {batch : Batch} {key : MetaKey} {value : ByteString}
    (stored : (db.apply batch).lookup key = some value) :
    db.lookup key = some value ∨ ∃ put ∈ batch, put.key = key ∧ put.value = value := by
  rcases SortedMap.mem_insertAll (SortedMap.get_eq_some_iff.mp stored) with old | new
  · exact .inl (SortedMap.get_eq_some_iff.mpr old)
  · obtain ⟨put, listed, same⟩ := List.mem_map.mp new
    simp only [MetaPut.encode, Prod.mk.injEq, MetaKey.encode_inj] at same
    exact .inr ⟨put, listed, same⟩

/-- Every entry is one that the store puts. -/
def WellKeyed (db : Db) : Prop := ∀ entry ∈ db.entries, ∃ put : MetaPut, entry = put.encode

theorem WellKeyed.apply {db : Db} (keyed : db.WellKeyed) (batch : Batch) :
    (db.apply batch).WellKeyed := by
  intro entry member
  rcases SortedMap.mem_insertAll member with old | new
  · exact keyed entry old
  · obtain ⟨put, -, rfl⟩ := List.mem_map.mp new
    exact ⟨put, rfl⟩

/-- The object id bound to a path. -/
def path? (db : Db) (path : ByteString) : Option UInt64 :=
  (db.lookup (.path path)).bind Packed.u64.ofBytes?

/-- The attributes of an object. -/
def attrs? (db : Db) (oid : UInt64) : Option ObjectAttrs :=
  (db.lookup (.attrs oid)).bind ObjectAttrs.layout.ofBytes?

/-- The extent of an object at a logical offset. -/
def extent? (db : Db) (oid logicalOffset : UInt64) : Option ExtentEntry :=
  (db.lookup (.extent oid logicalOffset)).bind ExtentEntry.layout.ofBytes?

/-- A chunk record. -/
def chunk? (db : Db) (cid : UInt32) : Option Chunk :=
  (db.lookup (.chunk cid)).bind decodeChunk

/-- The persisted object id counter. -/
def nextObj? (db : Db) : Option UInt64 := (db.lookup .nextObj).bind Packed.u64.ofBytes?

/-- The persisted chunk id counter. -/
def nextChunk? (db : Db) : Option UInt32 := (db.lookup .nextChunk).bind Packed.u32.ofBytes?

/-- A lookup depends on the value under its key only. -/
theorem path?_congr {db db' : Db} {path : ByteString}
    (same : db'.lookup (.path path) = db.lookup (.path path)) : db'.path? path = db.path? path := by
  rw [path?, path?, same]

theorem extent?_congr {db db' : Db} {oid off : UInt64}
    (same : db'.lookup (.extent oid off) = db.lookup (.extent oid off)) :
    db'.extent? oid off = db.extent? oid off := by
  rw [extent?, extent?, same]

theorem chunk?_congr {db db' : Db} {cid : UInt32}
    (same : db'.lookup (.chunk cid) = db.lookup (.chunk cid)) : db'.chunk? cid = db.chunk? cid := by
  rw [chunk?, chunk?, same]

/-- A batch without a record of the chunk leaves its record alone. -/
theorem chunk?_apply_of_not_mem {db : Db} {batch : Batch} {cid : UInt32}
    (untouched : ∀ c, MetaPut.chunk c ∈ batch → c.chunkId ≠ cid) :
    (db.apply batch).chunk? cid = db.chunk? cid := by
  apply chunk?_congr
  apply lookup_apply_of_not_mem
  intro put member
  cases put with
  | chunk c => simpa [MetaPut.key] using untouched c member
  | _ => simp [MetaPut.key]

/-- A batch with one record of a chunk stores it. -/
theorem chunk?_apply_of_mem {db : Db} {batch : Batch} {c : Chunk} (member : .chunk c ∈ batch)
    (only : ∀ other, MetaPut.chunk other ∈ batch → other = c) :
    (db.apply batch).chunk? c.chunkId = some c := by
  have stored := @lookup_apply_of_mem db batch (.chunk c) member (by
    intro other listed here
    cases other with
    | chunk other => rw [only other listed]
    | _ => simp [MetaPut.key] at here)
  simp only [MetaPut.key] at stored
  simp [chunk?, stored, MetaPut.value]

theorem chunk?_apply_chunk (db : Db) (c : Chunk) (cid : UInt32) :
    (db.apply [.chunk c]).chunk? cid = if cid = c.chunkId then some c else db.chunk? cid := by
  split_ifs with same
  · subst same
    exact chunk?_apply_of_mem (.head _) (by simp)
  · exact chunk?_apply_of_not_mem (by simpa using Ne.symm same)

end Db

@[simp] theorem Media.view_commit (media : Media) (sync : Bool) (batch : Batch) :
    (media.commit sync batch).view = media.view.apply batch :=
  LoggedMap.view_write _ _ _

@[simp] theorem Media.disk_commit (media : Media) (sync : Bool) (batch : Batch) :
    (media.commit sync batch).disk = media.disk := rfl

@[simp] theorem Media.view_withDisk (media : Media) (disk : Disk) :
    (media.withDisk disk).view = media.view := rfl

@[simp] theorem Media.disk_withDisk (media : Media) (disk : Disk) :
    (media.withDisk disk).disk = disk := rfl

@[simp] theorem Media.withDisk_self (media : Media) : media.withDisk media.disk = media := rfl

section primAct

variable {before after : Media}

theorem primAct_get {key : MetaKey} {answer : Except Unit (Option ByteString)}
    (acted : primAct before (.get key) answer after) :
    (answer = .ok (before.view.lookup key) ∨ answer = .error ()) ∧ after = before := by
  obtain ⟨⟨io, heap⟩, done⟩ := acted
  cases io with
  | ok =>
      cases done
      exact ⟨.inl rfl, rfl⟩
  | fail landed =>
      cases done
      exact ⟨.inr rfl, rfl⟩

theorem primAct_write {sync : Bool} {batch : Batch} {answer : Bool}
    (acted : primAct before (.write sync batch) answer after) :
    (answer = true ∧ after = before.commit sync batch) ∨ (answer = false ∧ after = before) := by
  obtain ⟨⟨io, heap⟩, done⟩ := acted
  cases io with
  | ok =>
      cases done
      exact .inl ⟨rfl, rfl⟩
  | fail landed =>
      cases done
      exact .inr ⟨rfl, rfl⟩

theorem primAct_ioWrite {lba : Nat} {blocks : List Block} {answer : Except Errno Unit}
    (acted : primAct before (.ioWrite lba blocks) answer after) :
    ∃ part : List (Nat × Block), part.Sublist (rangeWrites lba blocks) ∧
      after = before.withDisk (before.disk.push part) ∧
      (answer = .ok () → part = rangeWrites lba blocks) := by
  obtain ⟨chance, done⟩ := acted
  cases done
  obtain ⟨part, sub, landed⟩ := nebulaIoWrite_push chance.io before.disk lba blocks
  by_cases succeeded : (nebulaIoWrite chance.io before.disk lba blocks).1 = .ok ()
  · exact ⟨_, List.Sublist.refl _, congrArg before.withDisk (nebulaIoWrite_ok succeeded).2,
      fun _ => rfl⟩
  · exact ⟨part, sub, congrArg before.withDisk landed, fun ok => absurd ok succeeded⟩

theorem primAct_ioFlush {answer : Except Errno Unit}
    (acted : primAct before .ioFlush answer after) :
    (answer = .ok () ∧ after = before.withDisk before.disk.flush) ∨
      (answer = .error Errno.EIO ∧ after = before) := by
  obtain ⟨⟨io, heap⟩, done⟩ := acted
  cases io with
  | ok =>
      cases done
      exact .inl ⟨rfl, rfl⟩
  | fail landed =>
      cases done
      exact .inr ⟨rfl, rfl⟩

theorem primAct_blockAlloc {loaded : NebulaMount} {n : Nat}
    {answer : Except Errno Nat × NebulaMount}
    (acted : primAct before (.blockAlloc loaded n) answer after) :
    ∃ disk, AllocResult before.disk loaded n (answer.1, disk, answer.2) ∧
      after = before.withDisk disk := by
  obtain ⟨chance, done⟩ := acted
  cases done
  exact ⟨_, nebulaBlockAlloc_result chance.io before.disk loaded n, rfl⟩

theorem primAct_mount {answer : Except Errno NebulaMount}
    (acted : primAct before .mount answer after) :
    (∃ heap, answer = nebulaMountDo heap before.disk) ∧ after = before := by
  obtain ⟨chance, done⟩ := acted
  cases done
  exact ⟨⟨chance.heap, rfl⟩, rfl⟩

/-- Only a database write changes what readers of the database see. -/
theorem primAct_view {op : PrimOp} {answer : op.Res} (acted : primAct before op answer after) :
    after.view = before.view ∨
      ∃ sync batch, op = .write sync batch ∧ after = before.commit sync batch := by
  cases op with
  | get key => exact .inl (by rw [(primAct_get acted).2])
  | write sync batch =>
      rcases primAct_write acted with ⟨-, committed⟩ | ⟨-, same⟩
      · exact .inr ⟨sync, batch, rfl, committed⟩
      · exact .inl (by rw [same])
  | ioWrite lba blocks =>
      obtain ⟨part, -, pushed, -⟩ := primAct_ioWrite acted
      exact .inl (by rw [pushed, Media.view_withDisk])
  | ioFlush =>
      rcases primAct_ioFlush acted with ⟨-, flushed⟩ | ⟨-, same⟩
      · exact .inl (by rw [flushed, Media.view_withDisk])
      · exact .inl (by rw [same])
  | blockAlloc loaded n =>
      obtain ⟨disk, -, changed⟩ := primAct_blockAlloc acted
      exact .inl (by rw [changed, Media.view_withDisk])
  | mount => exact .inl (by rw [(primAct_mount acted).2])

end primAct

end MiniFs.ObjStore
