import MiniFs.Lib.Tiling
import MiniFs.ObjStore.Reserve

/-!
# The ledger

A ledger says which objects exist and which segments each write to them has left behind.  `Persist`
relates it to a database and a device: every extent of the database is a segment of the ledger, and
the blocks of every segment hold its bytes.  Later actions of the store keep this, because they
write no block of a committed segment.
-/

namespace MiniFs.ObjStore

open Packed

/-- A block of the given bytes, zeros after their end. -/
def padBlock (data : List UInt8) (k : Nat) : Block := fun index => data.getD (k * 4096 + index) 0

namespace ExtentEntry

/-- Where the extent starts in its chunk. -/
def start (e : ExtentEntry) : Nat := e.offsetInChunk.toNat

/-- Blocks of the extent, the padded last one included. -/
def blocks (e : ExtentEntry) : Nat := blocksFor e.length.toNat

/-- Where the padded extent ends in its chunk. -/
def stop (e : ExtentEntry) : Nat := e.start + e.blocks * 4096

/-- The first device block of the extent. -/
def lba (e : ExtentEntry) (c : Chunk) : Nat := c.lbaStart.toNat + e.start / 4096

/-- The padded extents do not overlap. -/
def Apart (first second : ExtentEntry) : Prop :=
  first.chunkId ≠ second.chunkId ∨ first.stop ≤ second.start ∨ second.stop ≤ first.start

theorem Apart.symm {first second : ExtentEntry} (apart : first.Apart second) :
    second.Apart first := by
  rcases apart with chunk | order
  · exact .inl chunk.symm
  · exact .inr order.symm

theorem lba_congr {e : ExtentEntry} {c c' : Chunk} (same : c'.lbaStart = c.lbaStart) :
    e.lba c' = e.lba c := by
  rw [lba, lba, same]

/-- Extents that do not overlap in their chunks share no device block. -/
theorem Apart.lba_ne {layout : NebulaLayout} {db : Db} {first second : ExtentEntry}
    (apart : first.Apart second) (records : RecordsOk layout db)
    (aligned : first.start % 4096 = 0) (aligned' : second.start % 4096 = 0) {c c' : Chunk}
    (found : db.chunk? first.chunkId = some c) (found' : db.chunk? second.chunkId = some c')
    (fits : first.stop ≤ 67108864) (fits' : second.stop ≤ 67108864) {k k' : Nat}
    (inside : k < first.blocks) (inside' : k' < second.blocks) :
    first.lba c + k ≠ second.lba c' + k' := by
  simp only [stop] at fits fits'
  by_cases same : first.chunkId = second.chunkId
  · rw [same, found', Option.some.injEq] at found
    subst found
    have order := apart.resolve_left fun different => different same
    simp only [stop] at order
    simp only [lba]
    omega
  · intro equal
    refine records.disjoint found found' same (first.lba c + k) ⟨?_, ?_⟩ ⟨?_, ?_⟩ <;>
      simp only [lba, kChunkBlocks] at equal ⊢ <;> omega

/-- The extent is inside its recorded chunk. -/
structure Placed (e : ExtentEntry) (db : Db) : Prop where
  aligned : e.start % 4096 = 0
  record : ∃ c, db.chunk? e.chunkId = some c ∧ e.stop ≤ c.writeOffset.toNat

theorem Placed.grow {e : ExtentEntry} {db db' : Db} (placed : e.Placed db)
    (grow : ChunksGrow db db') : e.Placed db' := by
  obtain ⟨c, found, inside⟩ := placed.record
  obtain ⟨c', found', -, order⟩ := grow found
  exact ⟨placed.aligned, c', found', inside.trans (UInt32.le_iff_toNat_le.mp order)⟩

end ExtentEntry

/-- The extents of a database are inside their chunks and do not overlap. -/
structure ExtentsOk (db : Db) : Prop where
  placed : ∀ ⦃oid off e⦄, db.extent? oid off = some e → e.Placed db
  apart : ∀ ⦃oid off e oid' off' e'⦄, db.extent? oid off = some e → db.extent? oid' off' = some e' →
    (oid, off) ≠ (oid', off') → e.Apart e'

/-- A device block of an extent that the database holds. -/
def CommittedBlock (db : Db) (index : Nat) : Prop :=
  ∃ oid off e c k, db.extent? oid off = some e ∧ db.chunk? e.chunkId = some c ∧ k < e.blocks ∧
    index = e.lba c + k

/-- A device block that a recorded chunk has handed out for good. -/
def UsedBlock (db : Db) (index : Nat) : Prop :=
  ∃ cid c, db.chunk? cid = some c ∧ c.lbaStart.toNat ≤ index ∧
    index < c.lbaStart.toNat + c.writeOffset.toNat / 4096

theorem UsedBlock.grow {db db' : Db} {index : Nat} (used : UsedBlock db index)
    (grow : ChunksGrow db db') : UsedBlock db' index := by
  obtain ⟨cid, c, found, low, high⟩ := used
  obtain ⟨c', found', lba, order⟩ := grow found
  have longer := @Nat.div_le_div_right _ _ 4096 (UInt32.le_iff_toNat_le.mp order)
  exact ⟨cid, c', found', by rw [lba]; exact low, by rw [lba]; omega⟩

/-- Used blocks are in the data region. -/
theorem UsedBlock.inData {layout : NebulaLayout} {db : Db} {index : Nat} (used : UsedBlock db index)
    (records : RecordsOk layout db) : InData layout index 1 := by
  obtain ⟨cid, c, found, low, high⟩ := used
  have region := records.inside found
  have within := (records.offset found).within
  simp only [InData, kChunkBlocks] at region ⊢
  omega

/-- Database writes that keep the extents and let the chunks grow. -/
theorem ExtentsOk.grow {db db' : Db} (ok : ExtentsOk db)
    (same : ∀ oid off, db'.extent? oid off = db.extent? oid off) (grow : ChunksGrow db db') :
    ExtentsOk db' where
  placed := fun oid off _ found => (ok.placed (same oid off ▸ found)).grow grow
  apart := fun oid off _ oid' off' _ found found' =>
    ok.apart (same oid off ▸ found) (same oid' off' ▸ found')

/-- The blocks of the extents are used. -/
theorem CommittedBlock.used {db : Db} {index : Nat} (block : CommittedBlock db index)
    (extents : ExtentsOk db) : UsedBlock db index := by
  obtain ⟨oid, off, e, c, k, stored, found, inside, rfl⟩ := block
  obtain ⟨c', found', stop⟩ := (extents.placed stored).record
  rw [found, Option.some.injEq] at found'
  subst found'
  have aligned := (extents.placed stored).aligned
  simp only [ExtentEntry.stop] at stop
  refine ⟨e.chunkId, c, found, ?_, ?_⟩ <;> simp only [ExtentEntry.lba] <;> omega

/-- An extent with the bytes it stands for. -/
structure Segment where
  entry : ExtentEntry
  data : List UInt8
  length_eq : data.length = entry.length.toNat
  positive : 0 < data.length
  aligned : entry.start % 4096 = 0

namespace Segment

/-- The blocks of the segment hold its bytes. -/
def Written (seg : Segment) (disk : Disk) (c : Chunk) : Prop :=
  ∀ k < seg.entry.blocks, disk.content (seg.entry.lba c + k) = padBlock seg.data k

/-- The segment is inside its recorded chunk, and its blocks hold its bytes durably. -/
def Stored (seg : Segment) (db : Db) (disk : Disk) : Prop :=
  ∃ c, db.chunk? seg.entry.chunkId = some c ∧ seg.entry.stop ≤ c.writeOffset.toNat ∧
    seg.Written disk c ∧ ∀ k < seg.entry.blocks, disk.cells.Settled (seg.entry.lba c + k)

theorem blocks_pos (seg : Segment) : 0 < seg.entry.blocks := by
  have positive := seg.positive
  have length := seg.length_eq
  simp only [ExtentEntry.blocks, blocksFor]
  omega

theorem length_le_blocks (seg : Segment) : seg.data.length ≤ seg.entry.blocks * 4096 := by
  have length := seg.length_eq
  simp only [ExtentEntry.blocks, blocksFor]
  omega

end Segment

/-- An object with the segments of every write to it. -/
structure Object where
  oid : UInt64
  attrs : ObjectAttrs
  /-- The segments of each write, oldest write first. -/
  writes : List (List Segment)

namespace Object

/-- All segments, in logical order. -/
def segments (o : Object) : List Segment := o.writes.flatten

/-- The total length. -/
def size (o : Object) : Nat := Tiling.total (·.data.length) o.segments

/-- The bytes that each write brought. -/
def payloads (o : Object) : List (List UInt8) := o.writes.map (·.flatMap (·.data))

theorem flatten_payloads (o : Object) : o.payloads.flatten = o.segments.flatMap (·.data) := by
  rw [payloads, segments]
  induction o.writes with
  | nil => rfl
  | cons first rest ih => simp [ih]

theorem length_flatten_payloads (o : Object) : o.payloads.flatten.length = o.size := by
  rw [flatten_payloads, Tiling.length_flatMap_eq_total, size]

/-- The object after one more write. -/
def append (o : Object) (attrs : ObjectAttrs) (segs : List Segment) : Object :=
  { o with attrs, writes := o.writes ++ [segs] }

@[simp] theorem segments_append (o : Object) (attrs : ObjectAttrs) (segs : List Segment) :
    (o.append attrs segs).segments = o.segments ++ segs := by
  simp [append, segments]

end Object

/-- The objects, by path. -/
abbrev Ledger : Type := ByteString → Option Object

namespace Ledger

/-- A segment that some object holds. -/
def Holds (L : Ledger) (seg : Segment) : Prop := ∃ path o, L path = some o ∧ seg ∈ o.segments

/-- A device block of a segment of the ledger. -/
def Block (L : Ledger) (db : Db) (index : Nat) : Prop :=
  ∃ seg c k, L.Holds seg ∧ db.chunk? seg.entry.chunkId = some c ∧ k < seg.entry.blocks ∧
    index = seg.entry.lba c + k

/-- An earlier ledger. -/
def Le (earlier later : Ledger) : Prop :=
  ∀ ⦃path o⦄, earlier path = some o →
    ∃ o', later path = some o' ∧ o'.oid = o.oid ∧ o.writes <+: o'.writes

theorem Le.refl (L : Ledger) : L.Le L := fun _ o found => ⟨o, found, rfl, List.prefix_refl _⟩

theorem Le.trans {first second third : Ledger} (one : first.Le second) (two : second.Le third) :
    first.Le third := by
  intro path o found
  obtain ⟨o', found', oid', more'⟩ := one found
  obtain ⟨o'', found'', oid'', more''⟩ := two found'
  exact ⟨o'', found'', oid''.trans oid', more'.trans more''⟩

theorem Le.holds {earlier later : Ledger} (le : earlier.Le later) {seg : Segment}
    (held : earlier.Holds seg) : later.Holds seg := by
  obtain ⟨path, o, found, member⟩ := held
  obtain ⟨o', found', -, more⟩ := le found
  refine ⟨path, o', found', ?_⟩
  obtain ⟨rest, whole⟩ := more
  rw [Object.segments, ← whole, List.flatten_append]
  exact List.mem_append_left _ member

theorem Le.block {earlier later : Ledger} (le : earlier.Le later) {db db' : Db}
    (grow : ChunksGrow db db') {index : Nat} (block : earlier.Block db index) :
    later.Block db' index := by
  obtain ⟨seg, c, k, held, found, inside, rfl⟩ := block
  obtain ⟨c', found', lba, -⟩ := grow found
  exact ⟨seg, c', k, le.holds held, found', inside, by rw [ExtentEntry.lba_congr lba]⟩

/-- What holds of the ledger alone. -/
structure Sound (L : Ledger) : Prop where
  valid : ∀ ⦃path o⦄, L path = some o → validateObjectPath path = true
  injective : ∀ ⦃path o path' o'⦄, L path = some o → L path' = some o' → o.oid = o'.oid →
    path = path'
  within : ∀ ⦃path o⦄, L path = some o → o.segments.Pairwise fun first second =>
    first.entry.Apart second.entry
  across : ∀ ⦃path o path' o'⦄, L path = some o → L path' = some o' → path ≠ path' →
    ∀ seg ∈ o.segments, ∀ seg' ∈ o'.segments, seg.entry.Apart seg'.entry

end Ledger

/-- The ledger is what the database and the device say. -/
structure Persist (L : Ledger) (db : Db) (disk : Disk) : Prop where
  keys : db.WellKeyed
  sound : L.Sound
  path : ∀ ⦃path⦄, validateObjectPath path = true →
    db.lookup (.path path) = (L path).map fun o => u64.bytes o.oid
  attrs : ∀ ⦃path o⦄, L path = some o →
    db.lookup (.attrs o.oid) = some (ObjectAttrs.layout.bytes o.attrs) ∧ o.attrs.objectId = o.oid ∧
      o.attrs.size.toNat = o.size
  extents : ∀ ⦃path o⦄, L path = some o → ∀ off e, db.extent? o.oid off = some e ↔
    ∃ before seg after, o.segments = before ++ seg :: after ∧
      off.toNat = Tiling.total (·.data.length) before ∧ seg.entry = e
  owned : ∀ ⦃oid off e⦄, db.extent? oid off = some e → ∃ path o, L path = some o ∧ o.oid = oid
  below : ∀ ⦃path o⦄, L path = some o → ∃ next, db.nextObj? = some next ∧ o.oid < next
  stored : ∀ ⦃seg⦄, L.Holds seg → seg.Stored db disk

/-- The ledger is what the media say, and an earlier ledger is what they would say after a crash. -/
structure Durable (L : Ledger) (media : Media) : Prop where
  now : Persist L media.view media.disk
  past : ∀ ⦃recovered⦄, media.db.Recoverable recovered →
    ∃ earlier : Ledger, earlier.Le L ∧ Persist earlier recovered media.disk ∧
      ChunksGrow recovered media.view

section Persist

variable {L : Ledger} {db db' : Db} {disk : Disk}

/-- What a path lookup returns. -/
theorem Persist.decodePathGet_eq (persist : Persist L db disk) {path : ByteString}
    (valid : validateObjectPath path = true) :
    decodePathGet (db.lookup (.path path)) =
      match L path with
      | none => .error .ERROR_NOT_FOUND
      | some o => .ok o.oid := by
  rw [persist.path valid]
  cases L path with
  | none => rfl
  | some o => simp [decodePathGet]

/-- What a lookup of attributes returns. -/
theorem Persist.decodeAttrsGet_eq (persist : Persist L db disk) {path : ByteString} {o : Object}
    (found : L path = some o) : decodeAttrsGet (db.lookup (.attrs o.oid)) = .ok o.attrs := by
  rw [(persist.attrs found).1]
  simp [decodeAttrsGet]

/-- Device writes that avoid the ledger's blocks. -/
theorem Persist.push (persist : Persist L db disk) {writes : List (Nat × MiniFs.Block)}
    (avoid : ∀ write ∈ writes, ¬ L.Block db write.1) : Persist L db (disk.push writes) :=
  { persist with
    stored := by
      intro seg held
      obtain ⟨c, found, inside, written, settled⟩ := persist.stored held
      have untouched : ∀ k < seg.entry.blocks, ∀ write ∈ writes, write.1 ≠ seg.entry.lba c + k :=
        fun k below write member here => avoid write member ⟨seg, c, k, held, found, below, here⟩
      refine ⟨c, found, inside, ?_, fun k below => (settled k below).push (untouched k below)⟩
      intro k below
      rw [Disk.content_push, applyWrites_of_not_mem _ (untouched k below)]
      exact written k below }

theorem Persist.flush (persist : Persist L db disk) : Persist L db disk.flush :=
  { persist with
    stored := by
      intro seg held
      obtain ⟨c, found, inside, written, -⟩ := persist.stored held
      exact ⟨c, found, inside, written, fun k _ => disk.cells.settled_flush _⟩ }

theorem Segment.Stored.grow {seg : Segment} (stored : seg.Stored db disk)
    (grow : ChunksGrow db db') : seg.Stored db' disk := by
  obtain ⟨c, found, inside, written, settled⟩ := stored
  obtain ⟨c', found', lba, order⟩ := grow found
  have same : seg.entry.lba c' = seg.entry.lba c := ExtentEntry.lba_congr lba
  refine ⟨c', found', inside.trans (UInt32.le_iff_toNat_le.mp order), ?_, ?_⟩
  · rwa [Segment.Written, same]
  · rwa [same]

/-- Database writes that only concern chunks and other keys of no object. -/
theorem Persist.grow (persist : Persist L db disk) (keys : db'.WellKeyed)
    (path : ∀ path, validateObjectPath path = true →
      db'.lookup (.path path) = db.lookup (.path path))
    (attrs : ∀ oid, db'.lookup (.attrs oid) = db.lookup (.attrs oid))
    (extents : ∀ oid off, db'.lookup (.extent oid off) = db.lookup (.extent oid off))
    (counter : ∀ next, db.nextObj? = some next → ∃ next', db'.nextObj? = some next' ∧ next ≤ next')
    (grow : ChunksGrow db db') : Persist L db' disk where
  keys := keys
  sound := persist.sound
  path := fun p valid => (path p valid).trans (persist.path valid)
  attrs := fun p o found => by
    rw [attrs]
    exact persist.attrs found
  extents := fun p o found off e => by
    rw [Db.extent?_congr (extents o.oid off)]
    exact persist.extents found off e
  owned := fun oid off e found => persist.owned (Db.extent?_congr (extents oid off) ▸ found)
  below := fun p o found => by
    obtain ⟨next, persisted, below⟩ := persist.below found
    obtain ⟨next', persisted', order⟩ := counter next persisted
    exact ⟨next', persisted', UInt64.lt_of_lt_of_le below order⟩
  stored := fun _ held => (persist.stored held).grow grow

end Persist

/-- The two puts that a segment stages. -/
def Segment.staged (seg : Segment) (oid logical : UInt64) : Batch :=
  [.extent oid logical seg.entry,
    stageChunkRev seg.entry.chunkId seg.entry.chunkIdx oid logical seg.entry.length]

/-- The puts that consecutive segments stage. -/
def stageAll (oid : UInt64) : UInt64 → List Segment → Batch
  | _, [] => []
  | logical, seg :: rest =>
      seg.staged oid logical ++ stageAll oid (logical + seg.entry.length.toUInt64) rest

theorem stageAll_append (oid logical : UInt64) (first second : List Segment) :
    stageAll oid logical (first ++ second) =
      stageAll oid logical first ++
        stageAll oid (logical + UInt64.ofNat (Tiling.total (·.data.length) first)) second := by
  induction first generalizing logical with
  | nil => simp [stageAll]
  | cons seg rest ih =>
      have length : UInt64.ofNat seg.data.length = seg.entry.length.toUInt64 := by
        rw [seg.length_eq, UInt64.ofNat_uInt32ToNat]
      rw [List.cons_append, stageAll, stageAll, ih, Tiling.total_cons, UInt64.ofNat_add, length,
        List.append_assoc, UInt64.add_assoc]

theorem mem_stageAll {oid logical : UInt64} {segs : List Segment} {put : MetaPut} :
    put ∈ stageAll oid logical segs ↔ ∃ before seg after, segs = before ++ seg :: after ∧
      put ∈ seg.staged oid (logical + UInt64.ofNat (Tiling.total (·.data.length) before)) := by
  constructor
  · intro member
    induction segs generalizing logical with
    | nil => simp [stageAll] at member
    | cons head rest ih =>
        rw [stageAll, List.mem_append] at member
        rcases member with here | later
        · exact ⟨[], head, rest, rfl, by simpa using here⟩
        · obtain ⟨before, seg, after, rfl, member⟩ := ih later
          refine ⟨head :: before, seg, after, rfl, ?_⟩
          rwa [Tiling.total_cons, UInt64.ofNat_add, head.length_eq, UInt64.ofNat_uInt32ToNat,
            ← UInt64.add_assoc]
  · rintro ⟨before, seg, after, rfl, member⟩
    rw [stageAll_append, stageAll]
    exact List.mem_append_right _ (List.mem_append_left _ member)

section Commit

variable {L : Ledger} {db : Db} {disk : Disk}

/-- A batch that only names attributes, extents, chunks and reverse entries keeps the counter. -/
theorem Db.nextObj?_apply_of_not_mem {batch : Batch}
    (untouched : ∀ id, MetaPut.nextObj id ∉ batch) : (db.apply batch).nextObj? = db.nextObj? := by
  rw [Db.nextObj?, Db.nextObj?, Db.lookup_apply_of_not_mem]
  intro put member
  cases put with
  | nextObj id => exact absurd member (untouched id)
  | _ => simp [MetaPut.key]

/-- An entry of a ledger with one object replaced or added. -/
theorem Ledger.update_eq_some {path p : ByteString} {o o' : Object}
    (found : Function.update L path (some o) p = some o') :
    (p = path ∧ o' = o) ∨ (p ≠ path ∧ L p = some o') := by
  by_cases here : p = path
  · subst here
    rw [Function.update_self, Option.some.injEq] at found
    exact .inl ⟨rfl, found.symm⟩
  · rw [Function.update_of_ne here] at found
    exact .inr ⟨here, found⟩

/-- The commit of a create. -/
theorem Persist.create (persist : Persist L db disk) {path : ByteString} {oid : UInt64}
    {a : ObjectAttrs} (ident : a.objectId = oid) (empty : a.size = 0)
    (valid : validateObjectPath path = true) (absent : L path = none)
    (fresh : ∀ ⦃path o⦄, L path = some o → o.oid ≠ oid)
    (below : ∃ next, db.nextObj? = some next ∧ oid < next) :
    Persist (Function.update L path (some ⟨oid, a, []⟩)) (db.apply [.attrs a, .path path oid])
      disk := by
  have lookup : ∀ key, key ≠ .attrs oid → key ≠ .path path →
      (db.apply [.attrs a, .path path oid]).lookup key = db.lookup key := by
    intro key notAttrs notPath
    apply Db.lookup_apply_of_not_mem
    simpa [MetaPut.key, ident] using ⟨notAttrs.symm, notPath.symm⟩
  have pathNow : (db.apply [.attrs a, .path path oid]).lookup (.path path) =
      some (u64.bytes oid) :=
    @Db.lookup_apply_of_mem db _ (.path path oid) (by simp) (by simp [MetaPut.key])
  have attrsNow : (db.apply [.attrs a, .path path oid]).lookup (.attrs oid) =
      some (ObjectAttrs.layout.bytes a) :=
    ident ▸ @Db.lookup_apply_of_mem db _ (.attrs a) (by simp) (by simp [MetaPut.key])
  have counter : (db.apply [.attrs a, .path path oid]).nextObj? = db.nextObj? :=
    Db.nextObj?_apply_of_not_mem (by simp)
  have extent : ∀ o off, (db.apply [.attrs a, .path path oid]).extent? o off = db.extent? o off :=
    fun o off => Db.extent?_congr (lookup _ (by simp) (by simp))
  have chunk : ∀ cid, (db.apply [.attrs a, .path path oid]).chunk? cid = db.chunk? cid :=
    fun cid => Db.chunk?_congr (lookup _ (by simp) (by simp))
  refine ⟨persist.keys.apply _, ⟨?_, ?_, ?_, ?_⟩, ?_, ?_, ?_, ?_, ?_, ?_⟩
  · intro p o found
    rcases Ledger.update_eq_some found with ⟨rfl, -⟩ | ⟨-, old⟩
    · exact valid
    · exact persist.sound.valid old
  · intro p o p' o' found found' same
    rcases Ledger.update_eq_some found with ⟨rfl, rfl⟩ | ⟨-, old⟩ <;>
      rcases Ledger.update_eq_some found' with ⟨rfl, rfl⟩ | ⟨-, old'⟩
    · rfl
    · exact absurd same.symm (fresh old')
    · exact absurd same (fresh old)
    · exact persist.sound.injective old old' same
  · intro p o found
    rcases Ledger.update_eq_some found with ⟨rfl, rfl⟩ | ⟨-, old⟩
    · exact .nil
    · exact persist.sound.within old
  · intro p o p' o' found found' different seg member seg' member'
    rcases Ledger.update_eq_some found with ⟨rfl, rfl⟩ | ⟨-, old⟩
    · simp [Object.segments] at member
    · rcases Ledger.update_eq_some found' with ⟨rfl, rfl⟩ | ⟨-, old'⟩
      · simp [Object.segments] at member'
      · exact persist.sound.across old old' different seg member seg' member'
  · intro p validPath
    by_cases here : p = path
    · subst here
      rw [pathNow, Function.update_self]
      rfl
    · rw [lookup _ (by simp) (by simpa using here), Function.update_of_ne here]
      exact persist.path validPath
  · intro p o found
    rcases Ledger.update_eq_some found with ⟨rfl, rfl⟩ | ⟨-, old⟩
    · exact ⟨attrsNow, ident, by simp [empty, Object.size, Object.segments]⟩
    · rw [lookup _ (by simpa using fresh old) (by simp)]
      exact persist.attrs old
  · intro p o found off e
    rw [extent]
    rcases Ledger.update_eq_some found with ⟨rfl, rfl⟩ | ⟨-, old⟩
    · constructor
      · intro stored
        obtain ⟨p', o', found', same⟩ := persist.owned stored
        exact absurd same (fresh found')
      · rintro ⟨before, seg, after, whole, -⟩
        simp [Object.segments] at whole
    · exact persist.extents old off e
  · intro other off e stored
    rw [extent] at stored
    obtain ⟨p, o, found, same⟩ := persist.owned stored
    have here : p ≠ path := fun equal => by simp [equal, absent] at found
    exact ⟨p, o, by rwa [Function.update_of_ne here], same⟩
  · intro p o found
    rw [counter]
    rcases Ledger.update_eq_some found with ⟨rfl, rfl⟩ | ⟨-, old⟩
    · exact below
    · exact persist.below old
  · rintro seg ⟨p, o, found, member⟩
    rcases Ledger.update_eq_some found with ⟨rfl, rfl⟩ | ⟨-, old⟩
    · simp [Object.segments] at member
    · exact (persist.stored ⟨p, o, old, member⟩).grow fun cid c stored =>
        ⟨c, (chunk cid).trans stored, rfl, UInt32.le_refl _⟩

/-- A place in a concatenation is in one of its two parts. -/
theorem place_append {first second before after : List Segment} {seg : Segment} :
    first ++ second = before ++ seg :: after ↔
      (∃ rest, first = before ++ seg :: rest ∧ after = rest ++ second) ∨
        ∃ skipped, before = first ++ skipped ∧ second = skipped ++ seg :: after := by
  constructor
  · intro whole
    rcases List.append_eq_append_iff.mp whole with ⟨more, rfl, rest⟩ | ⟨more, rfl, rest⟩
    · exact .inr ⟨more, rfl, rest⟩
    · cases more with
      | nil => exact .inr ⟨[], by simp, by simpa using rest.symm⟩
      | cons head more =>
          simp only [List.cons_append, List.cons.injEq] at rest
          exact .inl ⟨more, by rw [rest.1], rest.2⟩
  · rintro (⟨rest, rfl, rfl⟩ | ⟨skipped, rfl, rfl⟩) <;> simp

/-- The puts of a write: its segments, the new attributes, and at most chunk records. -/
structure WriteBatch (o : Object) (a : ObjectAttrs) (segs : List Segment)
    (batch : Batch) : Prop where
  ident : a.objectId = o.oid
  staged : ∃ chunks, batch = stageAll o.oid (UInt64.ofNat o.size) segs ++ [.attrs a] ++ chunks ∧
    ∀ put ∈ chunks, ∃ c, put = .chunk c
  room : o.size + Tiling.total (·.data.length) segs < 2 ^ 64

namespace WriteBatch

variable {o : Object} {a : ObjectAttrs} {segs : List Segment} {batch : Batch}

theorem mem_cases (write : WriteBatch o a segs batch) {put : MetaPut} (member : put ∈ batch) :
    (∃ before seg after, segs = before ++ seg :: after ∧ put ∈ seg.staged o.oid
        (UInt64.ofNat (o.size + Tiling.total (·.data.length) before))) ∨
      put = .attrs a ∨ ∃ c, put = .chunk c := by
  obtain ⟨chunks, rfl, only⟩ := write.staged
  simp only [List.mem_append, List.mem_singleton] at member
  rcases member with (staged | attrs) | chunk
  · obtain ⟨before, seg, after, whole, here⟩ := mem_stageAll.mp staged
    refine .inl ⟨before, seg, after, whole, ?_⟩
    rwa [UInt64.ofNat_add]
  · exact .inr (.inl attrs)
  · exact .inr (.inr (only put chunk))

theorem lookup_other (write : WriteBatch o a segs batch) {key : MetaKey}
    (attrs : key ≠ .attrs o.oid) (extent : ∀ off, key ≠ .extent o.oid off)
    (chunk : ∀ cid, key ≠ .chunk cid) (rev : ∀ cid idx, key ≠ .chunkRev cid idx) :
    (db.apply batch).lookup key = db.lookup key := by
  apply Db.lookup_apply_of_not_mem
  intro put member
  rcases write.mem_cases member with ⟨before, seg, after, -, here⟩ | rfl | ⟨c, rfl⟩
  · simp only [Segment.staged, stageChunkRev, List.mem_cons, List.not_mem_nil, or_false] at here
    rcases here with rfl | rfl
    · exact (extent _).symm
    · exact (rev _ _).symm
  · simpa [MetaPut.key, write.ident] using attrs.symm
  · exact (chunk _).symm

theorem lookup_attrs (write : WriteBatch o a segs batch) :
    (db.apply batch).lookup (.attrs o.oid) = some (ObjectAttrs.layout.bytes a) := by
  have stored := @Db.lookup_apply_of_mem db batch (.attrs a)
    (by obtain ⟨chunks, rfl, -⟩ := write.staged; simp) (by
      intro put member same
      rcases write.mem_cases member with ⟨before, seg, after, -, here⟩ | rfl | ⟨c, rfl⟩
      · simp only [Segment.staged, stageChunkRev, List.mem_cons, List.not_mem_nil, or_false] at here
        rcases here with rfl | rfl <;> simp [MetaPut.key] at same
      · rfl
      · simp [MetaPut.key] at same)
  rw [← write.ident]
  exact stored

/-- The extents after the write: the staged ones and those that were there. -/
theorem extent?_apply (write : WriteBatch o a segs batch) (off : UInt64) (e : ExtentEntry) :
    (db.apply batch).extent? o.oid off = some e ↔
      (∃ before seg after, segs = before ++ seg :: after ∧
        off.toNat = o.size + Tiling.total (·.data.length) before ∧ seg.entry = e) ∨
      ((∀ before seg after, segs = before ++ seg :: after →
        off.toNat ≠ o.size + Tiling.total (·.data.length) before) ∧
          db.extent? o.oid off = some e) := by
  have offset : ∀ before seg after, segs = before ++ seg :: after →
      (UInt64.ofNat (o.size + Tiling.total (·.data.length) before)).toNat =
        o.size + Tiling.total (·.data.length) before := by
    rintro before seg after rfl
    have room := write.room
    rw [Tiling.total_append] at room
    rw [UInt64.toNat_ofNat']
    exact Nat.mod_eq_of_lt (by omega)
  by_cases here : ∃ before seg after, segs = before ++ seg :: after ∧
      off.toNat = o.size + Tiling.total (·.data.length) before
  · obtain ⟨before, seg, after, whole, place⟩ := here
    have same : off = UInt64.ofNat (o.size + Tiling.total (·.data.length) before) :=
      UInt64.toNat_inj.mp (place.trans (offset before seg after whole).symm)
    have stored := @Db.lookup_apply_of_mem db batch (.extent o.oid off seg.entry) (by
        obtain ⟨chunks, rfl, -⟩ := write.staged
        refine List.mem_append_left _ (List.mem_append_left _ (mem_stageAll.mpr ?_))
        refine ⟨before, seg, after, whole, ?_⟩
        rw [← UInt64.ofNat_add, ← same]
        exact .head _) (by
      intro put member key
      rcases write.mem_cases member with ⟨before', seg', after', whole', here⟩ | rfl | ⟨c, rfl⟩
      · simp only [Segment.staged, stageChunkRev, List.mem_cons, List.not_mem_nil, or_false] at here
        rcases here with rfl | rfl
        · simp only [MetaPut.key, MetaKey.extent.injEq, true_and] at key
          have equal := (offset before' seg' after' whole').symm.trans
            ((congrArg UInt64.toNat key).trans place)
          obtain ⟨-, rfl, -⟩ := Tiling.place_unique Segment.positive (whole'.symm.trans whole)
            (Nat.add_left_cancel equal)
          rfl
        · simp [MetaPut.key] at key
      · simp [MetaPut.key] at key
      · simp [MetaPut.key] at key)
    have found : (db.apply batch).extent? o.oid off = some seg.entry := by
      simp only [MetaPut.key] at stored
      simp [Db.extent?, stored, MetaPut.value]
    rw [found, Option.some.injEq]
    constructor
    · rintro rfl
      exact .inl ⟨before, seg, after, whole, place, rfl⟩
    · rintro (⟨before', seg', after', whole', place', rfl⟩ | ⟨none, -⟩)
      · obtain ⟨-, rfl, -⟩ := Tiling.place_unique Segment.positive (whole.symm.trans whole')
          (Nat.add_left_cancel (place.symm.trans place'))
        rfl
      · exact absurd place (none before seg after whole)
  · have untouched :
      (db.apply batch).lookup (.extent o.oid off) = db.lookup (.extent o.oid off) := by
      apply Db.lookup_apply_of_not_mem
      intro put member
      rcases write.mem_cases member with ⟨before, seg, after, whole, staged⟩ | rfl | ⟨c, rfl⟩
      · simp only [Segment.staged, stageChunkRev, List.mem_cons, List.not_mem_nil,
          or_false] at staged
        rcases staged with rfl | rfl
        · simp only [MetaPut.key, ne_eq, MetaKey.extent.injEq, true_and]
          rintro rfl
          exact here ⟨before, seg, after, whole, offset before seg after whole⟩
        · simp [MetaPut.key]
      · simp [MetaPut.key]
      · simp [MetaPut.key]
    rw [Db.extent?_congr untouched]
    constructor
    · exact fun found => .inr ⟨fun before seg after whole place =>
        here ⟨before, seg, after, whole, place⟩, found⟩
    · rintro (⟨before, seg, after, whole, place, -⟩ | ⟨-, found⟩)
      · exact absurd ⟨before, seg, after, whole, place⟩ here
      · exact found

end WriteBatch

/-- The commit of a write. -/
theorem Persist.append (persist : Persist L db disk) {path : ByteString} {o : Object}
    {a : ObjectAttrs} {segs : List Segment} {batch : Batch} (found : L path = some o)
    (write : WriteBatch o a segs batch)
    (size : a.size.toNat = o.size + Tiling.total (·.data.length) segs)
    (apart : segs.Pairwise fun first second => first.entry.Apart second.entry)
    (fresh : ∀ ⦃old⦄, L.Holds old → ∀ seg ∈ segs, old.entry.Apart seg.entry)
    (stored : ∀ seg ∈ segs, seg.Stored (db.apply batch) disk)
    (grow : ChunksGrow db (db.apply batch)) :
    Persist (Function.update L path (some (o.append a segs))) (db.apply batch) disk := by
  have otherOid : ∀ {p o'}, p ≠ path → L p = some o' → o'.oid ≠ o.oid :=
    fun different old same => different (persist.sound.injective old found same)
  have otherExtent : ∀ {oid}, oid ≠ o.oid → ∀ off,
      (db.apply batch).extent? oid off = db.extent? oid off := fun different off =>
    Db.extent?_congr (write.lookup_other (by simp) (by simp [different]) (by simp) (by simp))
  refine ⟨persist.keys.apply _, ⟨?_, ?_, ?_, ?_⟩, ?_, ?_, ?_, ?_, ?_, ?_⟩
  · intro p o' found'
    rcases Ledger.update_eq_some found' with ⟨rfl, -⟩ | ⟨-, old⟩
    · exact persist.sound.valid found
    · exact persist.sound.valid old
  · intro p₁ o₁ p₂ o₂ found₁ found₂ same
    rcases Ledger.update_eq_some found₁ with ⟨rfl, rfl⟩ | ⟨-, old₁⟩ <;>
      rcases Ledger.update_eq_some found₂ with ⟨rfl, rfl⟩ | ⟨-, old₂⟩
    · rfl
    · exact persist.sound.injective found old₂ same
    · exact persist.sound.injective old₁ found same
    · exact persist.sound.injective old₁ old₂ same
  · intro p o' found'
    rcases Ledger.update_eq_some found' with ⟨rfl, rfl⟩ | ⟨-, old⟩
    · rw [Object.segments_append, List.pairwise_append]
      exact ⟨persist.sound.within found, apart,
        fun seg member seg' member' => fresh ⟨p, o, found, member⟩ seg' member'⟩
    · exact persist.sound.within old
  · intro p₁ o₁ p₂ o₂ found₁ found₂ different seg₁ member₁ seg₂ member₂
    rcases Ledger.update_eq_some found₁ with ⟨rfl, rfl⟩ | ⟨other₁, old₁⟩
    · rcases Ledger.update_eq_some found₂ with ⟨rfl, rfl⟩ | ⟨other₂, old₂⟩
      · exact absurd rfl different
      · rw [Object.segments_append, List.mem_append] at member₁
        rcases member₁ with member₁ | member₁
        · exact persist.sound.across found old₂ different seg₁ member₁ seg₂ member₂
        · exact (fresh ⟨p₂, o₂, old₂, member₂⟩ seg₁ member₁).symm
    · rcases Ledger.update_eq_some found₂ with ⟨rfl, rfl⟩ | ⟨other₂, old₂⟩
      · rw [Object.segments_append, List.mem_append] at member₂
        rcases member₂ with member₂ | member₂
        · exact persist.sound.across old₁ found different seg₁ member₁ seg₂ member₂
        · exact fresh ⟨p₁, o₁, old₁, member₁⟩ seg₂ member₂
      · exact persist.sound.across old₁ old₂ different seg₁ member₁ seg₂ member₂
  · intro p valid
    rw [write.lookup_other (by simp) (by simp) (by simp) (by simp), persist.path valid]
    by_cases here : p = path
    · subst here
      rw [Function.update_self, found]
      rfl
    · rw [Function.update_of_ne here]
  · intro p o' found'
    rcases Ledger.update_eq_some found' with ⟨rfl, rfl⟩ | ⟨other, old⟩
    · refine ⟨write.lookup_attrs, write.ident, ?_⟩
      rw [Object.size, Object.segments_append, Tiling.total_append]
      exact size
    · rw [write.lookup_other (by simpa using otherOid other old) (by simp) (by simp) (by simp)]
      exact persist.attrs old
  · intro p o' found' off e
    rcases Ledger.update_eq_some found' with ⟨rfl, rfl⟩ | ⟨other, old⟩
    · rw [Object.segments_append, show (o.append a segs).oid = o.oid from rfl, write.extent?_apply,
        persist.extents found]
      constructor
      · rintro (⟨before, seg, after, rfl, place, rfl⟩ | ⟨-, before, seg, after, whole, place, rfl⟩)
        · refine ⟨o.segments ++ before, seg, after, by simp, ?_, rfl⟩
          rw [Tiling.total_append]
          exact place
        · exact ⟨before, seg, after ++ segs, by simp [whole], place, rfl⟩
      · rintro ⟨before, seg, after, whole, place, rfl⟩
        rcases place_append.mp whole with ⟨rest, old, -⟩ | ⟨skipped, rfl, new⟩
        · refine .inr ⟨?_, before, seg, rest, old, place, rfl⟩
          intro before' seg' after' _ place'
          have inside : Tiling.total (·.data.length) before < o.size := by
            rw [Object.size, old, Tiling.total_append, Tiling.total_cons]
            have positive := seg.positive
            omega
          omega
        · refine .inl ⟨skipped, seg, after, new, ?_, rfl⟩
          rw [place, Tiling.total_append]
          rfl
    · rw [otherExtent (otherOid other old)]
      exact persist.extents old off e
  · intro oid off e there
    by_cases same : oid = o.oid
    · exact ⟨path, _, Function.update_self .., same.symm⟩
    · rw [otherExtent same] at there
      obtain ⟨p, o', found', rfl⟩ := persist.owned there
      have other : p ≠ path := by
        rintro rfl
        rw [found, Option.some.injEq] at found'
        exact same (by rw [found'])
      exact ⟨p, o', by rwa [Function.update_of_ne other], rfl⟩
  · intro p o' found'
    rw [Db.nextObj?, write.lookup_other (by simp) (by simp) (by simp) (by simp), ← Db.nextObj?]
    rcases Ledger.update_eq_some found' with ⟨rfl, rfl⟩ | ⟨-, old⟩
    · have kept := persist.below found
      exact kept
    · exact persist.below old
  · rintro seg ⟨p, o', found', member⟩
    rcases Ledger.update_eq_some found' with ⟨rfl, rfl⟩ | ⟨-, old⟩
    · rw [Object.segments_append, List.mem_append] at member
      rcases member with member | member
      · exact (persist.stored ⟨p, o, found, member⟩).grow grow
      · exact stored seg member
    · exact (persist.stored ⟨p, o', old, member⟩).grow grow

/-- A write of no bytes. -/
theorem Persist.append_nil (persist : Persist L db disk) {path : ByteString} {o : Object}
    (found : L path = some o) :
    Persist (Function.update L path (some (o.append o.attrs []))) db disk := by
  have origin : ∀ {p o'}, Function.update L path (some (o.append o.attrs [])) p = some o' →
      ∃ old, L p = some old ∧ o'.oid = old.oid ∧ o'.attrs = old.attrs ∧
        o'.segments = old.segments := by
    intro p o' found'
    rcases Ledger.update_eq_some found' with ⟨rfl, rfl⟩ | ⟨-, old⟩
    · exact ⟨o, found, rfl, rfl, by simp⟩
    · exact ⟨o', old, rfl, rfl, rfl⟩
  have image : ∀ {p old}, L p = some old →
      ∃ o', Function.update L path (some (o.append o.attrs [])) p = some o' ∧ o'.oid = old.oid := by
    intro p old found'
    by_cases here : p = path
    · subst here
      rw [found, Option.some.injEq] at found'
      exact ⟨_, Function.update_self .., by rw [← found']; rfl⟩
    · exact ⟨old, by rwa [Function.update_of_ne here], rfl⟩
  refine ⟨persist.keys, ⟨?_, ?_, ?_, ?_⟩, ?_, ?_, ?_, ?_, ?_, ?_⟩
  · intro p o' found'
    obtain ⟨old, there, -⟩ := origin found'
    exact persist.sound.valid there
  · intro p₁ o₁ p₂ o₂ found₁ found₂ same
    obtain ⟨old₁, there₁, oid₁, -⟩ := origin found₁
    obtain ⟨old₂, there₂, oid₂, -⟩ := origin found₂
    exact persist.sound.injective there₁ there₂ (oid₁.symm.trans (same.trans oid₂))
  · intro p o' found'
    obtain ⟨old, there, -, -, segments⟩ := origin found'
    exact segments ▸ persist.sound.within there
  · intro p₁ o₁ p₂ o₂ found₁ found₂ different
    obtain ⟨old₁, there₁, -, -, segments₁⟩ := origin found₁
    obtain ⟨old₂, there₂, -, -, segments₂⟩ := origin found₂
    rw [segments₁, segments₂]
    exact persist.sound.across there₁ there₂ different
  · intro p valid
    rw [persist.path valid]
    by_cases here : p = path
    · subst here
      rw [Function.update_self, found]
      rfl
    · rw [Function.update_of_ne here]
  · intro p o' found'
    obtain ⟨old, there, oid, attrs, segments⟩ := origin found'
    rw [oid, attrs, Object.size, segments]
    exact persist.attrs there
  · intro p o' found' off e
    obtain ⟨old, there, oid, -, segments⟩ := origin found'
    rw [oid, segments]
    exact persist.extents there off e
  · intro oid off e there
    obtain ⟨p, old, found', rfl⟩ := persist.owned there
    obtain ⟨o', moved, same⟩ := image found'
    exact ⟨p, o', moved, same⟩
  · intro p o' found'
    obtain ⟨old, there, oid, -⟩ := origin found'
    rw [oid]
    exact persist.below there
  · rintro seg ⟨p, o', found', member⟩
    obtain ⟨old, there, -, -, segments⟩ := origin found'
    exact persist.stored ⟨p, old, there, segments ▸ member⟩

end Commit

/-! ## Media -/

section Durable

variable {options : FormatOptions} {layout : NebulaLayout} {L : Ledger} {media : Media}

theorem Persist.holds_iff {db : Db} {disk : Disk} (persist : Persist L db disk) {e : ExtentEntry} :
    (∃ oid off, db.extent? oid off = some e) ↔ ∃ seg, L.Holds seg ∧ seg.entry = e := by
  constructor
  · rintro ⟨oid, off, stored⟩
    obtain ⟨path, o, found, rfl⟩ := persist.owned stored
    obtain ⟨before, seg, after, whole, -, same⟩ := (persist.extents found off e).mp stored
    exact ⟨seg, ⟨path, o, found, by simp [whole]⟩, same⟩
  · rintro ⟨seg, ⟨path, o, found, member⟩, rfl⟩
    obtain ⟨before, after, whole⟩ := List.append_of_mem member
    have size := (persist.attrs found).2.2
    have bound := o.attrs.size.toNat_lt
    have inside : Tiling.total (·.data.length) before ≤ o.size := by
      rw [Object.size, whole, Tiling.total_append]
      exact Nat.le_add_right _ _
    refine ⟨o.oid, UInt64.ofNat (Tiling.total (·.data.length) before),
      (persist.extents found _ _).mpr ⟨before, seg, after, whole, ?_, rfl⟩⟩
    rw [UInt64.toNat_ofNat']
    exact Nat.mod_eq_of_lt (by omega)

/-- The blocks of the ledger are used. -/
theorem Persist.used {db : Db} {disk : Disk} (persist : Persist L db disk) {index : Nat}
    (block : L.Block db index) : UsedBlock db index := by
  obtain ⟨seg, c, k, held, found, inside, rfl⟩ := block
  obtain ⟨c', found', stop, -⟩ := persist.stored held
  rw [found, Option.some.injEq] at found'
  subst found'
  have aligned := seg.aligned
  simp only [ExtentEntry.stop] at stop
  refine ⟨seg.entry.chunkId, c, found, ?_, ?_⟩ <;> simp only [ExtentEntry.lba] <;> omega

theorem Durable.push (durable : Durable L media) {writes : List (Nat × Block)}
    (avoid : ∀ write ∈ writes, ¬ UsedBlock media.view write.1) :
    Durable L (media.withDisk (media.disk.push writes)) where
  now := durable.now.push fun write member block =>
    avoid write member (durable.now.used block)
  past := by
    intro recovered recoverable
    obtain ⟨earlier, le, persist, grow⟩ := durable.past recoverable
    exact ⟨earlier, le, persist.push fun write member block =>
      avoid write member (durable.now.used (le.block grow block)), grow⟩

theorem Durable.flush (durable : Durable L media) :
    Durable L (media.withDisk media.disk.flush) where
  now := durable.now.flush
  past := by
    intro recovered recoverable
    obtain ⟨earlier, le, persist, grow⟩ := durable.past recoverable
    exact ⟨earlier, le, persist.flush, grow⟩

theorem Durable.commit (durable : Durable L media) {L' : Ledger} {sync : Bool} {batch : Batch}
    (le : L.Le L') (persist : Persist L' (media.view.apply batch) media.disk)
    (grow : ChunksGrow media.view (media.view.apply batch)) : Durable L'
    (media.commit sync batch) := by
  have now : Persist L' (media.commit sync batch).view media.disk := by
    rwa [Media.view_commit]
  refine ⟨now, ?_⟩
  intro recovered recoverable
  rcases recoverable_commit recoverable with old | rfl
  · obtain ⟨earlier, before, kept, grown⟩ := durable.past old
    refine ⟨earlier, before.trans le, kept, ?_⟩
    rw [Media.view_commit]
    exact grown.trans grow
  · exact ⟨L', Ledger.Le.refl _, now, ChunksGrow.refl _⟩

/-- The chunk engine does not concern the ledger. -/
theorem Durable.chunkStep {Fresh : Prop} (durable : Durable L media) (fresh : Fresh) {op : PrimOp}
    {after : Media} (records : RecordsOk layout media.view)
    (step : ChunkStep options layout Fresh media op after) : Durable L after := by
  obtain ⟨pages, pushed, below⟩ := step.frame.disk
  have avoid : ∀ write ∈ pages, ¬ UsedBlock media.view write.1 := by
    intro write member used
    have low := (used.inData records).1
    have high := below write member
    omega
  have grow := step.frame.grow fresh
  have landed := durable.push avoid
  have now : Persist L after.view after.disk := by
    rw [pushed]
    refine landed.now.grow (step.frame.keys durable.now.keys) (fun path _ => ?_) (fun oid => ?_)
      (fun oid off => ?_) (fun next persisted => ⟨next, ?_, UInt64.le_refl _⟩) grow
    · exact step.frame.other _ (by simp) (by simp)
    · exact step.frame.other _ (by simp) (by simp)
    · exact step.frame.other _ (by simp) (by simp)
    · rw [Db.nextObj?, step.frame.other _ (by simp) (by simp)]
      exact persisted
  refine ⟨now, ?_⟩
  intro recovered recoverable
  rcases step.recovers recovered recoverable with old | rfl
  · obtain ⟨earlier, le, persist, grown⟩ := landed.past old
    rw [pushed]
    exact ⟨earlier, le, persist, grown.trans grow⟩
  · exact ⟨L, Ledger.Le.refl _, now, ChunksGrow.refl _⟩

theorem ChunkFrame.extent? {Fresh : Prop} {after : Media}
    (frame : ChunkFrame layout Fresh media after) (oid off : UInt64) :
    after.view.extent? oid off = media.view.extent? oid off :=
  Db.extent?_congr (frame.other _ (by simp) (by simp))

end Durable

end MiniFs.ObjStore
