import MiniFs.ObjStore.Ledger

/-!
# Reading an object

The three phases of a copy return the bytes of the device between two byte offsets of a chunk.  The
range scan visits the extents of an object in logical order, so a read returns the bytes of the
ledger.
-/

namespace MiniFs.ObjStore

open Packed

/-- Bytes `[offset, offset + n)` of the device, counted from a block. -/
def diskBytes (disk : Disk) (lba offset n : Nat) : List UInt8 :=
  (List.range n).map fun index =>
    disk.content (lba + (offset + index) / 4096) ⟨(offset + index) % 4096, Nat.mod_lt _ (by decide)⟩

@[simp] theorem length_diskBytes (disk : Disk) (lba offset n : Nat) :
    (diskBytes disk lba offset n).length = n := by
  simp [diskBytes]

theorem diskBytes_append (disk : Disk) (lba offset m n : Nat) :
    diskBytes disk lba offset m ++ diskBytes disk lba (offset + m) n =
      diskBytes disk lba offset (m + n) := by
  simp only [diskBytes, List.range_add, List.map_append, List.map_map]
  congr 1
  apply List.map_congr_left
  intro index _
  simp [Nat.add_assoc]

theorem diskBytes_take {disk : Disk} {lba offset m n : Nat} (shorter : m ≤ n) :
    (diskBytes disk lba offset n).take m = diskBytes disk lba offset m := by
  obtain ⟨rest, rfl⟩ := Nat.exists_eq_add_of_le shorter
  rw [← diskBytes_append, List.take_left' (length_diskBytes _ _ _ _)]

theorem diskBytes_drop {disk : Disk} {lba offset m n : Nat} (shorter : m ≤ n) :
    (diskBytes disk lba offset n).drop m = diskBytes disk lba (offset + m) (n - m) := by
  obtain ⟨rest, rfl⟩ := Nat.exists_eq_add_of_le shorter
  rw [← diskBytes_append, List.drop_left' (length_diskBytes _ _ _ _), Nat.add_sub_cancel_left]

/-- Counting whole blocks from another block. -/
theorem diskBytes_shift (disk : Disk) (lba skipped offset n : Nat) :
    diskBytes disk (lba + skipped) offset n = diskBytes disk lba (skipped * 4096 + offset) n := by
  apply List.map_congr_left
  intro index _
  have block : (skipped * 4096 + offset + index) / 4096 = skipped + (offset + index) / 4096 := by
    omega
  have byte : (skipped * 4096 + offset + index) % 4096 = (offset + index) % 4096 := by
    omega
  simp only [block, byte]
  rw [Nat.add_assoc]

/-- The bytes of one block. -/
theorem ofFn_eq_diskBytes (disk : Disk) (lba : Nat) :
    List.ofFn (disk.content lba) = diskBytes disk lba 0 4096 := by
  apply List.ext_getElem
  · rw [List.length_ofFn, length_diskBytes]
  · intro index inside _
    rw [List.length_ofFn] at inside
    have block : index / 4096 = 0 := Nat.div_eq_of_lt inside
    have byte : index % 4096 = index := Nat.mod_eq_of_lt inside
    simp only [diskBytes, List.getElem_ofFn, List.getElem_map, List.getElem_range, Nat.zero_add,
      block, byte, Nat.add_zero]

/-- The bytes of whole blocks. -/
theorem flatMap_ofFn_eq_diskBytes (disk : Disk) (lba n : Nat) :
    (((List.range n).map fun index => disk.content (lba + index)).flatMap List.ofFn) =
      diskBytes disk lba 0 (n * 4096) := by
  induction n with
  | zero => rfl
  | succ n ih =>
      rw [List.range_succ, List.map_append, List.flatMap_append, ih, Nat.succ_mul,
        ← diskBytes_append, Nat.zero_add, List.map_singleton, List.flatMap_singleton,
        ofFn_eq_diskBytes, diskBytes_shift, Nat.add_zero]

theorem readBlocks_eq {disk : Disk} {lba n : Nat} (inside : lba + n ≤ disk.capacityBlocks) :
    readBlocks disk lba n = .ok (diskBytes disk lba 0 (n * 4096)) := by
  rw [readBlocks, nebulaIoRead_fault_free inside]
  simp only [flatMap_ofFn_eq_diskBytes]

theorem ReadState.copied_copied (s : ReadState) (first second : List UInt8) :
    (s.copied first).copied second = s.copied (first ++ second) := by
  simp [ReadState.copied, Nat.add_assoc, Nat.sub_sub]

theorem ReadState.copied_nil (s : ReadState) : s.copied [] = s := by
  simp [ReadState.copied]

/-- How much phase (a) copies. -/
def headLength (offset n : Nat) : Nat :=
  if 0 < offset % 4096 then min n (4096 - offset % 4096) else 0

theorem copyHead_eq {disk : Disk} {lba offset n : Nat} (s : ReadState)
    (inside : lba + (offset + n + 4095) / 4096 ≤ disk.capacityBlocks) :
    copyHead disk lba ⟨offset, n⟩ s =
      .ok (⟨offset + headLength offset n, n - headLength offset n⟩,
        s.copied (diskBytes disk lba offset (headLength offset n))) := by
  have split : offset / 4096 * 4096 + offset % 4096 = offset := Nat.div_add_mod' _ _
  simp only [copyHead, headLength]
  by_cases some : 0 < offset % 4096 ∧ 0 < n
  · have length : min n (4096 - offset % 4096) ≤ 4096 - offset % 4096 := min_le_right _ _
    have small : offset % 4096 ≤ 4096 := (Nat.mod_lt _ (by decide)).le
    rw [if_pos some, if_pos some.1, readBlocks_eq (by omega)]
    simp only [CopyPos.advance, Nat.one_mul]
    rw [diskBytes_drop small, diskBytes_take length, diskBytes_shift, Nat.zero_add, split]
  · rw [if_neg some]
    have nothing : (if 0 < offset % 4096 then min n (4096 - offset % 4096) else 0) = 0 := by
      split_ifs with misaligned
      · rw [show n = 0 by omega, Nat.zero_min]
      · rfl
    rw [nothing]
    exact congrArg (fun result => Except.ok (_, result)) (ReadState.copied_nil s).symm

theorem copyBulk_eq {disk : Disk} {lba offset n : Nat} (s : ReadState)
    (aligned : offset % 4096 = 0 ∨ n = 0)
    (inside : lba + (offset + n + 4095) / 4096 ≤ disk.capacityBlocks) :
    copyBulk disk lba ⟨offset, n⟩ s =
      .ok (⟨offset + n / 4096 * 4096, n - n / 4096 * 4096⟩,
        s.copied (diskBytes disk lba offset (n / 4096 * 4096))) := by
  simp only [copyBulk]
  split_ifs with bulk
  · have start : offset % 4096 = 0 := aligned.resolve_right (by omega)
    rw [readBlocks_eq (by omega), diskBytes_shift, Nat.add_zero,
      Nat.div_mul_cancel (Nat.dvd_of_mod_eq_zero start)]
    rfl
  · rw [show n / 4096 = 0 by omega, Nat.zero_mul]
    exact congrArg (fun result => Except.ok (_, result)) (ReadState.copied_nil s).symm

theorem copyTail_eq {disk : Disk} {lba offset n : Nat} (s : ReadState)
    (aligned : offset % 4096 = 0 ∨ n = 0) (small : n ≤ 4096)
    (inside : lba + (offset + n + 4095) / 4096 ≤ disk.capacityBlocks) :
    copyTail disk lba ⟨offset, n⟩ s = .ok (s.copied (diskBytes disk lba offset n)) := by
  simp only [copyTail]
  split_ifs with some
  · have start : offset % 4096 = 0 := aligned.resolve_right (by omega)
    rw [readBlocks_eq (by omega), Nat.one_mul, diskBytes_shift, Nat.add_zero,
      Nat.div_mul_cancel (Nat.dvd_of_mod_eq_zero start)]
    simp only [diskBytes_take small]
  · obtain rfl : n = 0 := by omega
    exact congrArg Except.ok (ReadState.copied_nil s).symm

/-- The three phases together. -/
theorem copyExtent_eq {disk : Disk} {lba offset n : Nat} (s : ReadState)
    (inside : lba + (offset + n + 4095) / 4096 ≤ disk.capacityBlocks) :
    copyExtent disk lba ⟨offset, n⟩ s = .ok (s.copied (diskBytes disk lba offset n)) := by
  have short : headLength offset n ≤ n := by
    rw [headLength]
    split_ifs
    · exact min_le_left _ _
    · exact Nat.zero_le _
  have aligned : (offset + headLength offset n) % 4096 = 0 ∨ n - headLength offset n = 0 := by
    rw [headLength]
    split_ifs with misaligned
    · omega
    · omega
  rw [copyExtent, copyHead_eq s inside]
  generalize headLength offset n = head at short aligned
  simp only
  rw [copyBulk_eq _ aligned (by omega)]
  simp only
  rw [copyTail_eq _ (by omega) (by omega) (by omega), ReadState.copied_copied,
    ReadState.copied_copied, diskBytes_append, diskBytes_append]
  congr 3
  omega

theorem extentOffset_encode (oid off : UInt64) :
    extentOffset oid (MetaKey.extent oid off).encode = some off := by
  have length : ([101, 120, 58] ++ ByteString.bigEndian 8 oid.toNat : ByteString).length = 11 := by
    simp
  rw [extentOffset, MetaKey.encode, if_pos]
  · rw [List.drop_left, ByteString.ofBigEndian_bigEndian off.toNat_lt, UInt64.ofNat_toNat]
  · refine ⟨by simp, List.take_left⟩

theorem MetaKey.extent_lt_iff {oid oid' off off' : UInt64} :
    (extent oid off).encode < (extent oid' off').encode ↔ oid < oid' ∨ oid = oid' ∧ off < off' := by
  have cons (byte : UInt8) (string string' : ByteString) :
      byte :: string < byte :: string' ↔ string < string' := by
    simp
  simp only [encode, List.cons_append, List.nil_append, cons]
  rw [ByteString.append_lt_append_iff _ _ (by simp),
    ByteString.bigEndian_lt_iff oid.toNat_lt oid'.toNat_lt,
    ByteString.bigEndian_lt_iff off.toNat_lt off'.toNat_lt, UInt64.lt_iff_toNat_lt,
    UInt64.lt_iff_toNat_lt]
  constructor
  · rintro (less | ⟨same, less⟩)
    · exact .inl less
    · exact .inr ⟨bigEndian_u64_inj same, less⟩
  · rintro (less | ⟨rfl, less⟩)
    · exact .inl less
    · exact .inr ⟨rfl, less⟩

/-- Only extents of an object are listed between two extents of it. -/
theorem MetaKey.eq_extent_of_between {oid low high : UInt64} {key : MetaKey}
    (above : (extent oid low).encode < key.encode) (below : key.encode ≤ (extent oid high).encode) :
    ∃ off, key = extent oid off ∧ low < off ∧ off ≤ high := by
  cases key with
  | extent oid' off =>
      rw [extent_lt_iff] at above
      rw [← not_lt, extent_lt_iff, not_or, not_and] at below
      obtain ⟨notLess, order⟩ := below
      rcases above with less | ⟨rfl, less⟩
      · exact absurd less notLess
      · exact ⟨off, rfl, less, UInt64.not_lt.mp (order rfl)⟩
  | path p =>
      refine absurd below (not_le.mpr ?_)
      exact List.cons_lt_cons_iff.mpr (.inl (by decide))
  | _ =>
      refine absurd above (not_lt.mpr (le_of_lt ?_))
      exact List.cons_lt_cons_iff.mpr (.inl (by decide))

/-- A part of a written segment, read from the device. -/
theorem Segment.Written.diskBytes_eq {seg : Segment} {disk : Disk} {c : Chunk}
    (written : seg.Written disk c) {skip n : Nat} (inside : skip + n ≤ seg.data.length) :
    diskBytes disk c.lbaStart.toNat (seg.entry.start + skip) n = (seg.data.drop skip).take n := by
  have aligned := seg.aligned
  have bound := seg.length_le_blocks
  apply List.ext_getElem
  · rw [length_diskBytes, List.length_take, List.length_drop]
    omega
  · intro index below _
    rw [length_diskBytes] at below
    have block : (seg.entry.start + skip + index) / 4096 =
        seg.entry.start / 4096 + (skip + index) / 4096 := by
      omega
    have byte : (seg.entry.start + skip + index) % 4096 = (skip + index) % 4096 := by
      omega
    have content := written ((skip + index) / 4096) (by omega)
    simp only [ExtentEntry.lba] at content
    simp only [diskBytes, List.getElem_map, List.getElem_range, block, byte, ← Nat.add_assoc,
      content, padBlock, Nat.div_add_mod', List.getElem_take, List.getElem_drop]
    exact List.getD_eq_getElem _ _ (by omega)

/-- Every cached chunk is a recorded one. -/
def CacheOk (db : Db) (cache : List (UInt32 × Chunk)) : Prop :=
  ∀ cached ∈ cache, db.chunk? cached.1 = some cached.2

theorem decodeChunkGet_of_chunk? {db : Db} {cid : UInt32} {c : Chunk}
    (found : db.chunk? cid = some c) : decodeChunkGet (db.lookup (.chunk cid)) = .ok c := by
  obtain ⟨bytes, stored, decoded⟩ := Option.bind_eq_some_iff.mp found
  simp only [stored, decodeChunkGet, decoded]

/-- Resolving a recorded chunk returns it and changes at most the cache. -/
theorem resolveChunk_eq {db : Db} {s : ReadState} {cid : UInt32} {c : Chunk}
    (cacheOk : CacheOk db s.chunkCache) (found : db.chunk? cid = some c) :
    ∃ cache, CacheOk db cache ∧
      resolveChunk db s cid = .ok (c, { s with chunkCache := cache }) := by
  simp only [resolveChunk]
  cases lookup : s.chunkCache.find? fun cached => cached.1 = cid with
  | some cached =>
      have here : cached.1 = cid := by simpa using List.find?_some lookup
      have recorded := cacheOk cached (List.mem_of_find?_eq_some lookup)
      rw [here, found, Option.some.injEq] at recorded
      exact ⟨s.chunkCache, cacheOk, by rw [recorded]⟩
  | none =>
      refine ⟨(cid, c) :: s.chunkCache, ?_, by simp only [decodeChunkGet_of_chunk? found]⟩
      intro cached member
      rcases List.mem_cons.mp member with rfl | old
      · exact found
      · exact cacheOk cached old

/-- The state of a read whose cursor is at the end of what it returned. -/
structure Reading (db : Db) (s : ReadState) (cursor remaining : Nat) (dst : List UInt8) : Prop where
  status : s.visitStatus = .ok ()
  cursor : s.cursorOffset = cursor
  remaining : s.remaining = remaining
  dst : s.dst = dst
  cache : CacheOk db s.chunkCache

/-- A stretch of an object: the entry of an extent, and its bytes. -/
structure Piece where
  entry : ExtentEntry
  data : List UInt8
  length_eq : data.length = entry.length.toNat
  positive : 0 < data.length

/-- The bytes of the piece are those of its range of its chunk, which the device has. -/
def Piece.OnDevice (piece : Piece) (db : Db) (disk : Disk) : Prop :=
  ∃ c, db.chunk? piece.entry.chunkId = some c ∧
    piece.data = diskBytes disk c.lbaStart.toNat piece.entry.start piece.data.length ∧
    c.lbaStart.toNat + (piece.entry.start + piece.data.length + 4095) / 4096 ≤ disk.capacityBlocks

/-- A visit to the piece under the cursor copies what the read wants of it. -/
theorem visitExtent_reading {db : Db} {disk : Disk} {s : ReadState} {piece : Piece} {off : UInt64}
    {skip remaining : Nat} {dst : List UInt8}
    (reading : Reading db s (off.toNat + skip) remaining dst) (more : 0 < remaining)
    (inside : skip < piece.data.length) (noWrap : off.toNat + piece.data.length < 2 ^ 64)
    (stored : piece.OnDevice db disk) :
    ∃ s', Reading db s' (off.toNat + skip + min remaining (piece.data.length - skip))
        (remaining - min remaining (piece.data.length - skip))
        (dst ++ (piece.data.drop skip).take (min remaining (piece.data.length - skip))) ∧
      visitExtent db disk s off piece.entry = (decide (0 < s'.remaining), s') := by
  obtain ⟨c, found, bytes, room⟩ := stored
  obtain ⟨cache, cacheOk, resolved⟩ := resolveChunk_eq reading.cache found
  have extEnd :
    (off.toNat + piece.entry.length.toNat) % 2 ^ 64 = off.toNat + piece.data.length := by
    rw [← piece.length_eq, Nat.mod_eq_of_lt noWrap]
  have inExt : off.toNat + skip - off.toNat = skip := by omega
  have least : min remaining (piece.data.length - skip) ≤ piece.data.length - skip :=
    min_le_right _ _
  have start : piece.entry.offsetInChunk.toNat = piece.entry.start := rfl
  have copied := @copyExtent_eq disk c.lbaStart.toNat (piece.entry.start + skip)
    (min remaining (piece.data.length - skip)) { s with chunkCache := cache } (by omega)
  have part : diskBytes disk c.lbaStart.toNat (piece.entry.start + skip)
      (min remaining (piece.data.length - skip)) =
        (piece.data.drop skip).take (min remaining (piece.data.length - skip)) := by
    have cut := congrArg (fun data =>
      (data.drop skip).take (min remaining (piece.data.length - skip))) bytes
    simp only [diskBytes_drop inside.le, diskBytes_take least] at cut
    exact cut.symm
  rw [part] at copied
  have length : ((piece.data.drop skip).take (min remaining (piece.data.length - skip))).length =
      min remaining (piece.data.length - skip) := by
    rw [List.length_take, List.length_drop, min_eq_left least]
  refine ⟨({ s with chunkCache := cache }).copied
    ((piece.data.drop skip).take (min remaining (piece.data.length - skip))),
    ⟨reading.status, ?_, ?_, by simp only [ReadState.copied, reading.dst], cacheOk⟩, ?_⟩
  · simp only [ReadState.copied, reading.cursor, length]
  · simp only [ReadState.copied, reading.remaining, length]
  · simp only [visitExtent, reading.cursor, reading.remaining, extEnd]
    rw [if_neg (by omega), if_neg (by omega), if_neg (by omega), resolved]
    simp only [reading.cursor, reading.remaining] at copied
    simp only [reading.cursor, reading.remaining, inExt, ← piece.length_eq, start, copied]

/-! ## The scan -/

section Scan

variable {db : Db} {disk : Disk} {oid : UInt64} {pieces : List Piece}

/-- The extents of an object are pieces that follow one another. -/
structure Pieces (db : Db) (disk : Disk) (oid : UInt64) (pieces : List Piece) : Prop where
  keys : db.WellKeyed
  extents : ∀ off e, db.extent? oid off = some e ↔ ∃ before piece after,
    pieces = before ++ piece :: after ∧ off.toNat = Tiling.total (·.data.length) before ∧
      piece.entry = e
  stored : ∀ piece ∈ pieces, piece.OnDevice db disk
  size : Tiling.total (·.data.length) pieces < 2 ^ 64

theorem place_le {before after : List Piece} {piece : Piece}
    (place : pieces = before ++ piece :: after) :
    Tiling.total (·.data.length) before + piece.data.length ≤
      Tiling.total (·.data.length) pieces := by
  rw [place, Tiling.total_append, Tiling.total_cons]
  omega

/-- The database holds the entry of every piece. -/
theorem Pieces.mem (cut : Pieces db disk oid pieces) {before after : List Piece} {piece : Piece}
    (place : pieces = before ++ piece :: after) {off : UInt64}
    (offset : off.toNat = Tiling.total (·.data.length) before) :
    ((MetaKey.extent oid off).encode, ExtentEntry.layout.bytes piece.entry) ∈ db.entries := by
  have stored := (cut.extents off piece.entry).mpr ⟨before, piece, after, place, offset, rfl⟩
  obtain ⟨bytes, lookup, decoded⟩ := Option.bind_eq_some_iff.mp stored
  have member := SortedMap.get_eq_some_iff.mp lookup
  obtain ⟨put, same⟩ := cut.keys _ member
  simp only [MetaPut.encode, Prod.mk.injEq, MetaKey.encode_inj] at same
  cases put with
  | extent oid logical e =>
      rw [same.2, MetaPut.value, ofBytes?_bytes, Option.some.injEq] at decoded
      rwa [same.2, MetaPut.value, decoded] at member
  | _ => simp [MetaPut.key] at same

/-- The database holds no entry between those of consecutive pieces. -/
theorem Pieces.gap (cut : Pieces db disk oid pieces) {before after : List Piece} {piece : Piece}
    (place : pieces = before ++ piece :: after) {off next : UInt64}
    (offset : off.toNat = Tiling.total (·.data.length) before)
    (upper : next.toNat = off.toNat + piece.data.length) :
    ∀ entry ∈ db.entries, entry.1 ≤ (MetaKey.extent oid off).encode ∨
      (MetaKey.extent oid next).encode ≤ entry.1 := by
  intro entry member
  by_contra between
  rw [not_or, not_le, not_le] at between
  obtain ⟨put, rfl⟩ := cut.keys entry member
  obtain ⟨y, key, above, -⟩ := MetaKey.eq_extent_of_between between.1 between.2.le
  have below : (MetaKey.extent oid y).encode < (MetaKey.extent oid next).encode := by
    rw [← key]
    exact between.2
  rw [MetaKey.extent_lt_iff] at below
  have less : y < next := below.resolve_left (UInt64.lt_irrefl _) |>.2
  rw [UInt64.lt_iff_toNat_lt] at above less
  cases put with
  | extent oid' logical e =>
      simp only [MetaPut.key, MetaKey.extent.injEq] at key
      obtain ⟨rfl, rfl⟩ := key
      have lookup : db.lookup (.extent oid' logical) = some (ExtentEntry.layout.bytes e) :=
        SortedMap.get_eq_some_iff.mpr member
      have stored : db.extent? oid' logical = some e := by
        rw [Db.extent?, lookup, Option.bind_some, ofBytes?_bytes]
      obtain ⟨before', piece', after', place', offset', -⟩ := (cut.extents logical e).mp stored
      have positive := piece'.positive
      rcases Tiling.place_trichotomy (place.symm.trans place') with ⟨rfl, -, -⟩ |
        ⟨middle, rfl, -⟩ | ⟨middle, rfl, -⟩
      · omega
      · rw [Tiling.total_append, Tiling.total_cons] at offset'
        omega
      · rw [Tiling.total_append, Tiling.total_cons] at offset
        omega
  | _ => simp [MetaPut.key] at key

/-- The scan from a piece on copies what the read wants of it and of the pieces after it. -/
theorem Pieces.iterForward_reading (cut : Pieces db disk oid pieces) {before after : List Piece}
    {piece : Piece} (place : pieces = before ++ piece :: after) {off endOffset : UInt64}
    (offset : off.toNat = Tiling.total (·.data.length) before) {s : ReadState}
    {skip remaining : Nat} {dst : List UInt8}
    (reading : Reading db s (off.toNat + skip) remaining dst) (more : 0 < remaining)
    (inside : skip < piece.data.length) (last : endOffset.toNat = off.toNat + skip + remaining)
    (fits : endOffset.toNat ≤ Tiling.total (·.data.length) pieces) :
    ∃ s', Reading db s' endOffset.toNat 0
        (dst ++ (piece.data.drop skip ++ after.flatMap (·.data)).take remaining) ∧
      iterForward (visitExtent db disk) oid endOffset
        (((MetaKey.extent oid off).encode, ExtentEntry.layout.bytes piece.entry) ::
          db.after (MetaKey.extent oid off).encode) s =
        (.ok (), s') := by
  have size := cut.size
  induction after generalizing before piece off skip s remaining dst with
  | nil =>
      have whole : Tiling.total (·.data.length) pieces = off.toNat + piece.data.length := by
        rw [place, Tiling.total_append, Tiling.total_cons, Tiling.total_nil, offset]
        rfl
      have member : piece ∈ pieces := by
        rw [place]
        simp
      obtain ⟨s', reading', visited⟩ := visitExtent_reading reading more inside (by omega)
        (cut.stored piece member)
      have all : min remaining (piece.data.length - skip) = remaining := by omega
      rw [all, Nat.sub_self, ← last] at reading'
      refine ⟨s', by simpa using reading', ?_⟩
      have notYet : ¬ endOffset ≤ off := by
        rw [UInt64.le_iff_toNat_le]
        omega
      simp only [iterForward, extentOffset_encode, ofBytes?_bytes, if_neg notYet, visited,
        reading'.remaining]
      rfl
  | cons piece' after ih =>
      have member : piece ∈ pieces := by
        rw [place]
        simp
      have bound := place_le place
      obtain ⟨s', reading', visited⟩ := visitExtent_reading reading more inside (by omega)
        (cut.stored piece member)
      have notYet : ¬ endOffset ≤ off := by
        rw [UInt64.le_iff_toNat_le]
        omega
      by_cases done : remaining ≤ piece.data.length - skip
      · rw [min_eq_left done, Nat.sub_self, ← last] at reading'
        refine ⟨s', ?_, ?_⟩
        · rw [List.take_append_of_le_length (by rw [List.length_drop]; exact done)]
          exact reading'
        · simp only [iterForward, extentOffset_encode, ofBytes?_bytes, if_neg notYet, visited,
            reading'.remaining]
          rfl
      · rw [min_eq_right (by omega)] at reading'
        obtain ⟨next, upper⟩ : ∃ next : UInt64, next.toNat = off.toNat + piece.data.length :=
          ⟨UInt64.ofNat (off.toNat + piece.data.length), UInt64.toNat_ofNat_of_lt' (by
            simp only [UInt64.size]
            omega)⟩
        have place' : pieces = (before ++ [piece]) ++ piece' :: after := by simp [place]
        have offset' : next.toNat = Tiling.total (·.data.length) (before ++ [piece]) := by
          rw [Tiling.total_append, Tiling.total_cons, Tiling.total_nil, upper, offset]
          rfl
        have cursor : off.toNat + skip + (piece.data.length - skip) = next.toNat + 0 := by omega
        rw [cursor] at reading'
        obtain ⟨s'', reading'', rest⟩ := ih place' offset' reading' (by omega) piece'.positive
          (by omega)
        refine ⟨s'', ?_, ?_⟩
        · have taken : (piece.data.drop skip ++ (piece' :: after).flatMap (·.data)).take remaining =
              (piece.data.drop skip).take (piece.data.length - skip) ++
                (piece'.data.drop 0 ++ after.flatMap (·.data)).take
                  (remaining - (piece.data.length - skip)) := by
            have short : (piece.data.drop skip).length = piece.data.length - skip :=
              List.length_drop
            rw [List.take_append, short, List.drop_zero, List.flatMap_cons, List.take_of_length_le,
              List.take_of_length_le short.le]
            omega
          rw [taken, ← List.append_assoc]
          exact reading''
        · have above : (MetaKey.extent oid off).encode < (MetaKey.extent oid next).encode := by
            refine MetaKey.extent_lt_iff.mpr (.inr ⟨rfl, UInt64.lt_iff_toNat_lt.mpr ?_⟩)
            omega
          have listed := SortedMap.after_eq_cons (cut.mem place' offset') above
            (cut.gap place offset upper)
          have continues : 0 < s'.remaining := by
            rw [reading'.remaining]
            omega
          rw [iterForward, extentOffset_encode]
          simp only [ofBytes?_bytes, if_neg notYet, visited, decide_eq_true continues, if_true,
            listed]
          exact rest

/-- The range scan returns the bytes of the pieces. -/
theorem Pieces.iterExtents_reading (cut : Pieces db disk oid pieces) {start endOffset : UInt64}
    {s : ReadState} {remaining : Nat} (reading : Reading db s start.toNat remaining [])
    (more : 0 < remaining) (last : endOffset.toNat = start.toNat + remaining)
    (fits : endOffset.toNat ≤ Tiling.total (·.data.length) pieces) :
    ∃ s', Reading db s' endOffset.toNat 0
        (((pieces.flatMap (·.data)).drop start.toNat).take remaining) ∧
      iterExtents (visitExtent db disk) db oid start endOffset s = (.ok (), s') := by
  have size := cut.size
  obtain ⟨before, piece, after, place, low, high⟩ := @Tiling.exists_place _
    (fun piece : Piece => piece.data.length) pieces start.toNat (by omega)
  have bound := place_le place
  obtain ⟨skip, cursor⟩ := Nat.exists_eq_add_of_le low
  obtain ⟨off, offset⟩ : ∃ off : UInt64, off.toNat = Tiling.total (·.data.length) before :=
    ⟨UInt64.ofNat _, UInt64.toNat_ofNat_of_lt' (by simp only [UInt64.size]; omega)⟩
  obtain ⟨next, upper⟩ : ∃ next : UInt64, next.toNat = off.toNat + piece.data.length :=
    ⟨UInt64.ofNat _, UInt64.toNat_ofNat_of_lt' (by simp only [UInt64.size]; omega)⟩
  rw [cursor, ← offset] at reading
  obtain ⟨s', reading', scanned⟩ := cut.iterForward_reading place offset reading more
    (by omega) (by omega) fits
  refine ⟨s', ?_, ?_⟩
  · have tail : (pieces.flatMap (·.data)).drop start.toNat =
        piece.data.drop skip ++ after.flatMap (·.data) := by
      rw [place, List.flatMap_append, List.flatMap_cons, cursor, ← Tiling.length_flatMap_eq_total,
        List.drop_length_add_append, List.drop_append_of_le_length (by omega)]
    rw [tail]
    exact reading'
  · have startInside : (MetaKey.extent oid off).encode ≤ (MetaKey.extent oid start).encode := by
      rw [← not_lt, MetaKey.extent_lt_iff, UInt64.lt_iff_toNat_lt, UInt64.lt_iff_toNat_lt]
      omega
    have startBelow : (MetaKey.extent oid start).encode < (MetaKey.extent oid next).encode := by
      refine MetaKey.extent_lt_iff.mpr (.inr ⟨rfl, UInt64.lt_iff_toNat_lt.mpr ?_⟩)
      omega
    have seek := SortedMap.seekForPrev_eq_cons (cut.mem place offset) startInside
      fun entry member => (cut.gap place offset upper entry member).imp_right startBelow.trans_le
    have covers : start < off + piece.entry.length.toUInt64 := by
      rw [UInt64.lt_iff_toNat_lt, UInt64.toNat_add, UInt32.toNat_toUInt64, ← piece.length_eq,
        Nat.mod_eq_of_lt (by omega)]
      omega
    have nonempty : ¬ endOffset ≤ start := by
      rw [UInt64.le_iff_toNat_le]
      omega
    have order : ¬ endOffset ≤ off := by
      rw [UInt64.le_iff_toNat_le]
      omega
    rw [iterForward, extentOffset_encode] at scanned
    simp only [ofBytes?_bytes, if_neg order] at scanned
    rw [iterExtents, if_neg nonempty]
    simp only [seek, extentOffset_encode, ofBytes?_bytes, if_pos covers, if_neg order]
    exact scanned

/-! ## Slices -/

/-- A slice of the contents of an object, the way a reader gets it. -/
def plainSlice (content : List UInt8) (offset : UInt64) (cap : Nat) : Except Status (List UInt8) :=
  if content.length < offset.toNat then .error .ERROR_OUT_OF_RANGE
  else .ok ((content.drop offset.toNat).take cap)

theorem take_drop_nothing {content : List UInt8} {offset n : Nat}
    (nothing : min n (content.length - offset) = 0) : (content.drop offset).take n = [] := by
  apply List.eq_nil_of_length_eq_zero
  rw [List.length_take, List.length_drop]
  exact nothing

theorem take_min_drop (content : List UInt8) (offset n : Nat) :
    (content.drop offset).take (min n (content.length - offset)) =
      (content.drop offset).take n := by
  rw [← List.length_drop, ← List.take_take, List.take_length]

section Slice

variable {media : Media} {path : ByteString} {a : ObjectAttrs}
  (valid : validateObjectPath path = true)
  (bound : decodePathGet (media.view.lookup (.path path)) = .ok oid)
  (attrs : decodeAttrsGet (media.view.lookup (.attrs oid)) = .ok a)
  (cut : Pieces media.view media.disk oid pieces)
  (total : a.size.toNat = (pieces.flatMap (·.data)).length)

include valid bound attrs cut total

/-- Reading into a buffer returns a slice of the pieces. -/
theorem Pieces.readInto_eq (offset : UInt64) (dstCap : Nat) :
    readInto media path offset dstCap = plainSlice (pieces.flatMap (·.data)) offset dstCap := by
  have limit := a.size.toNat_lt
  have avail : ¬ a.size.toNat < offset.toNat →
      (a.size - offset).toNat = (pieces.flatMap (·.data)).length - offset.toNat := by
    intro inside
    rw [UInt64.toNat_sub_of_le _ _ (UInt64.le_iff_toNat_le.mpr (by omega)), total]
  rw [readInto, valid, if_neg (by decide), bound]
  simp only [attrs, UInt64.lt_iff_toNat_lt, plainSlice, ← total]
  split_ifs with beyond nothing
  · rfl
  · rw [avail beyond] at nothing
    rw [take_drop_nothing nothing]
  · rw [avail beyond] at nothing ⊢
    have least := min_le_right dstCap ((pieces.flatMap (·.data)).length - offset.toNat)
    have last : (offset + UInt64.ofNat (min dstCap
        ((pieces.flatMap (·.data)).length - offset.toNat))).toNat =
          offset.toNat + min dstCap ((pieces.flatMap (·.data)).length - offset.toNat) := by
      rw [UInt64.toNat_add, UInt64.toNat_ofNat_of_lt' (by simp only [UInt64.size]; omega),
        Nat.mod_eq_of_lt (by omega)]
    have whole : Tiling.total (·.data.length) pieces = (pieces.flatMap (·.data)).length :=
      (Tiling.length_flatMap_eq_total _ _).symm
    obtain ⟨s', reading, scanned⟩ := cut.iterExtents_reading
      (s := { visitStatus := .ok (), cursorOffset := offset.toNat,
              remaining := min dstCap ((pieces.flatMap (·.data)).length - offset.toNat), dst := [],
              chunkCache := [] })
      ⟨rfl, rfl, rfl, rfl, by simp [CacheOk]⟩ (Nat.pos_of_ne_zero nothing) last
      (by rw [whole]; omega)
    simp only [scanned, reading.status, reading.dst, take_min_drop]

/-- Reading into a vector returns the same slice. -/
theorem Pieces.read_eq (offset : UInt64) (size : Nat) :
    read media path offset size = plainSlice (pieces.flatMap (·.data)) offset size := by
  have avail : ¬ a.size.toNat < offset.toNat →
      (a.size - offset).toNat = (pieces.flatMap (·.data)).length - offset.toNat := by
    intro inside
    rw [UInt64.toNat_sub_of_le _ _ (UInt64.le_iff_toNat_le.mpr (by omega)), total]
  have looked : lookupAttrs media.view path = .ok a := by rw [lookupAttrs, bound]; exact attrs
  rw [ObjStore.read, valid, if_neg (by decide), looked]
  simp only [UInt64.lt_iff_toNat_lt]
  split_ifs with beyond nothing
  · rw [plainSlice, ← total, if_pos beyond]
  · rw [avail beyond] at nothing
    rw [plainSlice, ← total, if_neg beyond, take_drop_nothing nothing]
  · rw [avail beyond, Pieces.readInto_eq valid bound attrs cut total, plainSlice, plainSlice,
      ← total, if_neg beyond, if_neg beyond, total, take_min_drop]

end Slice

end Scan

/-- The piece of a segment. -/
def Segment.piece (seg : Segment) : Piece := ⟨seg.entry, seg.data, seg.length_eq, seg.positive⟩

theorem Segment.Written.onDevice {seg : Segment} {db : Db} {disk : Disk} {c : Chunk}
    (written : seg.Written disk c) (found : db.chunk? seg.entry.chunkId = some c)
    (room : seg.entry.lba c + seg.entry.blocks ≤ disk.capacityBlocks) :
    seg.piece.OnDevice db disk := by
  have bytes := @Segment.Written.diskBytes_eq seg disk c written 0 seg.data.length (by omega)
  rw [List.drop_zero, List.take_length, Nat.add_zero] at bytes
  refine ⟨c, found, bytes.symm, ?_⟩
  have length := seg.length_eq
  have aligned := seg.aligned
  simp only [ExtentEntry.lba, ExtentEntry.blocks, blocksFor] at room
  show c.lbaStart.toNat + (seg.entry.start + seg.data.length + 4095) / 4096 ≤ disk.capacityBlocks
  omega

theorem map_piece_eq_append {segments : List Segment} {before after : List Piece} {piece : Piece} :
    segments.map Segment.piece = before ++ piece :: after ↔ ∃ first seg last,
      segments = first ++ seg :: last ∧ first.map Segment.piece = before ∧ seg.piece = piece ∧
        last.map Segment.piece = after := by
  rw [List.map_eq_append_iff]
  constructor
  · rintro ⟨first, rest, rfl, rfl, split⟩
    obtain ⟨seg, last, rfl, rfl, rfl⟩ := List.map_eq_cons_iff.mp split
    exact ⟨first, seg, last, rfl, rfl, rfl, rfl⟩
  · rintro ⟨first, seg, last, rfl, rfl, rfl, rfl⟩
    exact ⟨first, seg :: last, rfl, rfl, rfl⟩

theorem total_piece (segments : List Segment) :
    Tiling.total (fun piece : Piece => piece.data.length) (segments.map Segment.piece) =
      Tiling.total (fun seg : Segment => seg.data.length) segments := by
  rw [Tiling.total, Tiling.total, List.map_map]
  rfl

/-- The bytes of an object. -/
def Object.content (o : Object) : List UInt8 := o.payloads.flatten

theorem Object.length_content (o : Object) : o.content.length = o.size := o.length_flatten_payloads

/-- What `read` returns, by the ledger. -/
def Ledger.read (L : Ledger) (path : ByteString) (offset : UInt64) (size : Nat) :
    Except Status (List UInt8) :=
  if !validateObjectPath path then .error .ERROR_INVALID_ARGUMENT
  else
    match L path with
    | none => .error .ERROR_NOT_FOUND
    | some o =>
        if o.content.length < offset.toNat then .error .ERROR_OUT_OF_RANGE
        else .ok ((o.content.drop offset.toNat).take size)

/-- What `stat` returns, by the ledger. -/
def Ledger.stat (L : Ledger) (path : ByteString) : Except Status ObjectAttrs :=
  if !validateObjectPath path then .error .ERROR_INVALID_ARGUMENT
  else
    match L path with
    | none => .error .ERROR_NOT_FOUND
    | some o => .ok o.attrs

section Read

variable {L : Ledger} {media : Media}

theorem Persist.size_lt {db : Db} {disk : Disk} {path : ByteString} {o : Object}
    (persist : Persist L db disk) (found : L path = some o) : o.size < 2 ^ 64 := by
  rw [← (persist.attrs found).2.2]
  exact UInt64.toNat_lt _

/-- The device holds every block of the recorded chunks. -/
theorem MediaOk.segment_room {options : FormatOptions} {layout : NebulaLayout}
    (ok : MediaOk options layout media) (persist : Persist L media.view media.disk) {seg : Segment}
    {c : Chunk} (held : L.Holds seg) (found : media.view.chunk? seg.entry.chunkId = some c) :
    seg.entry.lba c + seg.entry.blocks ≤ media.disk.capacityBlocks := by
  obtain ⟨c', found', stop, -⟩ := persist.stored held
  rw [found, Option.some.injEq] at found'
  subst found'
  have region := (ok.records.inside found).lt_capacity ok.sound
  have within := (ok.records.offset found).within
  have capacity := ok.device.mountable.capacity
  have aligned := seg.aligned
  simp only [ExtentEntry.stop, ExtentEntry.lba, kChunkBlocks] at *
  omega

theorem Persist.lookupAttrs_eq (persist : Persist L media.view media.disk) {path : ByteString}
    (valid : validateObjectPath path = true) :
    lookupAttrs media.view path =
      match L path with
      | none => .error .ERROR_NOT_FOUND
      | some o => .ok o.attrs := by
  rw [lookupAttrs, persist.decodePathGet_eq valid]
  cases found : L path with
  | none => rfl
  | some o => simp only [persist.decodeAttrsGet_eq found]

/-- `stat` returns the attributes of the ledger. -/
theorem Persist.stat_eq (persist : Persist L media.view media.disk) (path : ByteString) :
    stat media path = L.stat path := by
  rw [stat, Ledger.stat]
  split_ifs with invalid
  · rfl
  · exact persist.lookupAttrs_eq (by simpa using invalid)

/-- The segments of an object are its pieces. -/
theorem Persist.pieces {options : FormatOptions} {layout : NebulaLayout}
    (ok : MediaOk options layout media) (persist : Persist L media.view media.disk)
    {path : ByteString} {o : Object} (found : L path = some o) :
    Pieces media.view media.disk o.oid (o.segments.map Segment.piece) where
  keys := persist.keys
  extents := by
    intro off e
    rw [persist.extents found off e]
    constructor
    · rintro ⟨before, seg, after, place, offset, rfl⟩
      refine ⟨_, seg.piece, _, map_piece_eq_append.mpr ⟨before, seg, after, place, rfl, rfl, rfl⟩,
        ?_, rfl⟩
      rw [total_piece, offset]
    · rintro ⟨before, piece, after, place, offset, rfl⟩
      obtain ⟨first, seg, last, whole, rfl, rfl, -⟩ := map_piece_eq_append.mp place
      rw [total_piece] at offset
      exact ⟨first, seg, last, whole, offset, rfl⟩
  stored := by
    intro piece listed
    obtain ⟨seg, member, rfl⟩ := List.mem_map.mp listed
    have held : L.Holds seg := ⟨path, o, found, member⟩
    obtain ⟨c, chunk, -, written, -⟩ := persist.stored held
    exact written.onDevice chunk (ok.segment_room persist held chunk)
  size := by
    rw [total_piece]
    exact persist.size_lt found

theorem Object.content_pieces (o : Object) :
    (o.segments.map Segment.piece).flatMap (·.data) = o.content := by
  rw [Object.content, o.flatten_payloads, List.flatMap_map]
  rfl

/-- Reading returns the bytes of the ledger. -/
theorem Persist.read_eq {options : FormatOptions} {layout : NebulaLayout}
    (ok : MediaOk options layout media) (persist : Persist L media.view media.disk)
    (path : ByteString) (offset : UInt64) (size : Nat) :
    read media path offset size = L.read path offset size := by
  rw [Ledger.read]
  split_ifs with invalid
  · rw [ObjStore.read, if_pos invalid]
  have valid : validateObjectPath path = true := by simpa using invalid
  have looked := persist.decodePathGet_eq valid
  cases found : L path with
  | none =>
      rw [ObjStore.read, if_neg invalid, persist.lookupAttrs_eq valid, found]
  | some o =>
      rw [found] at looked
      rw [Pieces.read_eq valid looked (persist.decodeAttrsGet_eq found) (persist.pieces ok found)
        (by rw [o.content_pieces, o.length_content]; exact (persist.attrs found).2.2),
        o.content_pieces]
      rfl

end Read

end MiniFs.ObjStore
