import MiniFs.ObjStore.ExtentScan

/-!
# Reads are slices

For an object whose extents follow one another from 0 to its size, the three phases of a read put
together exactly the bytes a slice of the concatenated extents has, whatever their lengths and
whatever fills up their last blocks.
-/

namespace MiniFs.ObjStore

open Packed

/-- The logical bytes of an extent: its range of its chunk, without the padding. -/
def ExtentEntry.logicalBytes (e : ExtentEntry) (db : Db) (disk : Disk) : List UInt8 :=
  match db.chunk? e.chunkId with
  | none => []
  | some c => diskBytes disk c.lbaStart.toNat e.start e.length.toNat

/-- The extents of an object tile `[0, total)`, and each names a chunk that holds it on
the device. -/
structure TiledBy (db : Db) (disk : Disk) (oid : UInt64) (extents : List ExtentEntry) : Prop where
  keys : db.WellKeyed
  placed : ∀ off e, db.extent? oid off = some e ↔ ∃ before after, extents = before ++ e :: after ∧
    off.toNat = Tiling.total (·.length.toNat) before
  positive : ∀ e ∈ extents, 0 < e.length.toNat
  held : ∀ e ∈ extents, ∃ c, db.chunk? e.chunkId = some c ∧
    c.lbaStart.toNat + (e.start + e.length.toNat + 4095) / 4096 ≤ disk.capacityBlocks

section Tiled

variable {db : Db} {disk : Disk} {oid : UInt64} {extents : List ExtentEntry}

theorem TiledBy.length_logicalBytes (tiled : TiledBy db disk oid extents) {e : ExtentEntry}
    (listed : e ∈ extents) : (e.logicalBytes db disk).length = e.length.toNat := by
  obtain ⟨c, found, -⟩ := tiled.held e listed
  simp only [ExtentEntry.logicalBytes, found, length_diskBytes]

/-- The piece of each extent. -/
theorem TiledBy.exists_pieces (tiled : TiledBy db disk oid extents) (rest : List ExtentEntry)
    (listed : ∀ e ∈ rest, e ∈ extents) : ∃ pieces : List Piece, pieces.map (·.entry) = rest ∧
      (∀ piece ∈ pieces, piece.data = piece.entry.logicalBytes db disk) := by
  induction rest with
  | nil => exact ⟨[], rfl, by simp⟩
  | cons e rest ih =>
      obtain ⟨pieces, entries, data⟩ := ih fun other member => listed other (.tail _ member)
      have length := tiled.length_logicalBytes (listed e (.head _))
      have positive := tiled.positive e (listed e (.head _))
      refine ⟨⟨e, e.logicalBytes db disk, length, by omega⟩ :: pieces, ?_, ?_⟩
      · rw [List.map_cons, entries]
      · intro piece member
        rcases List.mem_cons.mp member with rfl | member
        · rfl
        · exact data piece member

theorem TiledBy.pieces (tiled : TiledBy db disk oid extents)
    (size : Tiling.total (·.length.toNat) extents < 2 ^ 64) : ∃ pieces : List Piece,
      Pieces db disk oid pieces ∧
        pieces.flatMap (·.data) = extents.flatMap fun e => e.logicalBytes db disk := by
  obtain ⟨pieces, rfl, data⟩ := tiled.exists_pieces extents fun _ listed => listed
  have total (some : List Piece) : Tiling.total (·.data.length) some =
      Tiling.total (·.length.toNat) (some.map (·.entry)) := by
    rw [Tiling.total, Tiling.total, List.map_map]
    congr 1
    exact List.map_congr_left fun piece _ => piece.length_eq
  refine ⟨pieces, ⟨tiled.keys, fun off e => ?_, fun piece listed => ?_, by rw [total]; exact size⟩,
    ?_⟩
  · rw [tiled.placed off e]
    constructor
    · rintro ⟨before, after, place, offset⟩
      obtain ⟨first, others, rfl, rfl, split⟩ := List.map_eq_append_iff.mp place
      obtain ⟨piece, last, rfl, rfl, rfl⟩ := List.map_eq_cons_iff.mp split
      exact ⟨first, piece, last, rfl, by rw [total]; exact offset, rfl⟩
    · rintro ⟨before, piece, after, rfl, offset, rfl⟩
      refine ⟨before.map (·.entry), after.map (·.entry), ?_, by rw [← total]; exact offset⟩
      rw [List.map_append, List.map_cons]
  · obtain ⟨c, found, room⟩ := tiled.held piece.entry (List.mem_map_of_mem listed)
    refine ⟨c, found, ?_, by rw [piece.length_eq]; exact room⟩
    rw [piece.length_eq]
    have bytes := data piece listed
    simpa only [ExtentEntry.logicalBytes, found] using bytes
  · rw [List.flatMap_map]
    simp only [List.flatMap]
    congr 1
    exact List.map_congr_left data

/-- Both reads of an object return the slice of the concatenation of its extents. -/
theorem read_plain_slice {media : Media} {path : ByteString} {a : ObjectAttrs}
    (valid : validateObjectPath path = true)
    (bound : decodePathGet (media.view.lookup (.path path)) = .ok oid)
    (attrs : decodeAttrsGet (media.view.lookup (.attrs oid)) = .ok a)
    (tiled : TiledBy media.view media.disk oid extents)
    (total : a.size.toNat = Tiling.total (·.length.toNat) extents) (offset : UInt64) (cap : Nat) :
    (a.size < offset → readInto media path offset cap = .error .ERROR_OUT_OF_RANGE) ∧
    (offset ≤ a.size → ∃ bytes, readInto media path offset cap = .ok bytes ∧
      bytes.length = min cap (a.size.toNat - offset.toNat) ∧
      bytes = ((extents.flatMap fun e => e.logicalBytes media.view media.disk).drop
        offset.toNat).take cap) ∧
    read media path offset cap = readInto media path offset cap := by
  obtain ⟨pieces, cut, content⟩ := tiled.pieces (by rw [← total]; exact a.size.toNat_lt)
  have length : a.size.toNat = (pieces.flatMap (·.data)).length := by
    rw [content, Tiling.length_flatMap_eq_total, total, Tiling.total, Tiling.total]
    congr 1
    exact List.map_congr_left fun e listed => (tiled.length_logicalBytes listed).symm
  have into := Pieces.readInto_eq valid bound attrs cut length offset cap
  refine ⟨fun beyond => ?_, fun inside => ?_, ?_⟩
  · rw [into, plainSlice, ← length, if_pos (UInt64.lt_iff_toNat_lt.mp beyond)]
  · refine ⟨_, by rw [into, plainSlice, ← length,
      if_neg (not_lt.mpr (UInt64.le_iff_toNat_le.mp inside))], ?_, by rw [content]⟩
    rw [List.length_take, List.length_drop, ← length]
  · rw [into, Pieces.read_eq valid bound attrs cut length]

end Tiled

/-- The path `/a/b/c/d`. -/
def slicePath : ByteString := [47, 97, 47, 98, 47, 99, 47, 100]

/-- Three extents in two chunks; the first one ends inside its second block. -/
def threeExtents : List ExtentEntry :=
  [⟨1, 0, 0, 0, 5000, 0⟩, ⟨1, 1, 0, 8192, 100, 0⟩, ⟨2, 0, 0, 0, 16, 0⟩]

/-- The records of an object of these extents. -/
def threeExtentPuts : Batch :=
  [.path slicePath 1, .attrs ⟨1, 5116, 0, 0, 3, 1⟩, .chunk ⟨1, 100, 12288, 2, false⟩,
    .chunk ⟨2, 150, 4096, 1, false⟩, .extent 1 0 ⟨1, 0, 0, 0, 5000, 0⟩,
    .extent 1 5000 ⟨1, 1, 0, 8192, 100, 0⟩, .extent 1 5100 ⟨2, 0, 0, 0, 16, 0⟩]

/-- A device of 200 blocks and a metadata store with the object in it. -/
def threeExtentMedia : Media :=
  Media.commit ⟨⟨200, ⟨fun lba => fun index => UInt8.ofNat (lba + index), []⟩, by decide⟩,
    ⟨SortedMap.empty, []⟩⟩ true threeExtentPuts

theorem threeExtentMedia_view :
    threeExtentMedia.view = Db.apply SortedMap.empty threeExtentPuts := rfl

theorem threeExtentPuts_apart : (threeExtentPuts.map MetaPut.key).Nodup := by
  simp [threeExtentPuts, MetaPut.key]

theorem threeExtents_tiled :
    TiledBy threeExtentMedia.view threeExtentMedia.disk 1 threeExtents := by
  rw [threeExtentMedia_view]
  refine ⟨Db.WellKeyed.apply (fun entry member => absurd member List.not_mem_nil) _,
    fun off e => ?_, ?_, fun e listed => ?_⟩
  · rw [Db.extent?_apply_empty threeExtentPuts_apart]
    constructor
    · intro member
      simp only [threeExtentPuts, List.mem_cons, List.not_mem_nil, or_false, reduceCtorEq, false_or,
        MetaPut.extent.injEq] at member
      rcases member with ⟨-, rfl, rfl⟩ | ⟨-, rfl, rfl⟩ | ⟨-, rfl, rfl⟩
      · exact ⟨[], _, rfl, rfl⟩
      · exact ⟨[_], _, rfl, rfl⟩
      · exact ⟨[_, _], _, rfl, rfl⟩
    · rintro ⟨before, after, place, offset⟩
      rw [show off = UInt64.ofNat (Tiling.total (·.length.toNat) before) by
        rw [← offset, UInt64.ofNat_toNat]]
      -- an extent has none, one or two before it
      obtain _ | ⟨first, _ | ⟨second, _ | ⟨third, more⟩⟩⟩ := before
      · simp only [threeExtents, List.nil_append, List.cons.injEq] at place
        simp [← place.1, threeExtentPuts]
      · simp only [threeExtents, List.cons_append, List.nil_append, List.cons.injEq] at place
        simp [← place.1, ← place.2.1, threeExtentPuts]
      · simp only [threeExtents, List.cons_append, List.nil_append, List.cons.injEq] at place
        simp [← place.1, ← place.2.1, ← place.2.2.1, threeExtentPuts]
      · simp [threeExtents] at place
  · simp [threeExtents]
  · have chunk : ∀ c, .chunk c ∈ threeExtentPuts →
        (Db.apply SortedMap.empty threeExtentPuts).chunk? c.chunkId = some c := by
      intro c member
      have stored := Db.lookup_apply_empty threeExtentPuts_apart member
      simp only [MetaPut.key] at stored
      rw [Db.chunk?, stored]
      simp [MetaPut.value]
    simp only [threeExtents, List.mem_cons, List.not_mem_nil, or_false] at listed
    rcases listed with rfl | rfl | rfl
    · exact ⟨_, chunk ⟨1, 100, 12288, 2, false⟩ (by simp [threeExtentPuts]), by decide⟩
    · exact ⟨_, chunk ⟨1, 100, 12288, 2, false⟩ (by simp [threeExtentPuts]), by decide⟩
    · exact ⟨_, chunk ⟨2, 150, 4096, 1, false⟩ (by simp [threeExtentPuts]), by decide⟩

/-- A read from the end of the first extent through the second one into the third one. -/
theorem read_plain_slice_threeExtents :
    (∃ bytes, readInto threeExtentMedia slicePath 4990 120 = .ok bytes ∧ bytes.length = 120 ∧
      bytes = ((threeExtents.flatMap fun e =>
        e.logicalBytes threeExtentMedia.view threeExtentMedia.disk).drop 4990).take 120) ∧
    readInto threeExtentMedia slicePath 5117 1 = .error .ERROR_OUT_OF_RANGE := by
  have bound : decodePathGet (threeExtentMedia.view.lookup (.path slicePath)) = .ok 1 := by
    have stored := Db.lookup_apply_empty threeExtentPuts_apart
      (show .path slicePath 1 ∈ threeExtentPuts by simp [threeExtentPuts])
    simp only [MetaPut.key] at stored
    rw [threeExtentMedia_view, stored]
    simp [decodePathGet, MetaPut.value]
  have attrs : decodeAttrsGet (threeExtentMedia.view.lookup (.attrs 1)) =
      .ok ⟨1, 5116, 0, 0, 3, 1⟩ := by
    have stored := Db.lookup_apply_empty threeExtentPuts_apart
      (show .attrs ⟨1, 5116, 0, 0, 3, 1⟩ ∈ threeExtentPuts by simp [threeExtentPuts])
    simp only [MetaPut.key] at stored
    rw [threeExtentMedia_view, stored]
    simp [decodeAttrsGet, MetaPut.value]
  have slice := fun offset cap => read_plain_slice (by decide) bound attrs threeExtents_tiled
    (by decide) offset cap
  exact ⟨(slice 4990 120).2.1 (by decide), (slice 5117 1).1 (by decide)⟩

end MiniFs.ObjStore
