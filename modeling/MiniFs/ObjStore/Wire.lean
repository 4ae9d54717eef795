import MiniFs.ObjStore.Common

/-!
# Records on the wire

The encoders and decoders of the records field by field, as they are written.  They agree with the
layouts the store is modelled with.
-/

namespace MiniFs.ObjStore

open Packed

namespace Wire

/-- `put_pod`. -/
def putPod {α : Type} {n : Nat} (layout : Packed α n) (out : ByteString) (v : α) : ByteString :=
  out ++ layout.bytes v

/-- `get_pod`: the value at the cursor, and the cursor behind it. -/
def getPod {α : Type} {n : Nat} (layout : Packed α n) (input : ByteString) (pos : Nat) :
    Option (α × Nat) :=
  if input.length < pos + n then none
  else some (layout.symm fun index => input.getD (pos + index) 0, pos + n)

/-- `encode_attrs`. -/
def encodeAttrs (a : ObjectAttrs) : ByteString :=
  let out := putPod u64 [] a.objectId
  let out := putPod u64 out a.size
  let out := putPod u64 out a.ctimeNs
  let out := putPod u64 out a.mtimeNs
  let out := putPod u64 out a.version
  putPod u64 out a.numExtents

/-- `decode_attrs`. -/
def decodeAttrs (buf : ByteString) : Option ObjectAttrs := do
  let (objectId, pos) ← getPod u64 buf 0
  let (size, pos) ← getPod u64 buf pos
  let (ctimeNs, pos) ← getPod u64 buf pos
  let (mtimeNs, pos) ← getPod u64 buf pos
  let (version, pos) ← getPod u64 buf pos
  let (numExtents, pos) ← getPod u64 buf pos
  if pos = buf.length then some { objectId, size, ctimeNs, mtimeNs, version, numExtents } else none

/-- `encode_extent`. -/
def encodeExtent (e : ExtentEntry) : ByteString :=
  let out := putPod u32 [] e.chunkId
  let out := putPod u16 out e.chunkIdx
  let out := putPod u16 out e.reserved
  let out := putPod u32 out e.offsetInChunk
  let out := putPod u32 out e.length
  putPod u64 out e.checksum

/-- `decode_extent`. -/
def decodeExtent (buf : ByteString) : Option ExtentEntry := do
  let (chunkId, pos) ← getPod u32 buf 0
  let (chunkIdx, pos) ← getPod u16 buf pos
  let (reserved, pos) ← getPod u16 buf pos
  let (offsetInChunk, pos) ← getPod u32 buf pos
  let (length, pos) ← getPod u32 buf pos
  let (checksum, pos) ← getPod u64 buf pos
  if pos = buf.length then some { chunkId, chunkIdx, reserved, offsetInChunk, length, checksum }
  else none

/-- `encode_chunk`. -/
def encodeChunk (c : Chunk) : ByteString :=
  let out := putPod u32 [] c.chunkId
  let out := putPod u64 out c.lbaStart
  let out := putPod u32 out c.writeOffset
  let out := putPod u32 out c.nextIdx
  putPod u8 out (if c.isSealed then 1 else 0)

/-- `decode_chunk`. -/
def decodeChunk (buf : ByteString) : Option Chunk := do
  let (chunkId, pos) ← getPod u32 buf 0
  let (lbaStart, pos) ← getPod u64 buf pos
  let (writeOffset, pos) ← getPod u32 buf pos
  let (nextIdx, pos) ← getPod u32 buf pos
  let (byte, pos) ← getPod u8 buf pos
  if pos = buf.length then some { chunkId, lbaStart, writeOffset, nextIdx, isSealed := byte ≠ 0 }
  else none

/-- `encode_chunk_rev`. -/
def encodeChunkRev (e : ChunkRevEntry) : ByteString :=
  let out := putPod u64 [] e.oid
  let out := putPod u64 out e.logicalOffset
  let out := putPod u32 out e.length
  putPod u32 out e.reserved

/-- `decode_chunk_rev`. -/
def decodeChunkRev (buf : ByteString) : Option ChunkRevEntry := do
  let (oid, pos) ← getPod u64 buf 0
  let (logicalOffset, pos) ← getPod u64 buf pos
  let (length, pos) ← getPod u32 buf pos
  let (reserved, pos) ← getPod u32 buf pos
  if pos = buf.length then some { oid, logicalOffset, length, reserved } else none

section Field

variable {α : Type} {n : Nat} {layout : Packed α n}

theorem ofFn_getD {input : ByteString} {pos : Nat} (fits : pos + n ≤ input.length) :
    List.ofFn (fun index : Fin n => input.getD (pos + index) 0) = (input.drop pos).take n := by
  apply List.ext_getElem
  · simp only [List.length_ofFn, List.length_take, List.length_drop]
    omega
  · intro index inside inside'
    simp only [List.length_ofFn] at inside
    rw [List.getElem_ofFn, List.getElem_take, List.getElem_drop, List.getD_eq_getElem?_getD,
      List.getElem?_eq_getElem (by omega), Option.getD_some]

theorem getPod_eq_some_iff {input : ByteString} {pos next : Nat} {v : α} :
    getPod layout input pos = some (v, next) ↔
      next = pos + n ∧ next ≤ input.length ∧ layout.bytes v = (input.drop pos).take n := by
  rw [getPod]
  split_ifs with short
  · simp only [false_iff, not_and]
    rintro rfl
    omega
  · have slice := ofFn_getD (not_lt.mp short)
    rw [Option.some.injEq, Prod.mk.injEq, ← slice, Equiv.symm_apply_eq, Packed.bytes,
      List.ofFn_injective.eq_iff]
    constructor
    · rintro ⟨same, rfl⟩
      exact ⟨rfl, not_lt.mp short, same.symm⟩
    · rintro ⟨rfl, -, same⟩
      exact ⟨same.symm, rfl⟩

/-- A field that fits is read. -/
theorem getPod_of_le (layout : Packed α n) {input : ByteString} {pos : Nat}
    (fits : pos + n ≤ input.length) : ∃ v, getPod layout input pos = some (v, pos + n) := by
  rw [getPod, if_neg (not_lt.mpr fits)]
  exact ⟨_, rfl⟩

/-- What a field that is read says about the string. -/
theorem take_of_getPod {input : ByteString} {pos next : Nat} {v : α}
    (found : getPod layout input pos = some (v, next)) :
    input.take next = input.take pos ++ layout.bytes v := by
  obtain ⟨rfl, -, same⟩ := getPod_eq_some_iff.mp found
  rw [List.take_add, same]

end Field

/-- A pair of an encoder and a decoder for strings of one length. -/
structure Exact {α : Type} (encode : α → ByteString) (decode : ByteString → Option α) (n : Nat) :
    Prop where
  injective : Function.Injective encode
  length : ∀ v, (encode v).length = n
  inverts : ∀ {buf v}, decode buf = some v → encode v = buf
  accepts : ∀ {buf : ByteString}, buf.length = n → ∃ v, decode buf = some v

namespace Exact

variable {α : Type} {encode : α → ByteString} {decode : ByteString → Option α} {n : Nat}

theorem decode_encode (exact : Exact encode decode n) (v : α) : decode (encode v) = some v := by
  obtain ⟨v', accepted⟩ := exact.accepts (exact.length v)
  rw [accepted, exact.injective (exact.inverts accepted)]

theorem isSome_iff (exact : Exact encode decode n) (buf : ByteString) :
    (decode buf).isSome = true ↔ buf.length = n := by
  rw [Option.isSome_iff_exists]
  constructor
  · rintro ⟨v, accepted⟩
    rw [← exact.inverts accepted, exact.length]
  · exact exact.accepts

/-- Such a decoder reads what the layout of its encoder reads. -/
theorem decode_eq (exact : Exact encode decode n) {layout : Packed α n}
    (same : ∀ v, encode v = layout.bytes v) (buf : ByteString) :
    decode buf = layout.ofBytes? buf := by
  by_cases length : buf.length = n
  · obtain ⟨v, accepted⟩ := exact.accepts length
    rw [accepted, ← exact.inverts accepted, same, ofBytes?_bytes]
  · rw [ofBytes?, dif_neg length, ← Option.not_isSome_iff_eq_none, exact.isSome_iff]
    exact length

end Exact

theorem encodeAttrs_eq (a : ObjectAttrs) : encodeAttrs a = ObjectAttrs.layout.bytes a := by
  simp only [encodeAttrs, putPod, List.nil_append, List.append_assoc, ObjectAttrs.layout,
    bytes_record, Equiv.coe_fn_mk, bytes_pair]

theorem encodeAttrs_of_decodeAttrs {buf : ByteString} {a : ObjectAttrs}
    (accepted : decodeAttrs buf = some a) : encodeAttrs a = buf := by
  simp only [decodeAttrs, Option.bind_eq_bind, Option.bind_eq_some_iff, Prod.exists,
    Option.ite_none_right_eq_some, Option.some.injEq] at accepted
  obtain ⟨objectId, _, first, size, _, second, ctimeNs, _, third, mtimeNs, _, fourth, version, _,
    fifth, numExtents, _, sixth, whole, rfl⟩ := accepted
  have all := take_of_getPod sixth
  rw [take_of_getPod fifth, take_of_getPod fourth, take_of_getPod third, take_of_getPod second,
    take_of_getPod first, whole, List.take_length, List.take_zero] at all
  exact all.symm

theorem attrs_exact : Exact encodeAttrs decodeAttrs 48 where
  injective := by
    intro first second same
    rw [encodeAttrs_eq, encodeAttrs_eq] at same
    exact bytes_injective _ same
  length := fun v => by rw [encodeAttrs_eq, length_bytes]
  inverts := encodeAttrs_of_decodeAttrs
  accepts := by
    intro buf length
    obtain ⟨objectId, first⟩ := @getPod_of_le _ _ u64 buf 0 (by omega)
    obtain ⟨size, second⟩ := @getPod_of_le _ _ u64 buf (0 + 8) (by omega)
    obtain ⟨ctimeNs, third⟩ := @getPod_of_le _ _ u64 buf (0 + 8 + 8) (by omega)
    obtain ⟨mtimeNs, fourth⟩ := @getPod_of_le _ _ u64 buf (0 + 8 + 8 + 8) (by omega)
    obtain ⟨version, fifth⟩ := @getPod_of_le _ _ u64 buf (0 + 8 + 8 + 8 + 8) (by omega)
    obtain ⟨numExtents, sixth⟩ := @getPod_of_le _ _ u64 buf (0 + 8 + 8 + 8 + 8 + 8) (by omega)
    refine ⟨⟨objectId, size, ctimeNs, mtimeNs, version, numExtents⟩, ?_⟩
    simp only [decodeAttrs, Option.bind_eq_bind, first, second, third, fourth, fifth, sixth,
      Option.bind_some, if_pos (show 0 + 8 + 8 + 8 + 8 + 8 + 8 = buf.length by omega)]

theorem encodeExtent_eq (e : ExtentEntry) : encodeExtent e = ExtentEntry.layout.bytes e := by
  simp only [encodeExtent, putPod, List.nil_append, List.append_assoc, ExtentEntry.layout,
    bytes_record, Equiv.coe_fn_mk, bytes_pair]

theorem extent_exact : Exact encodeExtent decodeExtent 24 where
  injective := by
    intro first second same
    rw [encodeExtent_eq, encodeExtent_eq] at same
    exact bytes_injective _ same
  length := fun v => by rw [encodeExtent_eq, length_bytes]
  inverts := by
    intro buf e accepted
    simp only [decodeExtent, Option.bind_eq_bind, Option.bind_eq_some_iff, Prod.exists,
      Option.ite_none_right_eq_some, Option.some.injEq] at accepted
    obtain ⟨chunkId, _, first, chunkIdx, _, second, reserved, _, third, offsetInChunk, _, fourth,
      length, _, fifth, checksum, _, sixth, whole, rfl⟩ := accepted
    have all := take_of_getPod sixth
    rw [take_of_getPod fifth, take_of_getPod fourth, take_of_getPod third, take_of_getPod second,
      take_of_getPod first, whole, List.take_length, List.take_zero] at all
    exact all.symm
  accepts := by
    intro buf length
    obtain ⟨chunkId, first⟩ := @getPod_of_le _ _ u32 buf 0 (by omega)
    obtain ⟨chunkIdx, second⟩ := @getPod_of_le _ _ u16 buf (0 + 4) (by omega)
    obtain ⟨reserved, third⟩ := @getPod_of_le _ _ u16 buf (0 + 4 + 2) (by omega)
    obtain ⟨offsetInChunk, fourth⟩ := @getPod_of_le _ _ u32 buf (0 + 4 + 2 + 2) (by omega)
    obtain ⟨extentLength, fifth⟩ := @getPod_of_le _ _ u32 buf (0 + 4 + 2 + 2 + 4) (by omega)
    obtain ⟨checksum, sixth⟩ := @getPod_of_le _ _ u64 buf (0 + 4 + 2 + 2 + 4 + 4) (by omega)
    refine ⟨⟨chunkId, chunkIdx, reserved, offsetInChunk, extentLength, checksum⟩, ?_⟩
    simp only [decodeExtent, Option.bind_eq_bind, first, second, third, fourth, fifth, sixth,
      Option.bind_some, if_pos (show 0 + 4 + 2 + 2 + 4 + 4 + 8 = buf.length by omega)]

theorem encodeChunkRev_eq (e : ChunkRevEntry) :
    encodeChunkRev e = ChunkRevEntry.layout.bytes e := by
  simp only [encodeChunkRev, putPod, List.nil_append, List.append_assoc, ChunkRevEntry.layout,
    bytes_record, Equiv.coe_fn_mk, bytes_pair]

theorem chunkRev_exact : Exact encodeChunkRev decodeChunkRev 24 where
  injective := by
    intro first second same
    rw [encodeChunkRev_eq, encodeChunkRev_eq] at same
    exact bytes_injective _ same
  length := fun v => by rw [encodeChunkRev_eq, length_bytes]
  inverts := by
    intro buf e accepted
    simp only [decodeChunkRev, Option.bind_eq_bind, Option.bind_eq_some_iff, Prod.exists,
      Option.ite_none_right_eq_some, Option.some.injEq] at accepted
    obtain ⟨oid, _, first, logicalOffset, _, second, length, _, third, reserved, _, fourth, whole,
      rfl⟩ := accepted
    have all := take_of_getPod fourth
    rw [take_of_getPod third, take_of_getPod second, take_of_getPod first, whole, List.take_length,
      List.take_zero] at all
    exact all.symm
  accepts := by
    intro buf length
    obtain ⟨oid, first⟩ := @getPod_of_le _ _ u64 buf 0 (by omega)
    obtain ⟨logicalOffset, second⟩ := @getPod_of_le _ _ u64 buf (0 + 8) (by omega)
    obtain ⟨entryLength, third⟩ := @getPod_of_le _ _ u32 buf (0 + 8 + 8) (by omega)
    obtain ⟨reserved, fourth⟩ := @getPod_of_le _ _ u32 buf (0 + 8 + 8 + 4) (by omega)
    refine ⟨⟨oid, logicalOffset, entryLength, reserved⟩, ?_⟩
    simp only [decodeChunkRev, Option.bind_eq_bind, first, second, third, fourth, Option.bind_some,
      if_pos (show 0 + 8 + 8 + 4 + 4 = buf.length by omega)]

theorem encodeChunk_eq (c : Chunk) : encodeChunk c = Chunk.layout.bytes
    (c.chunkId, c.lbaStart, c.writeOffset, c.nextIdx, if c.isSealed then 1 else 0) := by
  simp only [encodeChunk, putPod, List.nil_append, List.append_assoc, Chunk.layout, bytes_record,
    Equiv.refl_apply, bytes_pair]

/-- A chunk record is read with the sealed byte as a truth value. -/
theorem bytes_of_decodeChunk {buf : ByteString} {c : Chunk} (accepted : decodeChunk buf = some c) :
    ∃ byte : UInt8, c.isSealed = decide (byte ≠ 0) ∧
      Chunk.layout.bytes (c.chunkId, c.lbaStart, c.writeOffset, c.nextIdx, byte) = buf := by
  simp only [decodeChunk, Option.bind_eq_bind, Option.bind_eq_some_iff, Prod.exists,
    Option.ite_none_right_eq_some, Option.some.injEq] at accepted
  obtain ⟨chunkId, _, first, lbaStart, _, second, writeOffset, _, third, nextIdx, _, fourth, byte,
    _, fifth, whole, rfl⟩ := accepted
  refine ⟨byte, rfl, ?_⟩
  have all := take_of_getPod fifth
  rw [take_of_getPod fourth, take_of_getPod third, take_of_getPod second, take_of_getPod first,
    whole, List.take_length, List.take_zero] at all
  rw [all]
  simp only [List.nil_append, List.append_assoc, Chunk.layout, bytes_record, Equiv.refl_apply,
    bytes_pair]

theorem decodeChunk_accepts {buf : ByteString} (length : buf.length = 21) :
    ∃ c, decodeChunk buf = some c := by
  obtain ⟨chunkId, first⟩ := @getPod_of_le _ _ u32 buf 0 (by omega)
  obtain ⟨lbaStart, second⟩ := @getPod_of_le _ _ u64 buf (0 + 4) (by omega)
  obtain ⟨writeOffset, third⟩ := @getPod_of_le _ _ u32 buf (0 + 4 + 8) (by omega)
  obtain ⟨nextIdx, fourth⟩ := @getPod_of_le _ _ u32 buf (0 + 4 + 8 + 4) (by omega)
  obtain ⟨byte, fifth⟩ := @getPod_of_le _ _ u8 buf (0 + 4 + 8 + 4 + 4) (by omega)
  refine ⟨⟨chunkId, lbaStart, writeOffset, nextIdx, byte ≠ 0⟩, ?_⟩
  simp only [decodeChunk, Option.bind_eq_bind, first, second, third, fourth, fifth,
    Option.bind_some, if_pos (show 0 + 4 + 8 + 4 + 4 + 1 = buf.length by omega)]

theorem decodeChunk_encodeChunk (c : Chunk) : decodeChunk (encodeChunk c) = some c := by
  obtain ⟨c', accepted⟩ := decodeChunk_accepts (by rw [encodeChunk_eq, length_bytes] :
    (encodeChunk c).length = 21)
  obtain ⟨byte, isSealed, same⟩ := bytes_of_decodeChunk accepted
  rw [encodeChunk_eq] at same
  have fields := bytes_injective _ same
  simp only [Prod.mk.injEq] at fields
  obtain ⟨chunkId, lbaStart, writeOffset, nextIdx, rfl⟩ := fields
  rw [accepted]
  congr 1
  obtain ⟨_, _, _, _, flag⟩ := c
  obtain ⟨_, _, _, _, flag'⟩ := c'
  simp only at chunkId lbaStart writeOffset nextIdx isSealed
  subst chunkId lbaStart writeOffset nextIdx isSealed
  cases flag <;> rfl

/-- The last byte of a chunk record is the sealed byte. -/
theorem chunk_bytes (front : UInt32 × UInt64 × UInt32 × UInt32) (byte : UInt8) :
    Chunk.layout.bytes (front.1, front.2.1, front.2.2.1, front.2.2.2, byte) =
      (pair u32 <| pair u64 <| pair u32 u32).bytes front ++ [byte] := by
  have single : u8.bytes byte = [byte] := rfl
  obtain ⟨chunkId, lbaStart, writeOffset, nextIdx⟩ := front
  simp only [Chunk.layout, bytes_record, Equiv.refl_apply, bytes_pair, List.append_assoc, single]

/-- What is encoded again after it was decoded has the sealed byte normalised. -/
theorem encodeChunk_of_decodeChunk {buf : ByteString} {c : Chunk}
    (accepted : decodeChunk buf = some c) :
    encodeChunk c = buf.take 20 ++ [if buf.getD 20 0 = 0 then 0 else 1] := by
  obtain ⟨byte, isSealed, rfl⟩ := bytes_of_decodeChunk accepted
  have front := chunk_bytes (c.chunkId, c.lbaStart, c.writeOffset, c.nextIdx)
  simp only at front
  have length : ((pair u32 <| pair u64 <| pair u32 u32).bytes
    (c.chunkId, c.lbaStart, c.writeOffset, c.nextIdx)).length = 20 := length_bytes _ _
  rw [encodeChunk_eq, front, front, List.take_left' length, isSealed, List.getD_eq_getElem?_getD,
    List.getElem?_append_right (by omega), length]
  by_cases zero : byte = 0
  · simp [zero]
  · simp [zero]

/-- The store reads and writes these formats. -/
theorem formats_eq :
    (∀ a, encodeAttrs a = ObjectAttrs.layout.bytes a) ∧
    (∀ buf, decodeAttrs buf = ObjectAttrs.layout.ofBytes? buf) ∧
    (∀ e, encodeExtent e = ExtentEntry.layout.bytes e) ∧
    (∀ buf, decodeExtent buf = ExtentEntry.layout.ofBytes? buf) ∧
    (∀ e, encodeChunkRev e = ChunkRevEntry.layout.bytes e) ∧
    (∀ buf, decodeChunkRev buf = ChunkRevEntry.layout.ofBytes? buf) ∧
    (∀ c, encodeChunk c = ObjStore.encodeChunk c) ∧
    ∀ buf, decodeChunk buf = ObjStore.decodeChunk buf := by
  refine ⟨encodeAttrs_eq, attrs_exact.decode_eq encodeAttrs_eq, encodeExtent_eq,
    extent_exact.decode_eq encodeExtent_eq, encodeChunkRev_eq,
    chunkRev_exact.decode_eq encodeChunkRev_eq, encodeChunk_eq, fun buf => ?_⟩
  cases accepted : decodeChunk buf with
  | some c =>
      obtain ⟨byte, isSealed, rfl⟩ := bytes_of_decodeChunk accepted
      rw [ObjStore.decodeChunk, ofBytes?_bytes, Option.map_some]
      simp only [← isSealed]
  | none =>
      have other : buf.length ≠ 21 := by
        intro length
        obtain ⟨c, found⟩ := decodeChunk_accepts length
        rw [accepted] at found
        contradiction
      rw [ObjStore.decodeChunk, ofBytes?, dif_neg other, Option.map_none]

/-- Records are decoded to what was encoded, from strings of the right length only, and encoded
again to the same string, but for a sealed byte that becomes 1. -/
theorem records_round_trip :
    ((∀ a, decodeAttrs (encodeAttrs a) = some a) ∧
      (∀ buf, (decodeAttrs buf).isSome = true ↔ buf.length = 48) ∧
      ∀ buf a, decodeAttrs buf = some a → encodeAttrs a = buf) ∧
    ((∀ e, decodeExtent (encodeExtent e) = some e) ∧
      (∀ buf, (decodeExtent buf).isSome = true ↔ buf.length = 24) ∧
      ∀ buf e, decodeExtent buf = some e → encodeExtent e = buf) ∧
    ((∀ e, decodeChunkRev (encodeChunkRev e) = some e) ∧
      (∀ buf, (decodeChunkRev buf).isSome = true ↔ buf.length = 24) ∧
      ∀ buf e, decodeChunkRev buf = some e → encodeChunkRev e = buf) ∧
    (∀ c, decodeChunk (encodeChunk c) = some c) ∧
      (∀ buf, (decodeChunk buf).isSome = true ↔ buf.length = 21) ∧
      ∀ buf c, decodeChunk buf = some c →
        encodeChunk c = buf.take 20 ++ [if buf.getD 20 0 = 0 then 0 else 1] := by
  refine ⟨⟨attrs_exact.decode_encode, attrs_exact.isSome_iff, fun _ _ => attrs_exact.inverts⟩,
    ⟨extent_exact.decode_encode, extent_exact.isSome_iff, fun _ _ => extent_exact.inverts⟩,
    ⟨chunkRev_exact.decode_encode, chunkRev_exact.isSome_iff, fun _ _ => chunkRev_exact.inverts⟩,
    decodeChunk_encodeChunk, fun buf => ?_, fun _ _ => encodeChunk_of_decodeChunk⟩
  rw [Option.isSome_iff_exists]
  constructor
  · rintro ⟨c, accepted⟩
    obtain ⟨byte, -, rfl⟩ := bytes_of_decodeChunk accepted
    exact length_bytes _ _
  · exact decodeChunk_accepts

end Wire

end MiniFs.ObjStore
