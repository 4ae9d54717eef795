import MiniFs.ObjStore.ReadBack

/-!
# Metadata keys

The key encoders as they are written, with the big-endian helpers they use.  They are the encodings
of `MetaKey`: injective, and in the numeric order of their components.
-/

namespace MiniFs.ObjStore

/-- `put_be16`. -/
def putBe16 (v : UInt16) : ByteString := [(v >>> 8).toUInt8, v.toUInt8]

/-- `put_be32`. -/
def putBe32 (v : UInt32) : ByteString :=
  [(v >>> 24).toUInt8, (v >>> 16).toUInt8, (v >>> 8).toUInt8, v.toUInt8]

/-- `put_be64`: byte `7 - i` is the number shifted by `i` bytes. -/
def putBe64 (v : UInt64) : ByteString :=
  (List.range 8).map fun index => (v >>> UInt64.ofNat ((7 - index) * 8)).toUInt8

/-- `get_be16`. -/
def getBe16 (p : ByteString) : UInt16 :=
  ((p.getD 0 0).toUInt16 <<< 8) ||| (p.getD 1 0).toUInt16

/-- `get_be32`. -/
def getBe32 (p : ByteString) : UInt32 :=
  ((p.getD 0 0).toUInt32 <<< 24) ||| ((p.getD 1 0).toUInt32 <<< 16) |||
    ((p.getD 2 0).toUInt32 <<< 8) ||| (p.getD 3 0).toUInt32

/-- `get_be64`. -/
def getBe64 (p : ByteString) : UInt64 :=
  (List.range 8).foldl (fun v index => (v <<< 8) ||| (p.getD index 0).toUInt64) 0

theorem putBe16_eq (v : UInt16) : putBe16 v = ByteString.bigEndian 2 v.toNat := by
  simp only [putBe16, ByteString.bigEndian, List.cons.injEq, and_true]
  refine ⟨?_, ?_⟩ <;> apply UInt8.toNat_inj.mp <;> simp [Nat.shiftRight_eq_div_pow]

theorem putBe32_eq (v : UInt32) : putBe32 v = ByteString.bigEndian 4 v.toNat := by
  simp only [putBe32, ByteString.bigEndian, List.cons.injEq, and_true]
  refine ⟨?_, ?_, ?_, ?_⟩ <;> apply UInt8.toNat_inj.mp <;> simp [Nat.shiftRight_eq_div_pow]

theorem putBe64_eq (v : UInt64) : putBe64 v = ByteString.bigEndian 8 v.toNat := by
  simp only [putBe64, ByteString.bigEndian, List.range_succ, List.range_zero, List.map_cons,
    List.map_nil, List.nil_append, List.cons_append, List.cons.injEq, and_true]
  refine ⟨?_, ?_, ?_, ?_, ?_, ?_, ?_, ?_⟩ <;> apply UInt8.toNat_inj.mp <;>
    simp [Nat.shiftRight_eq_div_pow]

theorem or_eq_add {high low n : Nat} (multiple : 2 ^ n ∣ high) (small : low < 2 ^ n) :
    high ||| low = high + low := by
  obtain ⟨factor, rfl⟩ := multiple
  rw [Nat.mul_comm, ← Nat.shiftLeft_eq, Nat.shiftLeft_add_eq_or_of_lt small]

theorem getBe16_eq (a b : UInt8) : (getBe16 [a, b]).toNat = ByteString.ofBigEndian [a, b] := by
  have small := a.toNat_lt
  have small' := b.toNat_lt
  have shifted : (a.toUInt16 <<< 8).toNat = a.toNat * 256 := by
    simp only [UInt16.toNat_shiftLeft, UInt8.toNat_toUInt16, Nat.shiftLeft_eq]
    change a.toNat * 256 % 65536 = _
    omega
  simp only [getBe16, List.getD_cons_zero, List.getD_cons_succ, UInt16.toNat_or, shifted,
    UInt8.toNat_toUInt16, ByteString.ofBigEndian, List.foldl_cons, List.foldl_nil]
  rw [@or_eq_add _ _ 8 (by omega) small']
  omega

theorem toNat_byte_shiftLeft (byte : UInt8) {n : UInt32} (low : n.toNat ≤ 24) :
    (byte.toUInt32 <<< n).toNat = byte.toNat * 2 ^ n.toNat := by
  have small := byte.toNat_lt
  have power : 2 ^ n.toNat ≤ 2 ^ 24 := Nat.pow_le_pow_right (by decide) low
  have place : n.toNat % 32 = n.toNat := Nat.mod_eq_of_lt (by omega)
  rw [UInt32.toNat_shiftLeft, UInt8.toNat_toUInt32, place, Nat.shiftLeft_eq]
  apply Nat.mod_eq_of_lt
  calc byte.toNat * 2 ^ n.toNat ≤ byte.toNat * 2 ^ 24 := Nat.mul_le_mul_left _ power
    _ < 2 ^ 32 := by omega

theorem getBe32_eq (a b c d : UInt8) :
    (getBe32 [a, b, c, d]).toNat = ByteString.ofBigEndian [a, b, c, d] := by
  have small := b.toNat_lt
  have small' := c.toNat_lt
  have small'' := d.toNat_lt
  simp only [getBe32, List.getD_cons_zero, List.getD_cons_succ, UInt32.toNat_or,
    toNat_byte_shiftLeft a (show (24 : UInt32).toNat ≤ 24 by decide),
    toNat_byte_shiftLeft b (show (16 : UInt32).toNat ≤ 24 by decide),
    toNat_byte_shiftLeft c (show (8 : UInt32).toNat ≤ 24 by decide), UInt8.toNat_toUInt32,
    ByteString.ofBigEndian, List.foldl_cons, List.foldl_nil, UInt32.reduceToNat]
  rw [@or_eq_add (a.toNat * 2 ^ 24) (b.toNat * 2 ^ 16) 24 (by omega) (by omega),
    @or_eq_add _ (c.toNat * 2 ^ 8) 16 (by omega) (by omega), @or_eq_add _ _ 8 (by omega) small'']
  omega

/-- A byte is shifted in. -/
theorem toNat_shiftLeft_or (v : UInt64) (byte : UInt8) :
    ((v <<< 8) ||| byte.toUInt64).toNat = (v.toNat * 256 + byte.toNat) % 2 ^ 64 := by
  have small := byte.toNat_lt
  have shifted : (v <<< 8).toNat = v.toNat * 256 % 2 ^ 64 := by
    rw [UInt64.toNat_shiftLeft, Nat.shiftLeft_eq]
    rfl
  rw [UInt64.toNat_or, shifted, UInt8.toNat_toUInt64, @or_eq_add _ _ 8 (by omega) small]
  omega

theorem foldl_digits_mod (bytes : ByteString) (value modulus : Nat) :
    bytes.foldl (fun value byte => value * 256 + byte.toNat) (value % modulus) % modulus =
      bytes.foldl (fun value byte => value * 256 + byte.toNat) value % modulus := by
  induction bytes generalizing value with
  | nil => exact Nat.mod_mod value modulus
  | cons byte rest ih =>
      have step : (value % modulus * 256 + byte.toNat) % modulus =
          (value * 256 + byte.toNat) % modulus := by
        rw [Nat.add_mod, Nat.mod_mul_mod, ← Nat.add_mod]
      rw [List.foldl_cons, List.foldl_cons, ← ih, step, ih]

theorem foldl_shiftLeft_or (bytes : ByteString) (v : UInt64) :
    (bytes.foldl (fun (v : UInt64) byte => (v <<< 8) ||| byte.toUInt64) v).toNat =
      bytes.foldl (fun value byte => value * 256 + byte.toNat) v.toNat % 2 ^ 64 := by
  induction bytes generalizing v with
  | nil => exact (Nat.mod_eq_of_lt v.toNat_lt).symm
  | cons byte rest ih =>
      rw [List.foldl_cons, List.foldl_cons, ih, toNat_shiftLeft_or, foldl_digits_mod]

theorem getBe64_eq {bytes : ByteString} (length : bytes.length = 8) :
    (getBe64 bytes).toNat = ByteString.ofBigEndian bytes % 2 ^ 64 := by
  have list : getBe64 bytes = bytes.foldl (fun (v : UInt64) byte => (v <<< 8) ||| byte.toUInt64)
    0 := by
    match bytes, length with
    | [_, _, _, _, _, _, _, _], _ => rfl
  rw [list, foldl_shiftLeft_or]
  rfl

/-- The numbers are read back. -/
theorem getBe_putBe (short : UInt16) (word : UInt32) (long : UInt64) :
    getBe16 (putBe16 short) = short ∧ getBe32 (putBe32 word) = word ∧
      getBe64 (putBe64 long) = long := by
  refine ⟨UInt16.toNat_inj.mp ?_, UInt32.toNat_inj.mp ?_, UInt64.toNat_inj.mp ?_⟩
  · have bound : short.toNat < 256 ^ 2 := short.toNat_lt
    rw [← ByteString.ofBigEndian_bigEndian bound, ← putBe16_eq]
    exact getBe16_eq _ _
  · have bound : word.toNat < 256 ^ 4 := word.toNat_lt
    rw [← ByteString.ofBigEndian_bigEndian bound, ← putBe32_eq]
    exact getBe32_eq _ _ _ _
  · have bound : long.toNat < 256 ^ 8 := long.toNat_lt
    rw [putBe64_eq, getBe64_eq (ByteString.length_bigEndian 8 _),
      ByteString.ofBigEndian_bigEndian bound]
    exact Nat.mod_eq_of_lt long.toNat_lt

/-- `key_path`. -/
def keyPath (p : ByteString) : ByteString := [112, 104, 58] ++ p

/-- `key_attrs`. -/
def keyAttrs (oid : UInt64) : ByteString := [97, 116, 58] ++ putBe64 oid

/-- `key_extent_prefix`. -/
def keyExtentPrefix (oid : UInt64) : ByteString := [101, 120, 58] ++ putBe64 oid

/-- `key_extent`. -/
def keyExtent (oid logicalOffset : UInt64) :
    ByteString := keyExtentPrefix oid ++ putBe64 logicalOffset

/-- `key_chunk`. -/
def keyChunk (cid : UInt32) : ByteString := [99, 107, 58] ++ putBe32 cid

/-- `key_chunk_rev`. -/
def keyChunkRev (cid : UInt32) (idx : UInt16) :
    ByteString := [99, 105, 58] ++ putBe32 cid ++ putBe16 idx

/-- The bytes of an ASCII text. -/
def asciiBytes (text : String) : ByteString := text.toList.map fun c => UInt8.ofNat c.toNat

namespace MetaKey

/-- The encoder that makes a key. -/
def written : MetaKey → ByteString
  | path p => keyPath p
  | attrs oid => keyAttrs oid
  | extent oid off => keyExtent oid off
  | chunk cid => keyChunk cid
  | chunkRev cid idx => keyChunkRev cid idx
  | nextObj => asciiBytes "ct:next_object_id"
  | nextChunk => asciiBytes "ct:next_chunk_id"
  | schema => asciiBytes "ct:schema_version"

theorem written_eq (key : MetaKey) : key.written = key.encode := by
  cases key with
  | nextObj => decide
  | nextChunk => decide
  | schema => decide
  | _ => simp only [written, encode, keyPath, keyAttrs, keyExtent, keyExtentPrefix, keyChunk,
      keyChunkRev, putBe16_eq, putBe32_eq, putBe64_eq]

theorem cons_lt_cons_self (byte : UInt8) (string string' : ByteString) :
    byte :: string < byte :: string' ↔ string < string' := by
  simp

theorem chunk_lt_iff {cid cid' : UInt32} : (chunk cid).encode < (chunk cid').encode ↔
    cid < cid' := by
  simp only [encode, List.cons_append, List.nil_append, cons_lt_cons_self]
  rw [ByteString.bigEndian_lt_iff cid.toNat_lt cid'.toNat_lt, UInt32.lt_iff_toNat_lt]

theorem chunkRev_lt_iff {cid cid' : UInt32} {idx idx' : UInt16} :
    (chunkRev cid idx).encode < (chunkRev cid' idx').encode ↔
      cid < cid' ∨ cid = cid' ∧ idx < idx' := by
  simp only [encode, List.cons_append, List.nil_append, cons_lt_cons_self]
  rw [ByteString.append_lt_append_iff _ _ (by simp),
    ByteString.bigEndian_lt_iff cid.toNat_lt cid'.toNat_lt,
    ByteString.bigEndian_lt_iff idx.toNat_lt idx'.toNat_lt, UInt32.lt_iff_toNat_lt,
    UInt16.lt_iff_toNat_lt]
  constructor
  · rintro (less | ⟨same, less⟩)
    · exact .inl less
    · exact .inr ⟨bigEndian_u32_inj same, less⟩
  · rintro (less | ⟨rfl, less⟩)
    · exact .inl less
    · exact .inr ⟨rfl, less⟩

/-- Only extents of an object have keys that start with its prefix. -/
theorem eq_extent_of_prefix {oid : UInt64} {key : MetaKey}
    (starts : keyExtentPrefix oid <+: key.encode) :
    ∃ off, key = extent oid off := by
  rw [keyExtentPrefix, putBe64_eq] at starts
  obtain ⟨rest, whole⟩ := starts
  cases key with
  | extent oid' off =>
      rw [encode] at whole
      obtain ⟨front, -⟩ := List.append_inj whole (by simp)
      rw [bigEndian_u64_inj (List.append_cancel_left front)]
      exact ⟨off, rfl⟩
  | _ => simp [encode] at whole

end MetaKey

/-- The entries of a database that the store has written in any number of batches. -/
theorem wellKeyed_batches (batches : List Batch) : Db.WellKeyed
    (batches.foldl Db.apply .empty) := by
  have general : ∀ db : Db, db.WellKeyed → Db.WellKeyed (batches.foldl Db.apply db) := by
    induction batches with
    | nil => exact fun _ keyed => keyed
    | cons batch rest ih => exact fun db keyed => ih (db.apply batch) (keyed.apply batch)
  exact general .empty fun entry member => absurd member List.not_mem_nil

/-- Keys are read back, are ordered as their components, and name one thing each. -/
theorem keys_faithful :
    (∀ short word long, getBe16 (putBe16 short) = short ∧ getBe32 (putBe32 word) = word ∧
      getBe64 (putBe64 long) = long) ∧
    (∀ oid oid' off off', keyExtent oid off < keyExtent oid' off' ↔
      oid < oid' ∨ oid = oid' ∧ off < off') ∧
    (∀ cid cid', keyChunk cid < keyChunk cid' ↔ cid < cid') ∧
    (∀ cid cid' idx idx', keyChunkRev cid idx < keyChunkRev cid' idx' ↔
      cid < cid' ∨ cid = cid' ∧ idx < idx') ∧
    (∀ batches : List Batch, ∀ entry ∈ (batches.foldl Db.apply .empty).entries, ∀ oid,
      keyExtentPrefix oid <+: entry.1 → ∃ off, entry.1 = keyExtent oid off) ∧
    ∀ first second : MetaKey, first.written = second.written ↔ first = second := by
  refine ⟨getBe_putBe, fun oid oid' off off' => ?_, fun cid cid' => ?_, fun cid cid' idx idx' => ?_,
    fun batches entry member oid starts => ?_, fun first second => ?_⟩
  · rw [show keyExtent oid off = _ from (MetaKey.extent oid off).written_eq,
      show keyExtent oid' off' = _ from (MetaKey.extent oid' off').written_eq]
    exact MetaKey.extent_lt_iff
  · rw [show keyChunk cid = _ from (MetaKey.chunk cid).written_eq,
      show keyChunk cid' = _ from (MetaKey.chunk cid').written_eq]
    exact MetaKey.chunk_lt_iff
  · rw [show keyChunkRev cid idx = _ from (MetaKey.chunkRev cid idx).written_eq,
      show keyChunkRev cid' idx' = _ from (MetaKey.chunkRev cid' idx').written_eq]
    exact MetaKey.chunkRev_lt_iff
  · obtain ⟨put, rfl⟩ := wellKeyed_batches batches entry member
    obtain ⟨off, named⟩ := MetaKey.eq_extent_of_prefix starts
    refine ⟨off, ?_⟩
    rw [MetaPut.encode, named]
    exact (MetaKey.extent oid off).written_eq.symm
  · rw [MetaKey.written_eq, MetaKey.written_eq, MetaKey.encode_inj]

end MiniFs.ObjStore
