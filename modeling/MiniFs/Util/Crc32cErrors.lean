import Mathlib.Data.Nat.Bitwise
import MiniFs.Util.Crc32c

/-!
# Errors that CRC-32C detects

Shifting a bit out of the remainder is linear over exclusive or and loses nothing, since the top bit
of the polynomial is set.  The table step is eight such shifts of the remainder with the byte added,
so it is injective in the remainder and in the byte, and a change of one byte always changes the
checksum.  Four steps are thirty-two shifts of the remainder with a whole word added, so the same
holds of a change of up to four consecutive bytes.
-/

namespace MiniFs

theorem and_one_eq_one_iff (x : UInt32) : x &&& 1 = 1 ↔ x.toNat % 2 = 1 := by
  rw [← UInt32.toNat_inj, UInt32.toNat_and]
  simp [Nat.and_one_is_mod]

theorem toNat_shiftRight_one (x : UInt32) : (x >>> 1).toNat = x.toNat / 2 := by
  rw [UInt32.toNat_shiftRight]
  simp [Nat.shiftRight_eq_div_pow]

theorem xor_xor_swap (a b p : UInt32) : (p ^^^ a) ^^^ (p ^^^ b) = a ^^^ b := by
  rw [UInt32.xor_comm p a, UInt32.xor_assoc, ← UInt32.xor_assoc p p b, UInt32.xor_self,
    UInt32.zero_xor]

theorem xor_mod_two (a b : UInt32) :
    (a ^^^ b).toNat % 2 = (a.toNat % 2 + b.toNat % 2) % 2 := by
  rw [UInt32.toNat_xor, Nat.xor_mod_two_eq]
  omega

/-- Shifting out a bit is linear. -/
theorem crc32cBit_xor (a b : UInt32) : crc32cBit (a ^^^ b) = crc32cBit a ^^^ crc32cBit b := by
  have low := xor_mod_two a b
  have shift : (a ^^^ b) >>> 1 = (a >>> 1) ^^^ (b >>> 1) := UInt32.shiftRight_xor
  simp only [crc32cBit, and_one_eq_one_iff, low, shift]
  rcases Nat.mod_two_eq_zero_or_one a.toNat with evenA | oddA
  · rcases Nat.mod_two_eq_zero_or_one b.toNat with evenB | oddB
    · simp [evenA, evenB]
    · simp only [evenA, oddB, Nat.zero_add, if_true, zero_ne_one, if_false]
      rw [← UInt32.xor_assoc, UInt32.xor_comm _ (a >>> 1), UInt32.xor_assoc]
  · rcases Nat.mod_two_eq_zero_or_one b.toNat with evenB | oddB
    · simp only [oddA, evenB, Nat.add_zero, if_true, zero_ne_one, if_false]
      rw [UInt32.xor_assoc]
    · simp [oddA, oddB, xor_xor_swap]

/-- Shifting out a bit leaves no remainder only of none. -/
theorem crc32cBit_eq_zero {x : UInt32} (zero : crc32cBit x = 0) : x = 0 := by
  have half := toNat_shiftRight_one x
  have bound := x.toNat_lt
  rw [crc32cBit] at zero
  split_ifs at zero with odd
  · have same : x >>> 1 = (0x82F63B78 : UInt32) := by
      rw [← @UInt32.zero_xor (x >>> 1), ← @UInt32.xor_self (0x82F63B78 : UInt32),
        UInt32.xor_assoc, zero, UInt32.xor_zero]
    rw [same] at half
    have top : (0x82F63B78 : UInt32).toNat = 2197175160 := rfl
    omega
  · rw [and_one_eq_one_iff] at odd
    rw [zero] at half
    apply UInt32.toNat_inj.mp
    have none : (0 : UInt32).toNat = 0 := rfl
    omega

/-- `n` bits shifted out. -/
def crc32cBits : Nat → UInt32 → UInt32
  | 0, x => x
  | n + 1, x => crc32cBits n (crc32cBit x)

theorem crc32cBits_xor (n : Nat) (a b : UInt32) :
    crc32cBits n (a ^^^ b) = crc32cBits n a ^^^ crc32cBits n b := by
  induction n generalizing a b with
  | zero => rfl
  | succ n ih => rw [crc32cBits, crc32cBits, crc32cBits, crc32cBit_xor, ih]

theorem crc32cBits_eq_zero {n : Nat} {x : UInt32} (zero : crc32cBits n x = 0) : x = 0 := by
  induction n generalizing x with
  | zero => exact zero
  | succ n ih => exact crc32cBit_eq_zero (ih zero)

theorem crc32cBits_injective (n : Nat) : Function.Injective (crc32cBits n) := by
  intro a b same
  have zero : crc32cBits n (a ^^^ b) = 0 := by
    rw [crc32cBits_xor, same, UInt32.xor_self]
  exact UInt32.xor_eq_zero_iff.mp (crc32cBits_eq_zero zero)

/-- Zero bits are shifted out without a trace. -/
theorem toNat_crc32cBits {n : Nat} {x : UInt32} (clear : x.toNat % 2 ^ n = 0) :
    (crc32cBits n x).toNat = x.toNat / 2 ^ n := by
  induction n generalizing x with
  | zero => simp [crc32cBits]
  | succ n ih =>
      have split : 2 ^ (n + 1) = 2 * 2 ^ n := by rw [Nat.pow_succ, Nat.mul_comm]
      rw [split, ← Nat.dvd_iff_mod_eq_zero] at clear
      obtain ⟨rest, whole⟩ := clear
      have even : ¬ x &&& 1 = 1 := by
        rw [and_one_eq_one_iff, whole, Nat.mul_assoc]
        omega
      have half : (x >>> 1).toNat = 2 ^ n * rest := by
        rw [toNat_shiftRight_one, whole, Nat.mul_assoc]
        omega
      rw [crc32cBits, crc32cBit, if_neg even, ih (by rw [half]; simp), half, whole, split,
        Nat.mul_assoc, Nat.mul_div_mul_left _ _ (by decide)]

/-- The step of `crc32c_update`. -/
def crc32cStep (state : UInt32) (byte : UInt8) : UInt32 :=
  crc32cTable ((state ^^^ byte.toUInt32) &&& 0xFF) ^^^ (state >>> 8)

theorem crc32cTable_eq (index : UInt32) : crc32cTable index = crc32cBits 8 index := rfl

theorem toNat_and_255 (x : UInt32) : (x &&& 0xFF).toNat = x.toNat % 256 := by
  rw [UInt32.toNat_and]
  exact Nat.and_two_pow_sub_one_eq_mod _ 8

theorem toNat_shiftRight_8 (x : UInt32) : (x >>> 8).toNat = x.toNat / 256 := by
  rw [UInt32.toNat_shiftRight]
  simp [Nat.shiftRight_eq_div_pow]

/-- Without its low byte, a remainder moves down by eight bits. -/
theorem crc32cBits_high (x : UInt32) : crc32cBits 8 (x ^^^ (x &&& 0xFF)) = x >>> 8 := by
  have clear : (x ^^^ (x &&& 0xFF)).toNat % 2 ^ 8 = 0 := by
    rw [UInt32.toNat_xor, toNat_and_255, Nat.xor_mod_two_pow, Nat.mod_mod, Nat.xor_self]
  apply UInt32.toNat_inj.mp
  rw [toNat_crc32cBits clear, toNat_shiftRight_8, UInt32.toNat_xor, toNat_and_255,
    Nat.xor_div_two_pow, Nat.div_eq_of_lt (Nat.mod_lt _ (by decide)), Nat.xor_zero]

/-- The table step is eight shifts of the remainder with the byte added. -/
theorem crc32cStep_eq (state : UInt32) (byte : UInt8) :
    crc32cStep state byte = crc32cBits 8 (state ^^^ byte.toUInt32) := by
  have high : (state ^^^ byte.toUInt32) >>> 8 = state >>> 8 := by
    apply UInt32.toNat_inj.mp
    have small : byte.toNat / 2 ^ 8 = 0 := Nat.div_eq_of_lt byte.toNat_lt
    rw [toNat_shiftRight_8, toNat_shiftRight_8, UInt32.toNat_xor, UInt8.toNat_toUInt32,
      show 256 = 2 ^ 8 from rfl, Nat.xor_div_two_pow, small, Nat.xor_zero]
  rw [crc32cStep, ← high]
  generalize state ^^^ byte.toUInt32 = x
  have split : x = (x &&& 0xFF) ^^^ (x ^^^ (x &&& 0xFF)) := by
    rw [UInt32.xor_comm x, ← UInt32.xor_assoc, UInt32.xor_self, UInt32.zero_xor]
  calc
    crc32cTable (x &&& 0xFF) ^^^ (x >>> 8) =
        crc32cBits 8 (x &&& 0xFF) ^^^ crc32cBits 8 (x ^^^ (x &&& 0xFF)) := by
      rw [crc32cTable_eq, crc32cBits_high]
    _ = crc32cBits 8 ((x &&& 0xFF) ^^^ (x ^^^ (x &&& 0xFF))) := (crc32cBits_xor 8 _ _).symm
    _ = crc32cBits 8 x := by rw [← split]

theorem xor_right_cancel {a b c : UInt32} (same : a ^^^ c = b ^^^ c) : a = b := by
  have cancelled := congrArg (· ^^^ c) same
  simpa [UInt32.xor_assoc] using cancelled

/-- The step loses nothing of the remainder. -/
theorem crc32cStep_state_injective (byte : UInt8) :
    Function.Injective fun state => crc32cStep state byte := by
  intro first second same
  simp only [crc32cStep_eq] at same
  exact xor_right_cancel (crc32cBits_injective 8 same)

/-- The step loses nothing of the byte. -/
theorem crc32cStep_byte_injective (state : UInt32) : Function.Injective (crc32cStep state) := by
  intro first second same
  rw [crc32cStep_eq, crc32cStep_eq] at same
  have bytes := crc32cBits_injective 8 same
  rw [UInt32.xor_comm state, UInt32.xor_comm state] at bytes
  exact UInt8.toUInt32_inj.mp (xor_right_cancel bytes)

theorem foldl_crc32cStep_injective (bytes : List UInt8) :
    Function.Injective fun state => bytes.foldl crc32cStep state := by
  induction bytes with
  | nil => exact fun _ _ same => same
  | cons byte bytes ih => exact fun _ _ same => crc32cStep_state_injective byte (ih same)

/-- Two byte strings that differ in one byte. -/
def OneByteApart (first second : List UInt8) : Prop :=
  ∃ front byte byte' back, first = front ++ byte :: back ∧ second = front ++ byte' :: back ∧
    byte ≠ byte'

/-- A change of one byte changes the checksum. -/
theorem crc32c_ne_of_oneByteApart {first second : List UInt8} (apart : OneByteApart first second) :
    crc32c first ≠ crc32c second := by
  obtain ⟨front, byte, byte', back, rfl, rfl, distinct⟩ := apart
  intro same
  have folded : (front ++ byte :: back).foldl crc32cStep (~~~ 0) =
      (front ++ byte' :: back).foldl crc32cStep (~~~ 0) := UInt32.not_inj.mp same
  rw [List.foldl_append, List.foldl_append, List.foldl_cons, List.foldl_cons] at folded
  exact distinct (crc32cStep_byte_injective _ (foldl_crc32cStep_injective back folded))

/-- A change of one byte falls into one of two parts. -/
theorem OneByteApart.append {first first' second second' : List UInt8}
    (apart : OneByteApart (first ++ second) (first' ++ second'))
    (length : first.length = first'.length) :
    OneByteApart first first' ∧ second = second' ∨ first = first' ∧
      OneByteApart second second' := by
  obtain ⟨front, byte, byte', back, whole, whole', distinct⟩ := apart
  rcases List.append_eq_append_iff.mp whole with ⟨rest, rfl, rfl⟩ | ⟨rest, rfl, split⟩
  · right
    rw [List.append_assoc] at whole'
    obtain ⟨rfl, rfl⟩ := List.append_inj whole'.symm length
    exact ⟨rfl, rest, byte, byte', back, rfl, rfl, distinct⟩
  · cases rest with
    | nil =>
        right
        obtain ⟨same, rfl⟩ := List.append_inj whole'.symm (by simpa using length)
        rw [List.nil_append] at split
        exact ⟨by rw [List.append_nil, same], [], byte, byte', back, split.symm, rfl, distinct⟩
    | cons head rest =>
        left
        rw [List.cons_append] at split
        obtain ⟨rfl, rfl⟩ := List.cons.inj split
        rw [← List.cons_append, ← List.append_assoc] at whole'
        obtain ⟨same, rfl⟩ := List.append_inj whole'.symm (by simpa using length)
        exact ⟨⟨front, byte, byte', rest, rfl, same.symm, distinct⟩, rfl⟩

theorem ofFn_update {n : Nat} (bytes : Fin n → UInt8) (index : Fin n) (byte : UInt8) :
    List.ofFn (Function.update bytes index byte) = (List.ofFn bytes).set index.val byte := by
  apply List.ext_getElem
  · simp
  · intro position _ _
    rw [List.getElem_ofFn, List.getElem_set, List.getElem_ofFn, Function.update_apply]
    simp only [Fin.ext_iff, eq_comm]

/-- One element of a byte array replaced by another. -/
theorem oneByteApart_update {n : Nat} (bytes : Fin n → UInt8) (index : Fin n) {byte : UInt8}
    (distinct : bytes index ≠ byte) :
    OneByteApart (List.ofFn bytes) (List.ofFn (Function.update bytes index byte)) := by
  have inside : index.val < (List.ofFn bytes).length := by simp
  refine ⟨(List.ofFn bytes).take index, bytes index, byte, (List.ofFn bytes).drop (index + 1), ?_,
    ?_, distinct⟩
  · rw [show bytes index = (List.ofFn bytes)[index.val] by simp, ← List.drop_eq_getElem_cons,
      List.take_append_drop]
  · rw [ofFn_update, List.set_eq_take_append_cons_drop, if_pos inside]

/-- Up to four bytes as one number, the first one lowest. -/
def crcWord : List UInt8 → UInt32
  | [] => 0
  | byte :: bytes => byte.toUInt32 ^^^ (crcWord bytes <<< 8)

theorem toNat_shiftLeft_8 {x : UInt32} (small : x.toNat < 2 ^ 24) :
    (x <<< 8).toNat = x.toNat * 256 := by
  rw [UInt32.toNat_shiftLeft]
  simp only [UInt32.reduceToNat, Nat.shiftLeft_eq, Nat.reduceMod, Nat.reducePow]
  omega

/-- A number with its low byte added is that byte and the rest. -/
theorem toNat_xor_shiftLeft_8 (byte : UInt8) {x : UInt32} (small : x.toNat < 2 ^ 24) :
    (byte.toUInt32 ^^^ (x <<< 8)).toNat % 256 = byte.toNat ∧
      (byte.toUInt32 ^^^ (x <<< 8)).toNat / 256 = x.toNat := by
  have byteSmall := byte.toNat_lt
  rw [UInt32.toNat_xor, toNat_shiftLeft_8 small, UInt8.toNat_toUInt32, show 256 = 2 ^ 8 from rfl,
    Nat.xor_mod_two_pow, Nat.xor_div_two_pow, Nat.mul_mod_left, Nat.xor_zero,
    Nat.mul_div_cancel _ (by decide), Nat.div_eq_of_lt byteSmall, Nat.zero_xor,
    Nat.mod_eq_of_lt byteSmall]
  exact ⟨rfl, rfl⟩

theorem crcWord_lt {bytes : List UInt8} (short : bytes.length ≤ 4) :
    (crcWord bytes).toNat < 2 ^ (8 * bytes.length) := by
  induction bytes with
  | nil => decide
  | cons byte bytes ih =>
      rw [List.length_cons] at short
      have inner := ih (by omega)
      have small : (crcWord bytes).toNat < 2 ^ 24 :=
        inner.trans_le (Nat.pow_le_pow_right (by decide) (by omega))
      obtain ⟨low, high⟩ := toNat_xor_shiftLeft_8 byte small
      have byteSmall := byte.toNat_lt
      rw [crcWord, List.length_cons, show 8 * (bytes.length + 1) = 8 * bytes.length + 8 by omega,
        Nat.pow_add]
      omega

theorem crcWord_small {bytes : List UInt8} (short : bytes.length ≤ 3) :
    (crcWord bytes).toNat < 2 ^ 24 :=
  (crcWord_lt (by omega)).trans_le (Nat.pow_le_pow_right (by decide) (by omega))

theorem crcWord_injective {first second : List UInt8} (length : first.length = second.length)
    (short : first.length ≤ 4) (same : crcWord first = crcWord second) : first = second := by
  induction first generalizing second with
  | nil => exact (List.length_eq_zero_iff.mp length.symm).symm
  | cons byte first ih =>
      cases second with
      | nil => simp at length
      | cons byte' second =>
          rw [List.length_cons, List.length_cons, Nat.succ_inj] at length
          rw [List.length_cons] at short
          obtain ⟨low, high⟩ := toNat_xor_shiftLeft_8 byte
            (crcWord_small (show first.length ≤ 3 by omega))
          obtain ⟨low', high'⟩ := toNat_xor_shiftLeft_8 byte'
            (crcWord_small (show second.length ≤ 3 by omega))
          rw [crcWord, crcWord] at same
          rw [same] at low high
          have bytes : byte = byte' := UInt8.toNat_inj.mp (low.symm.trans low')
          have rest : crcWord first = crcWord second := UInt32.toNat_inj.mp (high.symm.trans high')
          rw [bytes, ih length (by omega) rest]

theorem crc32cBits_add (m n : Nat) (x : UInt32) :
    crc32cBits (m + n) x = crc32cBits n (crc32cBits m x) := by
  induction m generalizing x with
  | zero => rw [Nat.zero_add, crc32cBits]
  | succ m ih => rw [Nat.succ_add, crc32cBits, ih, crc32cBits]

/-- A number below 24 bits comes down whole through eight shifts. -/
theorem crc32cBits_shiftLeft {x : UInt32} (small : x.toNat < 2 ^ 24) :
    crc32cBits 8 (x <<< 8) = x := by
  have shifted := toNat_shiftLeft_8 small
  apply UInt32.toNat_inj.mp
  rw [toNat_crc32cBits (by rw [shifted]; omega), shifted]
  omega

/-- Up to four steps are shifts of the remainder with the whole word added. -/
theorem foldl_crc32cStep_eq {bytes : List UInt8} (short : bytes.length ≤ 4) (state : UInt32) :
    bytes.foldl crc32cStep state = crc32cBits (8 * bytes.length) (state ^^^ crcWord bytes) := by
  induction bytes generalizing state with
  | nil => simp [crcWord, crc32cBits]
  | cons byte bytes ih =>
      rw [List.length_cons] at short
      have small := crcWord_small (show bytes.length ≤ 3 by omega)
      calc (byte :: bytes).foldl crc32cStep state
          = crc32cBits (8 * bytes.length) (crc32cStep state byte ^^^ crcWord bytes) :=
            ih (by omega) _
        _ = crc32cBits (8 * bytes.length)
              (crc32cBits 8 (state ^^^ byte.toUInt32) ^^^ crc32cBits 8 (crcWord bytes <<< 8)) := by
            rw [crc32cStep_eq, crc32cBits_shiftLeft small]
        _ = crc32cBits (8 + 8 * bytes.length)
              (state ^^^ byte.toUInt32 ^^^ (crcWord bytes <<< 8)) := by
            rw [← crc32cBits_xor, ← crc32cBits_add]
        _ = crc32cBits (8 * (byte :: bytes).length) (state ^^^ crcWord (byte :: bytes)) := by
            rw [List.length_cons, crcWord, UInt32.xor_assoc,
              show 8 * (bytes.length + 1) = 8 + 8 * bytes.length by omega]

/-- Two byte strings of one length that agree but for `len` places from `start` on. -/
structure AgreeOutside (start len : Nat) (first second : List UInt8) : Prop where
  length : first.length = second.length
  agree : ∀ index, index < start ∨ start + len ≤ index → first[index]? = second[index]?

theorem AgreeOutside.take {start len : Nat} {first second : List UInt8}
    (agree : AgreeOutside start len first second) : first.take start = second.take start := by
  apply List.ext_getElem?
  intro index
  rw [List.getElem?_take, List.getElem?_take]
  split_ifs with before
  · exact agree.agree index (.inl before)
  · rfl

theorem AgreeOutside.drop {start len : Nat} {first second : List UInt8}
    (agree : AgreeOutside start len first second) :
    first.drop (start + len) = second.drop (start + len) := by
  apply List.ext_getElem?
  intro index
  rw [List.getElem?_drop, List.getElem?_drop]
  exact agree.agree _ (.inr (by omega))

/-- A change of up to four consecutive bytes changes the checksum. -/
theorem AgreeOutside.eq_of_crc32c {start len : Nat} {first second : List UInt8} (short : len ≤ 4)
    (agree : AgreeOutside start len first second) (same : crc32c first = crc32c second) :
    first = second := by
  have split : ∀ list : List UInt8,
      list = list.take start ++ ((list.drop start).take len ++ list.drop (start + len)) := by
    intro list
    rw [← List.drop_drop, List.take_append_drop, List.take_append_drop]
  have folded : first.foldl crc32cStep (~~~ 0) = second.foldl crc32cStep (~~~ 0) :=
    UInt32.not_inj.mp same
  have window : ((first.drop start).take len).length = ((second.drop start).take len).length := by
    rw [List.length_take, List.length_take, List.length_drop, List.length_drop, agree.length]
  have within : ((first.drop start).take len).length ≤ 4 := by
    rw [List.length_take]
    omega
  rw [split first, split second, agree.take, agree.drop] at folded ⊢
  simp only [List.foldl_append] at folded
  have middle := foldl_crc32cStep_injective _ folded
  simp only [foldl_crc32cStep_eq within, foldl_crc32cStep_eq (window ▸ within), ← window] at middle
  have words := crc32cBits_injective _ middle
  rw [UInt32.xor_comm _ (crcWord _), UInt32.xor_comm _ (crcWord _)] at words
  rw [crcWord_injective window within (xor_right_cancel words)]

end MiniFs
