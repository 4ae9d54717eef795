import MiniFs.Util.Crc32cErrors

/-!
# The definition of CRC-32C

A message is fed into the remainder bit by bit, the lowest bit of a byte first.  The table does the
same eight bits at a time.
-/

namespace MiniFs

/-- One bit of the message goes into a reflected remainder: with the bit that is shifted out it
decides whether the polynomial is added. -/
def crc32cFeed (remainder : UInt32) (bit : Bool) : UInt32 :=
  if remainder.toNat.testBit 0 ^^ bit then (remainder >>> 1) ^^^ 0x82F63B78 else remainder >>> 1

/-- The lowest `n` bits of a number, the lowest one first. -/
def lowBits (n value : Nat) : List Bool := (List.range n).map value.testBit

/-- The bits of a byte string in the order in which they are fed. -/
def messageBits (bytes : List UInt8) : List Bool := bytes.flatMap fun byte => lowBits 8 byte.toNat

/-- The reflected CRC of the polynomial 0x82F63B78, with all ones to start from and complemented at
the end. -/
def crc32cSpec (bytes : List UInt8) : UInt32 :=
  (messageBits bytes).foldl crc32cFeed 0xFFFFFFFF ^^^ 0xFFFFFFFF

theorem lowBits_succ (n value : Nat) :
    lowBits (n + 1) value = value.testBit 0 :: lowBits n (value / 2) := by
  rw [lowBits, lowBits, List.range_succ_eq_map, List.map_cons, List.map_map]
  congr 2
  funext index
  exact Nat.testBit_add_one value index

theorem testBit_zero_eq (x : UInt32) : x.toNat.testBit 0 = decide (x &&& 1 = 1) := by
  rw [Nat.testBit_zero]
  simp only [and_one_eq_one_iff]

theorem crc32cBit_one : crc32cBit 1 = 0x82F63B78 := by decide

/-- A bit is fed by adding it to the remainder. -/
theorem crc32cFeed_eq (remainder : UInt32) (bit : Bool) :
    crc32cFeed remainder bit = crc32cBit (remainder ^^^ if bit then 1 else 0) := by
  rw [crc32cFeed, testBit_zero_eq]
  cases bit with
  | false =>
      simp only [Bool.xor_false, decide_eq_true_eq, Bool.false_eq_true, if_false, UInt32.xor_zero,
        crc32cBit, UInt32.xor_comm]
  | true =>
      rw [if_pos rfl, crc32cBit_xor, crc32cBit_one, crc32cBit]
      by_cases odd : remainder &&& 1 = 1
      · rw [decide_eq_true odd, if_neg (by decide), if_pos odd, UInt32.xor_comm 0x82F63B78,
          UInt32.xor_assoc, UInt32.xor_self, UInt32.xor_zero]
      · rw [decide_eq_false odd, if_pos (by decide), if_neg odd]

/-- A word is shifted as its lowest bit and the rest. -/
theorem crc32cBit_eq (word : UInt32) :
    crc32cBit word = crc32cBit (if word.toNat.testBit 0 then 1 else 0) ^^^ (word >>> 1) := by
  rw [testBit_zero_eq]
  by_cases odd : word &&& 1 = 1
  · rw [if_pos (decide_eq_true odd), crc32cBit_one, crc32cBit, if_pos odd]
  · have zero : crc32cBit 0 = 0 := by decide
    rw [if_neg (by simp [odd]), zero, UInt32.zero_xor, crc32cBit, if_neg odd]

/-- The bits of a word are fed by adding the word to the remainder. -/
theorem foldl_crc32cFeed {n : Nat} {word : UInt32} (short : word.toNat < 2 ^ n)
    (remainder : UInt32) :
    (lowBits n word.toNat).foldl crc32cFeed remainder = crc32cBits n (remainder ^^^ word) := by
  induction n generalizing word remainder with
  | zero =>
      have zero : word = 0 := UInt32.toNat_inj.mp (Nat.lt_one_iff.mp short)
      rw [zero, UInt32.xor_zero]
      rfl
  | succ n ih =>
      have half : (word >>> 1).toNat = word.toNat / 2 := toNat_shiftRight_one word
      have rest : (word >>> 1).toNat < 2 ^ n := by
        rw [half]
        rw [Nat.pow_succ] at short
        omega
      have bit : crc32cBit (remainder ^^^ word) =
          crc32cFeed remainder (word.toNat.testBit 0) ^^^ (word >>> 1) := by
        rw [crc32cBit_xor, crc32cBit_eq word, crc32cFeed_eq, crc32cBit_xor, UInt32.xor_assoc]
      rw [lowBits_succ, List.foldl_cons, ← half, ih rest, crc32cBits, bit]

theorem foldl_messageBits (bytes : List UInt8) (remainder : UInt32) :
    (messageBits bytes).foldl crc32cFeed remainder = bytes.foldl crc32cStep remainder := by
  induction bytes generalizing remainder with
  | nil => rfl
  | cons byte rest ih =>
      have fed : (lowBits 8 byte.toNat).foldl crc32cFeed remainder = crc32cStep remainder byte := by
        rw [crc32cStep_eq, ← foldl_crc32cFeed, UInt8.toNat_toUInt32]
        rw [UInt8.toNat_toUInt32]
        exact byte.toNat_lt
      rw [messageBits, List.flatMap_cons, List.foldl_append, fed, List.foldl_cons, ← ih]
      rfl

theorem crc32cUpdate_eq (crc : UInt32) (bytes : List UInt8) :
    crc32cUpdate crc bytes = ~~~ bytes.foldl crc32cStep (~~~ crc) := rfl

/-- The table-driven checksum is the one of the definition, and a checksum can be continued. -/
theorem crc32c_correct :
    (∀ bytes, crc32c bytes = crc32cSpec bytes) ∧
      ∀ first second, crc32cUpdate (crc32c first) second = crc32c (first ++ second) := by
  refine ⟨fun bytes => ?_, fun first second => ?_⟩
  · have start : ~~~ (0 : UInt32) = 0xFFFFFFFF := by decide
    rw [crc32c, crc32cUpdate_eq, crc32cSpec, foldl_messageBits, start]
    generalize bytes.foldl crc32cStep 0xFFFFFFFF = last
    apply UInt32.toBitVec_inj.mp
    exact (BitVec.xor_allOnes).symm
  · simp only [crc32c, crc32cUpdate_eq, UInt32.not_not, List.foldl_append]

end MiniFs
