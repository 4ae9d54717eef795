import Mathlib.Data.List.Lex
import Mathlib.Tactic.Ring

/-!
# Byte strings in bytewise order

Strings of bytes compare bytewise as unsigned numbers, a proper prefix first.  Big-endian encodings
of numbers below a bound compare as the numbers do.
-/

/-- A string of bytes. -/
abbrev ByteString : Type := List UInt8

instance instLinearOrderByte : LinearOrder UInt8 where
  le_refl := UInt8.le_refl
  le_trans _ _ _ := UInt8.le_trans
  lt_iff_le_not_ge a b := by
    rw [UInt8.not_le]
    exact ⟨fun less => ⟨UInt8.le_of_lt less, less⟩, fun both => both.2⟩
  le_antisymm _ _ := UInt8.le_antisymm
  le_total := UInt8.le_total
  toDecidableLE := inferInstance
  toDecidableEq := inferInstance
  toDecidableLT := inferInstance

namespace ByteString

/-- The `n` low-order bytes of a number, most significant first. -/
def bigEndian : Nat → Nat → ByteString
  | 0, _ => []
  | n + 1, value => UInt8.ofNat (value / 256 ^ n) :: bigEndian n value

/-- The number whose big-endian digits are the given bytes. -/
def ofBigEndian (string : ByteString) : Nat :=
  string.foldl (fun value byte => value * 256 + byte.toNat) 0

@[simp] theorem length_bigEndian (n value : Nat) : (bigEndian n value).length = n := by
  induction n with
  | zero => rfl
  | succ n ih => simp [bigEndian, ih]

theorem bigEndian_mod (n value : Nat) : bigEndian n (value % 256 ^ n) = bigEndian n value := by
  suffices general : ∀ k, n ≤ k → bigEndian n (value % 256 ^ k) = bigEndian n value from
    general n le_rfl
  induction n with
  | zero => simp [bigEndian]
  | succ n ih =>
      intro k bound
      simp only [bigEndian]
      congr 1
      · apply UInt8.toNat_inj.mp
        simp only [UInt8.toNat_ofNat']
        obtain ⟨d, rfl⟩ : ∃ d, k = n + (d + 1) := ⟨k - n - 1, by omega⟩
        rw [Nat.pow_add, Nat.mod_mul_right_div_self, Nat.pow_succ, Nat.mod_mul_left_mod]
      · exact ih k (by omega)

/-- Big-endian encodings of equal length compare as the numbers. -/
theorem bigEndian_lt_iff {n first second : Nat} (firstBound : first < 256 ^ n)
    (secondBound : second < 256 ^ n) :
    bigEndian n first < bigEndian n second ↔ first < second := by
  induction n generalizing first second with
  | zero =>
      simp only [Nat.pow_zero, Nat.lt_one_iff] at firstBound secondBound
      simp [firstBound, secondBound]
  | succ n ih =>
      have power : 0 < 256 ^ n := Nat.pow_pos (by decide)
      rw [Nat.pow_succ] at firstBound secondBound
      have firstDigit : first / 256 ^ n < 256 := Nat.div_lt_of_lt_mul firstBound
      have secondDigit : second / 256 ^ n < 256 := Nat.div_lt_of_lt_mul secondBound
      have firstSplit := Nat.div_add_mod first (256 ^ n)
      have secondSplit := Nat.div_add_mod second (256 ^ n)
      have firstRest := Nat.mod_lt first power
      have secondRest := Nat.mod_lt second power
      simp only [bigEndian]
      rw [← bigEndian_mod n first, ← bigEndian_mod n second, List.cons_lt_cons_iff,
        ih firstRest secondRest, UInt8.lt_iff_toNat_lt, ← UInt8.toNat_inj]
      simp only [UInt8.toNat_ofNat', Nat.mod_eq_of_lt firstDigit, Nat.mod_eq_of_lt secondDigit]
      generalize first / 256 ^ n = d₁ at *
      generalize second / 256 ^ n = d₂ at *
      constructor
      · rintro (digitLess | ⟨rfl, restLess⟩)
        · have gap : 256 ^ n * (d₁ + 1) ≤ 256 ^ n * d₂ := Nat.mul_le_mul_left _ digitLess
          rw [Nat.mul_add] at gap
          omega
        · omega
      · intro less
        rcases lt_trichotomy d₁ d₂ with digitLess | rfl | digitMore
        · exact .inl digitLess
        · exact .inr ⟨rfl, by omega⟩
        · have gap : 256 ^ n * (d₂ + 1) ≤ 256 ^ n * d₁ := Nat.mul_le_mul_left _ digitMore
          rw [Nat.mul_add] at gap
          omega

theorem bigEndian_inj {n first second : Nat} (firstBound : first < 256 ^ n)
    (secondBound : second < 256 ^ n) (same : bigEndian n first = bigEndian n second) :
    first = second := by
  rcases lt_trichotomy first second with less | equal | more
  · exact absurd ((bigEndian_lt_iff firstBound secondBound).mpr less) (by simp [same])
  · exact equal
  · exact absurd ((bigEndian_lt_iff secondBound firstBound).mpr more) (by simp [same])

/-- Strings with first parts of equal length compare by the first parts, then by the rest. -/
theorem append_lt_append_iff {first second : ByteString} (rest rest' : ByteString)
    (same : first.length = second.length) :
    first ++ rest < second ++ rest' ↔ first < second ∨ first = second ∧ rest < rest' := by
  induction first generalizing second with
  | nil =>
      obtain rfl : second = [] := List.length_eq_zero_iff.mp same.symm
      simp
  | cons byte first ih =>
      cases second with
      | nil => simp at same
      | cons byte' second =>
          simp only [List.length_cons, Nat.add_right_cancel_iff] at same
          rw [List.cons_append, List.cons_append, List.cons_lt_cons_iff, List.cons_lt_cons_iff,
            ih same, List.cons.injEq]
          constructor
          · rintro (less | ⟨rfl, less | ⟨rfl, less⟩⟩)
            · exact .inl (.inl less)
            · exact .inl (.inr ⟨rfl, less⟩)
            · exact .inr ⟨⟨rfl, rfl⟩, less⟩
          · rintro ((less | ⟨rfl, less⟩) | ⟨⟨rfl, rfl⟩, less⟩)
            · exact .inl less
            · exact .inr ⟨rfl, .inl less⟩
            · exact .inr ⟨rfl, .inr ⟨rfl, less⟩⟩

theorem foldl_bigEndian (n value start : Nat) :
    (bigEndian n value).foldl (fun value byte => value * 256 + byte.toNat) start =
      start * 256 ^ n + value % 256 ^ n := by
  induction n generalizing start with
  | zero => simp [bigEndian, Nat.mod_one]
  | succ n ih =>
      have digit : value % 256 ^ (n + 1) = value / 256 ^ n % 256 * 256 ^ n + value % 256 ^ n := by
        rw [Nat.pow_succ, Nat.mod_mul, Nat.mul_comm, Nat.add_comm]
      rw [bigEndian, List.foldl_cons, ih, UInt8.toNat_ofNat', digit, Nat.pow_succ]
      ring

@[simp] theorem ofBigEndian_bigEndian {n value : Nat} (bound : value < 256 ^ n) :
    ofBigEndian (bigEndian n value) = value := by
  rw [ofBigEndian, foldl_bigEndian, Nat.zero_mul, Nat.zero_add, Nat.mod_eq_of_lt bound]

end ByteString
