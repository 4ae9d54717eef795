import MiniFs.Fs.File

/-!
# Extent maps

The extent map of an inode is searched first-match and filled in order, so an appended extent never
changes the device block of a logical block that had one.
-/

namespace MiniFs

/-- A search of a table returns the first entry that passes. -/
theorem find?_finRange_eq_some {n : Nat} {test : Fin n → Bool} {index : Fin n} :
    (List.finRange n).find? test = some index ↔
      test index = true ∧ ∀ earlier < index, test earlier = false := by
  rw [List.find?_eq_some_iff_getElem]
  constructor
  · rintro ⟨passes, position, inside, here, least⟩
    refine ⟨passes, fun earlier before => ?_⟩
    rw [List.getElem_finRange] at here
    have same : position = index.val := by
      rw [← here]
      rfl
    have failed := least earlier.val (by rw [same]; exact before)
    rw [List.getElem_finRange] at failed
    simpa using failed
  · rintro ⟨passes, least⟩
    refine ⟨passes, index.val, by simp, by simp, fun earlier before => ?_⟩
    have inside : earlier < n := before.trans index.isLt
    rw [List.getElem_finRange]
    simpa using least ⟨earlier, inside⟩ before

theorem find?_finRange_eq_none {n : Nat} {test : Fin n → Bool} :
    (List.finRange n).find? test = none ↔ ∀ index, test index = false := by
  rw [List.find?_eq_none]
  simp

namespace NebulaInode

/-- The device block of a logical block. -/
def blockOf (inode : NebulaInode) (blk : Nat) : Option Nat :=
  (extentFind inode blk).map fun index => (inode.extents index).physLba blk

/-- The device block belongs to an extent. -/
def Holds (inode : NebulaInode) (lba : Nat) : Prop :=
  ∃ index, ∃ offset < (inode.extents index).sizeBlocks,
    lba = (inode.extents index).emLba.toNat + offset

/-- The extents fill the table in order, and no two share a device block. -/
structure Mapped (inode : NebulaInode) : Prop where
  filled : ∀ index later, index ≤ later → (inode.extents later).sizeBlocks ≠ 0 →
    (inode.extents index).sizeBlocks ≠ 0
  bounded : ∀ index,
    (inode.extents index).emOffset.toNat + (inode.extents index).sizeBlocks < 2 ^ 63
  disjoint : ∀ index other first second, first < (inode.extents index).sizeBlocks →
    second < (inode.extents other).sizeBlocks →
    (inode.extents index).emLba.toNat + first = (inode.extents other).emLba.toNat + second →
    index = other

end NebulaInode

namespace NebulaInode

variable {inode inode' : NebulaInode}

theorem holds_congr (same : inode'.extents = inode.extents) (lba : Nat) :
    inode'.Holds lba ↔ inode.Holds lba := by
  rw [Holds, Holds, same]

theorem blockOf_congr (same : inode'.extents = inode.extents) : inode'.blockOf = inode.blockOf := by
  funext blk
  rw [blockOf, blockOf, extentFind, extentFind, same]

theorem Mapped.congr (mapped : inode.Mapped) (same : inode'.extents = inode.extents) :
    inode'.Mapped where
  filled := by
    rw [same]
    exact mapped.filled
  bounded := by
    rw [same]
    exact mapped.bounded
  disjoint := by
    rw [same]
    exact mapped.disjoint

end NebulaInode

namespace ExtentMapEntry

theorem covers_iff {entry : ExtentMapEntry} {blk : Nat}
    (bounded : entry.emOffset.toNat + entry.sizeBlocks < 2 ^ 63) :
    entry.covers blk = true ↔
      entry.emOffset.toNat ≤ blk ∧ blk < entry.emOffset.toNat + entry.sizeBlocks := by
  rw [covers, decide_eq_true_iff, Nat.mod_eq_of_lt (by omega)]
  omega

theorem physLba_eq {entry : ExtentMapEntry} {blk : Nat}
    (bounded : entry.emOffset.toNat + entry.sizeBlocks < 2 ^ 63)
    (high : blk < entry.emOffset.toNat + entry.sizeBlocks) :
    entry.physLba blk = entry.emLba.toNat + (blk - entry.emOffset.toNat) := by
  have lba := entry.emLba.toNat_lt
  rw [physLba, Nat.mod_eq_of_lt (by omega)]

theorem emOffset_for {blk : Nat} (low : blk < 2 ^ 63) (n lba : Nat) :
    (ExtentMapEntry.for blk n lba).emOffset.toNat = blk := by
  simp only [ExtentMapEntry.for, UInt64.toNat_ofNat']
  omega

theorem sizeBlocks_for {n : Nat} (few : n < 2 ^ 24) (blk lba : Nat) :
    (ExtentMapEntry.for blk n lba).sizeBlocks = n := by
  have mask : (0x00FFFFFF : UInt32).toNat = 2 ^ 24 - 1 := rfl
  simp only [ExtentMapEntry.for, sizeBlocks, UInt32.toNat_and, UInt32.toNat_ofNat', mask,
    Nat.and_two_pow_sub_one_eq_mod]
  omega

theorem toNat_for {blk n lba : Nat} (low : blk < 2 ^ 63) (few : n < 2 ^ 24) (small : lba < 2 ^ 32) :
    (ExtentMapEntry.for blk n lba).emOffset.toNat = blk ∧
      (ExtentMapEntry.for blk n lba).sizeBlocks = n ∧
      (ExtentMapEntry.for blk n lba).emLba.toNat = lba := by
  refine ⟨emOffset_for low _ _, sizeBlocks_for few _ _, ?_⟩
  simp only [ExtentMapEntry.for, UInt32.toNat_ofNat']
  omega

end ExtentMapEntry

namespace NebulaInode.Mapped

variable {inode : NebulaInode}

/-- What the search finds. -/
theorem blockOf_eq_some (mapped : inode.Mapped) {blk lba : Nat}
    (found : inode.blockOf blk = some lba) :
    ∃ index, (inode.extents index).emOffset.toNat ≤ blk ∧
      blk < (inode.extents index).emOffset.toNat + (inode.extents index).sizeBlocks ∧
      lba = (inode.extents index).emLba.toNat + (blk - (inode.extents index).emOffset.toNat) ∧
      extentFind inode blk = some index := by
  rw [blockOf, Option.map_eq_some_iff] at found
  obtain ⟨index, here, rfl⟩ := found
  have covered := (find?_finRange_eq_some.mp here).1
  rw [ExtentMapEntry.covers_iff (mapped.bounded index)] at covered
  exact ⟨index, covered.1, covered.2,
    ExtentMapEntry.physLba_eq (mapped.bounded index) covered.2, here⟩

theorem holds_of_blockOf (mapped : inode.Mapped) {blk lba : Nat}
    (found : inode.blockOf blk = some lba) : inode.Holds lba := by
  obtain ⟨index, low, high, rfl, -⟩ := mapped.blockOf_eq_some found
  exact ⟨index, blk - (inode.extents index).emOffset.toNat, by omega, rfl⟩

/-- Two logical blocks never share a device block. -/
theorem blockOf_inj (mapped : inode.Mapped) {blk other lba : Nat}
    (found : inode.blockOf blk = some lba)
    (found' : inode.blockOf other = some lba) : blk = other := by
  obtain ⟨index, low, high, same, -⟩ := mapped.blockOf_eq_some found
  obtain ⟨index', low', high', same', -⟩ := mapped.blockOf_eq_some found'
  have equal := mapped.disjoint index index' _ _ (show blk - _ < _ by omega)
    (show other - _ < _ by omega) (same.symm.trans same')
  subst equal
  omega

end NebulaInode.Mapped

/-- An inode without extents. -/
theorem NebulaInode.mapped_of_empty {inode : NebulaInode}
    (empty : ∀ index, inode.extents index = .zero) :
    inode.Mapped ∧ (∀ lba, ¬ inode.Holds lba) ∧ ∀ blk, inode.blockOf blk = none := by
  have size : ∀ index, (inode.extents index).sizeBlocks = 0 := by
    intro index
    rw [empty]
    decide
  refine ⟨⟨?_, ?_, ?_⟩, ?_, ?_⟩
  · intro index later _ some
    exact absurd (size later) some
  · intro index
    rw [empty]
    decide
  · intro index other first second inside
    rw [size] at inside
    omega
  · rintro lba ⟨index, offset, inside, -⟩
    rw [size] at inside
    omega
  · intro blk
    have none : extentFind inode blk = none := by
      rw [extentFind, find?_finRange_eq_none]
      intro index
      rw [ExtentMapEntry.covers, decide_eq_false_iff_not]
      exact fun covered => covered.1 (size index)
    rw [blockOf, none, Option.map_none]

theorem extentAppend_eq_none {inode : NebulaInode} {blk n lba : Nat} :
    extentAppend inode blk n lba = none ↔ ∀ index, (inode.extents index).sizeBlocks ≠ 0 := by
  rw [extentAppend, Option.map_eq_none_iff, find?_finRange_eq_none]
  simp

theorem extentAppend_eq_some {inode after : NebulaInode} {blk n lba : Nat}
    (appended : extentAppend inode blk n lba = some after) :
    ∃ index, (inode.extents index).sizeBlocks = 0 ∧
      (∀ earlier < index, (inode.extents earlier).sizeBlocks ≠ 0) ∧
      after = { inode with extents := Function.update inode.extents index (.for blk n lba) } := by
  rw [extentAppend, Option.map_eq_some_iff] at appended
  obtain ⟨index, found, rfl⟩ := appended
  obtain ⟨empty, least⟩ := find?_finRange_eq_some.mp found
  refine ⟨index, of_decide_eq_true empty, fun earlier before => ?_, rfl⟩
  simpa using least earlier before

/-- An appended extent: what it maps, and what it leaves alone. -/
structure NebulaInode.Appended (inode : NebulaInode) (blk n lba : Nat) (after : NebulaInode) :
    Prop where
  mapped : after.Mapped
  holds : ∀ block, after.Holds block ↔ inode.Holds block ∨ lba ≤ block ∧ block < lba + n
  blockOf : ∀ other, after.blockOf other = (inode.blockOf other).or
    (if blk ≤ other ∧ other < blk + n then some (lba + (other - blk)) else none)
  rest : after = { inode with extents := after.extents }

theorem NebulaInode.Mapped.append {inode after : NebulaInode} (mapped : inode.Mapped)
    {blk n lba : Nat} (low : blk < 2 ^ 53) (few : n < 2 ^ 24) (positive : 0 < n)
    (small : lba < 2 ^ 32) (apart : ∀ offset < n, ¬ inode.Holds (lba + offset))
    (appended : extentAppend inode blk n lba = some after) : inode.Appended blk n lba after := by
  obtain ⟨here, empty, least, rfl⟩ := extentAppend_eq_some appended
  obtain ⟨offsetEq, sizeEq, lbaEq⟩ :=
    ExtentMapEntry.toNat_for (show blk < 2 ^ 63 by omega) few small
  have past : ∀ later, here < later → (inode.extents later).sizeBlocks = 0 := by
    intro later after
    by_contra some
    exact mapped.filled here later after.le some empty
  have bounded :
    ∀ index, (Function.update inode.extents here (.for blk n lba) index).emOffset.toNat +
      (Function.update inode.extents here (.for blk n lba) index).sizeBlocks < 2 ^ 63 := by
    intro index
    by_cases same : index = here
    · rw [same, Function.update_self, offsetEq, sizeEq]
      omega
    · rw [Function.update_of_ne same]
      exact mapped.bounded index
  refine ⟨⟨?_, bounded, ?_⟩, ?_, ?_, rfl⟩
  · intro index later order some
    simp only at some ⊢
    by_cases same : index = here
    · rw [same, Function.update_self, sizeEq]
      omega
    · rw [Function.update_of_ne same]
      rcases lt_or_gt_of_ne same with before | behind
      · exact least index before
      · rw [Function.update_of_ne (behind.trans_le order).ne',
          past later (behind.trans_le order)] at some
        exact absurd rfl some
  · intro index other first second inside inside' equal
    simp only at inside inside' equal
    by_cases same : index = here <;> by_cases same' : other = here
    · rw [same, same']
    · rw [same, Function.update_self, sizeEq] at inside
      rw [same, Function.update_self, lbaEq, Function.update_of_ne same'] at equal
      rw [Function.update_of_ne same'] at inside'
      exact absurd ⟨other, second, inside', equal⟩ (apart first inside)
    · rw [same', Function.update_self, sizeEq] at inside'
      rw [same', Function.update_self, lbaEq, Function.update_of_ne same] at equal
      rw [Function.update_of_ne same] at inside
      exact absurd ⟨index, first, inside, equal.symm⟩ (apart second inside')
    · rw [Function.update_of_ne same] at inside equal
      rw [Function.update_of_ne same'] at inside' equal
      exact mapped.disjoint index other first second inside inside' equal
  · intro block
    constructor
    · rintro ⟨index, offset, inside, rfl⟩
      simp only at inside ⊢
      by_cases same : index = here
      · rw [same, Function.update_self, sizeEq] at inside
        rw [same, Function.update_self, lbaEq]
        exact .inr (by omega)
      · rw [Function.update_of_ne same] at inside ⊢
        exact .inl ⟨index, offset, inside, rfl⟩
    · rintro (⟨index, offset, inside, rfl⟩ | ⟨above, below⟩)
      · have same : index ≠ here := by
          rintro rfl
          omega
        refine ⟨index, offset, ?_, ?_⟩
        · simp only [Function.update_of_ne same]
          exact inside
        · simp only [Function.update_of_ne same]
      · refine ⟨here, block - lba, ?_, ?_⟩
        · simp only [Function.update_self, sizeEq]
          omega
        · simp only [Function.update_self, lbaEq]
          omega
  · intro other
    have covers : (ExtentMapEntry.for blk n lba).covers other = true ↔
      blk ≤ other ∧ other < blk + n := by
      rw [ExtentMapEntry.covers_iff (by rw [offsetEq, sizeEq]; omega), offsetEq, sizeEq]
    cases found : extentFind inode other with
    | some index =>
        obtain ⟨covered, first⟩ := find?_finRange_eq_some.mp found
        have some : (inode.extents index).sizeBlocks ≠ 0 := by
          rw [ExtentMapEntry.covers, decide_eq_true_iff] at covered
          exact covered.1
        have before : index < here := by
          rcases lt_trichotomy index here with before | same | behind
          · exact before
          · rw [same] at some
            exact absurd empty some
          · exact absurd (past index behind) some
        have again : extentFind { inode with
            extents := Function.update inode.extents here (.for blk n lba) } other = index := by
          rw [extentFind, find?_finRange_eq_some]
          simp only [Function.update_of_ne before.ne]
          refine ⟨covered, fun earlier less => ?_⟩
          rw [Function.update_of_ne (less.trans before).ne]
          exact first earlier less
        simp only [NebulaInode.blockOf, again, found, Option.map_some,
          Function.update_of_ne before.ne, Option.some_or]
    | none =>
        have uncovered := find?_finRange_eq_none.mp found
        by_cases inside : blk ≤ other ∧ other < blk + n
        · have again : extentFind { inode with
              extents := Function.update inode.extents here (.for blk n lba) } other = here := by
            rw [extentFind, find?_finRange_eq_some]
            simp only [Function.update_self]
            refine ⟨covers.mpr inside, fun earlier less => ?_⟩
            rw [Function.update_of_ne less.ne]
            exact uncovered earlier
          have phys : (ExtentMapEntry.for blk n lba).physLba other = lba + (other - blk) := by
            rw [ExtentMapEntry.physLba_eq (by rw [offsetEq, sizeEq]; omega)
              (by rw [offsetEq, sizeEq]; omega), offsetEq, lbaEq]
          simp only [NebulaInode.blockOf, again, found, Option.map_some, Option.map_none,
            Function.update_self, phys, if_pos inside, Option.none_or]
        · have again : extentFind { inode with
              extents := Function.update inode.extents here (.for blk n lba) } other = none := by
            rw [extentFind, find?_finRange_eq_none]
            intro index
            by_cases same : index = here
            · simp only [same, Function.update_self]
              rw [Bool.eq_false_iff]
              exact fun covered => inside (covers.mp covered)
            · simp only [Function.update_of_ne same]
              exact uncovered index
          simp only [NebulaInode.blockOf, again, found, Option.map_none, if_neg inside,
            Option.none_or]

end MiniFs
