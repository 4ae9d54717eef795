import Mathlib.Data.Finset.Card
import Mathlib.Order.Bounds.Basic
import MiniFs.Nebula.Bitmap

/-!
# The slots of a root chunk

A root chunk is handed out in directory slots of eight sub-blocks each, with one bit per sub-block
in a page of its own.  Slot 0 holds that page.  The bits of a slot are always all set or all clear,
so the three scans that look at them agree.
-/

namespace MiniFs

/-- `struct nebula_root_chunk_bitmap`. -/
structure NebulaRootChunkBitmap where
  bits : Block

/-- `NEBULA_ROOT_DIR_SLOT_SUBBLOCKS`. -/
def rootDirSlotSubblocks : Nat := 8

/-- `NEBULA_ROOT_DIR_SLOTS_PER_CHUNK`. -/
def rootDirSlotsPerChunk : Nat := 4096

namespace RootChunk

/-- `bit_get`. -/
def bitGet (bits : Block) (i : Nat) : Bool := (bits (Fin.ofNat 4096 (i / 8))).toNat.testBit (i % 8)

/-- `bit_set`. -/
def bitSet (bits : Block) (i : Nat) : Block :=
  Function.update bits (Fin.ofNat 4096 (i / 8))
    (UInt8.ofNat ((bits (Fin.ofNat 4096 (i / 8))).toNat ||| 2 ^ (i % 8)))

/-- `bit_clear`. -/
def bitClear (bits : Block) (i : Nat) : Block :=
  Function.update bits (Fin.ofNat 4096 (i / 8))
    (UInt8.ofNat ((bits (Fin.ofNat 4096 (i / 8))).toNat &&& (255 ^^^ 2 ^ (i % 8))))

/-- `slot_base_subblock`. -/
def slotBaseSubblock (slot : Nat) : Nat := slot * rootDirSlotSubblocks

/-- Set the bits of a slot. -/
def setSlot (bits : Block) (slot : Nat) : Block :=
  (List.range rootDirSlotSubblocks).foldl (fun bits j => bitSet bits (slotBaseSubblock slot + j))
    bits

/-- Clear the bits of a slot. -/
def clearSlot (bits : Block) (slot : Nat) : Block :=
  (List.range rootDirSlotSubblocks).foldl (fun bits j => bitClear bits (slotBaseSubblock slot + j))
    bits

/-- The scan of a slot: no bit is set. -/
def slotFree (bits : Block) (slot : Nat) : Bool :=
  (List.range rootDirSlotSubblocks).all fun j => !bitGet bits (slotBaseSubblock slot + j)

end RootChunk

open RootChunk (slotBaseSubblock setSlot clearSlot slotFree)

/-- `nebula_root_chunk_bitmap_init`. -/
def nebulaRootChunkBitmapInit : NebulaRootChunkBitmap where
  bits := (List.range rootDirSlotSubblocks).foldl RootChunk.bitSet zeroBlock

/-- `nebula_root_chunk_alloc_dir`: the first free slot from 1 on. -/
def nebulaRootChunkAllocDir (bm : NebulaRootChunkBitmap) :
    Except Errno Nat × NebulaRootChunkBitmap :=
  match (List.range' 1 (rootDirSlotsPerChunk - 1)).find? (slotFree bm.bits) with
  | none => (.error .ENOSPC, bm)
  | some slot => (.ok slot, ⟨setSlot bm.bits slot⟩)

/-- `nebula_root_chunk_free_dir`. -/
def nebulaRootChunkFreeDir (bm : NebulaRootChunkBitmap) (slot : UInt32) :
    Except Errno Unit × NebulaRootChunkBitmap :=
  if slot.toNat = 0 ∨ rootDirSlotsPerChunk ≤ slot.toNat then (.error .EINVAL, bm)
  else if (List.range rootDirSlotSubblocks).all fun j =>
      RootChunk.bitGet bm.bits (slotBaseSubblock slot.toNat + j) then
    (.ok (), ⟨clearSlot bm.bits slot.toNat⟩)
  else (.error .EINVAL, bm)

/-- `nebula_root_chunk_free_slots`. -/
def nebulaRootChunkFreeSlots (bm : NebulaRootChunkBitmap) : Nat :=
  (List.range' 1 (rootDirSlotsPerChunk - 1)).countP (slotFree bm.bits)

namespace RootChunk

variable {bits : Block} {i k slot : Nat}

theorem fin_ofNat_inj (low : i / 8 < 4096) (low' : k / 8 < 4096) :
    Fin.ofNat 4096 (k / 8) = Fin.ofNat 4096 (i / 8) ↔ k / 8 = i / 8 := by
  rw [Fin.ext_iff]
  simp only [Fin.ofNat]
  omega

theorem bitGet_bitSet (inside : i < 32768) (inside' : k < 32768) :
    bitGet (bitSet bits i) k = (decide (k = i) || bitGet bits k) := by
  simp only [bitGet, bitSet]
  by_cases byte : k / 8 = i / 8
  · rw [byte, Function.update_self, testBit_ofNat_byte _ _ (Nat.mod_lt _ (by decide)),
      Nat.testBit_or, Nat.testBit_two_pow, Bool.or_comm]
    congr 1
    rw [decide_eq_decide]
    omega
  · rw [Function.update_of_ne (by rw [ne_eq, fin_ofNat_inj (by omega) (by omega)]; exact byte),
      decide_eq_false (fun same => byte (by rw [same])), Bool.false_or]

theorem bitGet_bitClear (inside : i < 32768) (inside' : k < 32768) :
    bitGet (bitClear bits i) k = (!decide (k = i) && bitGet bits k) := by
  simp only [bitGet, bitClear]
  by_cases byte : k / 8 = i / 8
  · have ones : (255 : Nat).testBit (k % 8) = true := by
      have all := Nat.testBit_two_pow_sub_one 8 (k % 8)
      simpa [Nat.mod_lt k (show 0 < 8 by decide)] using all
    rw [byte, Function.update_self, testBit_ofNat_byte _ _ (Nat.mod_lt _ (by decide)),
      Nat.testBit_and, Nat.testBit_xor, Nat.testBit_two_pow, ones, Bool.and_comm]
    congr 1
    have same : i % 8 = k % 8 ↔ k = i := by omega
    simp [same]
  · rw [Function.update_of_ne (by rw [ne_eq, fin_ofNat_inj (by omega) (by omega)]; exact byte),
      decide_eq_false (fun same => byte (by rw [same])), Bool.not_false, Bool.true_and]

/-- Setting the bits from `base` on. -/
theorem bitGet_foldl_bitSet {base n : Nat} (inside : base + n ≤ 32768) (inside' : k < 32768) :
    bitGet ((List.range n).foldl (fun bits j => bitSet bits (base + j)) bits) k =
      (decide (base ≤ k ∧ k < base + n) || bitGet bits k) := by
  induction n with
  | zero => simp
  | succ n ih =>
      rw [List.range_succ, List.foldl_append, List.foldl_cons, List.foldl_nil,
        bitGet_bitSet (by omega) inside', ih (by omega), ← Bool.or_assoc]
      congr 1
      rw [← Bool.decide_or, decide_eq_decide]
      omega

/-- Clearing the bits from `base` on. -/
theorem bitGet_foldl_bitClear {base n : Nat} (inside : base + n ≤ 32768) (inside' : k < 32768) :
    bitGet ((List.range n).foldl (fun bits j => bitClear bits (base + j)) bits) k =
      (!decide (base ≤ k ∧ k < base + n) && bitGet bits k) := by
  induction n with
  | zero =>
      rw [decide_eq_false (by omega)]
      rfl
  | succ n ih =>
      rw [List.range_succ, List.foldl_append, List.foldl_cons, List.foldl_nil,
        bitGet_bitClear (by omega) inside', ih (by omega), ← Bool.and_assoc]
      congr 1
      rw [← Bool.not_or, ← Bool.decide_or]
      congr 1
      rw [decide_eq_decide]
      omega

theorem bitGet_setSlot (low : slot < 4096) (inside : k < 32768) :
    bitGet (setSlot bits slot) k = (decide (k / 8 = slot) || bitGet bits k) := by
  rw [setSlot, slotBaseSubblock, rootDirSlotSubblocks, bitGet_foldl_bitSet (by omega) inside]
  congr 1
  rw [decide_eq_decide]
  omega

theorem bitGet_clearSlot (low : slot < 4096) (inside : k < 32768) :
    bitGet (clearSlot bits slot) k = (!decide (k / 8 = slot) && bitGet bits k) := by
  rw [clearSlot, slotBaseSubblock, rootDirSlotSubblocks, bitGet_foldl_bitClear (by omega) inside]
  congr 2
  rw [decide_eq_decide]
  omega

end RootChunk

/-- The bits of slot 0 and of the slots of `out` are set, and no others. -/
structure NebulaRootChunkBitmap.Marks (bm : NebulaRootChunkBitmap) (out : Finset Nat) : Prop where
  bits : ∀ k < 32768, RootChunk.bitGet bm.bits k = decide (k / 8 = 0 ∨ k / 8 ∈ out)
  slots : ∀ slot ∈ out, 0 < slot ∧ slot < 4096

namespace NebulaRootChunkBitmap.Marks

variable {bm : NebulaRootChunkBitmap} {out : Finset Nat} {slot : Nat}

theorem bit (marks : bm.Marks out) (low : slot < 4096) {j : Nat} (inside : j < 8) :
    RootChunk.bitGet bm.bits (slotBaseSubblock slot + j) = decide (slot = 0 ∨ slot ∈ out) := by
  have here : (slot * 8 + j) / 8 = slot := by omega
  rw [slotBaseSubblock, rootDirSlotSubblocks, marks.bits _ (by omega), here]

theorem slotFree_eq (marks : bm.Marks out) (low : slot < 4096) :
    slotFree bm.bits slot = decide (slot ≠ 0 ∧ slot ∉ out) := by
  rw [Bool.eq_iff_iff, slotFree, List.all_eq_true, decide_eq_true_iff]
  constructor
  · intro clear
    have first := clear 0 (by simp [rootDirSlotSubblocks])
    rw [marks.bit low (by decide), Bool.not_eq_true', decide_eq_false_iff_not, not_or] at first
    exact first
  · intro free j member
    rw [marks.bit low (List.mem_range.mp member), Bool.not_eq_true', decide_eq_false_iff_not,
      not_or]
    exact free

theorem init : nebulaRootChunkBitmapInit.Marks ∅ where
  bits := by
    intro k inside
    have none : RootChunk.bitGet zeroBlock k = false := by
      simp [RootChunk.bitGet, zeroBlock]
    have set := @RootChunk.bitGet_foldl_bitSet zeroBlock k 0 8 (by decide) inside
    simp only [Nat.zero_add] at set
    rw [nebulaRootChunkBitmapInit, rootDirSlotSubblocks]
    refine set.trans ?_
    rw [none, Bool.or_false, decide_eq_decide]
    simp only [Finset.notMem_empty, or_false]
    omega
  slots := by simp

/-- An allocation takes the smallest slot that is not outstanding. -/
theorem alloc (marks : bm.Marks out) :
    (∃ slot, nebulaRootChunkAllocDir bm = (.ok slot, ⟨setSlot bm.bits slot⟩) ∧
      IsLeast {free | 0 < free ∧ free < 4096 ∧ free ∉ out} slot) ∨
    nebulaRootChunkAllocDir bm = (.error .ENOSPC, bm) ∧ ∀ slot, 0 < slot → slot < 4096 →
      slot ∈ out := by
  rw [nebulaRootChunkAllocDir]
  cases found : (List.range' 1 (rootDirSlotsPerChunk - 1)).find? (slotFree bm.bits) with
  | none =>
      refine .inr ⟨rfl, fun slot positive low => ?_⟩
      rw [List.find?_range'_eq_none] at found
      have taken := found slot positive (by simp only [rootDirSlotsPerChunk]; omega)
      rw [marks.slotFree_eq low] at taken
      by_contra free
      simp [positive.ne', free] at taken
  | some slot =>
      rw [List.find?_range'_eq_some] at found
      obtain ⟨free, member, least⟩ := found
      rw [List.mem_range'_1] at member
      simp only [rootDirSlotsPerChunk] at member
      rw [marks.slotFree_eq (by omega), decide_eq_true_iff] at free
      refine .inl ⟨slot, rfl, ⟨by omega, by omega, free.2⟩, ?_⟩
      rintro other ⟨positive, low, unused⟩
      by_contra less
      have taken := least other positive (by omega)
      rw [marks.slotFree_eq low] at taken
      simp [positive.ne', unused] at taken

theorem alloc_least (marks : bm.Marks out) (slot : Nat)
    (least : IsLeast {free | 0 < free ∧ free < 4096 ∧ free ∉ out} slot) :
    nebulaRootChunkAllocDir bm = (.ok slot, ⟨setSlot bm.bits slot⟩) := by
  rcases marks.alloc with ⟨other, done, least'⟩ | ⟨-, every⟩
  · rwa [least.unique least']
  · exact absurd (every slot least.1.1 least.1.2.1) least.1.2.2

/-- A free succeeds on the outstanding slots. -/
theorem free (marks : bm.Marks out) (slot : UInt32) :
    nebulaRootChunkFreeDir bm slot = if slot.toNat ∈ out then
      (.ok (), ⟨clearSlot bm.bits slot.toNat⟩) else (.error .EINVAL, bm) := by
  rw [nebulaRootChunkFreeDir]
  by_cases range : slot.toNat = 0 ∨ rootDirSlotsPerChunk ≤ slot.toNat
  · have outside : slot.toNat ∉ out := by
      intro member
      obtain ⟨positive, low⟩ := marks.slots _ member
      simp only [rootDirSlotsPerChunk] at range
      omega
    rw [if_pos range, if_neg outside]
  · rw [if_neg range]
    simp only [rootDirSlotsPerChunk, not_or] at range
    have all : ((List.range rootDirSlotSubblocks).all fun j =>
        RootChunk.bitGet bm.bits (slotBaseSubblock slot.toNat + j)) =
          decide (slot.toNat ∈ out) := by
      rw [Bool.eq_iff_iff, List.all_eq_true, decide_eq_true_iff]
      constructor
      · intro set
        have first := set 0 (by simp [rootDirSlotSubblocks])
        rw [marks.bit (by omega) (by decide), decide_eq_true_iff] at first
        exact first.resolve_left range.1
      · intro member j inside
        rw [marks.bit (by omega) (List.mem_range.mp inside), decide_eq_true_iff]
        exact .inr member
    rw [all]
    simp only [decide_eq_true_eq]

/-- The scan of the count sees every slot that is not outstanding. -/
theorem freeSlots (marks : bm.Marks out) : nebulaRootChunkFreeSlots bm + out.card = 4095 := by
  have inside : ∀ slot ∈ List.range' 1 (rootDirSlotsPerChunk - 1), 0 < slot ∧ slot < 4096 := by
    intro slot member
    rw [List.mem_range'_1] at member
    simp only [rootDirSlotsPerChunk] at member
    omega
  have taken : (List.range' 1 (rootDirSlotsPerChunk - 1)).countP (fun slot => slot ∈ out) =
      out.card := by
    rw [List.countP_eq_length_filter,
      ← List.toFinset_card_of_nodup ((List.nodup_range' 1 Nat.one_pos).filter _)]
    congr 1
    ext slot
    rw [List.mem_toFinset, List.mem_filter, List.mem_range'_1, decide_eq_true_iff]
    constructor
    · exact fun both => both.2
    · intro member
      have bounds := marks.slots slot member
      simp only [rootDirSlotsPerChunk]
      exact ⟨by omega, member⟩
  have open' : nebulaRootChunkFreeSlots bm =
      (List.range' 1 (rootDirSlotsPerChunk - 1)).countP fun slot => ¬ slot ∈ out := by
    rw [nebulaRootChunkFreeSlots]
    apply List.countP_congr
    intro slot member
    obtain ⟨positive, low⟩ := inside slot member
    rw [marks.slotFree_eq low]
    simp [positive.ne']
  have total := @List.length_eq_countP_add_countP _ (fun slot => decide (slot ∈ out))
    (List.range' 1 (rootDirSlotsPerChunk - 1))
  simp only [decide_eq_true_eq] at total
  rw [List.length_range', taken, ← open', rootDirSlotsPerChunk] at total
  omega

theorem allocated (marks : bm.Marks out) (positive : 0 < slot) (low : slot < 4096) :
    (⟨setSlot bm.bits slot⟩ : NebulaRootChunkBitmap).Marks (insert slot out) where
  bits := by
    intro k inside
    rw [RootChunk.bitGet_setSlot low inside, marks.bits k inside, ← Bool.decide_or,
      decide_eq_decide, Finset.mem_insert]
    tauto
  slots := by
    intro other member
    rcases Finset.mem_insert.mp member with rfl | member
    · exact ⟨positive, low⟩
    · exact marks.slots other member

theorem freed (marks : bm.Marks out) (member : slot ∈ out) :
    (⟨clearSlot bm.bits slot⟩ : NebulaRootChunkBitmap).Marks (out.erase slot) where
  bits := by
    intro k inside
    obtain ⟨positive, low⟩ := marks.slots slot member
    rw [RootChunk.bitGet_clearSlot low inside, marks.bits k inside, Bool.eq_iff_iff,
      Bool.and_eq_true,
      Bool.not_eq_true', decide_eq_false_iff_not, decide_eq_true_iff, decide_eq_true_iff,
      Finset.mem_erase]
    constructor
    · rintro ⟨other, zero | held⟩
      · exact .inl zero
      · exact .inr ⟨other, held⟩
    · rintro (zero | ⟨other, held⟩)
      · exact ⟨by omega, .inl zero⟩
      · exact ⟨other, .inr held⟩
  slots := fun other held => marks.slots other (Finset.mem_of_mem_erase held)

end NebulaRootChunkBitmap.Marks

/-- A run of calls from a fresh bitmap, with the slots that were allocated and not freed since. -/
inductive RootChunkRun : NebulaRootChunkBitmap → Finset Nat → Prop
  | init : RootChunkRun nebulaRootChunkBitmapInit ∅
  | alloc {bm bm' : NebulaRootChunkBitmap} {out : Finset Nat} {result : Except Errno Nat}
      (run : RootChunkRun bm out) (call : nebulaRootChunkAllocDir bm = (result, bm')) :
      RootChunkRun bm' (match result with
        | .ok slot => insert slot out
        | .error _ => out)
  | free {bm bm' : NebulaRootChunkBitmap} {out : Finset Nat} {slot : UInt32}
      {result : Except Errno Unit} (run : RootChunkRun bm out)
      (call : nebulaRootChunkFreeDir bm slot = (result, bm')) :
      RootChunkRun bm' (match result with
        | .ok () => out.erase slot.toNat
        | .error _ => out)

theorem RootChunkRun.marks {bm : NebulaRootChunkBitmap} {out : Finset Nat}
    (run : RootChunkRun bm out) :
    bm.Marks out := by
  induction run with
  | init => exact .init
  | alloc run call ih =>
      rcases ih.alloc with ⟨slot, done, least⟩ | ⟨full, -⟩
      · rw [done] at call
        cases call
        exact ih.allocated least.1.1 least.1.2.1
      · rw [full] at call
        cases call
        exact ih
  | @free bm bm' out slot result run call ih =>
      rw [ih.free] at call
      split_ifs at call with member
      · cases call
        exact ih.freed member
      · cases call
        exact ih

/-- In every run the bits of a slot agree, the calls do what the outstanding slots say, and the
count of free slots is that of the slots that are not outstanding. -/
theorem rootChunk_spec {bm : NebulaRootChunkBitmap} {out : Finset Nat} (run : RootChunkRun bm out) :
    (∀ slot < 4096, (∀ j < 8, RootChunk.bitGet bm.bits (slot * 8 + j) = true) ∨
      ∀ j < 8, RootChunk.bitGet bm.bits (slot * 8 + j) = false) ∧
    (∀ j < 8, RootChunk.bitGet bm.bits j = true) ∧
    (∀ slot bm', nebulaRootChunkAllocDir bm = (.ok slot, bm') →
      IsLeast {free | 0 < free ∧ free < 4096 ∧ free ∉ out} slot) ∧
    (∀ slot : UInt32, ((nebulaRootChunkFreeDir bm slot).1 = .ok () ↔
        slot.toNat ∈ out ∧ slot.toNat ≠ 0) ∧
      ((nebulaRootChunkFreeDir bm slot).1 ≠ .ok () → (nebulaRootChunkFreeDir bm slot).2 = bm)) ∧
    nebulaRootChunkFreeSlots bm = 4095 - out.card ∧ out.card ≤ 4095 ∧
    (nebulaRootChunkAllocDir bm = (.error .ENOSPC, bm) ↔ nebulaRootChunkFreeSlots bm = 0) ∧
    ∀ error bm', nebulaRootChunkAllocDir bm = (.error error, bm') → error = .ENOSPC ∧ bm' = bm := by
  have marks := run.marks
  have counted := marks.freeSlots
  refine ⟨fun slot low => ?_, fun j inside => ?_, fun slot bm' done => ?_, fun slot => ?_, by omega,
    by omega, ?_, fun error bm' failed => ?_⟩
  · by_cases held : slot = 0 ∨ slot ∈ out
    · exact .inl fun j inside => (marks.bit low inside).trans (decide_eq_true held)
    · exact .inr fun j inside => (marks.bit low inside).trans (decide_eq_false held)
  · rw [marks.bits j (by omega), decide_eq_true_iff]
    exact .inl (Nat.div_eq_of_lt inside)
  · rcases marks.alloc with ⟨slot', taken, least⟩ | ⟨full, -⟩
    · rw [taken] at done
      cases done
      exact least
    · rw [full] at done
      cases done
  · rw [marks.free]
    split_ifs with member
    · exact ⟨⟨fun _ => ⟨member, (marks.slots _ member).1.ne'⟩, fun _ => rfl⟩,
        fun wrong => absurd rfl wrong⟩
    · refine ⟨⟨fun wrong => ?_, fun both => absurd both.1 member⟩, fun _ => rfl⟩
      cases wrong
  · have most : out ⊆ Finset.Ico 1 4096 := by
      intro slot member
      exact Finset.mem_Ico.mpr (marks.slots slot member)
    have all : (Finset.Ico 1 4096).card = 4095 := Nat.card_Ico 1 4096
    rcases marks.alloc with ⟨slot, taken, ⟨positive, low, unused⟩, -⟩ | ⟨full, every⟩
    · have more := Finset.card_le_card
        (Finset.insert_subset (Finset.mem_Ico.mpr ⟨positive, low⟩) most)
      rw [Finset.card_insert_of_notMem unused, all] at more
      rw [taken]
      refine ⟨fun wrong => ?_, fun none => by omega⟩
      cases wrong
    · have fewest : Finset.Ico 1 4096 ⊆ out := by
        intro slot member
        rw [Finset.mem_Ico] at member
        exact every slot member.1 member.2
      have least := Finset.card_le_card fewest
      rw [all] at least
      exact ⟨fun _ => by omega, fun _ => full⟩
  · rcases marks.alloc with ⟨slot', taken, -⟩ | ⟨full, -⟩
    · rw [taken] at failed
      cases failed
    · rw [full] at failed
      cases failed
      exact ⟨rfl, rfl⟩

/-- A run in which slots 1 and 2 are taken, slot 1 is freed and taken again, and a free of slot 3 is
refused. -/
theorem rootChunk_spec_first : ∃ bm₁ bm₂ bm₃ bm₄ : NebulaRootChunkBitmap,
    nebulaRootChunkAllocDir nebulaRootChunkBitmapInit = (.ok 1, bm₁) ∧
    nebulaRootChunkAllocDir bm₁ = (.ok 2, bm₂) ∧
    nebulaRootChunkFreeDir bm₂ 1 = (.ok (), bm₃) ∧
    nebulaRootChunkFreeDir bm₃ 3 = (.error .EINVAL, bm₃) ∧
    nebulaRootChunkAllocDir bm₃ = (.ok 1, bm₄) ∧
    nebulaRootChunkFreeSlots bm₃ = 4094 ∧ nebulaRootChunkFreeSlots bm₄ = 4093 := by
  have one : (1 : UInt32).toNat = 1 := rfl
  have three : (3 : UInt32).toNat = 3 := rfl
  have marks := NebulaRootChunkBitmap.Marks.init
  have first := marks.alloc_least 1 ⟨by simp, fun free low => low.1⟩
  have marks₁ := marks.allocated (show 0 < 1 by decide) (by decide)
  have second := marks₁.alloc_least 2 ⟨by simp, fun free low => by
    have other : free ≠ 1 := by simpa using low.2.2
    have positive := low.1
    omega⟩
  have marks₂ := marks₁.allocated (show 0 < 2 by decide) (by decide)
  have third := marks₂.free 1
  rw [one, if_pos (by decide)] at third
  have marks₃ := marks₂.freed (show 1 ∈ insert 2 (insert 1 ∅) by decide)
  have refused := marks₃.free 3
  rw [three, if_neg (by decide)] at refused
  have again := marks₃.alloc_least 1 ⟨by decide, fun free low => low.1⟩
  have run := ((RootChunkRun.init.alloc first).alloc second).free third
  exact ⟨_, _, _, _, first, second, third, refused, again, (rootChunk_spec run).2.2.2.2.1,
    (rootChunk_spec ((run.free refused).alloc again)).2.2.2.2.1⟩

end MiniFs
