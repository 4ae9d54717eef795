import Mathlib.Data.UInt
import Mathlib.Data.List.Perm.Basic
import Mathlib.Tactic.Linarith
import Mathlib.Tactic.Ring
import Mathlib.Tactic.IntervalCases
import MiniFs.Lib.Chain

/-!
# The pool of DMA buffers

The pool carves one slab into slots of equal size and threads the free ones through their first
words.  The slot size is the requested one rounded up to a page, and both the rounding and the
product with the number of slots are taken in `size_t`.  As long as neither wraps, every order of
borrowing and returning keeps the free slots and the borrowed ones a partition of the slab.
-/

namespace MiniFs

open MiniFs.Lib (Chain)

/-- The words of the address space, by the address they start at; pool accesses are at multiples of
eight. -/
abbrev Words := UInt64 → UInt64

/-- `struct nebula_dma_pool`. -/
structure NebulaDmaPool where
  dmaBase : UInt64
  freeHead : UInt64
  nBufs : UInt32
  bufSize : UInt64
  available : UInt32

/-- `align_up`. -/
def alignUp (sz align : UInt64) : UInt64 := (sz + align - 1) &&& ~~~(align - 1)

/-- `sizeof(struct free_node)`. -/
def freeNodeSize : UInt64 := 8

/-- The size of a slot: `aligned` of `nebula_dma_pool_create`. -/
def slotSize (bufSize : UInt64) : UInt64 :=
  if alignUp bufSize 4096 < freeNodeSize then freeNodeSize else alignUp bufSize 4096

/-- The size of the slab: `total` of `nebula_dma_pool_create`. -/
def slabSize (nBufs : UInt32) (bufSize : UInt64) : UInt64 := nBufs.toUInt64 * slotSize bufSize

/-- The loop that builds the free list. -/
def buildFreeList (aligned : UInt64) : Nat → UInt64 → UInt64 × Words → UInt64 × Words
  | 0, _, list => list
  | count + 1, ptr, (freeHead, words) =>
      buildFreeList aligned count (ptr + aligned) (ptr, Function.update words ptr freeHead)

/-- `nebula_dma_pool_create`, with `nebula_spdk_dma_alloc` and the outcome of `calloc` given. -/
def nebulaDmaPoolCreate (dmaAlloc : UInt64 → UInt64 → UInt64) (callocOk : Bool) (words : Words)
    (nBufs : UInt32) (bufSize : UInt64) : Option (NebulaDmaPool × Words) :=
  if nBufs = 0 ∨ bufSize = 0 then none
  else
    let base := dmaAlloc (slabSize nBufs bufSize) 4096
    if base = 0 then none
    else if callocOk = false then none
    else
      let list := buildFreeList (slotSize bufSize) nBufs.toNat base (0, words)
      some (⟨base, list.1, nBufs, slotSize bufSize, nBufs⟩, list.2)

/-- `memset` to zero. -/
def zeroWords (words : Words) (start size : UInt64) : Words := fun address =>
  if start.toNat ≤ address.toNat ∧ address.toNat < start.toNat + size.toNat then 0
    else words address

/-- `nebula_dma_pool_get`; the empty list makes the source spin for ever. -/
def nebulaDmaPoolGet (pool : NebulaDmaPool) (words : Words) :
    Option (UInt64 × NebulaDmaPool × Words) :=
  if pool.freeHead = 0 then none
  else
    let node := pool.freeHead
    some (node, { pool with freeHead := words node, available := pool.available - 1 },
      zeroWords words node pool.bufSize)

/-- `nebula_dma_pool_put`. -/
def nebulaDmaPoolPut (pool : NebulaDmaPool) (words : Words) (buf : UInt64) :
    NebulaDmaPool × Words :=
  if buf = 0 then (pool, words)
  else ({ pool with freeHead := buf, available := pool.available + 1 },
    Function.update words buf pool.freeHead)

theorem toNat_and_not_page (sz : UInt64) : (sz &&& ~~~4095).toNat = sz.toNat / 4096 * 4096 := by
  have mask (i : Nat) (small : i < 64) :
      Nat.testBit (~~~(4095 : UInt64)).toNat i = decide (12 ≤ i) := by
    interval_cases i <;> decide
  apply Nat.eq_of_testBit_eq
  intro i
  rw [UInt64.toNat_and, Nat.testBit_and, show 4096 = 2 ^ 12 from rfl, Nat.testBit_mul_two_pow,
    Nat.testBit_div_two_pow]
  by_cases small : i < 64
  · rw [mask i small, Bool.and_comm]
    by_cases high : 12 ≤ i
    · simp [high]
    · simp [high]
  · have beyond : sz.toNat < 2 ^ i :=
      lt_of_lt_of_le sz.toNat_lt (Nat.pow_le_pow_right (by decide) (by omega))
    rw [Nat.testBit_lt_two_pow beyond, Bool.false_and, show i - 12 + 12 = i by omega,
      Nat.testBit_lt_two_pow beyond, Bool.and_false]

theorem toNat_alignUp (sz : UInt64) :
    (alignUp sz 4096).toNat = (sz.toNat + 4095) % 2 ^ 64 / 4096 * 4096 := by
  have sum : sz + 4096 - 1 = sz + 4095 := by
    rw [sub_eq_add_neg, add_assoc]
    rfl
  have low : (4096 : UInt64) - 1 = 4095 := by decide
  rw [alignUp, sum, low, toNat_and_not_page, UInt64.toNat_add]
  rfl

/-- The rounding of a size that does not wrap. -/
def pageUp (size : Nat) : Nat := (size + 4095) / 4096 * 4096

theorem toNat_slotSize {bufSize : UInt64} (positive : bufSize ≠ 0)
    (fits : bufSize.toNat + 4095 < 2 ^ 64) : (slotSize bufSize).toNat = pageUp bufSize.toNat := by
  have rounded : (alignUp bufSize 4096).toNat = pageUp bufSize.toNat := by
    rw [toNat_alignUp, Nat.mod_eq_of_lt fits, pageUp]
  have nonzero : bufSize.toNat ≠ 0 := fun zero => positive (UInt64.toNat_inj.mp zero)
  have large : ¬ alignUp bufSize 4096 < freeNodeSize := by
    rw [UInt64.lt_iff_toNat_lt, rounded, pageUp, show freeNodeSize.toNat = 8 from rfl]
    omega
  rw [slotSize, if_neg large, rounded]

theorem toNat_slotSize_wrapped {bufSize : UInt64} (wraps : 2 ^ 64 ≤ bufSize.toNat + 4095) :
    (slotSize bufSize).toNat = 8 := by
  have rounded : (alignUp bufSize 4096).toNat = 0 := by
    have bound := bufSize.toNat_lt
    rw [toNat_alignUp]
    omega
  have small : alignUp bufSize 4096 < freeNodeSize := by
    rw [UInt64.lt_iff_toNat_lt, rounded]
    decide
  rw [slotSize, if_pos small]
  rfl

theorem toNat_slabSize (nBufs : UInt32) (bufSize : UInt64) :
    (slabSize nBufs bufSize).toNat = nBufs.toNat * (slotSize bufSize).toNat % 2 ^ 64 := by
  rw [slabSize, UInt64.toNat_mul, UInt32.toNat_toUInt64]

/-- A pool in use, with the buffers handed out and not returned. -/
structure PoolRun where
  pool : NebulaDmaPool
  words : Words
  borrowed : List UInt64

/-- The words from `start` on that a range of `size` bytes covers. -/
def Covers (start size address : UInt64) : Prop :=
  start.toNat ≤ address.toNat ∧ address.toNat < start.toNat + size.toNat

/-- One use of a pool whose slab has `total` bytes: a `get` while a buffer is available, a `put` of
a borrowed buffer, or a store by somebody else into a borrowed buffer or off the slab. -/
inductive PoolStep (total : UInt64) : PoolRun → PoolRun → Prop
  | get {run : PoolRun} {buf : UInt64} {pool : NebulaDmaPool} {words : Words}
      (left : 0 < run.pool.available.toNat)
      (taken : nebulaDmaPoolGet run.pool run.words = some (buf, pool, words)) :
      PoolStep total run ⟨pool, words, buf :: run.borrowed⟩
  | put {run : PoolRun} {buf : UInt64} (borrowed : buf ∈ run.borrowed) :
      PoolStep total run ⟨(nebulaDmaPoolPut run.pool run.words buf).1,
        (nebulaDmaPoolPut run.pool run.words buf).2, run.borrowed.erase buf⟩
  | store {run : PoolRun} {address value : UInt64}
      (allowed : (∃ buf ∈ run.borrowed, Covers buf run.pool.bufSize address) ∨
        ¬ Covers run.pool.dmaBase total address) :
      PoolStep total run { run with words := Function.update run.words address value }

/-- The runs that start from a created pool. -/
inductive PoolReaches (total : UInt64) (start : PoolRun) : PoolRun → Prop
  | start : PoolReaches total start start
  | step {run run' : PoolRun} (reached : PoolReaches total start run)
      (next : PoolStep total run run') : PoolReaches total start run'

/-- The addresses of the slots. -/
def NebulaDmaPool.slots (pool : NebulaDmaPool) : List Nat :=
  (List.range pool.nBufs.toNat).map fun i => pool.dmaBase.toNat + i * pool.bufSize.toNat

/-- What users of a pool of buffers of `requested` bytes count on. -/
structure PoolOk (requested total : UInt64) (run : PoolRun) : Prop where
  aligned : ∀ buf ∈ run.borrowed, 4096 ∣ buf.toNat
  large : run.borrowed = [] ∨ requested.toNat ≤ run.pool.bufSize.toNat
  apart : run.borrowed.Pairwise fun buf buf' =>
    buf.toNat + run.pool.bufSize.toNat ≤ buf'.toNat ∨ buf'.toNat + run.pool.bufSize.toNat ≤
      buf.toNat
  inside : ∀ buf ∈ run.borrowed, run.pool.dmaBase.toNat ≤ buf.toNat ∧
    buf.toNat + run.pool.bufSize.toNat ≤ run.pool.dmaBase.toNat + total.toNat
  partition : ∃ free, Chain 0 run.words run.pool.freeHead free ∧
    ((free ++ run.borrowed).map UInt64.toNat).Perm run.pool.slots
  counted : run.pool.available.toNat = run.pool.nBufs.toNat - run.borrowed.length

/-- A slab whose slots are where the arithmetic on sizes says. -/
structure SlabOk (requested total : UInt64) (pool : NebulaDmaPool) : Prop where
  proper : 0 < pool.dmaBase.toNat
  baseAligned : 4096 ∣ pool.dmaBase.toNat
  slotAligned : 4096 ∣ pool.bufSize.toNat
  slotPositive : 0 < pool.bufSize.toNat
  exact : total.toNat = pool.nBufs.toNat * pool.bufSize.toNat
  top : pool.dmaBase.toNat + total.toNat ≤ 2 ^ 64
  large : requested.toNat ≤ pool.bufSize.toNat

/-- The invariant of the runs. -/
structure PoolInv (requested total : UInt64) (run : PoolRun) : Prop where
  slab : SlabOk requested total run.pool
  partition : ∃ free, Chain 0 run.words run.pool.freeHead free ∧
    ((free ++ run.borrowed).map UInt64.toNat).Perm run.pool.slots
  counted : run.pool.available.toNat = run.pool.nBufs.toNat - run.borrowed.length

/-- Slots at `start` and `start'` of `size` bytes do not meet. -/
def SlotsApart (size start start' : Nat) : Prop := start + size ≤ start' ∨ start' + size ≤ start

theorem SlotsApart.symm {size start start' : Nat} (apart : SlotsApart size start start') :
    SlotsApart size start' start := Or.symm apart

theorem NebulaDmaPool.slots_apart (pool : NebulaDmaPool) :
    pool.slots.Pairwise (SlotsApart pool.bufSize.toNat) := by
  rw [NebulaDmaPool.slots, List.pairwise_map]
  refine List.pairwise_lt_range.imp fun {i j} before => Or.inl ?_
  calc
    pool.dmaBase.toNat + i * pool.bufSize.toNat + pool.bufSize.toNat =
        pool.dmaBase.toNat + (i + 1) * pool.bufSize.toNat := by ring
    _ ≤ pool.dmaBase.toNat + j * pool.bufSize.toNat :=
        Nat.add_le_add_left (Nat.mul_le_mul_right _ before) _

section Partition

variable {requested total : UInt64} {run run' : PoolRun} {free : List UInt64} {buf : UInt64}

theorem SlabOk.slot {pool : NebulaDmaPool} (slab : SlabOk requested total pool) {start : Nat}
    (slot : start ∈ pool.slots) : 4096 ∣ start ∧ pool.dmaBase.toNat ≤ start ∧
      start + pool.bufSize.toNat ≤ pool.dmaBase.toNat + total.toNat := by
  rw [NebulaDmaPool.slots, List.mem_map] at slot
  obtain ⟨i, listed, rfl⟩ := slot
  have last : (i + 1) * pool.bufSize.toNat ≤ pool.nBufs.toNat * pool.bufSize.toNat :=
    Nat.mul_le_mul_right _ (List.mem_range.mp listed)
  refine ⟨Nat.dvd_add slab.baseAligned (Dvd.dvd.mul_left slab.slotAligned i), by omega, ?_⟩
  rw [slab.exact]
  linarith [last]

/-- The members of a partition of the slab do not meet. -/
theorem partition_apart
    (partition : ((free ++ run.borrowed).map UInt64.toNat).Perm run.pool.slots) :
    (free ++ run.borrowed).Pairwise fun buf buf' =>
      SlotsApart run.pool.bufSize.toNat buf.toNat buf'.toNat := by
  have spread := (partition.pairwise_iff fun apart => apart.symm).mpr run.pool.slots_apart
  rwa [List.pairwise_map] at spread

theorem partition_mem (partition : ((free ++ run.borrowed).map UInt64.toNat).Perm run.pool.slots)
    (listed : buf ∈ free ++ run.borrowed) : buf.toNat ∈ run.pool.slots :=
  partition.mem_iff.mp (List.mem_map_of_mem listed)

theorem partition_length
    (partition : ((free ++ run.borrowed).map UInt64.toNat).Perm run.pool.slots) :
    free.length + run.borrowed.length = run.pool.nBufs.toNat := by
  have lengths := partition.length_eq
  rwa [List.length_map, List.length_append, NebulaDmaPool.slots, List.length_map,
    List.length_range] at lengths

theorem PoolInv.ok (inv : PoolInv requested total run) : PoolOk requested total run := by
  obtain ⟨free, chain, partition⟩ := inv.partition
  have slot {buf : UInt64} (borrowed : buf ∈ run.borrowed) :=
    inv.slab.slot (partition_mem partition (List.mem_append_right _ borrowed))
  exact ⟨fun buf borrowed => (slot borrowed).1, Or.inr inv.slab.large,
    (List.pairwise_append.mp (partition_apart partition)).2.1, fun buf borrowed =>
      (slot borrowed).2,
    inv.partition, inv.counted⟩

theorem PoolInv.get (inv : PoolInv requested total run) {pool : NebulaDmaPool} {words : Words}
    (left : 0 < run.pool.available.toNat)
    (taken : nebulaDmaPoolGet run.pool run.words = some (buf, pool, words)) :
    PoolInv requested total ⟨pool, words, buf :: run.borrowed⟩ := by
  obtain ⟨free, chain, partition⟩ := inv.partition
  rw [nebulaDmaPoolGet] at taken
  split at taken
  · cases taken
  next proper =>
    obtain ⟨rfl, rfl, rfl⟩ : run.pool.freeHead = buf ∧ _ = pool ∧ _ = words := by
      simpa only [Option.some.injEq, Prod.mk.injEq] using taken
    obtain ⟨rest, rfl, linked⟩ := chain.pop proper
    have spread := (List.pairwise_cons.mp (partition_apart partition)).1
    refine ⟨⟨inv.slab.1, inv.slab.2, inv.slab.3, inv.slab.4, inv.slab.5, inv.slab.6, inv.slab.7⟩,
      ⟨rest, ?_, ?_⟩, ?_⟩
    · refine linked.congr fun member listed => if_neg ?_
      have apart := spread member (List.mem_append_left _ listed)
      have positive := inv.slab.slotPositive
      rw [SlotsApart] at apart
      omega
    · exact (List.perm_middle.map _).trans partition
    · have one : (1 : UInt32) ≤ run.pool.available := by
        rw [UInt32.le_iff_toNat_le]
        exact left
      have counted := inv.counted
      rw [UInt32.toNat_sub_of_le _ _ one, List.length_cons, counted]
      rfl

theorem PoolInv.put (inv : PoolInv requested total run) (borrowed : buf ∈ run.borrowed) :
    PoolInv requested total ⟨(nebulaDmaPoolPut run.pool run.words buf).1,
      (nebulaDmaPoolPut run.pool run.words buf).2, run.borrowed.erase buf⟩ := by
  obtain ⟨free, chain, partition⟩ := inv.partition
  have slot := inv.slab.slot (partition_mem partition (List.mem_append_right _ borrowed))
  have proper : buf ≠ 0 := by
    rintro rfl
    have positive := inv.slab.proper
    have zero : (0 : UInt64).toNat = 0 := rfl
    omega
  have fresh : buf ∉ free := by
    intro listed
    have apart := (List.pairwise_append.mp (partition_apart partition)).2.2 buf listed buf borrowed
    have positive := inv.slab.slotPositive
    rw [SlotsApart] at apart
    omega
  have lengths := partition_length partition
  have some := List.length_pos_of_mem borrowed
  have bound := run.pool.nBufs.toNat_lt
  rw [nebulaDmaPoolPut, if_neg proper]
  refine ⟨⟨inv.slab.1, inv.slab.2, inv.slab.3, inv.slab.4, inv.slab.5, inv.slab.6, inv.slab.7⟩,
    ⟨buf :: free, chain.push proper fresh, ?_⟩, ?_⟩
  · refine List.Perm.trans (List.Perm.map _ ?_) partition
    rw [List.cons_append]
    exact List.perm_middle.symm.trans ((List.perm_cons_erase borrowed).symm.append_left free)
  · have counted := inv.counted
    rw [UInt32.toNat_add, counted, List.length_erase_of_mem borrowed,
      show (1 : UInt32).toNat = 1 from rfl]
    show _ = run.pool.nBufs.toNat - (run.borrowed.length - 1)
    omega

theorem PoolInv.store (inv : PoolInv requested total run) {address value : UInt64}
    (allowed : (∃ buf ∈ run.borrowed, Covers buf run.pool.bufSize address) ∨
      ¬ Covers run.pool.dmaBase total address) :
    PoolInv requested total { run with words := Function.update run.words address value } := by
  obtain ⟨free, chain, partition⟩ := inv.partition
  have positive := inv.slab.slotPositive
  refine ⟨inv.slab,
    ⟨free, chain.congr fun member listed => Function.update_of_ne ?_ _ _, partition⟩, inv.counted⟩
  rintro rfl
  rcases allowed with ⟨buf, borrowed, covered⟩ | off
  · have apart :=
      (List.pairwise_append.mp (partition_apart partition)).2.2 member listed buf borrowed
    rw [SlotsApart] at apart
    rw [Covers] at covered
    omega
  · have slot := inv.slab.slot (partition_mem partition (List.mem_append_left _ listed))
    exact off ⟨slot.2.1, by omega⟩

theorem PoolInv.step (inv : PoolInv requested total run) (next : PoolStep total run run') :
    PoolInv requested total run' := by
  cases next with
  | get left taken => exact inv.get left taken
  | put borrowed => exact inv.put borrowed
  | store allowed => exact inv.store allowed

theorem PoolInv.reaches (inv : PoolInv requested total run) (reached : PoolReaches total run run') :
    PoolInv requested total run' := by
  induction reached with
  | start => exact inv
  | step reached next ih => exact ih.step next

end Partition

/-- What `nebula_spdk_dma_alloc` is for: a null pointer, or an aligned region of the
size asked for. -/
def DmaAllocates (dmaAlloc : UInt64 → UInt64 → UInt64) : Prop :=
  ∀ total, dmaAlloc total 4096 = 0 ∨
    4096 ∣ (dmaAlloc total 4096).toNat ∧ (dmaAlloc total 4096).toNat + total.toNat ≤ 2 ^ 64

theorem buildFreeList_chain {aligned ptr freeHead : UInt64} {words : Words} {count : Nat}
    {free : List UInt64} (chain : Chain 0 words freeHead free) (proper : 0 < ptr.toNat)
    (positive : 0 < aligned.toNat) (top : ptr.toNat + count * aligned.toNat ≤ 2 ^ 64)
    (below : ∀ member ∈ free, member.toNat < ptr.toNat) :
    ∃ free', Chain 0 (buildFreeList aligned count ptr (freeHead, words)).2
        (buildFreeList aligned count ptr (freeHead, words)).1 free' ∧
      (free'.map UInt64.toNat).Perm (free.map UInt64.toNat ++
        (List.range count).map fun i => ptr.toNat + i * aligned.toNat) := by
  induction count generalizing ptr freeHead words free with
  | zero => exact ⟨free, chain, by rw [List.range_zero, List.map_nil, List.append_nil]⟩
  | succ count ih =>
      have fresh : ptr ∉ free := fun listed => lt_irrefl _ (below ptr listed)
      have nonzero : ptr ≠ 0 := by
        rintro rfl
        exact lt_irrefl _ proper
      have pushed := chain.push nonzero fresh
      rw [buildFreeList]
      rw [Nat.succ_mul] at top
      rcases Nat.eq_zero_or_pos count with rfl | more
      · refine ⟨ptr :: free, pushed, ?_⟩
        simpa using (List.perm_append_singleton ptr.toNat (free.map UInt64.toNat)).symm
      have room : aligned.toNat ≤ count * aligned.toNat := Nat.le_mul_of_pos_left _ more
      have moved : (ptr + aligned).toNat = ptr.toNat + aligned.toNat := by
        rw [UInt64.toNat_add, Nat.mod_eq_of_lt (by omega)]
      obtain ⟨free', chain', perm⟩ := @ih (ptr + aligned) _ _ _ pushed (by omega) (by omega) (by
        intro member listed
        rcases List.mem_cons.mp listed with rfl | listed
        · omega
        · have := below member listed
          omega)
      refine ⟨free', chain', perm.trans ?_⟩
      rw [List.range_succ_eq_map, List.map_cons, List.map_cons, List.map_map, Nat.zero_mul,
        Nat.add_zero, List.cons_append]
      have shifted : ((fun i => ptr.toNat + i * aligned.toNat) ∘ Nat.succ) =
          fun i => (ptr + aligned).toNat + i * aligned.toNat := by
        funext i
        rw [Function.comp_apply, moved, Nat.succ_mul]
        omega
      rw [shifted]
      exact List.perm_middle.symm

section Create

variable {dmaAlloc : UInt64 → UInt64 → UInt64} {callocOk : Bool} {words words' : Words}
  {nBufs : UInt32} {bufSize : UInt64} {pool : NebulaDmaPool}

theorem create_cases
    (created : nebulaDmaPoolCreate dmaAlloc callocOk words nBufs bufSize = some (pool, words')) :
    nBufs ≠ 0 ∧ bufSize ≠ 0 ∧ pool.dmaBase = dmaAlloc (slabSize nBufs bufSize) 4096 ∧
      pool.dmaBase ≠ 0 ∧ pool.nBufs = nBufs ∧ pool.bufSize = slotSize bufSize ∧
      pool.available = nBufs ∧ (pool.freeHead, words') =
        buildFreeList (slotSize bufSize) nBufs.toNat pool.dmaBase (0, words) := by
  simp only [nebulaDmaPoolCreate] at created
  split at created
  · cases created
  next given =>
    split at created
    · cases created
    next based =>
      split at created
      · cases created
      obtain ⟨rfl, rfl⟩ := Prod.mk.inj (Option.some.inj created)
      exact ⟨fun zero => given (Or.inl zero), fun zero => given (Or.inr zero), rfl, based, rfl, rfl,
        rfl, rfl⟩

theorem create_inv (region : DmaAllocates dmaAlloc)
    (created : nebulaDmaPoolCreate dmaAlloc callocOk words nBufs bufSize = some (pool, words'))
    (fits : bufSize.toNat + 4095 < 2 ^ 64) (product : nBufs.toNat * pageUp bufSize.toNat < 2 ^ 64) :
    PoolInv bufSize (slabSize nBufs bufSize) ⟨pool, words', []⟩ := by
  obtain ⟨-, positive, base, proper, count, slot, available, list⟩ := create_cases created
  have size : pool.bufSize.toNat = pageUp bufSize.toNat := by
    rw [slot, toNat_slotSize positive fits]
  have total : (slabSize nBufs bufSize).toNat = nBufs.toNat * pageUp bufSize.toNat := by
    rw [toNat_slabSize, toNat_slotSize positive fits, Nat.mod_eq_of_lt product]
  have nonzero : bufSize.toNat ≠ 0 := fun zero => positive (UInt64.toNat_inj.mp zero)
  have baseNonzero : pool.dmaBase.toNat ≠ 0 := fun zero => proper (UInt64.toNat_inj.mp zero)
  obtain ⟨aligned, top⟩ := (region (slabSize nBufs bufSize)).resolve_left (base ▸ proper)
  rw [← base] at aligned top
  have slab : SlabOk bufSize (slabSize nBufs bufSize) pool := by
    refine ⟨by omega, aligned, ?_, ?_, by rw [total, count, size], top, ?_⟩
    · rw [size, pageUp]
      exact Nat.dvd_mul_left _ _
    · rw [size, pageUp]
      omega
    · rw [size, pageUp]
      omega
  obtain ⟨free, chain, perm⟩ := @buildFreeList_chain (slotSize bufSize) pool.dmaBase 0 words
    nBufs.toNat [] rfl slab.proper (slot ▸ slab.slotPositive)
    (by rw [← slot, size, ← total]; exact top) (fun member listed => by cases listed)
  rw [← list] at chain
  refine ⟨slab, ⟨free, chain, ?_⟩, ?_⟩
  · rw [List.append_nil, NebulaDmaPool.slots, count, slot]
    simpa using perm
  · show pool.available.toNat = pool.nBufs.toNat - 0
    rw [available, count, Nat.sub_zero]

/-- A sound pool hands out another buffer as long as one is left. -/
theorem PoolOk.borrow {requested total : UInt64} {run : PoolRun} (ok : PoolOk requested total run)
    (left : run.borrowed.length < run.pool.nBufs.toNat) :
    ∃ run', PoolStep total run run' ∧ run'.borrowed.length = run.borrowed.length + 1 ∧
      run'.pool.dmaBase = run.pool.dmaBase ∧ run'.pool.nBufs = run.pool.nBufs ∧
      run'.pool.bufSize = run.pool.bufSize := by
  obtain ⟨free, chain, partition⟩ := ok.partition
  have lengths := partition_length partition
  have nonempty : free ≠ [] := by
    rintro rfl
    rw [List.length_nil] at lengths
    omega
  have counted := ok.counted
  have taken : nebulaDmaPoolGet run.pool run.words = some (run.pool.freeHead,
      { run.pool with
        freeHead := run.words run.pool.freeHead, available := run.pool.available - 1 },
      zeroWords run.words run.pool.freeHead run.pool.bufSize) := by
    rw [nebulaDmaPoolGet, if_neg (chain.head_ne nonempty)]
  exact ⟨_, PoolStep.get (by omega) taken, rfl, rfl, rfl, rfl⟩

theorem borrow_all {requested total : UInt64} {start : PoolRun} (fresh : start.borrowed = [])
    (ok : ∀ run, PoolReaches total start run → PoolOk requested total run) {count : Nat}
    (few : count ≤ start.pool.nBufs.toNat) :
    ∃ run, PoolReaches total start run ∧ run.borrowed.length = count ∧
      run.pool.dmaBase = start.pool.dmaBase ∧ run.pool.nBufs = start.pool.nBufs ∧
      run.pool.bufSize = start.pool.bufSize := by
  induction count with
  | zero => exact ⟨start, PoolReaches.start, by rw [fresh, List.length_nil], rfl, rfl, rfl⟩
  | succ count ih =>
      obtain ⟨run, reached, length, base, number, size⟩ := ih (by omega)
      obtain ⟨run', next, length', base', number', size'⟩ :=
        (ok run reached).borrow (by rw [number]; omega)
      exact ⟨run', reached.step next, by rw [length', length], base'.trans base,
        number'.trans number, size'.trans size⟩

/-- A pool that stays sound in every run has room for all its slots. -/
theorem slots_fit {requested total : UInt64} {start : PoolRun} (fresh : start.borrowed = [])
    (ok : ∀ run, PoolReaches total start run → PoolOk requested total run)
    (positive : 0 < start.pool.nBufs.toNat) :
    requested.toNat ≤ start.pool.bufSize.toNat ∧
      start.pool.nBufs.toNat * start.pool.bufSize.toNat ≤ total.toNat := by
  obtain ⟨run, reached, length, base, number, size⟩ := borrow_all fresh ok le_rfl
  have sound := ok run reached
  obtain ⟨free, chain, partition⟩ := sound.partition
  have lengths := partition_length partition
  have none : free = [] := List.eq_nil_of_length_eq_zero (by rw [number] at lengths; omega)
  refine ⟨?_, ?_⟩
  · rw [← size]
    refine sound.large.resolve_left fun empty => ?_
    rw [empty, List.length_nil] at length
    omega
  have last : run.pool.dmaBase.toNat + (run.pool.nBufs.toNat - 1) * run.pool.bufSize.toNat ∈
      run.pool.slots := by
    rw [NebulaDmaPool.slots, List.mem_map]
    exact ⟨run.pool.nBufs.toNat - 1, List.mem_range.mpr (by rw [number]; omega), rfl⟩
  rw [← partition.mem_iff, none, List.nil_append, List.mem_map] at last
  obtain ⟨buf, borrowed, address⟩ := last
  have inside := (sound.inside buf borrowed).2
  rw [address] at inside
  rw [← number, ← size]
  have whole : run.pool.nBufs.toNat * run.pool.bufSize.toNat =
      (run.pool.nBufs.toNat - 1) * run.pool.bufSize.toNat + run.pool.bufSize.toNat := by
    rw [← Nat.succ_mul, Nat.succ_eq_add_one, Nat.sub_add_cancel (by rw [number]; exact positive)]
  omega

/-- A created pool keeps its buffers disjoint, inside the slab, large enough and accounted for in
every run exactly when neither the rounded size nor its product with the number of buffers wraps. -/
theorem dmaPool_ok_iff (region : DmaAllocates dmaAlloc)
    (created : nebulaDmaPoolCreate dmaAlloc callocOk words nBufs bufSize = some (pool, words')) :
    (∀ run, PoolReaches (slabSize nBufs bufSize) ⟨pool, words', []⟩ run →
        PoolOk bufSize (slabSize nBufs bufSize) run) ↔
      bufSize.toNat + 4095 < 2 ^ 64 ∧ nBufs.toNat * pageUp bufSize.toNat < 2 ^ 64 := by
  refine ⟨fun ok => ?_, fun ⟨fits, product⟩ run reached =>
    ((create_inv region created fits product).reaches reached).ok⟩
  obtain ⟨counted, positive, -, -, count, slot, -, -⟩ := create_cases created
  have some : 0 < nBufs.toNat := Nat.pos_of_ne_zero fun zero => counted (UInt32.toNat_inj.mp zero)
  obtain ⟨large, inside⟩ := slots_fit rfl ok (by rw [count]; exact some)
  have fits : bufSize.toNat + 4095 < 2 ^ 64 := by
    by_contra wraps
    rw [slot, toNat_slotSize_wrapped (not_lt.mp wraps)] at large
    omega
  refine ⟨fits, ?_⟩
  rw [count, slot, toNat_slotSize positive fits] at inside
  exact lt_of_le_of_lt inside (slabSize nBufs bufSize).toNat_lt

end Create

/-- An allocator with one free megabyte. -/
def megabyteAlloc (total _ : UInt64) : UInt64 := if total.toNat ≤ 1048576 then 4096 else 0

theorem megabyteAlloc_allocates : DmaAllocates megabyteAlloc := by
  intro total
  rw [megabyteAlloc]
  split
  next small => exact Or.inr ⟨by decide, by rw [show (4096 : UInt64).toNat = 4096 from rfl]; omega⟩
  · exact Or.inl rfl

theorem dmaPool_ok_two : ∃ pool words,
    nebulaDmaPoolCreate megabyteAlloc true (fun _ => 0) 2 5000 = some (pool, words) ∧
      ((∀ run, PoolReaches (slabSize 2 5000) ⟨pool, words, []⟩ run →
          PoolOk 5000 (slabSize 2 5000) run) ↔
        (5000 : UInt64).toNat + 4095 < 2 ^ 64 ∧
          (2 : UInt32).toNat * pageUp (5000 : UInt64).toNat < 2 ^ 64) :=
  ⟨_, _, rfl, @dmaPool_ok_iff megabyteAlloc true (fun _ => 0) _ 2 5000 _ megabyteAlloc_allocates
    rfl⟩

/-- One buffer of `SIZE_MAX` bytes: the rounded size wraps to zero, the slab has eight bytes, and
the buffer handed out is that short. -/
theorem dmaPool_wraps : ∃ pool words,
    nebulaDmaPoolCreate megabyteAlloc true (fun _ => 0) 1 0xFFFFFFFFFFFFFFFF = some (pool, words) ∧
      ¬ ∀ run, PoolReaches (slabSize 1 0xFFFFFFFFFFFFFFFF) ⟨pool, words, []⟩ run →
        PoolOk 0xFFFFFFFFFFFFFFFF (slabSize 1 0xFFFFFFFFFFFFFFFF) run := by
  refine ⟨_, _, rfl, fun ok => ?_⟩
  have large := (slots_fit rfl ok (by decide)).1
  exact absurd large (by decide)

end MiniFs
