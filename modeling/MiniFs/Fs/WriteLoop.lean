import MiniFs.Fs.Extents
import MiniFs.Fs.Solid

/-!
# The write loop

A write without faults, round by round: which extents it adds, which device blocks it changes, and
where it stops.  `planMap` and `writePlan` say from the state before a write how far it gets.
-/

namespace MiniFs

open Fs

/-- The extent a round needs: whether there is one, or room for one. -/
def planMap (capacity : Nat) (used : Nat → Bool) (inode : NebulaInode) (blk need : Nat) :
    Option ((Nat → Bool) × NebulaInode) :=
  match extentFind inode blk with
  | some _ => some (used, inode)
  | none =>
      match firstRun used need capacity with
      | none => none
      | some lba => (extentAppend inode blk need lba).map fun after =>
          (fun block => decide (lba ≤ block ∧ block < lba + need) || used block, after)

/-- How far a write gets, of `left` bytes at `curOff`, and the inode with its extents. -/
def writePlan (capacity : Nat) : Nat → (Nat → Bool) → NebulaInode → Nat → Nat → Nat × NebulaInode
  | 0, _, inode, _, _ => (0, inode)
  | fuel + 1, used, inode, curOff, left =>
      if left = 0 then (0, inode)
      else
        match planMap capacity used inode (curOff / 4096) (needBlks left (curOff % 4096)) with
        | none => (0, inode)
        | some (used, inode) =>
            match writePlan capacity fuel used inode (curOff + blockPart curOff left)
              (left - blockPart curOff left) with
            | (n, inode) => (blockPart curOff left + n, inode)

theorem needBlks_bounds (bytesLeft blkOff : Nat) :
    0 < needBlks bytesLeft blkOff ∧ needBlks bytesLeft blkOff ≤ 256 := by
  simp only [needBlks]
  split_ifs <;> omega

/-- The blocks of an inode are in use and in the data region. -/
structure FsState.Backs (layout : NebulaLayout) (state : FsState) (inode : NebulaInode) : Prop where
  guarded : ∀ lba < layout.capacityBlocks, lbaIsMetadata layout lba = true → state.taken lba = true
  mapped : inode.Mapped
  taken : ∀ lba, inode.Holds lba → state.taken lba = true
  inData : ∀ lba, inode.Holds lba → InData layout lba

/-- What a part of a write does to the allocator and to the inode: it has added extents of blocks
that were free. -/
structure Grown (uuid : Bytes 16) (layout : NebulaLayout) (before : FsState) (inode : NebulaInode)
    (after : FsState) (inode' : NebulaInode) : Prop where
  solid : after.Solid uuid layout
  mapped : inode'.Mapped
  rest : inode' = { inode with extents := inode'.extents }
  keeps : ∀ lba, inode.Holds lba → inode'.Holds lba
  fresh : ∀ lba, inode'.Holds lba → ¬ inode.Holds lba → before.taken lba = false
  inData : ∀ lba, inode'.Holds lba → InData layout lba
  taken : ∀ lba, after.taken lba = true ↔ before.taken lba = true ∨ inode'.Holds lba
  blockOf : ∀ blk lba, inode.blockOf blk = some lba → inode'.blockOf blk = some lba
  writes : ∃ writes, after.disk = before.disk.push writes ∧
    ∀ write ∈ writes, InBitmap layout write.1 ∨ inode'.Holds write.1

namespace Grown

variable {uuid : Bytes 16} {layout : NebulaLayout} {before middle after : FsState}
  {inode inode' inode'' : NebulaInode}

theorem refl (solid : before.Solid uuid layout) (backs : before.Backs layout inode) :
    Grown uuid layout before inode before inode where
  solid := solid
  mapped := backs.mapped
  rest := rfl
  keeps := fun _ holds => holds
  fresh := fun _ holds other => absurd holds other
  inData := backs.inData
  taken := fun lba => ⟨.inl, fun either => either.elim id (backs.taken lba)⟩
  blockOf := fun _ _ found => found
  writes := ⟨[], by simp, by simp⟩

theorem trans (first : Grown uuid layout before inode middle inode')
    (second : Grown uuid layout middle inode' after inode'') :
    Grown uuid layout before inode after inode'' where
  solid := second.solid
  mapped := second.mapped
  rest := by
    rw [second.rest, first.rest]
  keeps := fun lba holds => second.keeps lba (first.keeps lba holds)
  fresh := by
    intro lba holds other
    by_cases earlier : inode'.Holds lba
    · exact first.fresh lba earlier other
    · have free := second.fresh lba holds earlier
      by_contra used
      have still := (first.taken lba).mpr (.inl (by simpa using used))
      rw [free] at still
      contradiction
  inData := second.inData
  taken := by
    intro lba
    rw [second.taken, first.taken]
    constructor
    · rintro ((used | holds) | holds)
      · exact .inl used
      · exact .inr (second.keeps lba holds)
      · exact .inr holds
    · rintro (used | holds)
      · exact .inl (.inl used)
      · exact .inr holds
  blockOf := fun blk lba found => second.blockOf blk lba (first.blockOf blk lba found)
  writes := by
    obtain ⟨writes, disk, inside⟩ := first.writes
    obtain ⟨writes', disk', inside'⟩ := second.writes
    refine ⟨writes ++ writes', by rw [disk', disk, Disk.push_push], ?_⟩
    intro write member
    rcases List.mem_append.mp member with left | right
    · exact (inside write left).imp_right (second.keeps write.1)
    · exact inside' write right

theorem backs (grown : Grown uuid layout before inode after inode')
    (backs : before.Backs layout inode) : after.Backs layout inode' where
  guarded := fun lba below metadata =>
    (grown.taken lba).mpr (.inl (backs.guarded lba below metadata))
  mapped := grown.mapped
  taken := fun lba holds => (grown.taken lba).mpr (.inr holds)
  inData := grown.inData

/-- A write to a block of the inode. -/
theorem push (solid : before.Solid uuid layout) (backs : before.Backs layout inode) {lba : Nat}
    (holds : inode.Holds lba) (block : Block) :
    Grown uuid layout before inode (before.withDisk (before.disk.push [(lba, block)])) inode where
  solid := by
    apply solid.push
    simp only [List.mem_singleton, forall_eq]
    exact not_inBitmap_of_inData solid.sound (backs.inData lba holds)
  mapped := backs.mapped
  rest := rfl
  keeps := fun _ holds => holds
  fresh := fun _ holds other => absurd holds other
  inData := backs.inData
  taken := fun lba => ⟨.inl, fun either => either.elim id (backs.taken lba)⟩
  blockOf := fun _ _ found => found
  writes := ⟨[(lba, block)], rfl, by simpa using .inr holds⟩

end Grown

section Map

variable {uuid : Bytes 16} {layout : NebulaLayout} {state : FsState}

/-- Blocks other than the bitmap keep their content. -/
def KeepsBlocks (layout : NebulaLayout) (before after : FsState) : Prop :=
  ∀ lba, ¬ InBitmap layout lba → after.disk.content lba = before.disk.content lba

theorem keepsBlocks_of_writes {before after : FsState} {writes : List (Nat × Block)}
    (disk : after.disk = before.disk.push writes)
    (inside : ∀ write ∈ writes, InBitmap layout write.1) : KeepsBlocks layout before after := by
  intro lba outside
  rw [disk, content_push_of_ne]
  rintro write member rfl
  exact outside (inside write member)

/-- An allocated run, appended to the extents. -/
theorem allocated_grown (solid : state.Solid uuid layout) {inode after : NebulaInode}
    (backs : state.Backs layout inode) {blk n start : Nat} (low : blk < 2 ^ 53) (positive : 0 < n)
    (few : n ≤ 256) (found : firstRun state.taken n layout.capacityBlocks = some start)
    (appended : extentAppend inode blk n start = some after) :
    Grown uuid layout state inode (state.allocated start n) after ∧ after.blockOf blk =
      (inode.blockOf blk).or (some start) := by
  obtain ⟨free, inside, -⟩ := firstRun_eq_some positive found
  have small := solid.small
  obtain ⟨dataLow, dataHigh⟩ := solid.firstRun_inData backs.guarded positive found
  have added := backs.mapped.append low (show n < 2 ^ 24 by omega) positive
    (show start < 2 ^ 32 by omega) (fun offset below holds => by
      have used := backs.taken _ holds
      rw [free offset below] at used
      contradiction) appended
  refine ⟨⟨solid.allocated positive found, added.mapped, added.rest, ?_, ?_, ?_, ?_, ?_, ?_⟩, ?_⟩
  · intro lba holds
    exact (added.holds lba).mpr (.inl holds)
  · intro lba holds other
    rcases (added.holds lba).mp holds with earlier | ⟨above, below⟩
    · exact absurd earlier other
    · have clear := free (lba - start) (by omega)
      rwa [Nat.add_sub_cancel' above] at clear
  · intro lba holds
    rcases (added.holds lba).mp holds with earlier | ⟨above, below⟩
    · exact backs.inData lba earlier
    · exact ⟨by omega, by omega⟩
  · intro lba
    rw [FsState.taken_allocated, Bool.or_eq_true, decide_eq_true_iff, added.holds]
    constructor
    · rintro (run | used)
      · exact .inr (.inr run)
      · exact .inl used
    · rintro (used | earlier | run)
      · exact .inr used
      · exact .inr (backs.taken lba earlier)
      · exact .inl run
  · intro other lba mapped
    rw [added.blockOf, mapped, Option.some_or]
  · obtain ⟨writes, disk, pages⟩ := solid.allocated_writes positive inside
    exact ⟨writes, disk, fun write member => .inl (pages write member)⟩
  · rw [added.blockOf, if_pos (by omega), Nat.sub_self, Nat.add_zero]

/-- A round that gets its block. -/
structure MapsTo (uuid : Bytes 16) (layout : NebulaLayout) (state : FsState) (file : NebulaFile)
    (blk : Nat) (used : Nat → Bool) (lba : Nat) (next : NebulaFile) (after : FsState) : Prop where
  flags : next.flags = file.flags
  dirty : next.dirty = true ∨ next = file
  grown : Grown uuid layout state file.inode after next.inode
  taken : after.taken = used
  mapped : next.inode.blockOf blk = some lba
  content : KeepsBlocks layout state after

theorem fileWriteMap_some (solid : state.Solid uuid layout) {file : NebulaFile}
    (backs : state.Backs layout file.inode) {blk blkOff bytesLeft : Nat} (low : blk < 2 ^ 53)
    {used : Nat → Bool} {inode : NebulaInode} (planned : planMap layout.capacityBlocks state.taken
      file.inode blk (needBlks bytesLeft blkOff) = some (used, inode)) :
    ∃ lba next after, next.inode = inode ∧ MapsTo uuid layout state file blk used lba next after ∧
      (fileWriteMap file blk blkOff bytesLeft).run state = (.ok (.ok lba, next), after) := by
  obtain ⟨positive, few⟩ := needBlks_bounds bytesLeft blkOff
  simp only [planMap] at planned
  cases known : extentFind file.inode blk with
  | some index =>
      rw [known] at planned
      simp only [Option.some.injEq, Prod.mk.injEq] at planned
      obtain ⟨rfl, rfl⟩ := planned
      refine ⟨(file.inode.extents index).physLba blk, file, state, rfl, ⟨rfl, .inr rfl,
        .refl solid backs, rfl, ?_, fun _ _ => rfl⟩, ?_⟩
      · rw [NebulaInode.blockOf, known, Option.map_some]
      · simp only [fileWriteMap, known, run_pure]
  | none =>
      rw [known] at planned
      cases found : firstRun state.taken (needBlks bytesLeft blkOff) layout.capacityBlocks with
      | none => simp [found] at planned
      | some start =>
          rw [found] at planned
          simp only [Option.map_eq_some_iff, Prod.mk.injEq] at planned
          obtain ⟨after, appended, rfl, rfl⟩ := planned
          obtain ⟨grown, mapped⟩ := allocated_grown solid backs low positive few found appended
          obtain ⟨-, inside, -⟩ := firstRun_eq_some positive found
          obtain ⟨writes, disk, pages⟩ := solid.allocated_writes positive inside
          refine ⟨start, { file with inode := after, dirty := true }, _, rfl,
            ⟨rfl, .inl rfl, grown, ?_, ?_, keepsBlocks_of_writes disk pages⟩, ?_⟩
          · funext lba
            exact FsState.taken_allocated state start _ lba
          · rw [mapped, NebulaInode.blockOf, known, Option.map_none, Option.none_or]
          · simp only [fileWriteMap, known, run_attempt_bind, solid.run_blockAlloc positive found,
              appended, run_pure]

/-- A round that gets no block leaves the handle and the bitmap as they were. -/
theorem fileWriteMap_none (solid : state.Solid uuid layout) {file : NebulaFile}
    (backs : state.Backs layout file.inode) {blk blkOff bytesLeft : Nat}
    (planned : planMap layout.capacityBlocks state.taken file.inode blk
      (needBlks bytesLeft blkOff) = none) :
    ∃ error after, Grown uuid layout state file.inode after file.inode ∧
      after.taken = state.taken ∧ KeepsBlocks layout state after ∧
      (fileWriteMap file blk blkOff bytesLeft).run state = (.ok (.error error, file), after) := by
  obtain ⟨positive, few⟩ := needBlks_bounds bytesLeft blkOff
  simp only [planMap] at planned
  cases known : extentFind file.inode blk with
  | some index => simp [known] at planned
  | none =>
      rw [known] at planned
      cases found : firstRun state.taken (needBlks bytesLeft blkOff) layout.capacityBlocks with
      | none =>
          refine ⟨.ENOSPC, state, .refl solid backs, rfl, fun _ _ => rfl, ?_⟩
          simp only [fileWriteMap, known, run_attempt_bind,
            solid.run_blockAlloc_none positive found, run_pure]
      | some start =>
          rw [found] at planned
          simp only [Option.map_eq_none_iff] at planned
          obtain ⟨free, inside, -⟩ := firstRun_eq_some positive found
          have marked := solid.allocated positive found
          obtain ⟨writes, disk, pages⟩ := solid.allocated_writes positive inside
          obtain ⟨freed, cleared⟩ := marked.run_blockFree positive inside fun lba above below => by
            rw [FsState.taken_allocated, decide_eq_true ⟨above, below⟩, Bool.true_or]
          obtain ⟨writes', disk', pages'⟩ := marked.freed_writes positive inside
          have taken : ((state.allocated start (needBlks bytesLeft blkOff)).freed start
              (needBlks bytesLeft blkOff)).taken = state.taken := by
            funext lba
            rw [FsState.taken_freed, FsState.taken_allocated]
            by_cases run : start ≤ lba ∧ lba < start + needBlks bytesLeft blkOff
            · have clear := free (lba - start) (by omega)
              rw [Nat.add_sub_cancel' run.1] at clear
              rw [decide_eq_true run, clear]
              rfl
            · rw [decide_eq_false run]
              rfl
          have pushed := disk'.trans (congrArg (Disk.push · writes') disk)
          rw [Disk.push_push] at pushed
          have within : ∀ write ∈ writes ++ writes', InBitmap layout write.1 := by
            intro write member
            exact (List.mem_append.mp member).elim (pages write) (pages' write)
          refine ⟨.ENOSPC, _, ⟨cleared, backs.mapped, rfl, fun _ holds => holds,
            fun _ holds other => absurd holds other, backs.inData, ?_, fun _ _ found => found,
            ⟨_, pushed, fun write member => .inl (within write member)⟩⟩, taken,
            keepsBlocks_of_writes pushed within, ?_⟩
          · intro lba
            rw [taken]
            exact ⟨.inl, fun either => either.elim id (backs.taken lba)⟩
          · simp only [fileWriteMap, known, run_attempt_bind, solid.run_blockAlloc positive found,
              planned, freed, run_pure]

end Map

theorem Block.splice_inside {block : Block} {start : Nat} {bytes : List UInt8} {index : Fin 4096}
    (low : start ≤ index.val) (high : index.val < start + bytes.length) :
    block.splice start bytes index = bytes.getD (index.val - start) 0 := by
  have inside : index.val - start < bytes.length := by omega
  rw [Block.splice, if_pos low, List.getD_eq_getElem _ _ inside, List.getD_eq_getElem _ _ inside]

theorem Block.splice_outside {block : Block} {start : Nat} {bytes : List UInt8} {index : Fin 4096}
    (outside : ¬ (start ≤ index.val ∧ index.val < start + bytes.length)) :
    block.splice start bytes index = block index := by
  rw [Block.splice]
  split_ifs with low
  · rw [List.getD_eq_default]
    omega
  · rfl

/-- The transfer of a round changes its bytes of the device block. -/
theorem run_fileWriteBlock {uuid : Bytes 16} {layout : NebulaLayout} {state : FsState}
    (solid : state.Solid uuid layout) {lba blkOff : Nat} (inside : lba < layout.capacityBlocks)
    {bytes : List UInt8} (fits : blkOff + bytes.length ≤ 4096) :
    (fileWriteBlock lba blkOff bytes).run state = (.ok (), state.withDisk (state.disk.push
      [(lba, (state.disk.content lba).splice blkOff bytes)])) := by
  rw [fileWriteBlock]
  by_cases part : blkOff ≠ 0 ∨ bytes.length < 4096
  · rw [if_pos part, run_bind_ok (solid.run_ioRead inside), solid.run_ioWrite _ inside]
  · have whole : zeroBlock.splice blkOff bytes = (state.disk.content lba).splice blkOff bytes := by
      funext index
      rw [Block.splice_inside (by omega) (by omega), Block.splice_inside (by omega) (by omega)]
    simp only [if_neg part, run_pure_bind, whole]
    exact solid.run_ioWrite _ inside

/-- The first `written` bytes of the data are in place, and other bytes are as they were. -/
structure Filled (layout : NebulaLayout) (before : FsState) (offset : Nat) (data : List UInt8)
    (written : Nat) (after : FsState) (inode : NebulaInode) : Prop where
  covered : ∀ pos, offset ≤ pos → pos < offset + written → ∃ lba,
    inode.blockOf (pos / 4096) = some lba ∧
      after.disk.content lba (Fin.ofNat 4096 pos) = data.getD (pos - offset) 0
  kept : ∀ lba, ¬ InBitmap layout lba → ∀ index : Fin 4096,
    (∀ blk, inode.blockOf blk = some lba →
      ¬ (offset ≤ blk * 4096 + index.val ∧ blk * 4096 + index.val < offset + written)) →
    after.disk.content lba index = before.disk.content lba index

namespace Filled

variable {uuid : Bytes 16} {layout : NebulaLayout} {before middle after : FsState} {offset : Nat}
  {data : List UInt8} {written : Nat} {inode inode' : NebulaInode}

theorem nothing (before : FsState) (inode : NebulaInode) :
    Filled layout before offset data 0 before inode where
  covered := fun pos low high => by omega
  kept := fun _ _ _ _ => rfl

/-- Mapping more blocks changes none. -/
theorem map (filled : Filled layout before offset data written middle inode)
    (grown : Grown uuid layout middle inode after inode')
    (keeps : KeepsBlocks layout middle after) :
    Filled layout before offset data written after inode' where
  covered := by
    intro pos low high
    obtain ⟨lba, mapped, byte⟩ := filled.covered pos low high
    have mapped' := grown.blockOf _ _ mapped
    have inData := grown.inData lba (grown.mapped.holds_of_blockOf mapped')
    exact ⟨lba, mapped', by rw [keeps lba (not_inBitmap_of_inData grown.solid.sound inData), byte]⟩
  kept := by
    intro lba outside index clear
    rw [keeps lba outside]
    exact filled.kept lba outside index fun blk mapped => clear blk (grown.blockOf _ _ mapped)

theorem fin_ofNat_val (pos : Nat) : (Fin.ofNat 4096 pos).val = pos % 4096 := rfl

/-- Writing the next part. -/
theorem step (filled : Filled layout before offset data written middle inode)
    (mapped : inode.Mapped) {lba part : Nat}
    (here : inode.blockOf ((offset + written) / 4096) = some lba)
    (fits : (offset + written) % 4096 + part ≤ 4096) (rest : written + part ≤ data.length) :
    Filled layout before offset data (written + part)
      (middle.withDisk (middle.disk.push [(lba, (middle.disk.content lba).splice
        ((offset + written) % 4096) ((data.drop written).take part))])) inode := by
  have length : ((data.drop written).take part).length = part := by
    rw [List.length_take, List.length_drop]
    omega
  have content : ∀ block, (middle.disk.push [(lba, (middle.disk.content lba).splice
      ((offset + written) % 4096) ((data.drop written).take part))]).content block =
        if block = lba then (middle.disk.content lba).splice ((offset + written) % 4096)
          ((data.drop written).take part) else middle.disk.content block := by
    intro block
    split_ifs with same
    · rw [same, content_push_single]
    · rw [content_push_of_ne]
      simpa using Ne.symm same
  constructor
  · intro pos low high
    rcases Nat.lt_or_ge pos (offset + written) with earlier | later
    · obtain ⟨block, found, byte⟩ := filled.covered pos low earlier
      refine ⟨block, found, ?_⟩
      rw [FsState.disk_withDisk, content]
      split_ifs with same
      · subst same
        have samePage := mapped.blockOf_inj found here
        rw [Block.splice_outside, byte]
        rw [fin_ofNat_val, length]
        omega
      · exact byte
    · have samePage : pos / 4096 = (offset + written) / 4096 := by omega
      refine ⟨lba, by rw [samePage, here], ?_⟩
      rw [FsState.disk_withDisk, content, if_pos rfl, Block.splice_inside]
      · rw [fin_ofNat_val, List.getD_eq_getElem?_getD, List.getElem?_take_of_lt (by omega),
          List.getElem?_drop, ← List.getD_eq_getElem?_getD]
        congr 1
        omega
      · rw [fin_ofNat_val]
        omega
      · rw [fin_ofNat_val, length]
        omega
  · intro block outside index clear
    have old := filled.kept block outside index fun blk found inside => clear blk found (by omega)
    rw [FsState.disk_withDisk, content]
    split_ifs with same
    · subst same
      have off := clear _ here
      rw [Block.splice_outside, old]
      rw [length]
      omega
    · exact old

end Filled

theorem blockPart_bounds {curOff left : Nat} (some : 0 < left) :
    0 < blockPart curOff left ∧ blockPart curOff left ≤ left ∧
      curOff % 4096 + blockPart curOff left ≤ 4096 := by
  simp only [blockPart]
  omega

/-- How the loop ends, from the state before the write. -/
structure LoopEnds (uuid : Bytes 16) (layout : NebulaLayout) (before : FsState)
    (inode : NebulaInode)
    (offset : UInt64) (data : List UInt8) (stop : Option Errno) (n : Nat) (next : NebulaFile)
    (after : FsState) : Prop where
  grown : Grown uuid layout before inode after next.inode
  filled : offset.toNat + n < 2 ^ 64 → Filled layout before offset.toNat data n after next.inode
  most : n ≤ data.length
  stops : stop = none ↔ n = data.length

/-- The loop has written what was planned, from `written` on, or both have passed the last 64-bit
position. -/
def FollowsPlan (offset written n : Nat) (inode : NebulaInode) (plan : Nat × NebulaInode) : Prop :=
  offset + n < 2 ^ 64 ∧ (n - written, inode) = plan ∨
    2 ^ 64 ≤ offset + n ∧ 2 ^ 64 ≤ offset + written + plan.1

theorem FollowsPlan.stays {written : Nat} {inode : NebulaInode} {plan : Nat × NebulaInode}
    (offset : Nat) (nothing : plan = (0, inode)) :
    FollowsPlan offset written written inode plan := by
  rcases Nat.lt_or_ge (offset + written) (2 ^ 64) with unwrapped | wrapped
  · exact .inl ⟨unwrapped, by rw [nothing, Nat.sub_self]⟩
  · exact .inr ⟨wrapped, by omega⟩

theorem FollowsPlan.passed {offset written n : Nat} {inode : NebulaInode} {plan : Nat × NebulaInode}
    (wrapped : 2 ^ 64 ≤ offset + written) (later : written ≤ n) :
    FollowsPlan offset written n inode plan :=
  .inr ⟨by omega, by omega⟩

theorem FollowsPlan.round {offset written part n : Nat} {inode : NebulaInode}
    {plan : Nat × NebulaInode} (follows : FollowsPlan offset (written + part) n inode plan)
    (later : written + part ≤ n) : FollowsPlan offset written n inode (part + plan.1, plan.2) := by
  rcases follows with ⟨unwrapped, rfl⟩ | ⟨wrapped, passed⟩
  · refine .inl ⟨unwrapped, Prod.ext ?_ rfl⟩
    simp only
    omega
  · refine .inr ⟨wrapped, ?_⟩
    simp only
    omega

/-- A write that ends at a 64-bit position has followed the plan. -/
theorem FollowsPlan.exact {offset n : Nat} {inode : NebulaInode} {plan : Nat × NebulaInode}
    (follows : FollowsPlan offset 0 n inode plan) (unwrapped : offset + n < 2 ^ 64) :
    (n, inode) = plan := by
  rcases follows with ⟨-, same⟩ | ⟨wrapped, -⟩
  · exact same
  · omega

/-- The loop of a write without faults.  It stops at the first block for which there is no extent
and none can be had. -/
theorem fileWriteLoop_spec {uuid : Bytes 16} {layout : NebulaLayout} {before state : FsState}
    {inode : NebulaInode} (backs : before.Backs layout inode) (offset : UInt64) (data : List UInt8)
    {fuel written : Nat} {file : NebulaFile}
    (grown : Grown uuid layout before inode state file.inode)
    (filled : offset.toNat + written < 2 ^ 64 →
      Filled layout before offset.toNat data written state file.inode)
    (most : written ≤ data.length) (enough : data.length ≤ written + fuel) :
    ∃ stop n next after,
      (fileWriteLoop offset data fuel written file).run state = (.ok (stop, n, next), after) ∧
      LoopEnds uuid layout before inode offset data stop n next after ∧
      next.flags = file.flags ∧ (n = written ∧ next = file ∨ next.dirty = true) ∧ written ≤ n ∧
      FollowsPlan offset.toNat written n next.inode
        (writePlan layout.capacityBlocks fuel state.taken
        file.inode (offset.toNat + written) (data.length - written)) := by
  induction fuel generalizing written file state with
  | zero =>
      refine ⟨none, written, file, state, rfl, ⟨grown, filled, most, ?_⟩, rfl, .inl ⟨rfl, rfl⟩,
        le_rfl, .stays _ rfl⟩
      exact ⟨fun _ => by omega, fun _ => rfl⟩
  | succ fuel ih =>
      by_cases done : written < data.length
      · have left : 0 < data.length - written := by omega
        rw [fileWriteLoop]
        simp only [if_pos done]
        obtain ⟨positive, fewer, fits⟩ := @blockPart_bounds
          ((offset.toNat + written) % 2 ^ 64) (data.length - written) left
        have low : (offset.toNat + written) % 2 ^ 64 / 4096 < 2 ^ 53 := by omega
        have backs' := grown.backs backs
        have planEq : offset.toNat + written < 2 ^ 64 →
            (offset.toNat + written) % 2 ^ 64 = offset.toNat + written := Nat.mod_eq_of_lt
        generalize curEq : (offset.toNat + written) % 2 ^ 64 = curOff at *
        generalize partEq : blockPart curOff (data.length - written) = part at *
        cases planned : planMap layout.capacityBlocks state.taken file.inode (curOff / 4096)
            (needBlks (data.length - written) (curOff % 4096)) with
        | none =>
            obtain ⟨error, after, grown', taken, keeps, ran⟩ :=
              fileWriteMap_none grown.solid backs' planned
            refine ⟨some error, written, file, after, ?_, ⟨grown.trans grown', ?_, most, ?_⟩, rfl,
              .inl ⟨rfl, rfl⟩, le_rfl, ?_⟩
            · rw [run_bind_ok ran]
              rfl
            · exact fun unwrapped => (filled unwrapped).map grown' keeps
            · exact ⟨fun none => by contradiction, fun all => by omega⟩
            · rcases Nat.lt_or_ge (offset.toNat + written) (2 ^ 64) with unwrapped | wrapped
              · rw [planEq unwrapped] at planned
                apply FollowsPlan.stays
                rw [writePlan, if_neg left.ne']
                simp only [planned]
              · exact .passed wrapped le_rfl
        | some result =>
            obtain ⟨used, grownInode⟩ := result
            obtain ⟨lba, next, after, rfl, maps, ran⟩ :=
              fileWriteMap_some grown.solid backs' low planned
            have grown' := grown.trans maps.grown
            have backs'' := grown'.backs backs
            have holds := grown'.mapped.holds_of_blockOf maps.mapped
            have inside := (grown'.inData lba holds).lt_capacity grown.solid.sound
            have length : ((data.drop written).take part).length = part := by
              rw [List.length_take, List.length_drop]
              omega
            have wrote := run_fileWriteBlock grown'.solid inside
              (show curOff % 4096 + ((data.drop written).take part).length ≤ 4096 by omega)
            have pushed := grown'.trans (Grown.push grown'.solid backs'' holds
              ((after.disk.content lba).splice (curOff % 4096) ((data.drop written).take part)))
            obtain ⟨stop, n, last, final, ran', ends, flags, dirty, later, plan⟩ :=
              @ih _ (written + part) { next with dirty := true } pushed (fun unwrapped => by
                have cur := planEq (by omega)
                have placed := maps.mapped
                subst cur
                exact ((filled (by omega)).map maps.grown maps.content).step grown'.mapped placed
                  (by omega) (by omega)) (by omega) (by omega)
            refine ⟨stop, n, last, final, ?_, ends, ?_, .inr ?_, by omega, ?_⟩
            · rw [run_bind_ok ran]
              simp only [run_attempt_bind, wrote]
              exact ran'
            · rw [flags]
              exact maps.flags
            · rcases dirty with ⟨-, rfl⟩ | dirty
              · rfl
              · exact dirty
            · rcases Nat.lt_or_ge (offset.toNat + written) (2 ^ 64) with unwrapped | wrapped
              · rw [planEq unwrapped] at planned partEq
                rw [writePlan, if_neg left.ne']
                simp only [planned, partEq]
                rw [Nat.sub_sub, Nat.add_assoc, ← maps.taken]
                exact plan.round later
              · exact .passed wrapped (by omega)
      · have all : written = data.length := by omega
        refine ⟨none, written, file, state, ?_, ⟨grown, filled, most, ?_⟩, rfl, .inl ⟨rfl, rfl⟩,
          le_rfl, .stays _ ?_⟩
        · rw [fileWriteLoop, if_neg done]
          rfl
        · exact ⟨fun _ => all, fun _ => rfl⟩
        · rw [writePlan, if_pos (by omega)]

end MiniFs
