import MiniFs.Fs.WriteLoop

/-!
# Calls on files

What writing, reading, closing and deleting a file do without faults.
-/

namespace MiniFs

open Fs

section

local instance blockSize_neZero : NeZero 4096 := ⟨by decide⟩

/-- The byte of a file at a position; a hole reads as zero. -/
def NebulaInode.byteAt (inode : NebulaInode) (disk : Disk) (pos : Nat) : UInt8 :=
  match inode.blockOf (pos / 4096) with
  | none => 0
  | some lba => disk.content lba (Fin.ofNat 4096 pos)

end

/-- The inode a full write stores. -/
def NebulaInode.written (inode : NebulaInode) (reach now : UInt64) : NebulaInode :=
  NebulaInode.seal { inode.grow reach with mtimeNs := now }

section Calls

variable {uuid : Bytes 16} {layout : NebulaLayout} {state : FsState} {file : NebulaFile}

/-- A write without faults: the loop, and the inode if the loop has come to its end. -/
theorem fileWrite_spec (solid : state.Solid uuid layout) (backs : state.Backs layout file.inode)
    (inside : file.inode.inodeNum.toNat < layout.inodePageBlockCount)
    (writable : file.flags &&& openWriteOnly ≠ 0) (offset : UInt64) {data : List UInt8}
    (some : data ≠ []) (now : UInt64) :
    ∃ stop n next middle,
      LoopEnds uuid layout state file.inode offset data stop n next middle ∧
      next.flags = file.flags ∧ (n = 0 ∧ next = file ∨ next.dirty = true) ∧
      FollowsPlan offset.toNat 0 n next.inode
        (writePlan layout.capacityBlocks data.length state.taken
        file.inode offset.toNat data.length) ∧
      (n < data.length ∧ (∃ error, (nebulaFileWrite file offset data now).run state =
          (.ok (shortCount n error, next), middle)) ∨
        n = data.length ∧ (nebulaFileWrite file offset data now).run state =
          (.ok (.ok n, ⟨next.inode.written (offset + UInt64.ofNat n) now, next.flags, false⟩),
            middle.withDisk (middle.disk.push [inodeWrite layout file.inode.inodeNum.toNat
              (next.inode.written (offset + UInt64.ofNat n) now)]))) := by
  obtain ⟨stop, n, next, middle, ran, ends, flags, dirty, -, plan⟩ := @fileWriteLoop_spec uuid
    layout state state file.inode backs offset data data.length 0 file (.refl solid backs)
    (fun _ => .nothing state file.inode) (by omega) (by omega)
  refine ⟨stop, n, next, middle, ends, flags, dirty, ?_, ?_⟩
  · rwa [Nat.add_zero, Nat.sub_zero] at plan
  · simp only [nebulaFileWrite, if_neg writable, if_neg some, run_bind_ok ran]
    cases stop with
    | some error =>
        have less : n ≠ data.length := fun all => by simpa using ends.stops.mpr all
        have most := ends.most
        exact .inl ⟨by omega, error, rfl⟩
    | none =>
        right
        refine ⟨ends.stops.mp rfl, ?_⟩
        have number : next.inode.inodeNum = file.inode.inodeNum := by
          rw [ends.grown.rest]
        have grownNumber : ({ next.inode.grow (offset + UInt64.ofNat n) with
            mtimeNs := now } : NebulaInode).inodeNum = file.inode.inodeNum := by
          simp only [NebulaInode.grow]
          split_ifs <;> exact number
        obtain ⟨after, idles, stored | ⟨bad, -⟩⟩ := ends.grown.solid.ready.placed.inodeWrite_spec
          (show ({ next.inode.grow (offset + UInt64.ofNat n) with
            mtimeNs := now } : NebulaInode).inodeNum.toNat < _ by rw [grownNumber]; exact inside)
        · rw [idles.eq ends.grown.solid.faultFree] at stored
          rw [run_bind_ok stored, run_pure, grownNumber]
          rfl
        · exact absurd bad (FsState.not_faulty ends.grown.solid.faultFree)

theorem fileWrite_refused (refused : file.flags &&& openWriteOnly = 0) (offset : UInt64)
    (data : List UInt8) (now : UInt64) :
    (nebulaFileWrite file offset data now).run state = (.ok (.error .EBADF, file), state) := by
  rw [nebulaFileWrite, if_pos refused, run_pure]

theorem fileWrite_nothing (writable : file.flags &&& openWriteOnly ≠ 0) (offset now : UInt64) :
    (nebulaFileWrite file offset [] now).run state = (.ok (.ok 0, file), state) := by
  rw [nebulaFileWrite, if_neg writable, if_pos rfl, run_pure]

theorem Block.slice_eq (block : Block) {start n : Nat} (fits : start + n ≤ 4096) :
    block.slice start n = (List.range n).map fun index =>
      block (Fin.ofNat 4096 (start + index)) := by
  apply List.ext_getElem
  · simp only [Block.slice, List.length_take, List.length_drop, List.length_ofFn, List.length_map,
      List.length_range]
    omega
  · intro index inside inside'
    simp only [Block.slice, List.getElem_take, List.getElem_drop, List.getElem_ofFn,
      List.getElem_map, List.getElem_range]
    congr 1
    apply Fin.ext
    simp only [List.length_map, List.length_range] at inside'
    simp only [Fin.ofNat]
    omega

/-- The bytes of a file from a position on. -/
def NebulaInode.bytesAt (inode : NebulaInode) (disk : Disk) (offset n : Nat) : List UInt8 :=
  (List.range n).map fun index => inode.byteAt disk (offset + index)

theorem NebulaInode.bytesAt_append (inode : NebulaInode) (disk : Disk) (offset n part : Nat) :
    inode.bytesAt disk offset (n + part) =
      inode.bytesAt disk offset n ++ inode.bytesAt disk (offset + n) part := by
  simp only [bytesAt, List.range_add, List.map_append, List.map_map]
  congr 2
  funext index
  simp only [Function.comp_apply, Nat.add_assoc]

/-- The bytes of a part of one block. -/
theorem NebulaInode.bytesAt_block (inode : NebulaInode) (disk : Disk) {offset n : Nat}
    (fits : offset % 4096 + n ≤ 4096) :
    inode.bytesAt disk offset n =
      match inode.blockOf (offset / 4096) with
      | none => List.replicate n 0
      | some lba => (disk.content lba).slice (offset % 4096) n := by
  have page : ∀ index < n, (offset + index) / 4096 = offset / 4096 := by
    intro index below
    omega
  cases mapped : inode.blockOf (offset / 4096) with
  | none =>
      simp only [bytesAt]
      rw [List.eq_replicate_iff]
      refine ⟨by simp, fun byte member => ?_⟩
      obtain ⟨index, inside, rfl⟩ := List.mem_map.mp member
      rw [byteAt, page index (List.mem_range.mp inside), mapped]
  | some lba =>
      simp only [Block.slice_eq _ fits, bytesAt]
      apply List.map_congr_left
      intro index inside
      rw [byteAt, page index (List.mem_range.mp inside), mapped]
      simp only
      congr 1
      apply Fin.ext
      simp only [Fin.ofNat]
      omega

/-- The device answers reads of every block the file has mapped. -/
structure FsState.Serves (state : FsState) (inode : NebulaInode) : Prop where
  faultFree : state.faults = []
  onDevice : ∀ blk lba, inode.blockOf blk = some lba → lba < state.disk.capacityBlocks

theorem FsState.Backs.serves (solid : state.Solid uuid layout)
    (backs : state.Backs layout file.inode) :
    state.Serves file.inode := by
  refine ⟨solid.faultFree, fun blk lba mapped => ?_⟩
  rw [solid.ready.placed.capacity]
  exact (backs.inData _ (backs.mapped.holds_of_blockOf mapped)).lt_capacity solid.sound

/-- The read loop returns the bytes of the file. -/
theorem FsState.Serves.readLoop (serves : state.Serves file.inode) (offset : UInt64)
    {len fuel n : Nat} (unwrapped : offset.toNat + len < 2 ^ 64) (most : n ≤ len)
    (enough : len ≤ n + fuel) :
    (fileReadLoop file offset len fuel (file.inode.bytesAt state.disk offset.toNat n)).run state =
      (.ok (none, file.inode.bytesAt state.disk offset.toNat len), state) := by
  have length : ∀ m, (file.inode.bytesAt state.disk offset.toNat m).length = m := by
    intro m
    simp [NebulaInode.bytesAt]
  induction fuel generalizing n with
  | zero =>
      rw [show n = len by omega]
      rfl
  | succ fuel ih =>
      rw [fileReadLoop, length]
      split_ifs with more
      · have cur : (offset.toNat + n) % 2 ^ 64 = offset.toNat + n := Nat.mod_eq_of_lt (by omega)
        obtain ⟨positive, fewer, fits⟩ := @blockPart_bounds (offset.toNat + n) (len - n) (by omega)
        simp only [cur]
        generalize blockPart (offset.toNat + n) (len - n) = part at *
        have next := @ih (n + part) (by omega) (by omega)
        rw [NebulaInode.bytesAt_append, NebulaInode.bytesAt_block _ _ fits] at next
        cases known : extentFind file.inode ((offset.toNat + n) / 4096) with
        | none =>
            rw [NebulaInode.blockOf, known] at next
            exact next
        | some index =>
            have mapped : file.inode.blockOf ((offset.toNat + n) / 4096) =
                some ((file.inode.extents index).physLba ((offset.toNat + n) / 4096)) := by
              rw [NebulaInode.blockOf, known, Option.map_some]
            rw [mapped] at next
            simp only [run_attempt_bind,
              FsState.run_ioRead_of_lt serves.faultFree (serves.onDevice _ _ mapped)]
            exact next
      · rw [show n = len by omega]
        rfl

/-- The bytes a read returns. -/
def NebulaInode.reads (inode : NebulaInode) (disk : Disk) (offset len : Nat) : List UInt8 :=
  inode.bytesAt disk offset (min len (inode.sizeBytes.toNat - offset))

/-- A read of served blocks returns the bytes of the file below its size. -/
theorem FsState.Serves.read (serves : state.Serves file.inode)
    (readable : file.flags &&& openReadOnly ≠ 0) (offset : UInt64) {len : Nat}
    (unwrapped : offset.toNat + len < 2 ^ 64) (now : UInt64) :
    ∃ time, (nebulaFileRead file offset len now).run state =
      (.ok (.ok (file.inode.reads state.disk offset.toNat len),
        { file with inode := { file.inode with atimeNs := time } }), state) := by
  have nothing : min len (file.inode.sizeBytes.toNat - offset.toNat) = 0 →
      file.inode.reads state.disk offset.toNat len = [] := by
    intro zero
    rw [NebulaInode.reads, zero]
    rfl
  rw [nebulaFileRead, if_neg readable]
  by_cases empty : len = 0
  · refine ⟨file.inode.atimeNs, ?_⟩
    rw [if_pos empty, run_pure, nothing (by omega)]
  by_cases beyond : file.inode.sizeBytes ≤ offset
  · refine ⟨file.inode.atimeNs, ?_⟩
    rw [UInt64.le_iff_toNat_le] at beyond
    rw [if_neg empty, if_pos (by rwa [UInt64.le_iff_toNat_le]), run_pure, nothing (by omega)]
  · rw [if_neg empty, if_neg beyond]
    rw [UInt64.le_iff_toNat_le] at beyond
    have size : readLen file offset len =
        min len (file.inode.sizeBytes.toNat - offset.toNat) := by
      rw [readLen, Nat.mod_eq_of_lt unwrapped]
      split_ifs <;> omega
    rw [size]
    have ran := @FsState.Serves.readLoop state file serves offset
      (min len (file.inode.sizeBytes.toNat - offset.toNat))
      (min len (file.inode.sizeBytes.toNat - offset.toNat)) 0 (by omega) (by omega) (by omega)
    rw [show file.inode.bytesAt state.disk offset.toNat 0 = [] from rfl] at ran
    refine ⟨now, ?_⟩
    rw [run_bind_ok ran]
    rfl

/-- A read without faults returns the bytes of the file below its size. -/
theorem fileRead_spec (solid : state.Solid uuid layout) (backs : state.Backs layout file.inode)
    (readable : file.flags &&& openReadOnly ≠ 0) (offset : UInt64) {len : Nat}
    (unwrapped : offset.toNat + len < 2 ^ 64) (now : UInt64) :
    ∃ time, (nebulaFileRead file offset len now).run state =
      (.ok (.ok (file.inode.reads state.disk offset.toNat len),
        { file with inode := { file.inode with atimeNs := time } }), state) :=
  (backs.serves solid).read readable offset unwrapped now

theorem run_ioRead_quiet (faultFree : state.faults = []) (lba : Nat) :
    ∃ result, (ioRead lba).run state = (result, state) := by
  refine ⟨(nebulaIoRead .ok state.disk lba 1).map fun blocks => blocks.headD zeroBlock, ?_⟩
  simp only [ioRead, run_of, FsState.next, faultFree]

theorem readLoop_quiet (faultFree : state.faults = []) (file : NebulaFile) (offset : UInt64)
    (len fuel : Nat) (bytes : List UInt8) :
    ∃ result, (fileReadLoop file offset len fuel bytes).run state = (.ok result, state) := by
  induction fuel generalizing bytes with
  | zero => exact ⟨_, rfl⟩
  | succ fuel ih =>
      rw [fileReadLoop]
      split_ifs
      · simp only
        cases extentFind file.inode ((offset.toNat + bytes.length) % 2 ^ 64 / 4096) with
        | none => exact ih _
        | some index =>
            obtain ⟨result, ran⟩ := run_ioRead_quiet faultFree
              ((file.inode.extents index).physLba ((offset.toNat + bytes.length) % 2 ^ 64 / 4096))
            simp only [run_attempt_bind, ran]
            cases result with
            | error error => exact ⟨_, rfl⟩
            | ok block => exact ih _
      · exact ⟨_, rfl⟩

/-- Whatever a read answers, it leaves the device alone, and of the handle it changes
the time only. -/
theorem fileRead_quiet (faultFree : state.faults = []) (file : NebulaFile) (offset : UInt64)
    (len : Nat) (now : UInt64) :
    ∃ result time, (nebulaFileRead file offset len now).run state =
      (.ok (result, { file with inode := { file.inode with atimeNs := time } }), state) := by
  rw [nebulaFileRead]
  split_ifs
  · exact ⟨_, file.inode.atimeNs, rfl⟩
  · exact ⟨_, file.inode.atimeNs, rfl⟩
  · exact ⟨_, file.inode.atimeNs, rfl⟩
  · obtain ⟨⟨stop, bytes⟩, ran⟩ := readLoop_quiet faultFree file offset (readLen file offset len)
      (readLen file offset len) []
    rw [run_bind_ok ran]
    cases stop with
    | none => exact ⟨_, now, rfl⟩
    | some error => exact ⟨_, file.inode.atimeNs, rfl⟩

/-- Closing a handle stores its inode if it is dirty. -/
theorem run_fileClose (solid : state.Solid uuid layout)
    (inside : file.inode.inodeNum.toNat < layout.inodePageBlockCount) (now : UInt64) :
    (nebulaFileClose file now).run state = (.ok (),
      if file.dirty then state.withDisk (state.disk.push [inodeWrite layout
        file.inode.inodeNum.toNat (NebulaInode.seal { file.inode with mtimeNs := now })])
      else state) := by
  cases dirty : file.dirty with
  | false =>
      rw [nebulaFileClose, dirty]
      rfl
  | true =>
      obtain ⟨after, idles, stored | ⟨bad, -⟩⟩ := solid.ready.placed.inodeWrite_spec
        (show ({ file.inode with mtimeNs := now } : NebulaInode).inodeNum.toNat < _ from inside)
      · rw [idles.eq solid.faultFree] at stored
        simp only [nebulaFileClose, dirty, if_true, run_bind_ok stored]
        rfl
      · exact absurd bad (FsState.not_faulty solid.faultFree)

/-- The device block belongs to one of some extents. -/
def NebulaInode.HoldsIn (inode : NebulaInode) (indices : List (Fin 248)) (lba : Nat) : Prop :=
  ∃ index ∈ indices, ∃ offset < (inode.extents index).sizeBlocks,
    lba = (inode.extents index).emLba.toNat + offset

theorem NebulaInode.HoldsIn.tail {inode : NebulaInode} {rest : List (Fin 248)} {lba : Nat}
    (held : inode.HoldsIn rest lba) (index : Fin 248) : inode.HoldsIn (index :: rest) lba := by
  obtain ⟨found, member, held⟩ := held
  exact ⟨found, .tail _ member, held⟩

/-- The loop of a delete frees the blocks of every extent. -/
theorem fileDeleteLoop_spec {inode : NebulaInode} (mapped : inode.Mapped)
    (inData : ∀ lba, inode.Holds lba → InData layout lba) (solid : state.Solid uuid layout)
    {indices : List (Fin 248)} (nodup : indices.Nodup)
    (taken : ∀ lba, inode.HoldsIn indices lba → state.taken lba = true) (status : Option Errno) :
    ∃ after writes, (fileDeleteLoop inode indices status).run state = (.ok status, after) ∧
      after.Solid uuid layout ∧ after.disk = state.disk.push writes ∧
      (∀ write ∈ writes, InBitmap layout write.1) ∧
      ∀ lba, after.taken lba = true ↔ state.taken lba = true ∧ ¬ inode.HoldsIn indices lba := by
  induction indices generalizing state with
  | nil =>
      refine ⟨state, [], rfl, solid, by simp, by simp, fun lba => ?_⟩
      simp [NebulaInode.HoldsIn]
  | cons index rest ih =>
      obtain ⟨other, nodup⟩ := List.nodup_cons.mp nodup
      rw [fileDeleteLoop]
      by_cases empty : (inode.extents index).sizeBlocks = 0
      · rw [if_pos empty]
        obtain ⟨after, writes, ran, solid', disk, pages, left⟩ := ih solid nodup
          fun lba held => taken lba (held.tail index)
        refine ⟨after, writes, ran, solid', disk, pages, fun lba => ?_⟩
        rw [left]
        simp only [NebulaInode.HoldsIn, List.mem_cons, exists_eq_or_imp, empty, Nat.not_lt_zero,
          false_and, exists_false, false_or]
      · have here : ∀ lba, (inode.extents index).emLba.toNat ≤ lba →
            lba < (inode.extents index).emLba.toNat + (inode.extents index).sizeBlocks →
            inode.HoldsIn (index :: rest) lba ∧ inode.Holds lba := by
          intro lba above below
          have offset : lba = (inode.extents index).emLba.toNat +
            (lba - (inode.extents index).emLba.toNat) := by omega
          exact ⟨⟨index, .head _, _, by omega, offset⟩, ⟨index, _, by omega, offset⟩⟩
        have last := (inData _ (here ((inode.extents index).emLba.toNat +
          (inode.extents index).sizeBlocks - 1) (by omega) (by omega)).2).lt_capacity solid.sound
        have inside : (inode.extents index).emLba.toNat + (inode.extents index).sizeBlocks ≤
          layout.capacityBlocks := by omega
        obtain ⟨freed, solid'⟩ := solid.run_blockFree (Nat.pos_of_ne_zero empty) inside
          fun lba above below => taken lba (here lba above below).1
        obtain ⟨writes, disk, pages⟩ := solid.freed_writes (Nat.pos_of_ne_zero empty) inside
        have still : ∀ lba, inode.HoldsIn rest lba →
            (state.freed (inode.extents index).emLba.toNat
              (inode.extents index).sizeBlocks).taken lba = true := by
          rintro lba ⟨found, member, offset, below, rfl⟩
          rw [FsState.taken_freed, Bool.and_eq_true, Bool.not_eq_true', decide_eq_false_iff_not]
          refine ⟨?_, taken _ ⟨found, .tail _ member, offset, below, rfl⟩⟩
          rintro ⟨low, high⟩
          have same := mapped.disjoint index found
            ((inode.extents found).emLba.toNat + offset - (inode.extents index).emLba.toNat) offset
            (by omega) below (by omega)
          rw [same] at other
          exact other member
        obtain ⟨after, writes', ran, solid'', disk', pages', left⟩ := ih solid' nodup still
        refine ⟨after, writes ++ writes', ?_, solid'', ?_, ?_, fun lba => ?_⟩
        · rw [if_neg empty]
          simp only [run_attempt_bind, freed]
          exact ran
        · rw [disk', disk, Disk.push_push]
        · intro write member
          exact (List.mem_append.mp member).elim (pages write) (pages' write)
        · rw [left, FsState.taken_freed, Bool.and_eq_true, Bool.not_eq_true',
            decide_eq_false_iff_not]
          constructor
          · rintro ⟨⟨outside, used⟩, unheld⟩
            refine ⟨used, ?_⟩
            rintro ⟨found, member, offset, below, rfl⟩
            rcases List.mem_cons.mp member with rfl | member
            · exact outside ⟨by omega, by omega⟩
            · exact unheld ⟨found, member, offset, below, rfl⟩
          · rintro ⟨used, unheld⟩
            exact ⟨⟨fun run => unheld (here lba run.1 run.2).1, used⟩,
              fun held => unheld (held.tail index)⟩

/-- Deleting a file frees its blocks and its inode. -/
theorem fileDelete_spec (solid : state.Solid uuid layout) (backs : state.Backs layout file.inode)
    (inside : file.inode.inodeNum.toNat < layout.inodePageBlockCount)
    (notRoot : file.inode.inodeNum.toNat ≠ 0)
    (live : (inodeAt layout state.disk file.inode.inodeNum.toNat).type ≠ inodeTypeFree) :
    ∃ after writes, (nebulaFileDelete file).run state = (.ok (), after) ∧
      after.Solid uuid layout ∧
      after.disk = (state.disk.push writes).push
        [(layout.inodePageLba + file.inode.inodeNum.toNat, zeroBlock)] ∧
      (∀ write ∈ writes, InBitmap layout write.1) ∧
      ∀ lba, after.taken lba = true ↔ state.taken lba = true ∧ ¬ file.inode.Holds lba := by
  have sound := solid.sound
  have stream := sound.streamMap_eq
  have inodeEq := sound.inode_eq
  have everywhere : ∀ lba, file.inode.HoldsIn (List.finRange 248) lba ↔ file.inode.Holds lba := by
    intro lba
    simp [NebulaInode.HoldsIn, NebulaInode.Holds]
  obtain ⟨middle, writes, ran, solid', disk, pages, left⟩ := fileDeleteLoop_spec backs.mapped
    backs.inData solid (List.nodup_finRange 248)
    (fun lba held => backs.taken lba ((everywhere lba).mp held)) none
  have still : (inodeAt layout middle.disk file.inode.inodeNum.toNat).type ≠ inodeTypeFree := by
    rw [disk, inodeAt_push_of_ne]
    · exact live
    · intro write member here
      have page := pages write member
      rw [InBitmap] at page
      omega
  have freed :=
    DirOk.run_inodeFree solid'.ready inside (fun zero => notRoot (by rw [zero]; rfl)) still
  refine ⟨middle.withDisk (middle.disk.push
    [(layout.inodePageLba + file.inode.inodeNum.toNat, zeroBlock)]), writes, ?_, solid'.push ?_, ?_,
    pages, fun lba => ?_⟩
  · simp only [nebulaFileDelete, run_bind_ok ran, run_attempt_bind, freed]
    rfl
  · simp only [List.mem_singleton, forall_eq, InBitmap]
    omega
  · rw [FsState.disk_withDisk, disk]
  · rw [FsState.taken_withDisk, left, everywhere]

end Calls

end MiniFs
