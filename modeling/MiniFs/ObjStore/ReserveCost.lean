import MiniFs.Nebula.AllocSpec
import MiniFs.ObjStore.Chunk

/-!
# What a failed reservation costs

A reservation that needs a new chunk allocates the blocks of the chunk before it has an id and a
record for it.  Where one of these later puts fails, the blocks stay allocated.
-/

namespace MiniFs.ObjStore

/-- `ChunkEngine::reserve` in an environment that has decided how each action goes. -/
def reserveUnder (chances : Nat → Chance) (maxLength : UInt32) (mem : StoreMem) (media : Media) :
    (Except Status Reservation × StoreMem) × Media :=
  (reserve maxLength mem).runWith (fun chance op => op.exec chance) chances media

/-- The device bitmap and its free counts, loaded and on the device, are the same. -/
def SameSpace (mem : StoreMem) (media : Media) (mem' : StoreMem) (media' : Media) : Prop :=
  mem'.mount.bitmap = mem.mount.bitmap ∧ ∀ page < mem.mount.bitmap.numPages,
    media'.disk.content (mem.mount.sb.bitmapLba.toNat + page) =
      media.disk.content (mem.mount.sb.bitmapLba.toNat + page)

/-- If the reservation fails, the space on the device is as before. -/
def FailureCostsNothing (chances : Nat → Chance) (maxLength : UInt32) (mem : StoreMem)
    (media : Media) : Prop :=
  ∀ status, (reserveUnder chances maxLength mem media).1.1 = .error status →
    SameSpace mem media (reserveUnder chances maxLength mem media).1.2
      (reserveUnder chances maxLength mem media).2

/-- The reservation needs a new chunk, and allocates its blocks in the given action: there is no
active chunk, or it is full and the put that seals it succeeds. -/
def FreshChunkAt (chances : Nat → Chance) (mem : StoreMem) (action : Nat) : Prop :=
  mem.active = none ∧ action = 0 ∨
    ∃ c, mem.active = some c ∧ kChunkSize ≤ c.writeOffset ∧ (chances 0).io = .ok ∧ action = 1

/-- There are blocks for a chunk, and the bitmap pages of the first fit can be written. -/
def RoomForChunk (io : IoOutcome) (mem : StoreMem) (media : Media) : Prop :=
  kChunkBlocks ≤ mem.mount.bitmap.l2TotalFree.toNat ∧
    ∃ start, firstRun (bitGet mem.mount.bitmap.l0Bits) kChunkBlocks (searchedBits mem.mount) =
      some start ∧
      (flushDirtyPages io media.disk
        (mem.mount.withBitmap (markRun mem.mount.bitmap start kChunkBlocks)) start
        (start + kChunkBlocks - 1)).1 = .ok ()

/-- A new chunk is needed and there is room for it, but the put of the id counter or of the chunk
record fails. -/
def LosesChunk (chances : Nat → Chance) (maxLength : UInt32) (mem : StoreMem) (media : Media) :
    Prop :=
  0 < maxLength ∧ ∃ action, FreshChunkAt chances mem action ∧
    RoomForChunk (chances action).io mem media ∧
    ((chances (action + 1)).io ≠ .ok ∨ (chances (action + 2)).io ≠ .ok)

section Fresh

variable {chances : Nat → Chance} {maxLength : UInt32} {mem : StoreMem} {media : Media}

theorem SameSpace.refl_of (same : mem.mount = mem'.mount) (disk : media.disk = media'.disk) :
    SameSpace mem media mem' media' := by
  rw [SameSpace, ← same, ← disk]
  exact ⟨rfl, fun _ _ => rfl⟩

/-- A marked run shows in the bitmap. -/
theorem markRun_ne {bitmap : HierBitmap} {start n : Nat} (positive : 0 < n)
    (free : FreeRun (bitGet bitmap.l0Bits) n start) : markRun bitmap start n ≠ bitmap := by
  intro same
  have bit := congrArg (fun bitmap : HierBitmap => bitGet bitmap.l0Bits start) same
  have clear := free 0 positive
  rw [Nat.add_zero] at clear
  simp only [markRun_l0Bits, bitGet_setRange, clear, Bool.or_false, decide_eq_false_iff_not] at bit
  omega

/-- Without room the allocation fails, and without effect. -/
theorem alloc_without_room {io : IoOutcome} (atomic : io.Atomic)
    (full : ¬ RoomForChunk io mem media) :
    ∃ error, nebulaBlockAlloc io media.disk mem.mount kChunkBlocks =
      (.error error, media.disk, mem.mount) := by
  have failed : ∀ lba, (nebulaBlockAlloc io media.disk mem.mount kChunkBlocks).1 ≠ .ok lba := by
    intro lba done
    rw [nebulaBlockAlloc, if_neg (by decide)] at done
    split_ifs at done with short
    cases found : firstRun (bitGet mem.mount.bitmap.l0Bits) kChunkBlocks
        (searchedBits mem.mount) with
    | none =>
        rw [found] at done
        contradiction
    | some start =>
        rw [found] at done
        refine full ⟨not_lt.mp short, start, found, ?_⟩
        simp only [claimRun] at done
        cases flushed : flushDirtyPages io media.disk
            (mem.mount.withBitmap (markRun mem.mount.bitmap start kChunkBlocks)) start
            (start + kChunkBlocks - 1) with
        | mk status after =>
            cases status with
            | ok done => rfl
            | error error =>
                rw [flushed] at done
                contradiction
  cases status : (nebulaBlockAlloc io media.disk mem.mount kChunkBlocks).1 with
  | ok lba => exact absurd status (failed lba)
  | error error => exact ⟨error, Prod.ext status (nebulaBlockAlloc_atomic atomic status)⟩

/-- With room the allocation takes a run that was free. -/
theorem alloc_with_room {io : IoOutcome} (room : RoomForChunk io mem media) :
    ∃ start disk, FreeRun (bitGet mem.mount.bitmap.l0Bits) kChunkBlocks start ∧
      nebulaBlockAlloc io media.disk mem.mount kChunkBlocks =
        (.ok start, disk, mem.mount.withBitmap (markRun mem.mount.bitmap start kChunkBlocks)) := by
  obtain ⟨enough, start, found, written⟩ := room
  obtain ⟨free, -, -⟩ := firstRun_eq_some (by decide) found
  obtain ⟨status, marked⟩ := claimRun_ok written
  refine ⟨start, (claimRun io media.disk mem.mount start kChunkBlocks).2.1, free, ?_⟩
  rw [nebulaBlockAlloc, if_neg (by decide), if_neg (not_lt.mpr enough), found]
  exact Prod.ext status (Prod.ext rfl marked)

theorem exec_write_ok {chance : Chance} (done : chance.io = .ok) (sync : Bool) (batch : Batch)
    (media : Media) :
    PrimOp.exec chance (.write sync batch) media = (true, media.commit sync batch) := by
  rw [PrimOp.exec, done]

theorem exec_write_fail {chance : Chance} (failed : chance.io ≠ .ok) (sync : Bool) (batch : Batch)
    (media : Media) : PrimOp.exec chance (.write sync batch) media = (false, media) := by
  cases decision : chance.io with
  | ok => exact absurd decision failed
  | fail landed => rw [PrimOp.exec, decision]

/-- The part of a reservation that makes a new chunk costs nothing when it fails, unless there was
room and one of the two puts failed. -/
theorem reserveFresh_cost (some : 0 < maxLength) (atomic : (chances 0).io.Atomic) :
    (∀ status, ((reserveFresh maxLength some mem).runWith (fun chance op => op.exec chance)
        chances media).1.1 = .error status →
      SameSpace mem media
        ((reserveFresh maxLength some mem).runWith (fun chance op => op.exec chance)
          chances media).1.2
        ((reserveFresh maxLength some mem).runWith (fun chance op => op.exec chance)
          chances media).2) ↔
      ¬ (RoomForChunk (chances 0).io mem media ∧
        ((chances 1).io ≠ .ok ∨ (chances 2).io ≠ .ok)) := by
  by_cases room : RoomForChunk (chances 0).io mem media
  · obtain ⟨start, disk, free, allocated⟩ := alloc_with_room room
    have changed : ∀ mem' media', mem'.mount =
        mem.mount.withBitmap (markRun mem.mount.bitmap start kChunkBlocks) →
          ¬ SameSpace mem media mem' media' := by
      rintro mem' media' mount ⟨same, -⟩
      rw [mount, NebulaMount.withBitmap_bitmap] at same
      exact markRun_ne (by decide) free same
    have blocks : PrimOp.exec (chances 0) (.blockAlloc mem.mount kChunkBlocks) media =
        ((.ok start, mem.mount.withBitmap (markRun mem.mount.bitmap start kChunkBlocks)),
          media.withDisk disk) := by
      rw [PrimOp.exec, allocated]
    by_cases id : (chances 1).io = .ok
    · by_cases record : (chances 2).io = .ok
      · simp [reserveFresh, Prog.runWith, blocks, allocateChunkId, putSynced, exec_write_ok id,
          exec_write_ok record, id, record]
      · simp only [reserveFresh, Prog.runWith, blocks, allocateChunkId, putSynced, Prog.call_bind,
          Prog.ret_bind, exec_write_ok id, exec_write_fail record, if_true]
        refine iff_of_false (fun claim => ?_) (fun none => none ⟨room, .inr record⟩)
        exact changed _ _ rfl (claim _ rfl)
    · simp only [reserveFresh, Prog.runWith, blocks, allocateChunkId, Prog.call_bind, Prog.ret_bind,
        exec_write_fail id, Bool.false_eq_true, if_false]
      refine iff_of_false (fun claim => ?_) (fun none => none ⟨room, .inl id⟩)
      exact changed _ _ rfl (claim _ rfl)
  · obtain ⟨error, failed⟩ := alloc_without_room atomic room
    simp only [reserveFresh, Prog.runWith, PrimOp.exec, failed, room, false_and, not_false_eq_true,
      iff_true]
    exact fun _ _ => .refl_of rfl rfl

/-- A failed reservation leaves the space on the device as it was, exactly when it does not lose a
chunk: it does not get to a new chunk, or there is no room for one, or both puts succeed. -/
theorem failure_costs_nothing_iff (atomic : ∀ action, (chances action).io.Atomic) :
    FailureCostsNothing chances maxLength mem media ↔ ¬ LosesChunk chances maxLength mem media := by
  by_cases some : 0 < maxLength
  · cases holds : mem.active with
    | none =>
        have fresh := @reserveFresh_cost chances maxLength mem media some (atomic 0)
        have loses : LosesChunk chances maxLength mem media ↔
            RoomForChunk (chances 0).io mem media ∧
              ((chances 1).io ≠ .ok ∨ (chances 2).io ≠ .ok) := by
          constructor
          · rintro ⟨-, action, ⟨-, rfl⟩ | ⟨c, active, -⟩, lost⟩
            · exact lost
            · rw [holds] at active
              contradiction
          · exact fun lost => ⟨some, 0, .inl ⟨holds, rfl⟩, lost⟩
        rw [loses, ← fresh]
        simp only [FailureCostsNothing, reserveUnder, reserve, dif_pos some, holds]
    | some c =>
        by_cases room : c.writeOffset < kChunkSize
        · have keeps : ¬ LosesChunk chances maxLength mem media := by
            rintro ⟨-, action, ⟨absent, -⟩ | ⟨c', active, full, -⟩, -⟩
            · rw [holds] at absent
              contradiction
            · rw [holds, Option.some.injEq] at active
              rw [← active] at full
              exact absurd room (UInt32.not_lt.mpr full)
          refine iff_of_true (fun status failed => ?_) keeps
          simp [reserveUnder, reserve, some, holds, room, Prog.runWith] at failed
        · by_cases sealed_ : (chances 0).io = .ok
          · have fresh := @reserveFresh_cost (fun action => chances (action + 1)) maxLength
              { mem with active := none }
              (media.commit true [.chunk { c with isSealed := true }]) some (atomic 1)
            have loses : LosesChunk chances maxLength mem media ↔
                RoomForChunk (chances 1).io mem media ∧
                  ((chances 2).io ≠ .ok ∨ (chances 3).io ≠ .ok) := by
              constructor
              · rintro ⟨-, action, ⟨absent, -⟩ | ⟨-, -, -, -, rfl⟩, lost⟩
                · rw [holds] at absent
                  contradiction
                · exact lost
              · exact fun lost => ⟨some, 1, .inr ⟨c, holds, UInt32.not_lt.mp room, sealed_, rfl⟩,
                  lost⟩
            rw [loses]
            refine Iff.trans ?_ fresh
            simp only [FailureCostsNothing, reserveUnder, reserve, dif_pos some, holds,
              dif_neg room, sealActive, putSynced, Prog.call_bind, Prog.runWith,
              exec_write_ok sealed_, Prog.ret_bind]
            rfl
          · have keeps : ¬ LosesChunk chances maxLength mem media := by
              rintro ⟨-, action, ⟨absent, -⟩ | ⟨-, -, -, done, -⟩, -⟩
              · rw [holds] at absent
                contradiction
              · exact sealed_ done
            refine iff_of_true (fun status failed => ?_) keeps
            simp only [reserveUnder, reserve, dif_pos some, holds, dif_neg room, sealActive,
              putSynced, Prog.call_bind, Prog.runWith, exec_write_fail sealed_, Prog.ret_bind]
            exact .refl_of rfl rfl
  · refine iff_of_true (fun status failed => ?_) fun loses => some loses.1
    simp only [reserveUnder, reserve, dif_neg some, Prog.runWith]
    exact .refl_of rfl rfl

end Fresh

/-- An opened store without objects and chunks. -/
def newMem (mount : NebulaMount) : StoreMem where
  mount := mount
  nextObjectId := 1
  nextChunkId := 1
  active := none
  syncMetadata := true

/-- A device with an empty database. -/
def newMedia (disk : Disk) : Media := ⟨disk, ⟨SortedMap.empty, []⟩⟩

/-- The put of the id counter fails without effect, the rest succeeds. -/
def idPutFails (action : Nat) : Chance where
  io := if action = 1 then .fail fun _ => false else .ok
  heap := fun _ => zeroBlock

/-- A fresh device of 256 MiB has room for a chunk. -/
theorem roomForChunk_plainDisk : ∃ mount,
    nebulaMountDo (fun _ => zeroBlock) (plainDisk 65536 (by decide)) = .ok mount ∧
    RoomForChunk .ok (newMem mount) (newMedia (plainDisk 65536 (by decide))) := by
  obtain ⟨layout, mount, -, mounts, exact, total, bits⟩ := plainDisk_volume
  have room := exact.sound.data_room
  have tail := exact.sound.allocRootsTail_eq
  have covers := exact.sound.bitmap_covers
  have free : FreeRun (bitGet mount.bitmap.l0Bits) kChunkBlocks layout.dataStartLba := by
    intro offset below
    simp only [kChunkBlocks] at below
    rw [bits _ (by omega), lbaIsMetadata]
    simp only [Bool.and_eq_false_iff, Bool.or_eq_false_iff, decide_eq_false_iff_not]
    omega
  have inside : layout.dataStartLba + kChunkBlocks ≤ layout.capacityBlocks := by
    simp only [kChunkBlocks]
    omega
  refine ⟨mount, mounts, exact.run_le_free free inside, ?_⟩
  have searched : searchedBits mount = layout.capacityBlocks := exact.searchedBits_eq
  simp only [newMem, searched]
  cases found : firstRun (bitGet mount.bitmap.l0Bits) kChunkBlocks layout.capacityBlocks with
  | none => exact absurd free (firstRun_eq_none (by decide) found _ inside)
  | some start =>
      obtain ⟨-, fits, -⟩ := firstRun_eq_some (by decide) found
      exact ⟨start, rfl, congrArg Prod.fst (exact.flush_ok _ (by decide) fits)⟩

/-- With a failing page write there is no room for a chunk. -/
theorem not_roomForChunk {mem : StoreMem} {media : Media} (landed : Nat → Bool) :
    ¬ RoomForChunk (.fail landed) mem media := by
  rintro ⟨-, start, -, written⟩
  simp only [flushDirtyPages, nebulaIoWrite] at written
  split at written
  · contradiction
  · contradiction

/-- On the fresh device a reservation fails where no page can be written, and costs nothing. -/
theorem failure_costs_nothing_plainDisk : ∃ mount, ∃ chances : Nat → Chance,
    nebulaMountDo (fun _ => zeroBlock) (plainDisk 65536 (by decide)) = .ok mount ∧
    (reserveUnder chances 5 (newMem mount) (newMedia (plainDisk 65536 (by decide)))).1.1 =
      .error .ERROR_NO_SPACE ∧
    SameSpace (newMem mount) (newMedia (plainDisk 65536 (by decide)))
      (reserveUnder chances 5 (newMem mount) (newMedia (plainDisk 65536 (by decide)))).1.2
      (reserveUnder chances 5 (newMem mount) (newMedia (plainDisk 65536 (by decide)))).2 := by
  obtain ⟨mount, mounts, -⟩ := roomForChunk_plainDisk
  have atomic : (IoOutcome.fail fun _ => false).Atomic := fun _ => rfl
  have costs := (@failure_costs_nothing_iff (fun _ => ⟨.fail fun _ => false, fun _ => zeroBlock⟩) 5
    (newMem mount) (newMedia (plainDisk 65536 (by decide))) fun _ => atomic).mpr (by
      rintro ⟨-, action, -, room, -⟩
      exact not_roomForChunk _ room)
  have failed : (reserveUnder (fun _ => ⟨.fail fun _ => false, fun _ => zeroBlock⟩) 5 (newMem mount)
      (newMedia (plainDisk 65536 (by decide)))).1.1 = .error .ERROR_NO_SPACE := by
    obtain ⟨error, refused⟩ := @alloc_without_room (newMem mount)
      (newMedia (plainDisk 65536 (by decide))) _ atomic (not_roomForChunk _)
    simp only [reserveUnder, reserve, dif_pos (show (0 : UInt32) < 5 by decide),
      show (newMem mount).active = none from rfl, reserveFresh, Prog.runWith, PrimOp.exec, refused]
  exact ⟨mount, _, mounts, failed, costs _ failed⟩

/-- A failed put of the id counter leaves the blocks of the new chunk allocated. -/
theorem reserve_loses_chunk : ¬ ∀ (chances : Nat → Chance) (maxLength : UInt32) (mem : StoreMem)
    (media : Media), (∀ action, (chances action).io.Atomic) →
      FailureCostsNothing chances maxLength mem media := by
  intro claim
  obtain ⟨mount, -, room⟩ := roomForChunk_plainDisk
  have atomic : ∀ action, (idPutFails action).io.Atomic := by
    intro action
    simp only [idPutFails]
    split_ifs
    · exact fun _ => rfl
    · trivial
  have costs := claim idPutFails 5 (newMem mount) (newMedia (plainDisk 65536 (by decide))) atomic
  have fresh := @reserveFresh_cost idPutFails 5 (newMem mount)
    (newMedia (plainDisk 65536 (by decide))) (by decide) (atomic 0)
  simp only [FailureCostsNothing, reserveUnder, reserve, dif_pos (show (0 : UInt32) < 5 by decide),
    show (newMem mount).active = none from rfl] at costs
  exact fresh.mp costs ⟨room, .inl fun done => by contradiction⟩

end MiniFs.ObjStore
