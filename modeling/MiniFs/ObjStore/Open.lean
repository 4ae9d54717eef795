import MiniFs.ObjStore.WriteCall

/-!
# Opening the store

A mount loads the bitmap from the device, the counters come from the database, and the scan adopts
an unsealed chunk as it was recorded.
-/

namespace MiniFs.ObjStore

open Packed

/-- The invariant of a closed store whose objects are those of the ledger. -/
structure ClosedInv (options : FormatOptions) (layout : NebulaLayout) (Fresh Keyed : Prop)
    (L : Ledger) (media : Media) : Prop extends MediaOk options layout media where
  ids : Fresh → ChunkIdsBelow media.view
  extents : Fresh → ExtentsOk media.view
  durable : Fresh → Keyed → Durable L media

/-- The memory of a store that has been mounted and nothing else. -/
def mountedMem (mount : NebulaMount) (syncMetadata : Bool) : StoreMem where
  mount := mount
  nextObjectId := 0
  nextChunkId := 0
  active := none
  syncMetadata := syncMetadata

/-- What opening leaves behind. -/
structure OpenPost (options : FormatOptions) (layout : NebulaLayout) (Fresh Keyed : Prop)
    (L : Ledger) (result : Option (Except Status StoreMem)) (media : Media) : Prop where
  closed : ClosedInv options layout Fresh Keyed L media
  opened : ∀ mem, result = some (.ok mem) → StoreInv options layout Fresh Keyed L mem media

section Open

variable {options : FormatOptions} {layout : NebulaLayout} {Fresh Keyed : Prop} {L : Ledger}
  {act : Media → (op : PrimOp) → op.Res → Media → Prop} {mem : StoreMem} {media : Media}

theorem StoreInv.closed (inv : StoreInv options layout Fresh Keyed L mem media) :
    ClosedInv options layout Fresh Keyed L media :=
  ⟨inv.toMediaOk, inv.ids, inv.extents, inv.durable⟩

/-- A loaded bitmap marks what the device says. -/
theorem MediaOk.mounted (inv : MediaOk options layout media) {mount : NebulaMount}
    (mounted : Mountable.Mounted options layout media.disk mount) (sync : Bool) :
    BaseInv options layout (mountedMem mount sync) media where
  toMediaOk := inv
  memory := by
    have bit : ∀ index < layout.capacityBlocks,
        bitGet mount.bitmap.l0Bits index = bitGet (bitmapPages layout media.disk) index := by
      intro index inside
      exact bitGet_congr (mounted.l0Bits _ (page_lt_count inv.sound inside))
    refine ⟨mounted.sb, mounted.numPages, ?_, ?_, fun _ none => nomatch none⟩
    · intro index here
      have page := page_lt_count inv.sound here.1
      rw [mountedMem, bit index here.1, ← bitGet_image]
      exact content_of_pageImage (inv.device.reserved _ page) index rfl here
    · intro index recorded
      rw [mountedMem, bit index (inv.records.lt_capacity inv.sound recorded)]
      exact inv.marked index recorded

/-- An action of a closed store that changes nothing and writes nothing. -/
theorem CallStep.idle (inv : ClosedInv options layout Fresh Keyed L media) {op : PrimOp}
    (silent : ∀ index, ¬ op.Writes index) :
    CallStep options layout Fresh Keyed (· = L) media op media where
  media := inv.toMediaOk
  ids := inv.ids
  extents := inv.extents
  durable := fun fresh keyed => ⟨L, rfl, inv.durable fresh keyed⟩
  spared := fun index written => absurd written (silent index)
  grow := fun _ => ChunksGrow.refl _

/-- A store that is being opened: mounted, and as good as closed. -/
structure OpeningInv (options : FormatOptions) (layout : NebulaLayout) (Fresh Keyed : Prop)
    (L : Ledger)
    (mem : StoreMem) (media : Media) :
    Prop extends ClosedInv options layout Fresh Keyed L media where
  memory : MemOk options layout media.view mem

/-- A database write of the opening. -/
theorem OpeningInv.commit (inv : OpeningInv options layout Fresh Keyed L mem media) {sync : Bool}
    {batch : Batch} (noChunk : ∀ c, MetaPut.chunk c ∉ batch)
    (path : ∀ path, validateObjectPath path = true →
      (media.view.apply batch).lookup (.path path) = media.view.lookup (.path path))
    (attrs : ∀ oid, (media.view.apply batch).lookup (.attrs oid) = media.view.lookup (.attrs oid))
    (extents : ∀ oid off, (media.view.apply batch).lookup (.extent oid off) =
      media.view.lookup (.extent oid off))
    (objects : ∀ next, media.view.nextObj? = some next →
      (media.view.apply batch).nextObj? = some next)
    (chunks : ∀ next, media.view.nextChunk? = some next →
      (media.view.apply batch).nextChunk? = some next) :
    OpeningInv options layout Fresh Keyed L mem (media.commit sync batch) ∧
      CallStep options layout Fresh Keyed (· = L) media (.write sync batch)
        (media.commit sync batch) := by
  have base := @BaseInv.commit_other _ _ _ _ ⟨inv.toMediaOk, inv.memory⟩ sync batch noChunk
  have grow : ChunksGrow media.view (media.view.apply batch) := ChunksGrow.apply_other noChunk
  have ids : Fresh → ChunkIdsBelow (media.commit sync batch).view := by
    intro fresh cid c found
    rw [Media.view_commit] at found ⊢
    rw [Db.chunk?_apply_of_not_mem fun c member => absurd member (noChunk c)] at found
    obtain ⟨next, persisted, below⟩ := inv.ids fresh found
    exact ⟨next, chunks next persisted, below⟩
  have extentsOk : Fresh → ExtentsOk (media.commit sync batch).view := by
    intro fresh
    rw [Media.view_commit]
    exact (inv.extents fresh).grow (fun oid off => Db.extent?_congr (extents oid off)) grow
  have durable : Fresh → Keyed → Durable L (media.commit sync batch) := fun fresh keyed =>
    (inv.durable fresh keyed).commit (Ledger.Le.refl _)
      ((inv.durable fresh keyed).now.grow ((inv.durable fresh keyed).now.keys.apply _) path attrs
        extents (fun next persisted => ⟨next, objects next persisted, UInt64.le_refl _⟩) grow) grow
  refine ⟨⟨⟨base.toMediaOk, ids, extentsOk, durable⟩, base.memory⟩,
    ⟨⟨base.toMediaOk, ids, extentsOk,
    fun fresh keyed => ⟨L, rfl, durable fresh keyed⟩⟩, fun _ written => written.elim, fun _ => ?_⟩⟩
  rwa [Media.view_commit]

/-- What each part of `MetadataStore::open` leaves behind. -/
def OpeningPost {α : Type} (options : FormatOptions) (layout : NebulaLayout) (Fresh Keyed : Prop)
    (L : Ledger) (mem : StoreMem) (Done : α → Media → Prop) (result : Except Status α)
    (media : Media) : Prop :=
  OpeningInv options layout Fresh Keyed L mem media ∧ ∀ value, result = .ok value → Done value media

theorem openRootEntry_safe (actOk : ActOk Fresh Keyed act)
    (inv : OpeningInv options layout Fresh Keyed L mem media) :
    openRootEntry.Safe act
      (fun before op _ after => CallStep options layout Fresh Keyed (· = L) before op after)
      (OpeningPost options layout Fresh Keyed L mem fun _ _ => True) media := by
  intro bytes after acted
  obtain ⟨rfl, unchanged⟩ := actOk.get acted
  obtain rfl := unchanged.symm
  refine ⟨CallStep.idle inv.toClosedInv fun _ => id, ?_⟩
  cases media.view.lookup (.path [47]) with
  | some bytes => exact ⟨inv, fun _ _ => trivial⟩
  | none =>
      intro done after acted
      obtain ⟨kept, step⟩ := @OpeningInv.commit _ _ _ _ _ _ _ inv false [.path [47] 0] (by simp)
        (fun path valid => Db.lookup_apply_of_not_mem (by
          simp only [List.mem_singleton, forall_eq, MetaPut.key, ne_eq, MetaKey.path.injEq]
          rintro rfl
          revert valid
          decide))
        (fun oid => Db.lookup_apply_of_not_mem (by simp [MetaPut.key]))
        (fun oid off => Db.lookup_apply_of_not_mem (by simp [MetaPut.key]))
        (fun next persisted => by rw [Db.nextObj?_apply_of_not_mem (by simp)]; exact persisted)
        (fun next persisted => by rw [Db.nextChunk?_apply_of_not_mem (by simp)]; exact persisted)
      rcases primAct_write (actOk.sub acted) with ⟨rfl, rfl⟩ | ⟨rfl, unchanged⟩
      · exact ⟨step, kept, fun _ _ => trivial⟩
      · obtain rfl := unchanged.symm
        exact ⟨CallStep.idle inv.toClosedInv fun _ => id, inv, fun _ _ => trivial⟩

theorem initOrCheckSchema_safe (actOk : ActOk Fresh Keyed act)
    (inv : OpeningInv options layout Fresh Keyed L mem media) :
    initOrCheckSchema.Safe act
      (fun before op _ after => CallStep options layout Fresh Keyed (· = L) before op after)
      (OpeningPost options layout Fresh Keyed L mem fun _ _ => True) media := by
  intro bytes after acted
  obtain ⟨rfl, unchanged⟩ := actOk.get acted
  obtain rfl := unchanged.symm
  refine ⟨CallStep.idle inv.toClosedInv fun _ => id, ?_⟩
  cases media.view.lookup .schema with
  | none =>
      intro done after acted
      obtain ⟨kept, step⟩ := @OpeningInv.commit _ _ _ _ _ _ _ inv true [.schema kSchemaVersion]
        (by simp) (fun path valid => Db.lookup_apply_of_not_mem (by simp [MetaPut.key]))
        (fun oid => Db.lookup_apply_of_not_mem (by simp [MetaPut.key]))
        (fun oid off => Db.lookup_apply_of_not_mem (by simp [MetaPut.key]))
        (fun next persisted => by rw [Db.nextObj?_apply_of_not_mem (by simp)]; exact persisted)
        (fun next persisted => by rw [Db.nextChunk?_apply_of_not_mem (by simp)]; exact persisted)
      rcases primAct_write (actOk.sub acted) with ⟨rfl, rfl⟩ | ⟨rfl, unchanged⟩
      · exact ⟨step, kept, fun _ _ => trivial⟩
      · obtain rfl := unchanged.symm
        exact ⟨CallStep.idle inv.toClosedInv fun _ => id, inv, fun _ _ => trivial⟩
  | some bytes =>
      simp only
      split
      · exact ⟨inv, fun _ _ => trivial⟩
      · split_ifs <;> exact ⟨inv, fun _ _ => trivial⟩

/-- The counters that `read_counters_locked` writes back are the persisted ones. -/
theorem readCounters_safe (actOk : ActOk Fresh Keyed act)
    (inv : OpeningInv options layout Fresh Keyed L mem media) :
    readCounters.Safe act
      (fun before op _ after => CallStep options layout Fresh Keyed (· = L) before op after)
      (OpeningPost options layout Fresh Keyed L mem fun counters media =>
        media.view.nextObj? = some counters.1 ∧ media.view.nextChunk? = some counters.2) media := by
  intro objBytes after acted
  obtain ⟨rfl, unchanged⟩ := actOk.get acted
  obtain rfl := unchanged.symm
  refine ⟨CallStep.idle inv.toClosedInv fun _ => id, ?_⟩
  simp only
  split
  · exact ⟨inv, by simp⟩
  · rename_i nextObjectId objects
    intro chunkBytes after acted
    obtain ⟨rfl, unchanged⟩ := actOk.get acted
    obtain rfl := unchanged.symm
    refine ⟨CallStep.idle inv.toClosedInv fun _ => id, ?_⟩
    simp only
    split
    · exact ⟨inv, by simp⟩
    · rename_i nextChunkId chunks
      have newObj : (media.view.apply [.nextObj nextObjectId, .nextChunk nextChunkId]).nextObj? =
          some nextObjectId := by
        have stored := @Db.lookup_apply_of_mem media.view
          [.nextObj nextObjectId, .nextChunk nextChunkId] (.nextObj nextObjectId) (by simp)
          (by simp [MetaPut.key])
        simp only [MetaPut.key] at stored
        simp [Db.nextObj?, stored, MetaPut.value]
      have newChunk : (media.view.apply
          [.nextObj nextObjectId, .nextChunk nextChunkId]).nextChunk? = some nextChunkId := by
        have stored := @Db.lookup_apply_of_mem media.view
          [.nextObj nextObjectId, .nextChunk nextChunkId] (.nextChunk nextChunkId) (by simp)
          (by simp [MetaPut.key])
        simp only [MetaPut.key] at stored
        simp [Db.nextChunk?, stored, MetaPut.value]
      intro done after acted
      obtain ⟨kept, step⟩ := @OpeningInv.commit _ _ _ _ _ _ _ inv true
        [.nextObj nextObjectId, .nextChunk nextChunkId] (by simp)
        (fun path valid => Db.lookup_apply_of_not_mem (by simp [MetaPut.key]))
        (fun oid => Db.lookup_apply_of_not_mem (by simp [MetaPut.key]))
        (fun oid off => Db.lookup_apply_of_not_mem (by simp [MetaPut.key]))
        (fun next persisted => by
          rw [newObj, ← persisted]
          rw [Db.nextObj?] at persisted ⊢
          cases stored : media.view.lookup .nextObj with
          | none => simp [stored] at persisted
          | some bytes => simpa [stored, counterOfGet] using objects.symm)
        (fun next persisted => by
          rw [newChunk, ← persisted]
          rw [Db.nextChunk?] at persisted ⊢
          cases stored : media.view.lookup .nextChunk with
          | none => simp [stored] at persisted
          | some bytes => simpa [stored, counterOfGet] using chunks.symm)
      rcases primAct_write (actOk.sub acted) with ⟨rfl, rfl⟩ | ⟨rfl, unchanged⟩
      · refine ⟨step, kept, ?_⟩
        rintro _ ⟨⟩
        rw [Media.view_commit]
        exact ⟨newObj, newChunk⟩
      · obtain rfl := unchanged.symm
        exact ⟨CallStep.idle inv.toClosedInv fun _ => id, inv, by simp⟩

theorem metadataOpen_safe (actOk : ActOk Fresh Keyed act)
    (inv : OpeningInv options layout Fresh Keyed L mem media) :
    metadataOpen.Safe act
      (fun before op _ after => CallStep options layout Fresh Keyed (· = L) before op after)
      (OpeningPost options layout Fresh Keyed L mem fun counters media =>
        media.view.nextObj? = some counters.1 ∧ media.view.nextChunk? = some counters.2) media := by
  refine (openRootEntry_safe actOk inv).bind ?_
  rintro (status | done) media₁ ⟨inv₁, -⟩
  · exact ⟨inv₁, by simp⟩
  · refine (initOrCheckSchema_safe actOk inv₁).bind ?_
    rintro (status | done) media₂ ⟨inv₂, -⟩
    · exact ⟨inv₂, by simp⟩
    · exact readCounters_safe actOk inv₂

/-- The scan adopts a recorded chunk. -/
theorem scanChunks_safe (actOk : ActOk Fresh Keyed act)
    (inv : ClosedInv options layout Fresh Keyed L media) (fuel : Nat) :
    ∀ (cid : UInt32) (active : Option Chunk), (∀ a, active = some a → ActiveOk media.view a) →
      (scanChunks fuel cid active).Safe act
        (fun before op _ after => CallStep options layout Fresh Keyed (· = L) before op after)
        (fun result media' => media' = media ∧ ∀ adopted, result = some (.ok adopted) →
          ∀ a, adopted = some a → ActiveOk media.view a) media := by
  induction fuel with
  | zero => exact fun _ _ _ => ⟨rfl, by simp⟩
  | succ fuel ih =>
      intro cid active ok bytes after acted
      obtain ⟨rfl, unchanged⟩ := actOk.get acted
      obtain rfl := unchanged.symm
      refine ⟨CallStep.idle inv fun _ => id, ?_⟩
      simp only
      split
      · refine ⟨rfl, ?_⟩
        rintro _ ⟨⟩
        exact ok
      · exact ⟨rfl, by simp⟩
      · rename_i c found
        have recorded : media.view.chunk? cid = some c := by
          cases stored : media.view.lookup (.chunk cid) with
          | none => simp [stored, statusOfGet, decodeChunkGet] at found
          | some bytes =>
              simp only [stored, statusOfGet, decodeChunkGet] at found
              split at found
              · simp at found
              · rename_i decoded
                rw [Except.ok.injEq] at found
                simp [Db.chunk?, stored, decoded, found]
        refine ih _ _ ?_
        split_ifs with isSealed
        · exact ok
        · rintro _ ⟨⟩
          have ident := inv.records.ident recorded
          exact ⟨inv.records.offset recorded, by simpa using isSealed, c, ident ▸ recorded, rfl,
            UInt32.le_refl _, by simpa using isSealed⟩

/-- Opening a device that fits the bitmap's read request adopts the ledger's objects. -/
theorem openStore_safe (actOk : ActOk Fresh Keyed act)
    (inv : ClosedInv options layout Fresh Keyed L media)
    (fits : layout.bitmapBlockCount < 2 ^ 32) (sync : Bool) :
    (openStore sync).Safe act
      (fun before op _ after => CallStep options layout Fresh Keyed (· = L) before op after)
      (OpenPost options layout Fresh Keyed L) media := by
  intro answer after acted
  obtain ⟨⟨heap, rfl⟩, unchanged⟩ := primAct_mount (actOk.sub acted)
  obtain rfl := unchanged.symm
  refine ⟨CallStep.idle inv fun _ => id, ?_⟩
  obtain ⟨mount, done, mounted⟩ := inv.device.mountable.nebulaMountDo_ok heap fits
  rw [done]
  have base := inv.toMediaOk.mounted mounted sync
  refine (metadataOpen_safe actOk ⟨inv, base.memory⟩).bind ?_
  rintro (status | ⟨nextObjectId, nextChunkId⟩) media₁ ⟨inv₁, counters⟩
  · exact ⟨inv₁.toClosedInv, by simp⟩
  · obtain ⟨objects, chunks⟩ := counters _ rfl
    refine (scanChunks_safe actOk inv₁.toClosedInv (2 ^ 32) 1 none (by simp)).bind ?_
    rintro (_ | status | active) _ ⟨rfl, adopted⟩
    · exact ⟨inv₁.toClosedInv, by simp⟩
    · exact ⟨inv₁.toClosedInv, by simp⟩
    · refine ⟨inv₁.toClosedInv, ?_⟩
      rintro _ ⟨⟩
      exact ⟨⟨⟨inv₁.toMediaOk, inv₁.memory.sb, inv₁.memory.numPages, inv₁.memory.reserved,
        inv₁.memory.marked, adopted active rfl⟩, inv₁.ids, fun _ => ⟨_, chunks, UInt32.le_refl _⟩⟩,
        inv₁.extents, inv₁.durable, fun _ => ⟨_, objects, UInt64.le_refl _⟩⟩

end Open

end MiniFs.ObjStore
