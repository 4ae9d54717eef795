import MiniFs.ObjStore.Ledger

/-!
# The calls

What `create` and `write` do, action by action: the media stay sound at every cut, no action writes
a committed block, and the ledger changes with the commit at the end and nowhere else.
-/

namespace MiniFs.ObjStore

/-- The invariant of an open store whose objects are those of the ledger. -/
structure StoreInv (options : FormatOptions) (layout : NebulaLayout) (Fresh Keyed : Prop)
    (L : Ledger) (mem : StoreMem) (media : Media) : Prop
    extends EngineInv options layout Fresh mem media where
  extents : Fresh → ExtentsOk media.view
  durable : Fresh → Keyed → Durable L media
  objCounter : Keyed → ∃ next, media.view.nextObj? = some next ∧ next ≤ mem.nextObjectId

/-- The invariant of the media at every cut of a call: the ledger is one of the allowed ones. -/
structure CutInv (options : FormatOptions) (layout : NebulaLayout) (Fresh Keyed : Prop)
    (Allowed : Ledger → Prop) (now : Media) : Prop where
  media : MediaOk options layout now
  ids : Fresh → ChunkIdsBelow now.view
  extents : Fresh → ExtentsOk now.view
  durable : Fresh → Keyed → ∃ L, Allowed L ∧ Durable L now

/-- One action of a call. -/
structure CallStep (options : FormatOptions) (layout : NebulaLayout) (Fresh Keyed : Prop)
    (Allowed : Ledger → Prop) (before : Media) (op : PrimOp) (after : Media) : Prop
    extends CutInv options layout Fresh Keyed Allowed after where
  spared : ∀ index, op.Writes index → ¬ UsedBlock before.view index
  grow : Fresh → ChunksGrow before.view after.view

/-- How a call ends: without effect, or with one of the ledgers it may lead to. -/
structure CallPost (options : FormatOptions) (layout : NebulaLayout) (Fresh Keyed : Prop)
    (L : Ledger) (Next : Ledger → Prop) (result : Except Status Unit × StoreMem) (media : Media) :
    Prop where
  error : ∀ status, result.1 = .error status →
    StoreInv options layout Fresh Keyed L result.2 media
  ok : result.1 = .ok () →
    ∃ L', (Fresh → Keyed → Next L') ∧ StoreInv options layout Fresh Keyed L' result.2 media

/-- The ledger after a create. -/
def Created (L : Ledger) (path : ByteString) (L' : Ledger) : Prop :=
  ∃ o : Object, L path = none ∧ o.writes = [] ∧ L' = Function.update L path (some o)

/-- The ledger after a write. -/
def Appended (L : Ledger) (path : ByteString) (data : List UInt8) (L' : Ledger) : Prop :=
  ∃ (o : Object) (a : ObjectAttrs) (segs : List Segment), L path = some o ∧
    segs.flatMap (·.data) = data ∧ L' = Function.update L path (some (o.append a segs))

section Steps

variable {options : FormatOptions} {layout : NebulaLayout} {Fresh Keyed : Prop} {L : Ledger}
  {Next : Ledger → Prop} {act : Media → (op : PrimOp) → op.Res → Media → Prop} {mem : StoreMem}
  {media : Media}

theorem Created.le {path : ByteString} {L' : Ledger} (created : Created L path L') : L.Le L' := by
  obtain ⟨o, absent, -, rfl⟩ := created
  intro p o' found
  have other : p ≠ path := fun same => by simp [same, absent] at found
  exact ⟨o', by rwa [Function.update_of_ne other], rfl, List.prefix_refl _⟩

theorem Appended.le {path : ByteString} {data : List UInt8} {L' : Ledger}
    (appended : Appended L path data L') : L.Le L' := by
  obtain ⟨o, a, segs, found, -, rfl⟩ := appended
  intro p o' found'
  by_cases same : p = path
  · subst same
    rw [found, Option.some.injEq] at found'
    subst found'
    exact ⟨_, Function.update_self .., rfl, List.prefix_append _ _⟩
  · exact ⟨o', by rwa [Function.update_of_ne same], rfl, List.prefix_refl _⟩

/-- An action that leaves the extents alone, lets the chunks grow, and writes nothing. -/
theorem CallStep.of_silent (inv : StoreInv options layout Fresh Keyed L mem media) {op : PrimOp}
    {after : Media} (mediaOk : MediaOk options layout after)
    (ids : Fresh → ChunkIdsBelow after.view)
    (durable : Fresh → Keyed → Durable L after) (silent : ∀ index, ¬ op.Writes index)
    (same : ∀ oid off, after.view.extent? oid off = media.view.extent? oid off)
    (grow : Fresh → ChunksGrow media.view after.view) :
    CallStep options layout Fresh Keyed (fun L' => L' = L ∨ Next L') media op after where
  media := mediaOk
  ids := ids
  extents := fun fresh => (inv.extents fresh).grow same (grow fresh)
  durable := fun fresh keyed => ⟨L, .inl rfl, durable fresh keyed⟩
  spared := fun index written => absurd written (silent index)
  grow := grow

/-- An action that changes nothing and writes nothing. -/
theorem CallStep.stay (inv : StoreInv options layout Fresh Keyed L mem media) {op : PrimOp}
    (silent : ∀ index, ¬ op.Writes index) :
    CallStep options layout Fresh Keyed (fun L' => L' = L ∨ Next L') media op media :=
  CallStep.of_silent inv inv.toMediaOk inv.ids inv.durable silent (fun _ _ => rfl)
    fun _ => ChunksGrow.refl _

/-- An action of the chunk engine. -/
theorem CallStep.of_chunkStep {op : PrimOp} {after : Media} (records : RecordsOk layout media.view)
    (extents : Fresh → ExtentsOk media.view) (durable : Fresh → Keyed → Durable L media)
    (step : ChunkStep options layout Fresh media op after) :
    CallStep options layout Fresh Keyed (fun L' => L' = L ∨ Next L') media op after where
  media := step.media
  ids := step.ids
  extents := fun fresh => (extents fresh).grow step.frame.extent? (step.frame.grow fresh)
  durable := fun fresh keyed =>
    ⟨L, .inl rfl, (durable fresh keyed).chunkStep fresh records step⟩
  spared := by
    intro index written used
    have low := (used.inData records).1
    have high := step.writes index written
    omega
  grow := step.frame.grow

/-- Writes without a chunk record or the chunk counter. -/
theorem EngineInv.commit_other (inv : EngineInv options layout Fresh mem media) {sync : Bool}
    {batch : Batch} (noChunk : ∀ c, MetaPut.chunk c ∉ batch)
    (noCounter : ∀ id, MetaPut.nextChunk id ∉ batch) :
    EngineInv options layout Fresh mem (media.commit sync batch) where
  toBaseInv := inv.toBaseInv.commit_other noChunk
  ids := by
    intro fresh cid c found
    rw [Media.view_commit, Db.chunk?_apply_of_not_mem fun c member => absurd member (noChunk c)]
      at found
    rw [Media.view_commit, Db.nextChunk?_apply_of_not_mem noCounter]
    exact inv.ids fresh found
  counter := by
    intro fresh
    rw [ChunkCounter, Media.view_commit, Db.nextChunk?_apply_of_not_mem noCounter]
    exact inv.counter fresh

theorem ChunksGrow.apply_other {db : Db} {batch : Batch} (noChunk : ∀ c, MetaPut.chunk c ∉ batch) :
    ChunksGrow db (db.apply batch) := by
  intro cid c found
  refine ⟨c, ?_, rfl, UInt32.le_refl _⟩
  rwa [Db.chunk?_apply_of_not_mem fun c member => absurd member (noChunk c)]

theorem Db.extent?_apply_other {db : Db} {batch : Batch}
    (noExtent : ∀ oid off e, MetaPut.extent oid off e ∉ batch) (oid off : UInt64) :
    (db.apply batch).extent? oid off = db.extent? oid off := by
  apply Db.extent?_congr
  apply Db.lookup_apply_of_not_mem
  intro put member
  cases put with
  | extent oid' off' e => exact absurd member (noExtent oid' off' e)
  | _ => simp [MetaPut.key]

theorem EngineInv.congr_objectId (inv : EngineInv options layout Fresh mem media) (id : UInt64) :
    EngineInv options layout Fresh { mem with nextObjectId := id } media where
  toBaseInv := inv.toBaseInv.congr_mem rfl rfl
  ids := inv.ids
  counter := inv.counter

/-- Advancing a counter that is not at its last value. -/
theorem UInt64.lt_add_one {id : UInt64} (room : id + 1 ≠ 0) : id < id + 1 := by
  rw [UInt64.lt_iff_toNat_lt, UInt64.toNat_add]
  have bound := id.toNat_lt
  have last : id.toNat + 1 ≠ 18446744073709551616 := by
    intro full
    apply room
    apply UInt64.toNat_inj.mp
    rw [UInt64.toNat_add, UInt64.toNat_one, full]
    rfl
  rw [UInt64.toNat_one, Nat.mod_eq_of_lt (by omega)]
  omega

theorem Db.nextObj?_apply_nextObj (db : Db) (id : UInt64) :
    (db.apply [.nextObj id]).nextObj? = some id := by
  have stored := @Db.lookup_apply_of_mem db [.nextObj id] (.nextObj id) (.head _) (by simp)
  simp only [MetaPut.key] at stored
  simp [Db.nextObj?, stored, MetaPut.value]

/-- The effect of `allocate_object_id` on the invariant. -/
theorem StoreInv.allocateObjectId (actOk : ActOk Fresh Keyed act)
    (inv : StoreInv options layout Fresh Keyed L mem media) {answer : Bool} {after : Media}
    (acted : act media (.write true [.nextObj (mem.nextObjectId + 1)]) answer after) :
    StoreInv options layout Fresh Keyed L { mem with nextObjectId := mem.nextObjectId + 1 } after ∧
      CallStep options layout Fresh Keyed (fun L' => L' = L ∨ Next L') media
        (.write true [.nextObj (mem.nextObjectId + 1)]) after ∧
      (Keyed → mem.nextObjectId < mem.nextObjectId + 1) ∧
      (answer = true → after.view.nextObj? = some (mem.nextObjectId + 1)) := by
  have advance : Keyed → mem.nextObjectId < mem.nextObjectId + 1 := fun keyed =>
    UInt64.lt_add_one (actOk.freshObj keyed acted)
  rcases primAct_write (actOk.sub acted) with ⟨rfl, rfl⟩ | ⟨rfl, rfl⟩
  · have engine := @EngineInv.commit_other _ _ _ _ _ inv.toEngineInv true
      [.nextObj (mem.nextObjectId + 1)] (by simp) (by simp)
    have counter : (media.commit true [.nextObj (mem.nextObjectId + 1)]).view.nextObj? =
        some (mem.nextObjectId + 1) := by
      rw [Media.view_commit, Db.nextObj?_apply_nextObj]
    have grow : ChunksGrow media.view (media.view.apply [.nextObj (mem.nextObjectId + 1)]) :=
      ChunksGrow.apply_other (by simp)
    have same : ∀ oid off,
      (media.commit true [.nextObj (mem.nextObjectId + 1)]).view.extent? oid off =
        media.view.extent? oid off := by
      intro oid off
      rw [Media.view_commit]
      exact Db.extent?_apply_other (by simp) oid off
    have durable : Fresh → Keyed →
        Durable L (media.commit true [.nextObj (mem.nextObjectId + 1)]) := by
      intro fresh keyed
      have old := inv.durable fresh keyed
      refine old.commit (Ledger.Le.refl _) ?_ grow
      refine old.now.grow (old.now.keys.apply _)
        (fun path _ => Db.lookup_apply_of_not_mem (by simp [MetaPut.key]))
        (fun oid => Db.lookup_apply_of_not_mem (by simp [MetaPut.key]))
        (fun oid off => Db.lookup_apply_of_not_mem (by simp [MetaPut.key])) ?_ grow
      intro next persisted
      obtain ⟨next', persisted', order⟩ := inv.objCounter keyed
      rw [persisted, Option.some.injEq] at persisted'
      exact ⟨_, Db.nextObj?_apply_nextObj _ _,
        UInt64.le_trans (persisted' ▸ order) (UInt64.le_of_lt (advance keyed))⟩
    have growView : ChunksGrow media.view
        (media.commit true [.nextObj (mem.nextObjectId + 1)]).view := by
      rwa [Media.view_commit]
    exact ⟨⟨engine.congr_objectId _, fun fresh => (inv.extents fresh).grow same growView, durable,
      fun _ => ⟨_, counter, UInt64.le_refl _⟩⟩,
      CallStep.of_silent inv engine.toMediaOk engine.ids durable (fun _ => id) same fun _ =>
        growView,
      advance, fun _ => counter⟩
  · refine ⟨⟨inv.toEngineInv.congr_objectId _, inv.extents, inv.durable, ?_⟩,
      CallStep.stay inv fun _ => id, advance, by rintro ⟨⟩⟩
    intro keyed
    obtain ⟨next, persisted, order⟩ := inv.objCounter keyed
    exact ⟨next, persisted, UInt64.le_trans order (UInt64.le_of_lt (advance keyed))⟩

/-- What a commit to another ledger does. -/
theorem CallStep.commit {sync : Bool} {batch : Batch} {L' : Ledger}
    (inv' : StoreInv options layout Fresh Keyed L' mem (media.commit sync batch))
    (next : Fresh → Keyed → Next L')
    (grow : Fresh → ChunksGrow media.view (media.view.apply batch)) :
    CallStep options layout Fresh Keyed (fun L' => L' = L ∨ Next L') media (.write sync batch)
      (media.commit sync batch) where
  media := inv'.toMediaOk
  ids := inv'.ids
  extents := inv'.extents
  durable := fun fresh keyed => ⟨L', .inr (next fresh keyed), inv'.durable fresh keyed⟩
  spared := fun _ written => written.elim
  grow := fun fresh => by
    rw [Media.view_commit]
    exact grow fresh

/-- Every action of `create` keeps the media sound, and its commit adds the object. -/
theorem create_safe (actOk : ActOk Fresh Keyed act)
    (inv : StoreInv options layout Fresh Keyed L mem media) (path : ByteString) (now : UInt64) :
    ((create path now).refine storeSem mem).Safe act
      (fun before op _ after =>
        CallStep options layout Fresh Keyed (fun L' => L' = L ∨ Created L path L') before op after)
      (CallPost options layout Fresh Keyed L (Created L path)) media := by
  have failed : ∀ {mem' media'} status, StoreInv options layout Fresh Keyed L mem' media' →
      CallPost options layout Fresh Keyed L (Created L path) (.error status, mem') media' :=
    fun status kept => ⟨fun _ _ => kept, by simp⟩
  rw [create]
  split_ifs with invalid
  · exact failed _ inv
  · intro bytes after acted
    obtain ⟨rfl, unchanged⟩ := actOk.get acted
    obtain rfl := unchanged.symm
    refine ⟨CallStep.stay inv fun _ => id, ?_⟩
    have valid : validateObjectPath path = true := by simpa using invalid
    simp only
    cases bound : media.view.lookup (.path path) with
    | some bytes => exact failed _ inv
    | none =>
        intro named after₁ acted₁
        obtain ⟨inv₁, step₁, advance, persisted⟩ := inv.allocateObjectId actOk acted₁
        refine ⟨step₁, ?_⟩
        cases named with
        | false => exact failed _ inv₁
        | true =>
            intro done after₂ acted₂
            rcases primAct_write (actOk.sub acted₂) with ⟨rfl, rfl⟩ | ⟨rfl, rfl⟩
            · have absent : Fresh → Keyed → L path = none := by
                intro fresh keyed
                rw [(inv.durable fresh keyed).now.path valid, Option.map_eq_none_iff] at bound
                exact bound
              have noChunk : ∀ c, MetaPut.chunk c ∉ [.attrs (newAttrs mem.nextObjectId now),
                  .path path mem.nextObjectId] := by simp
              have engine := @EngineInv.commit_other _ _ _ _ _ inv₁.toEngineInv mem.syncMetadata
                [.attrs (newAttrs mem.nextObjectId now), .path path mem.nextObjectId]
                noChunk (by simp)
              have grow : ChunksGrow after₁.view (after₁.view.apply
                  [.attrs (newAttrs mem.nextObjectId now), .path path mem.nextObjectId]) :=
                ChunksGrow.apply_other noChunk
              have created : Fresh → Keyed → Created L path (Function.update L path
                  (some ⟨mem.nextObjectId, newAttrs mem.nextObjectId now, []⟩)) :=
                fun fresh keyed => ⟨_, absent fresh keyed, rfl, rfl⟩
              have inv₂ : StoreInv options layout Fresh Keyed (Function.update L path
                  (some ⟨mem.nextObjectId, newAttrs mem.nextObjectId now, []⟩))
                  { mem with nextObjectId := mem.nextObjectId + 1 }
                  (after₁.commit mem.syncMetadata [.attrs (newAttrs mem.nextObjectId now),
                    .path path mem.nextObjectId]) := by
                refine ⟨engine, fun fresh => ?_, fun fresh keyed => ?_, fun _ => ⟨_, ?_,
                  UInt64.le_refl _⟩⟩
                · rw [Media.view_commit]
                  exact (inv₁.extents fresh).grow (Db.extent?_apply_other (by simp)) grow
                · refine (inv₁.durable fresh keyed).commit (created fresh keyed).le ?_ grow
                  refine (inv₁.durable fresh keyed).now.create rfl rfl valid (absent fresh keyed) ?_
                    ⟨_, persisted rfl, advance keyed⟩
                  intro p o found same
                  obtain ⟨next, there, below⟩ := (inv.durable fresh keyed).now.below found
                  obtain ⟨next', there', order⟩ := inv.objCounter keyed
                  rw [there, Option.some.injEq] at there'
                  rw [same] at below
                  exact absurd (UInt64.lt_of_lt_of_le (there' ▸ below) order) (UInt64.lt_irrefl _)
                · rw [Media.view_commit, Db.nextObj?_apply_of_not_mem (by simp)]
                  exact persisted rfl
              exact ⟨CallStep.commit inv₂ created fun _ => grow, by simp,
                fun _ => ⟨_, created, inv₂⟩⟩
            · exact ⟨CallStep.stay inv₁ fun _ => id, failed _ inv₁⟩

end Steps

end MiniFs.ObjStore
