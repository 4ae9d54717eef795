import MiniFs.ObjStore.AppendLog

/-!
# The append-only data plane

A committed extent lies in front of the write offset of its recorded chunk, and offsets only grow,
so no block of a committed extent is written again.  This rests on chunk ids being new: when the
32-bit counter comes round, the record of an old chunk is replaced.
-/

namespace MiniFs.ObjStore

/-- The store is about to perform an action, and performs it. -/
def System.Performs (s : System) (act : Media → (op : PrimOp) → op.Res → Media → Prop) (op : PrimOp)
    (answer : op.Res) (after : Media) : Prop :=
  act s.media op answer after ∧ ((∃ next, s.phase = .opening (.call op next)) ∨
    ∃ call next, s.phase = .running call (.call op next))

/-- In every run from a new store: each committed extent is aligned and inside the used
part of its recorded chunk, no two of them share a device block, and no later action
writes to a block of one. -/
def AppendOnly (act : Media → (op : PrimOp) → op.Res → Media → Prop) (disk : Disk) : Prop :=
  ∀ s, SystemReaches (fun _ => act) noCrash (freshSystem disk) s →
    (∀ oid off e, s.media.view.extent? oid off = some e → e.Placed s.media.view) ∧
    (∀ oid off e c k oid' off' e' c' k', s.media.view.extent? oid off = some e →
      s.media.view.extent? oid' off' = some e' → (oid, off) ≠ (oid', off') →
      s.media.view.chunk? e.chunkId = some c → s.media.view.chunk? e'.chunkId = some c' →
      k < e.blocks → k' < e'.blocks → e.lba c + k ≠ e'.lba c' + k') ∧
    ∀ s', SystemReaches (fun _ => act) noCrash s s' → ∀ op answer after,
      s'.Performs act op answer after → ∀ index, op.Writes index →
        ¬ CommittedBlock s.media.view index

/-- An action that is no failed database read and does not advance the chunk id counter to 0. -/
def chunkCountingAct (before : Media) (op : PrimOp) (answer : op.Res) (after : Media) : Prop :=
  answeredAct before op answer after ∧ op ≠ .write true [.nextChunk 0]

theorem actOk_chunkCountingAct : ActOk True False chunkCountingAct where
  sub := fun acted => acted.1.1
  freshObj := fun never => never.elim
  freshChunk := by
    rintro - before id answer after ⟨-, other⟩ rfl
    exact other rfl
  reads := fun acted => acted.1.2

section Runs

variable {options : FormatOptions} {layout : NebulaLayout} {Fresh Keyed : Prop}
  {act : Media → (op : PrimOp) → op.Res → Media → Prop} {s s' : System}

/-- Every action of a store in its invariant writes to unused blocks and lets the chunks grow. -/
theorem SystemInv.performs (inv : SystemInv options layout Fresh Keyed act s) {op : PrimOp}
    {answer : op.Res} {after : Media} (performs : s.Performs act op answer after) :
    (∀ index, op.Writes index → ¬ UsedBlock s.media.view index) ∧
      (Fresh → ChunksGrow s.media.view after.view) := by
  obtain ⟨acted, ⟨next, phase⟩ | ⟨call, next, phase⟩⟩ := performs
  · cases inv with
    | opening L logs inv safe =>
        cases phase
        obtain ⟨ok, -⟩ := safe _ _ acted
        exact ⟨ok.spared, ok.grow⟩
    | _ => cases phase
  · cases inv with
    | running L logs cut safe =>
        cases phase
        obtain ⟨ok, -⟩ := safe _ _ acted
        exact ⟨ok.spared, ok.grow⟩
    | _ => cases phase

/-- The chunks grow along a run. -/
theorem SystemInv.grows (actOk : ActOk Fresh Keyed act) (fits : layout.bitmapBlockCount < 2 ^ 32)
    (fresh : Fresh) (inv : SystemInv options layout Fresh Keyed act s)
    (run : SystemReaches (fun _ => act) noCrash s s') :
    ChunksGrow s.media.view s'.media.view := by
  induction run with
  | refl => exact .refl _
  | tail before step ih =>
      refine ih.trans ?_
      have now := inv.reaches actOk fits not_noCrash before
      cases step with
      | opening step =>
          cases step with
          | call acted => exact (now.performs ⟨acted, .inl ⟨_, rfl⟩⟩).2 fresh
      | running step =>
          cases step with
          | call acted => exact (now.performs ⟨acted, .inr ⟨_, _, rfl⟩⟩).2 fresh
      | crash lost => exact lost.elim
      | _ => exact .refl _

end Runs

/-- On a freshly formatted device, data is append-only in the runs in which the chunk id counter is
not advanced past its last value. -/
theorem data_append_only {disk : Disk} (fresh : FreshDevice disk) (fits : BitmapFits disk) :
    AppendOnly chunkCountingAct disk := by
  intro s run
  obtain ⟨options, layout, count, start⟩ := freshSystem_inv fresh fits True False chunkCountingAct
  have inv := start.reaches actOk_chunkCountingAct count not_noCrash run
  have extents := inv.cut.extents trivial
  have records := inv.cut.media.records
  refine ⟨fun oid off e stored => extents.placed stored, ?_, ?_⟩
  · intro oid off e c k oid' off' e' c' k' stored stored' other found found' inside inside'
    have fits : ∀ {oid off e}, s.media.view.extent? oid off = some e → e.stop ≤ 67108864 := by
      intro oid off e stored
      obtain ⟨c, found, stop⟩ := (extents.placed stored).record
      exact stop.trans (records.offset found).within
    exact (extents.apart stored stored' other).lba_ne records (extents.placed stored).aligned
      (extents.placed stored').aligned found found' (fits stored) (fits stored') inside inside'
  · intro s' later op answer after performs index writes committed
    have inv' := inv.reaches actOk_chunkCountingAct count not_noCrash later
    have grows := inv.grows actOk_chunkCountingAct count trivial later
    exact (inv'.performs performs).1 index writes ((committed.used extents).grow grows)

/-- A run whose write is acknowledged, closed and opened again. -/
theorem data_append_only_plainDisk : ∃ disk media media' mem mem', FreshDevice disk ∧
    BitmapFits disk ∧
    SystemReaches (fun _ => chunkCountingAct) noCrash (freshSystem disk)
      ⟨media, .idle mem, writtenLog⟩ ∧
    SystemReaches (fun _ => chunkCountingAct) noCrash ⟨media, .idle mem, writtenLog⟩
      ⟨media', .idle mem', writtenLog⟩ ∧
    writtenLog samplePath = some [[0]] ∧ AppendOnly chunkCountingAct disk := by
  have lawful : ∀ media op, FirstAct media op →
      chunkCountingAct media op (okExec op media).1 (okExec op media).2 := by
    refine fun media op first => ⟨answeredAct_okExec media op, ?_⟩
    rintro rfl
    exact absurd (first.2 0 rfl).1 (by decide)
  obtain ⟨disk, media, media', mem, mem', run⟩ := firstRun (fun _ => lawful) noCrash
  exact ⟨disk, media, media', mem, mem', run.fresh, run.fits, run.written,
    .head .close run.reopened, writtenLog_samplePath, data_append_only run.fresh run.fits⟩

/-- An extent is stored, the store has no active chunk, and a run of blocks for some
chunks is free. -/
structure Spendable (layout : NebulaLayout) (e : ExtentEntry) (chunks run : Nat) (media : Media)
    (mem : StoreMem) : Prop where
  idle : mem.active = none
  bound : SampleBound media.view
  exact : Volume.Exact plainOptions.uuid layout ⟨media.disk, mem.mount⟩
  free : FreeRun (bitGet mem.mount.bitmap.l0Bits) (kChunkBlocks * chunks) run
  inside : run + kChunkBlocks * chunks ≤ layout.capacityBlocks
  extent : media.view.extent? 1 0 = some e

section Spend

variable {layout : NebulaLayout} {e : ExtentEntry} {chunks run : Nat} {media : Media}
  {mem : StoreMem} {log : Log}

/-- A write that loses the record of its new chunk takes an id. -/
theorem Spendable.spend (spendable : Spendable layout e (chunks + 1) run media mem) :
    ∃ media' mem' log', SystemReaches (fun _ => answeredAct) noCrash ⟨media, .idle mem, log⟩
        ⟨media', .idle mem', log'⟩ ∧
      Spendable layout e chunks (run + kChunkBlocks) media' mem' ∧
      mem'.nextChunkId = mem.nextChunkId + 1 := by
  have more : kChunkBlocks * (chunks + 1) = kChunkBlocks + kChunkBlocks * chunks := by ring
  have free := spendable.free
  have inside := spendable.inside
  rw [more] at free inside
  obtain ⟨start, disk, mount, allocated, exact, rest⟩ :=
    spendable.exact.alloc_next (by decide) free inside
  obtain ⟨log', reached⟩ :=
    @write_loses_record media mem noCrash start disk mount log spendable.bound
    spendable.idle allocated
  refine ⟨_, _, log', reached, ⟨spendable.idle, spendable.bound.named, exact, rest, by omega, ?_⟩,
    rfl⟩
  rw [Media.view_commit, Db.extent?_apply_other (by simp)]
  exact spendable.extent

theorem Spendable.spend_many {n : Nat} (spendable : Spendable layout e (chunks + n) run media mem) :
    ∃ media' mem' log' run', SystemReaches (fun _ => answeredAct) noCrash ⟨media, .idle mem, log⟩
        ⟨media', .idle mem', log'⟩ ∧ Spendable layout e chunks run' media' mem' ∧
      mem'.nextChunkId = mem.nextChunkId + UInt32.ofNat n := by
  induction n generalizing media mem log run with
  | zero =>
      refine ⟨media, mem, log, run, .refl, spendable, ?_⟩
      rw [show UInt32.ofNat 0 = 0 from rfl, UInt32.add_zero]
  | succ n ih =>
      obtain ⟨media₁, mem₁, log₁, first, spendable₁, next₁⟩ := @spend _ _ _ _ _ _ log spendable
      obtain ⟨media₂, mem₂, log₂, run₂, rest, spendable₂, next₂⟩ := @ih _ _ _ log₁ spendable₁
      refine ⟨media₂, mem₂, log₂, run₂, first.trans rest, spendable₂, ?_⟩
      rw [next₂, next₁, UInt32.ofNat_add, UInt32.add_assoc, UInt32.add_comm (UInt32.ofNat n)]
      rfl

end Spend

section Fill

variable {mem : StoreMem} {media : Media} {start : Nat} {disk : Disk} {cid : UInt32}
  {data : List UInt8} {c : Chunk} {log : Log}

/-- The data path of a whole chunk. -/
theorem writeSegment_chunk (length : data.length = 67108864) (here : media.disk = disk)
    (inside : start + kChunkBlocks ≤ disk.capacityBlocks) :
    ((writeSegment data (freshCarve cid start 67108864 (by decide)).1).refine storeSem mem).run
      okExec media =
      ((.ok (), mem),
        media.withDisk (disk.push (rangeWrites start (toBlocks kChunkBlocks data)))) := by
  have bytes : (freshCarve cid start 67108864 (by decide)).1.lengthBytes = 67108864 :=
    freshCarve_lengthBytes (by decide)
  have bulk : (freshCarve cid start 67108864 (by decide)).1.bulkBytes = 67108864 := by
    rw [Reservation.bulkBytes, bytes]
    decide
  have whole : List.take (67108864 : UInt32).toNat data = data :=
    List.take_of_length_le (by rw [length]; decide)
  have blocks : (toBlocks kChunkBlocks data).length = kChunkBlocks := by simp [toBlocks]
  rw [writeSegment, bulk, if_pos (by decide), writeTail, bulk, bytes, if_neg (by decide),
    freshCarve_physicalLba, Prog.refine_call, whole, storeSem,
    show ((67108864 : UInt32) / 4096).toNat = kChunkBlocks by decide]
  show ((_ : PrimProg _) >>= _).run _ _ = _
  rw [Prog.run_bind, Prog.run_call, okExec_ioWrite here (by rw [blocks]; exact inside)]
  rfl

theorem freshCarve_full :
    ¬ (freshCarve cid start 67108864 (by decide)).2.writeOffset < kChunkSize := by
  have ok : (freshChunk cid start).OffsetOk := ⟨rfl, Nat.zero_le _⟩
  have advance := (Chunk.carve_carved ok (freshChunk_room cid start)
    (show (0 : UInt32) < 67108864 by decide)).advance
  rw [show ((freshChunk cid start).carve 67108864 (freshChunk_room cid start)
    (by decide)).1.lengthBytes = 67108864 from freshCarve_lengthBytes (by decide)] at advance
  rw [show (freshChunk cid start).writeOffset.toNat = 0 from rfl,
    show blocksFor (67108864 : UInt32).toNat = 16384 by decide] at advance
  rw [UInt32.lt_iff_toNat_lt, freshCarve, advance, show kChunkSize.toNat = 67108864 by decide]
  decide

/-- A write that finds its chunk full and cannot seal it leaves the store without an
active chunk. -/
theorem write_cannot_seal (bound : SampleBound media.view) (current : mem.active = some c)
    (full : ¬ c.writeOffset < kChunkSize) : ∃ log',
      SystemReaches (fun _ => answeredAct) noCrash ⟨media, .idle mem, log⟩
        ⟨media, .idle { mem with active := none }, log'⟩ := by
  obtain ⟨bytes, oid, bytes', a, path, named, attrs, decoded⟩ := bound
  obtain ⟨rest, refuses, writes⟩ := @write_reserves media mem _ _ _ _ path named attrs decoded
  have fails : Prog.Reaches answeredAct (reserve 1 mem >>= rest, media)
      (.ret (.error .ERROR_METADATA, { mem with active := none }), media) := by
    rw [reserve, dif_pos (by decide), current]
    simp only
    rw [dif_neg full]
    rw [← refuses]
    show Prog.Reaches answeredAct (.call (.write true [.chunk { c with isSealed := true }]) _,
      media) _
    exact .head (.call (answeredAct_write false true _)) .refl
  exact ⟨_, @SystemReaches.call (fun _ => answeredAct) noCrash _ _ log
    (.write samplePath (.bytes [0]) 0) _ _ _ (writes.trans fails)⟩

end Fill

/-- Blocks of a device on which the chunk ids run out. -/
def vastBlocks : Nat := 2 ^ 46 + 2 ^ 40

/-- A fresh device with room for more chunks than there are ids. -/
theorem vastDisk_chunks : ∃ disk layout mount, FreshDevice disk ∧
    nebulaMountDo (fun _ => zeroBlock) disk = .ok mount ∧
    Volume.Exact plainOptions.uuid layout ⟨disk, mount⟩ ∧
    layout.dataStartLba + kChunkBlocks * (2 ^ 32 + 1) ≤ layout.allocRootsTailLba ∧
    ∀ index < layout.capacityBlocks, bitGet mount.bitmap.l0Bits index =
      lbaIsMetadata layout index := by
  have large : 65536 ≤ vastBlocks := by decide
  have bound : vastBlocks < 2 ^ 52 := by decide
  obtain ⟨layout, mount, computed, mounts, exact, -, total, bits⟩ :=
    @plainDisk_mounted vastBlocks large bound (by decide)
  refine ⟨_, layout, mount, ⟨_, _, nebulaFormat_zeroedDisk large bound⟩, mounts, exact, ?_, bits⟩
  have sound := exact.sound
  have data := sound.dataStart_eq
  have dir := sound.dir_eq
  have dirs := sound.dirCount_eq
  have inodes := sound.inodeCount_le
  have inode := sound.inode_eq
  have streams := sound.streamMapCount_eq
  have stream := sound.streamMap_eq
  have bitmap := sound.bitmap_eq
  have tight := sound.bitmap_tight
  have tail := sound.allocRootsTail_eq
  rw [show vastBlocks = 71468255805440 from rfl] at total
  rw [show kChunkBlocks * (2 ^ 32 + 1) = 70368744194048 from rfl]
  clear computed mounts exact bits
  omega

/-- A store whose first chunk is full and has been given up, with room for as many
chunks as there are ids. -/
theorem spendable_reached : ∃ disk layout start run media mem log, FreshDevice disk ∧
    SystemReaches (fun _ => answeredAct) noCrash (freshSystem disk) ⟨media, .idle mem, log⟩ ∧
    Spendable layout (freshCarve 1 start 67108864 (by decide)).1.extent (1 + (2 ^ 32 - 1)) run media
      mem ∧ mem.nextChunkId = 2 := by
  obtain ⟨disk, layout, mount, fresh, mounts, exact, inside, bits⟩ := vastDisk_chunks
  obtain ⟨data, length⟩ : ∃ data : List UInt8, data.length = 67108864 :=
    ⟨List.replicate 67108864 0, List.length_replicate⟩
  have sound := exact.sound
  have tail := sound.allocRootsTail_eq
  obtain ⟨spare, amount⟩ : ∃ spare, spare = kChunkBlocks * (1 + (2 ^ 32 - 1)) := ⟨_, rfl⟩
  have more : kChunkBlocks * (2 ^ 32 + 1) = kChunkBlocks + spare := by
    rw [amount]
    decide
  rw [more] at inside
  have free : FreeRun (bitGet mount.bitmap.l0Bits) (kChunkBlocks + spare) layout.dataStartLba := by
    intro offset below
    rw [bits _ (by omega), lbaIsMetadata_data (by omega) (by omega)]
  obtain ⟨start, base, mount₁, allocated, later, rest⟩ :=
    exact.alloc_next (by decide) free (by omega)
  obtain ⟨low, high⟩ :
    layout.dataStartLba ≤ start ∧ start + kChunkBlocks ≤ base.capacityBlocks := by
    have result := nebulaBlockAlloc_result .ok disk mount kChunkBlocks
    rw [show nebulaBlockAlloc .ok disk mount kChunkBlocks = _ from allocated] at result
    cases result with
    | ok _ _ run within =>
        have blocks : start + kChunkBlocks ≤ layout.capacityBlocks := by
          rwa [exact.searchedBits_eq] at within
        refine ⟨?_, later.capacity ▸ blocks⟩
        by_contra below
        have unmarked := run 0 (by decide)
        have positive : 0 < kChunkBlocks := by decide
        rw [Nat.add_zero, bits _ (by omega), lbaIsMetadata] at unmarked
        simp [not_le.mp below] at unmarked
  have apart : ∀ write ∈ rangeWrites start (toBlocks kChunkBlocks data),
      ∀ page < layout.bitmapBlockCount, write.1 ≠ layout.bitmapLba + page := by
    intro write member page below
    have bound := rangeWrites_bounds member
    have region := page_lt_data sound below
    omega
  have opened := @freshSystem_opens (fun _ => answeredAct) noCrash disk _
    (fun media op _ => answeredAct_okExec media op) mounts
  have created :=
    @create_reaches noCrash (newMem mount) (openedMedia disk) (fun _ => none) samplePath
    (by decide) rfl
  have wrote := Prog.reaches_run okExec answeredAct_okExec
    ((write samplePath (.bytes data) 0).refine storeSem ((newMem mount).advanced 1))
    (createdMedia disk)
  rw [@write_run ((newMem mount).advanced 1) (createdMedia disk) start base _ mount₁ 67108864
    (by decide) 1 (newAttrs 1 0) samplePath data (by
      rw [← List.length_pos_iff, length]
      decide) (by rw [length]; decide) (by decide) rfl allocated
      (writeSegment_chunk length rfl high)
    (by decide) rfl rfl] at wrote
  have acknowledged := @SystemReaches.call (fun _ => answeredAct) noCrash _ _
    (Function.update (fun _ => none) samplePath (some [])) (.write samplePath (.bytes data) 0) _ _ _
      wrote
  have bound : SampleBound (((((createdMedia disk).recorded base 1 start).withDisk
      (base.push (rangeWrites start (toBlocks kChunkBlocks data))).flush).commit true
        (oneSegmentBatch 1 (newAttrs 1 0) data.length
          (freshCarve 1 start 67108864 (by decide)))).view) := by
    rw [Media.view_commit]
    refine ⟨_, 1, _, _, ?_, Packed.ofBytes?_bytes _ _, oneSegmentBatch_attrs,
      Packed.ofBytes?_bytes _ _⟩
    rw [oneSegmentBatch_path, Media.view_withDisk, Media.recorded_lookup (by simp) (by simp)]
    rfl
  obtain ⟨log, sealed⟩ := @write_cannot_seal
    (((newMem mount).advanced 1).carved mount₁ (freshCarve 1 start 67108864 (by decide)).2) _ _
    (Log.returned (Function.update (fun _ => none) samplePath (some []))
      (.write samplePath (.bytes data) 0) (.ok ())) bound rfl freshCarve_full
  refine ⟨disk, layout, start, layout.dataStartLba + kChunkBlocks, _, _, log, fresh,
    ((opened.trans created).trans acknowledged).trans sealed, ⟨rfl, bound, ?_, ?_, ?_, ?_⟩, rfl⟩
  · exact (later.push_apart apart).flush
  · rw [← amount]
    exact rest
  · rw [← amount]
    omega
  · rw [Media.view_commit]
    exact oneSegmentBatch_extent

/-- When the chunk id counter has come round, a new chunk takes the record of an old one, and the
extent in it is no longer inside its chunk. -/
theorem reused_chunk_id_loses_record :
    ¬ ∀ disk, FreshDevice disk → AppendOnly answeredAct disk := by
  intro claim
  obtain ⟨disk, layout, start, run, media, mem, log, fresh, reached, spendable, second⟩ :=
    spendable_reached
  obtain ⟨media₁, mem₁, log₁, run₁, spent, left, next⟩ := @Spendable.spend_many _ _ _ _ _ _ log _
    spendable
  have first : mem₁.nextChunkId = 1 := by
    rw [next, second]
    decide
  have more : kChunkBlocks * 1 = kChunkBlocks := by decide
  have free := left.free
  have inside := left.inside
  rw [more] at free inside
  obtain ⟨start₁, disk₁, mount₁, -, allocated, -, -⟩ :=
    left.exact.alloc_before (by decide) free inside
  obtain ⟨s, recorded, final⟩ :=
    @write_records media₁ mem₁ noCrash start₁ disk₁ mount₁ log₁ left.bound left.idle allocated
  obtain ⟨placed, -, -⟩ := claim disk fresh s ((reached.trans spent).trans recorded)
  have stored : s.media.view.extent? 1 0 =
      some (freshCarve 1 start 67108864 (by decide)).1.extent := by
    rw [final, Media.view_commit, Db.extent?_apply_other (by simp), Media.view_commit,
      Db.extent?_apply_other (by simp)]
    exact left.extent
  obtain ⟨c, found, stop⟩ := (placed 1 0 _ stored).record
  have replaced : s.media.view.chunk? 1 = some (freshChunk 1 start₁) := by
    rw [final, first, Media.view_commit]
    exact @Db.chunk?_apply_of_mem _ _ (freshChunk 1 start₁) (by simp) (by simp)
  rw [show (freshCarve 1 start 67108864 (by decide)).1.extent.chunkId = 1 from rfl, replaced,
    Option.some.injEq] at found
  subst found
  have positive := UInt32.lt_iff_toNat_lt.mp (freshCarve 1 start 67108864 (by decide)).1.length_pos
  rw [show (freshChunk 1 start₁).writeOffset.toNat = 0 from rfl, ExtentEntry.stop,
    ExtentEntry.blocks, Reservation.extent, blocksFor] at stop
  simp only [UInt32.toNat_zero] at positive stop
  omega

end MiniFs.ObjStore
