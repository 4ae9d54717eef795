import MiniFs.ObjStore.AppendLog

/-!
# Durable metadata and durable data

A write flushes its blocks before it commits the batch that names them, and no later action writes
to a committed block.  So whatever a loss of power leaves of the unflushed writes and of the
unsynced batches, every extent of the database that is left has its bytes on the device.
-/

namespace MiniFs.ObjStore

/-- The extents of an object, in logical order from 0 on and without gaps. -/
def Db.Tiled (db : Db) (oid : UInt64) (extents : List ExtentEntry) : Prop :=
  ∀ off e, db.extent? oid off = some e ↔ ∃ before after, extents = before ++ e :: after ∧
    off.toNat = Tiling.total (·.length.toNat) before

/-- The blocks of an extent at a logical offset hold bytes of one of the payloads, zeros after their
end. -/
def ExtentEntry.Carries (e : ExtentEntry) (off : Nat) (payloads : List (List UInt8))
    (media : Media) : Prop :=
  ∃ before payload after c, payloads = before ++ payload :: after ∧ before.flatten.length ≤ off ∧
    off + e.length.toNat ≤ before.flatten.length + payload.length ∧
    media.view.chunk? e.chunkId = some c ∧ ∀ k < e.blocks, media.disk.content (e.lba c + k) =
      padBlock ((payload.drop (off - before.flatten.length)).take e.length.toNat) k

/-- What is left names only what is there: every extent carries bytes of a payload of the log, and
the size of every object is the total length of its extents. -/
def DataDurable (s : System) (left : Media) : Prop :=
  ∃ log, s.Agrees log ∧
    (∀ oid off e, left.view.extent? oid off = some e → ∃ path payloads,
      left.view.path? path = some oid ∧ log path = some payloads ∧
        e.Carries off.toNat payloads left) ∧
    ∀ path oid, validateObjectPath path = true → left.view.path? path = some oid →
      ∃ a extents, left.view.attrs? oid = some a ∧ left.view.Tiled oid extents ∧
        a.size.toNat = Tiling.total (·.length.toNat) extents

section Persist

variable {L : Ledger} {db : Db} {disk : Disk} {path : ByteString} {o : Object}

theorem total_entries (segments : List Segment) :
    Tiling.total (·.length.toNat) (segments.map (·.entry)) =
      Tiling.total (·.data.length) segments := by
  induction segments with
  | nil => rfl
  | cons seg rest ih => simp [ih, seg.length_eq]

/-- The extents of an object of the ledger. -/
theorem Persist.tiled (persist : Persist L db disk) (found : L path = some o) :
    db.Tiled o.oid (o.segments.map (·.entry)) := by
  intro off e
  rw [persist.extents found]
  constructor
  · rintro ⟨before, seg, after, whole, offset, rfl⟩
    exact ⟨before.map (·.entry), after.map (·.entry), by simp [whole], by
      rw [total_entries, offset]⟩
  · rintro ⟨before, after, whole, offset⟩
    obtain ⟨first, rest, parts, rfl, split⟩ := List.map_eq_append_iff.mp whole
    obtain ⟨seg, last, rfl, entry, -⟩ := List.map_eq_cons_iff.mp split
    exact ⟨first, seg, last, parts, by rw [offset, total_entries], entry⟩

/-- A path that is bound is that of an object. -/
theorem Persist.object_of_path (persist : Persist L db disk)
    (valid : validateObjectPath path = true)
    {oid : UInt64} (bound : db.path? path = some oid) : ∃ o, L path = some o ∧ o.oid = oid := by
  rw [Db.path?, persist.path valid] at bound
  cases found : L path with
  | none => simp [found] at bound
  | some o => exact ⟨o, rfl, by simpa [found] using bound⟩

/-- A segment of an object belongs to one of its writes. -/
theorem Object.write_of_segment {before after : List Segment} {seg : Segment}
    (place : o.segments = before ++ seg :: after) : ∃ earlier first last later,
      o.writes = earlier ++ (first ++ seg :: last) :: later ∧
        before = earlier.flatten ++ first := by
  rcases List.flatten_eq_append_iff.mp place with ⟨earlier, rest, whole, rfl, split⟩ | split
  · obtain ⟨blank, last, later, rfl, none, -⟩ := List.flatten_eq_cons_iff.mp split.symm
    refine ⟨earlier ++ blank, [], last, later, by simp [whole], ?_⟩
    rw [List.flatten_append, List.flatten_eq_nil_iff.mpr none, List.append_nil, List.append_nil]
  · obtain ⟨earlier, first, other, last, later, whole, rfl, same⟩ := split
    obtain ⟨rfl, -⟩ := List.cons.inj same
    exact ⟨earlier, first, last, later, whole, rfl⟩

/-- The bytes of a segment are a slice of the payload that its write brought. -/
theorem Object.segment_slice {before after : List Segment} {seg : Segment}
    (place : o.segments = before ++ seg :: after) : ∃ earlier payload later,
      o.payloads = earlier ++ payload :: later ∧
      earlier.flatten.length ≤ Tiling.total (·.data.length) before ∧
      Tiling.total (·.data.length) before + seg.data.length ≤
        earlier.flatten.length + payload.length ∧
      (payload.drop (Tiling.total (·.data.length) before - earlier.flatten.length)).take
        seg.data.length = seg.data := by
  obtain ⟨earlier, first, last, later, whole, rfl⟩ := o.write_of_segment place
  have length : (earlier.map (·.flatMap (·.data))).flatten.length =
      Tiling.total (·.data.length) earlier.flatten := by
    clear whole place
    induction earlier with
    | nil => rfl
    | cons write rest ih =>
        simp only [List.map_cons, List.flatten_cons, List.length_append, Tiling.total_append, ih,
          Tiling.length_flatMap_eq_total]
  have front := Tiling.length_flatMap_eq_total (·.data) first
  refine ⟨earlier.map (·.flatMap (·.data)), (first ++ seg :: last).flatMap (·.data),
    later.map (·.flatMap (·.data)), by simp [Object.payloads, whole], ?_, ?_, ?_⟩
  · rw [length, Tiling.total_append]
    omega
  · rw [length, Tiling.total_append]
    simp only [List.flatMap_append, List.flatMap_cons, List.length_append]
    omega
  · rw [length, Tiling.total_append, Nat.add_sub_cancel_left, ← front]
    simp

/-- What a ledger's database and device say of its objects, also after a cut that keeps some of the
unflushed writes. -/
theorem Persist.carries {kept : List (Nat × Block)} (persist : Persist L db disk)
    (sub : kept.Sublist disk.cells.pending) {oid off : UInt64} {e : ExtentEntry}
    (stored : db.extent? oid off = some e) : ∃ path o, L path = some o ∧ db.path? path = some oid ∧
      ∀ left : Media, left.view = db → left.disk = disk.cut kept →
        e.Carries off.toNat o.payloads left := by
  obtain ⟨path, o, found, rfl⟩ := persist.owned stored
  obtain ⟨before, seg, after, place, offset, rfl⟩ := (persist.extents found off e).mp stored
  obtain ⟨earlier, payload, later, whole, low, high, slice⟩ := o.segment_slice place
  refine ⟨path, o, found, ?_, ?_⟩
  · rw [Db.path?, persist.path (persist.sound.valid found), found]
    simp
  · rintro left rfl same
    have held : L.Holds seg := ⟨path, o, found, by simp [place]⟩
    obtain ⟨c, recorded, -, written, settled⟩ := persist.stored held
    rw [seg.length_eq] at high slice
    refine ⟨earlier, payload, later, c, whole, by omega, by omega, recorded, fun k inside => ?_⟩
    rw [same, offset, slice]
    have survives : (disk.cut kept).content (seg.entry.lba c + k) =
        disk.content (seg.entry.lba c + k) :=
      ((settled k inside).cut sub).trans (settled k inside).content_eq.symm
    rw [survives, written k inside]

end Persist

theorem Ledger.Le.payloads {earlier later : Ledger} (le : earlier.Le later) {path : ByteString}
    {o : Object} (found : earlier path = some o) :
    ∃ o', later path = some o' ∧ o.payloads <+: o'.payloads := by
  obtain ⟨o', found', -, more⟩ := le found
  exact ⟨o', found', more.map _⟩

theorem ExtentEntry.Carries.extend {e : ExtentEntry} {off : Nat} {payloads more : List (List UInt8)}
    {media : Media} (carries : e.Carries off payloads media) (order : payloads <+: more) :
    e.Carries off more media := by
  obtain ⟨before, payload, after, c, rfl, rest⟩ := carries
  obtain ⟨last, rfl⟩ := order
  exact ⟨before, payload, after ++ last, c, by simp, rest⟩

/-- The media agree with a log, now and after every loss of power. -/
theorem Durable.dataDurable {L : Ledger} {s : System} {log : Log} (durable : Durable L s.media)
    (agrees : s.Agrees log) (logs : L.Logs log) {kept : List (Nat × Block)}
    (sub : kept.Sublist s.media.disk.cells.pending) (batches : Nat) :
    DataDurable s (s.media.crash kept batches) := by
  obtain ⟨earlier, le, persist, -⟩ := durable.past (s.media.db.recoverable_crash batches)
  refine ⟨log, agrees, ?_, ?_⟩
  · intro oid off e stored
    obtain ⟨path, o, found, bound, carries⟩ := persist.carries sub stored
    obtain ⟨o', found', order⟩ := le.payloads found
    refine ⟨path, o'.payloads, bound, ?_, (carries _ rfl rfl).extend order⟩
    rw [← logs path, found']
    rfl
  · intro path oid valid bound
    have view : (s.media.crash kept batches).view = (s.media.db.crash batches).view := rfl
    obtain ⟨o, found, rfl⟩ := persist.object_of_path valid (view ▸ bound)
    obtain ⟨attrs, -, size⟩ := persist.attrs found
    refine ⟨o.attrs, _, ?_, persist.tiled found, ?_⟩
    · rw [view, Db.attrs?, attrs]
      simp
    · rw [size, Object.size, total_entries]

/-- In every run without a loss of power, at every point and whatever is then lost. -/
def MetadataDurable (act : Media → (op : PrimOp) → op.Res → Media → Prop) (disk : Disk) : Prop :=
  ∀ s, SystemReaches (fun _ => act) noCrash (freshSystem disk) s →
    ∀ kept batches, kept.Sublist s.media.disk.cells.pending →
      DataDurable s (s.media.crash kept batches)

/-- On a freshly formatted device, metadata never names data that is not durable in the runs in
which no id counter is advanced past its last value. -/
theorem metadata_names_durable_data {disk : Disk} (fresh : FreshDevice disk)
    (fits : BitmapFits disk) : MetadataDurable countingAct disk := by
  intro s run kept batches sub
  obtain ⟨options, layout, count, start⟩ := freshSystem_inv fresh fits True True countingAct
  have inv := start.reaches actOk_countingAct count not_noCrash run
  obtain ⟨L, allowed, durable⟩ := inv.cut.durable trivial trivial
  obtain ⟨log, agrees, logs⟩ := allowed trivial trivial
  exact durable.dataDurable agrees logs sub batches

/-- A run whose write is acknowledged, and what a loss of power leaves after it. -/
theorem metadata_names_durable_data_plainDisk : ∃ disk media mem, FreshDevice disk ∧
    BitmapFits disk ∧
    SystemReaches (fun _ => countingAct) noCrash (freshSystem disk)
      ⟨media, .idle mem, writtenLog⟩ ∧
    writtenLog samplePath = some [[0]] ∧
    DataDurable ⟨media, .idle mem, writtenLog⟩ (media.crash [] 0) ∧
    MetadataDurable countingAct disk := by
  obtain ⟨disk, media, _, mem, _, run⟩ :=
    firstRun (fun _ _ _ first => countingAct_okExec first) noCrash
  exact ⟨disk, media, mem, run.fresh, run.fits, run.written, writtenLog_samplePath,
    metadata_names_durable_data run.fresh run.fits _ run.written [] 0 (List.nil_sublist _),
    metadata_names_durable_data run.fresh run.fits⟩

/-- After the object id counter has come round, the durable size of an object is not the length
of its durable extents. -/
theorem reused_id_loses_size : ¬ ∀ disk, FreshDevice disk → MetadataDurable answeredAct disk := by
  intro claim
  obtain ⟨disk, media, mem, log, fresh, run, reused⟩ := id_reused noCrash
  -- nothing is lost
  obtain ⟨-, -, -, sizes⟩ :=
    claim disk fresh _ run media.disk.cells.pending media.db.unsynced.length (List.Sublist.refl _)
  have view : (media.crash media.disk.cells.pending media.db.unsynced.length).view =
    media.view := by
    simp [Media.crash, Media.view, LoggedMap.crash, LoggedMap.view]
  simp only [view] at sizes
  have bound : media.view.path? samplePath = some 1 := by
    rw [Db.path?, reused.bound]
    simp
  obtain ⟨a, extents, attrs, tiled, size⟩ := sizes samplePath 1 (by decide) bound
  obtain rfl : newAttrs 1 0 = a := by
    rw [Db.attrs?, reused.attrs] at attrs
    simpa using attrs
  obtain ⟨start, stored⟩ := reused.extent
  obtain ⟨before, after, rfl, -⟩ := (tiled 0 _).mp stored
  have one : (freshCarve 1 start 1 (by decide)).1.extent.length.toNat = 1 := by
    rw [Reservation.extent, freshCarve_lengthBytes (by decide)]
    rfl
  rw [show (newAttrs 1 0).size.toNat = 0 from rfl, Tiling.total_append, Tiling.total_cons,
    one] at size
  omega

end MiniFs.ObjStore
