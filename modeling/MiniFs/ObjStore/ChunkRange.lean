import Mathlib.Order.Bounds.Basic
import MiniFs.ObjStore.AppendLog
import MiniFs.ObjStore.ExtentScan

/-!
# The chunks of an object

`chunk_id_range` folds the least and the greatest chunk id over the extents that its scan visits.
In every reachable store the extents of an object are apart, so the scan visits all of them, and the
two ids are the bounds of the set of chunks the object lies in.
-/

namespace MiniFs.ObjStore

/-- `kInvalidChunkId`. -/
def kInvalidChunkId : UInt32 := 0

/-- The visitor of `chunk_id_range`. -/
def widen (range : UInt32 × UInt32) (_ : UInt64) (e : ExtentEntry) : Bool × UInt32 × UInt32 :=
  (true, if e.chunkId < range.1 then e.chunkId else range.1,
    if range.2 < e.chunkId then e.chunkId else range.2)

/-- `ObjectStore::chunk_id_range`. -/
def chunkIdRange (media : Media) (path : ByteString) : Except Status (UInt32 × UInt32) :=
  if !validateObjectPath path then .error .ERROR_INVALID_ARGUMENT
  else
    match decodePathGet (media.view.lookup (.path path)) with
    | .error status => .error status
    | .ok oid =>
        match decodeAttrsGet (media.view.lookup (.attrs oid)) with
        | .error status => .error status
        | .ok a =>
            if a.size = 0 then .ok (kInvalidChunkId, kInvalidChunkId)
            else
              match iterExtents widen media.view oid 0 a.size (4294967295, 0) with
              | (.error status, _) => .error status
              | (.ok (), range) => .ok range

/-- The chunks that the extents of an object name. -/
def Db.chunkIds (db : Db) (oid : UInt64) : Set Nat :=
  {id | ∃ off e, db.extent? oid off = some e ∧ e.chunkId.toNat = id}

/-- The answers about a path: a refusal, the invalid id for an object without bytes, else the bounds
of the object's chunks. -/
def RangeExact (media : Media) (log : Log) (path : ByteString) : Prop :=
  if !validateObjectPath path then chunkIdRange media path = .error .ERROR_INVALID_ARGUMENT
  else
    match log path with
    | none => chunkIdRange media path = .error .ERROR_NOT_FOUND
    | some payloads =>
        if payloads.flatten = [] then
          chunkIdRange media path = .ok (kInvalidChunkId, kInvalidChunkId)
        else
          ∃ oid lo hi, media.view.path? path = some oid ∧ chunkIdRange media path = .ok (lo, hi) ∧
            IsLeast (media.view.chunkIds oid) lo.toNat ∧
            IsGreatest (media.view.chunkIds oid) hi.toNat

/-- In every run from a new store, between calls. -/
def RangesExact (act : Media → (op : PrimOp) → op.Res → Media → Prop) (disk : Disk) : Prop :=
  ∀ media mem log, SystemReaches (fun _ => act) noCrash (freshSystem disk) ⟨media, .idle mem, log⟩ →
    ∀ path, RangeExact media log path

section Bounds

variable {α : Type} [LinearOrder α] {s : Set α} {a b m : α}

theorem isLeast_insert_min (least : IsLeast (insert (min a b) s) m) :
    IsLeast (insert a (insert b s)) m := by
  have low : m ≤ min a b := least.2 (.inl rfl)
  constructor
  · rcases least.1 with rfl | member
    · rcases min_choice a b with same | same
      · exact .inl same
      · exact .inr (.inl same)
    · exact .inr (.inr member)
  · rintro x (rfl | rfl | member)
    · exact low.trans (min_le_left _ _)
    · exact low.trans (min_le_right _ _)
    · exact least.2 (.inr member)

theorem isGreatest_insert_max (greatest : IsGreatest (insert (max a b) s) m) :
    IsGreatest (insert a (insert b s)) m :=
  @isLeast_insert_min αᵒᵈ _ s a b m greatest

/-- A bound that some element meets adds nothing. -/
theorem isLeast_of_insert (least : IsLeast (insert a s) m) (member : b ∈ s) (below : b ≤ a) :
    IsLeast s m := by
  refine ⟨?_, fun x listed => least.2 (.inr listed)⟩
  rcases least.1 with rfl | listed
  · rwa [← below.antisymm (least.2 (.inr member))]
  · exact listed

theorem isGreatest_of_insert (greatest : IsGreatest (insert a s) m) (member : b ∈ s)
    (above : a ≤ b) :
    IsGreatest s m :=
  @isLeast_of_insert αᵒᵈ _ s a b m greatest member above

end Bounds

/-- Over a list of visits the range grows to the bounds of the ids. -/
theorem visitAll_widen (visits : List (UInt64 × ExtentEntry)) (range : UInt32 × UInt32) :
    IsLeast (insert range.1.toNat {id | ∃ call ∈ visits, call.2.chunkId.toNat = id})
      (visitAll widen range visits).1.toNat ∧
    IsGreatest (insert range.2.toNat {id | ∃ call ∈ visits, call.2.chunkId.toNat = id})
      (visitAll widen range visits).2.toNat := by
  induction visits generalizing range with
  | nil => simp [visitAll]
  | cons call rest ih =>
      obtain ⟨least, greatest⟩ := ih (widen range call.1 call.2).2
      have ids : {id | ∃ other ∈ call :: rest, other.2.chunkId.toNat = id} =
          insert call.2.chunkId.toNat {id | ∃ other ∈ rest, other.2.chunkId.toNat = id} := by
        ext id
        simp [eq_comm]
      have low : (widen range call.1 call.2).2.1.toNat =
          min range.1.toNat call.2.chunkId.toNat := by
        simp only [widen]
        split_ifs with less <;> rw [UInt32.lt_iff_toNat_lt] at less <;> omega
      have high : (widen range call.1 call.2).2.2.toNat =
          max range.2.toNat call.2.chunkId.toNat := by
        simp only [widen]
        split_ifs with less <;> rw [UInt32.lt_iff_toNat_lt] at less <;> omega
      rw [low] at least
      rw [high] at greatest
      rw [ids]
      exact ⟨isLeast_insert_min least, isGreatest_insert_max greatest⟩

section Persist

variable {L : Ledger} {db : Db} {disk : Disk} {media : Media} {log : Log}

/-- Where an extent of an object lies. -/
theorem Persist.extent_le (persist : Persist L db disk) {path : ByteString} {o : Object}
    (found : L path = some o) {off : UInt64} {e : ExtentEntry}
    (stored : db.extent? o.oid off = some e) :
    0 < e.length.toNat ∧ off.toNat + e.length.toNat ≤ o.size := by
  obtain ⟨before, seg, after, place, offset, rfl⟩ := (persist.extents found off e).mp stored
  rw [Object.size, place, Tiling.total_append, Tiling.total_cons, offset, ← seg.length_eq]
  exact ⟨seg.positive, by omega⟩

/-- The extents of the objects are apart. -/
theorem Persist.extentsApart (persist : Persist L db disk) : db.ExtentsApart where
  positive := by
    intro oid off e stored
    obtain ⟨path, o, found, rfl⟩ := persist.owned stored
    exact (persist.extent_le found stored).1
  bounded := by
    intro oid off e stored
    obtain ⟨path, o, found, rfl⟩ := persist.owned stored
    exact (persist.extent_le found stored).2.trans_lt (persist.size_lt found)
  apart := by
    intro oid off off' e e' stored stored' distinct
    obtain ⟨path, o, found, rfl⟩ := persist.owned stored
    obtain ⟨before, seg, after, place, offset, rfl⟩ := (persist.extents found off e).mp stored
    obtain ⟨before', seg', after', place', offset', rfl⟩ :=
      (persist.extents found off' e').mp stored'
    rw [← seg.length_eq, ← seg'.length_eq, offset, offset']
    rcases Tiling.place_trichotomy (place.symm.trans place') with
      ⟨rfl, -, -⟩ | ⟨middle, rfl, -⟩ | ⟨middle, rfl, -⟩
    · exact absurd (UInt64.toNat_inj.mp (offset.trans offset'.symm)) distinct
    · rw [Tiling.total_append, Tiling.total_cons]
      omega
    · rw [Tiling.total_append, Tiling.total_cons]
      omega

/-- The scan of an object visits the chunks that its extents name. -/
theorem Persist.chunkIdRange_eq (persist : Persist L media.view media.disk) {path : ByteString}
    (valid : validateObjectPath path = true) {o : Object} (found : L path = some o)
    (some : 0 < o.size) : ∃ lo hi, chunkIdRange media path = .ok (lo, hi) ∧
      IsLeast (media.view.chunkIds o.oid) lo.toNat ∧
      IsGreatest (media.view.chunkIds o.oid) hi.toNat := by
  have size := (persist.attrs found).2.2
  have more : 0 < o.attrs.size := by
    rw [UInt64.lt_iff_toNat_lt, size]
    exact some
  obtain ⟨visited, -, listed, scan⟩ :=
    @iterExtents_exact _ persist.keys persist.extentsApart o.oid 0 o.attrs.size more
  have ids : {id | ∃ call ∈ visited, call.2.chunkId.toNat = id} = media.view.chunkIds o.oid := by
    ext id
    constructor
    · rintro ⟨⟨off, e⟩, member, same⟩
      exact ⟨off, e, ((listed off e).mp member).1, same⟩
    · rintro ⟨off, e, stored, same⟩
      obtain ⟨positive, inside⟩ := persist.extent_le found stored
      exact ⟨(off, e), (listed off e).mpr ⟨stored, off.toNat, le_rfl, by omega, Nat.zero_le _,
        by omega⟩, same⟩
  obtain ⟨first, rest, whole⟩ : ∃ first rest, o.segments = first :: rest := by
    refine List.exists_cons_of_ne_nil fun none => ?_
    rw [Object.size, none] at some
    exact absurd some (lt_irrefl 0)
  have member : first.entry.chunkId.toNat ∈ media.view.chunkIds o.oid :=
    ⟨0, first.entry, (persist.extents found 0 _).mpr ⟨[], first, rest, whole, rfl, rfl⟩, rfl⟩
  have bound := first.entry.chunkId.toNat_lt
  obtain ⟨least, greatest⟩ := visitAll_widen visited (4294967295, 0)
  rw [ids] at least greatest
  refine ⟨_, _, ?_, isLeast_of_insert least member ?_, isGreatest_of_insert greatest member ?_⟩
  · rw [chunkIdRange, if_neg (by simp [valid]), persist.decodePathGet_eq valid]
    simp only [found, persist.decodeAttrsGet_eq found]
    rw [if_neg (UInt64.ne_of_lt more).symm, scan widen _ fun _ _ _ => rfl]
  · show _ ≤ 4294967295
    omega
  · exact Nat.zero_le _

theorem Persist.rangeExact (persist : Persist L media.view media.disk) (logs : L.Logs log)
    (path : ByteString) : RangeExact media log path := by
  rw [RangeExact]
  split_ifs with invalid
  · rw [chunkIdRange, if_pos invalid]
  have valid : validateObjectPath path = true := by simpa using invalid
  rw [← logs path]
  cases found : L path with
  | none =>
      simp only [Option.map_none]
      rw [chunkIdRange, if_neg invalid, persist.decodePathGet_eq valid, found]
  | some o =>
      simp only [Option.map_some]
      have length := o.length_flatten_payloads
      split_ifs with empty
      · have zero : o.attrs.size = 0 := by
          rw [← UInt64.toNat_inj, (persist.attrs found).2.2, ← length, empty]
          rfl
        rw [chunkIdRange, if_neg invalid, persist.decodePathGet_eq valid]
        simp only [found, persist.decodeAttrsGet_eq found]
        rw [if_pos zero]
      · have some : 0 < o.size := length ▸ List.length_pos_iff.mpr empty
        obtain ⟨lo, hi, answer, bounds⟩ := persist.chunkIdRange_eq valid found some
        refine ⟨o.oid, lo, hi, ?_, answer, bounds⟩
        rw [Db.path?, persist.path valid, found]
        simp

end Persist

/-- On a freshly formatted device, the chunk ids of an object are reported exactly in the runs in
which no id counter is advanced past its last value. -/
theorem chunk_ranges_exact {disk : Disk} (fresh : FreshDevice disk) (fits : BitmapFits disk) :
    RangesExact countingAct disk := by
  intro media mem log run path
  obtain ⟨options, layout, count, start⟩ := freshSystem_inv fresh fits True True countingAct
  have inv := start.reaches actOk_countingAct count not_noCrash run
  cases inv with
  | idle L logs inv =>
      exact (inv.durable trivial trivial).now.rangeExact (logs trivial trivial) path

/-- A run whose write is acknowledged, closed and opened again. -/
theorem chunk_ranges_exact_plainDisk : ∃ disk media media' mem mem', FreshDevice disk ∧
    BitmapFits disk ∧
    SystemReaches (fun _ => countingAct) noCrash (freshSystem disk)
      ⟨media, .idle mem, writtenLog⟩ ∧
    SystemReaches (fun _ => countingAct) noCrash ⟨media, .idle mem, writtenLog⟩
      ⟨media', .idle mem', writtenLog⟩ ∧
    writtenLog samplePath = some [[0]] ∧ RangesExact countingAct disk := by
  obtain ⟨disk, media, media', mem, mem', run⟩ :=
    firstRun (fun _ _ _ first => countingAct_okExec first) noCrash
  exact ⟨disk, media, media', mem, mem', run.fresh, run.fits, run.written,
    .head .close run.reopened, writtenLog_samplePath, chunk_ranges_exact run.fresh run.fits⟩

end MiniFs.ObjStore
