import MiniFs.ObjStore.ReadBack

/-!
# The extent range scan

`iter_extents` starts at the extent that covers the lower end of the range, or at the first one
from it on, and walks forward until the object or the range ends.  For a visitor that always
continues, the visits are the extents of the object that intersect the range, in logical order.
-/

namespace MiniFs.ObjStore

open Packed

/-- The key checks of the scan accept the extent keys of the object only. -/
theorem extentOffset_eq_some_iff {oid off : UInt64} {key : MetaKey} :
    extentOffset oid key.encode = some off ↔ key = .extent oid off := by
  constructor
  · intro accepted
    rw [extentOffset] at accepted
    simp only [Option.ite_none_right_eq_some] at accepted
    obtain ⟨⟨-, front⟩, offset⟩ := accepted
    cases key with
    | extent oid' off' =>
        have split : (MetaKey.extent oid' off').encode =
            ([101, 120, 58] ++ ByteString.bigEndian 8 oid'.toNat) ++
              ByteString.bigEndian 8 off'.toNat := rfl
        rw [split, List.take_left' (by simp), List.append_cancel_left_eq] at front
        rw [split, List.drop_left' (by simp), ByteString.ofBigEndian_bigEndian off'.toNat_lt,
          UInt64.ofNat_toNat, Option.some.injEq] at offset
        rw [MetaKey.bigEndian_u64_inj front, offset]
    | _ => simp [MetaKey.encode] at front
  · rintro rfl
    exact extentOffset_encode oid off

/-- Between two keys of which the first is from an extent key on, a key that is no extent of the
object ends its extents. -/
theorem extentOffset_eq_none_of_lt {oid low off : UInt64} {key later : MetaKey}
    (above : (MetaKey.extent oid low).encode ≤ key.encode)
    (other : extentOffset oid key.encode = none) (order : key.encode < later.encode) :
    extentOffset oid later.encode ≠ some off := by
  intro again
  rw [extentOffset_eq_some_iff] at again
  subst again
  rcases above.lt_or_eq with strict | same
  · obtain ⟨between, rfl, -⟩ := MetaKey.eq_extent_of_between strict order.le
    rw [extentOffset_encode] at other
    contradiction
  · rw [← same, extentOffset_encode] at other
    contradiction

/-- The entry of an extent of the object that intersects a range. -/
def extentIn (oid start endOffset : UInt64) (entry : ByteString × ByteString) :
    Option (UInt64 × ExtentEntry) :=
  (extentOffset oid entry.1).bind fun off =>
    (ExtentEntry.layout.ofBytes? entry.2).bind fun e =>
      if off < endOffset ∧ start.toNat < off.toNat + e.length.toNat then some (off, e) else none

theorem extentIn_eq_some_iff {oid start endOffset off : UInt64} {e : ExtentEntry}
    {entry : ByteString × ByteString} :
    extentIn oid start endOffset entry = some (off, e) ↔
      extentOffset oid entry.1 = some off ∧ ExtentEntry.layout.ofBytes? entry.2 = some e ∧
        off < endOffset ∧ start.toNat < off.toNat + e.length.toNat := by
  simp only [extentIn, Option.bind_eq_some_iff, Option.ite_none_right_eq_some, Option.some.injEq,
    Prod.mk.injEq]
  constructor
  · rintro ⟨_, offset, _, decoded, inside, rfl, rfl⟩
    exact ⟨offset, decoded, inside⟩
  · rintro ⟨offset, decoded, inside⟩
    exact ⟨off, offset, e, decoded, inside, rfl, rfl⟩

/-- A visitor that always continues sees the state after each of a list of visits. -/
def visitAll {σ : Type} (visit : σ → UInt64 → ExtentEntry → Bool × σ) (state : σ)
    (visits : List (UInt64 × ExtentEntry)) : σ :=
  visits.foldl (fun state call => (visit state call.1 call.2).2) state

/-- The extents of each object have positive length, end below `2 ^ 64` and do not overlap. -/
structure Db.ExtentsApart (db : Db) : Prop where
  positive : ∀ {oid off : UInt64} {e : ExtentEntry}, db.extent? oid off = some e →
    0 < e.length.toNat
  bounded : ∀ {oid off : UInt64} {e : ExtentEntry}, db.extent? oid off = some e →
    off.toNat + e.length.toNat < 2 ^ 64
  apart : ∀ {oid off off' : UInt64} {e e' : ExtentEntry}, db.extent? oid off = some e →
    db.extent? oid off' = some e' → off ≠ off' →
      off.toNat + e.length.toNat ≤ off'.toNat ∨ off'.toNat + e'.length.toNat ≤ off.toNat

/-- In a store of encoded records, the entries that the scan takes for extents are the extents. -/
theorem Db.WellKeyed.extent_of_mem {db : Db} (keyed : db.WellKeyed) {oid off : UInt64}
    {entry : ByteString × ByteString} (member : entry ∈ db.entries)
    (offset : extentOffset oid entry.1 = some off) :
    ∃ e, entry = ((MetaKey.extent oid off).encode, ExtentEntry.layout.bytes e) ∧
      db.extent? oid off = some e := by
  obtain ⟨put, rfl⟩ := keyed entry member
  have key := extentOffset_eq_some_iff.mp offset
  cases put with
  | extent oid' off' e =>
      simp only [MetaPut.key, MetaKey.extent.injEq] at key
      obtain ⟨rfl, rfl⟩ := key
      have lookup : db.lookup (.extent oid' off') = some (ExtentEntry.layout.bytes e) :=
        SortedMap.get_eq_some_iff.mpr member
      exact ⟨e, rfl, by rw [Db.extent?, lookup, Option.bind_some, ofBytes?_bytes]⟩
  | _ => simp [MetaPut.key] at key

theorem Db.WellKeyed.mem_of_extent {db : Db} (keyed : db.WellKeyed) {oid off : UInt64}
    {e : ExtentEntry} (stored : db.extent? oid off = some e) :
    ((MetaKey.extent oid off).encode, ExtentEntry.layout.bytes e) ∈ db.entries := by
  obtain ⟨bytes, lookup, decoded⟩ := Option.bind_eq_some_iff.mp stored
  have member := SortedMap.get_eq_some_iff.mp lookup
  obtain ⟨e', same, stored'⟩ := keyed.extent_of_mem member (extentOffset_encode oid off)
  rw [stored, Option.some.injEq] at stored'
  rwa [stored', ← same]

section Scan

variable {db : Db} {oid start endOffset : UInt64} {σ : Type}
  {visit : σ → UInt64 → ExtentEntry → Bool × σ}

/-- The forward walk visits the extents of the range among the entries from its position on. -/
theorem iterForward_eq (keyed : db.WellKeyed)
    (continues : ∀ state off e, (visit state off e).1 = true) {low : UInt64}
    {entries : List (ByteString × ByteString)} (state : σ)
    (listed : ∀ entry ∈ entries, entry ∈ db.entries)
    (sorted : entries.Pairwise fun a b => a.1 < b.1)
    (above : ∀ entry ∈ entries, (MetaKey.extent oid low).encode ≤ entry.1)
    (reached : ∀ off e, ((MetaKey.extent oid off).encode, ExtentEntry.layout.bytes e) ∈ entries →
      start.toNat < off.toNat + e.length.toNat) :
    iterForward visit oid endOffset entries state =
      (.ok (), visitAll visit state (entries.filterMap (extentIn oid start endOffset))) := by
  induction entries generalizing state with
  | nil => rfl
  | cons entry rest ih =>
      obtain ⟨smaller, restSorted⟩ := List.pairwise_cons.mp sorted
      obtain ⟨key, value⟩ := entry
      cases offset : extentOffset oid key with
      | none =>
          have nothing : ((key, value) :: rest).filterMap (extentIn oid start endOffset) = [] := by
            rw [List.filterMap_eq_nil_iff]
            intro other member
            rw [Option.eq_none_iff_forall_ne_some]
            rintro ⟨off, e⟩ taken
            have taken := (extentIn_eq_some_iff.mp taken).1
            rcases List.mem_cons.mp member with rfl | later
            · rw [offset] at taken
              contradiction
            · obtain ⟨put, same⟩ := keyed _ (listed _ (.head _))
              obtain ⟨put', rfl⟩ := keyed _ (listed _ member)
              have here : key = put.key.encode := congrArg Prod.fst same
              have order := smaller _ later
              have low := above _ (.head _)
              simp only [here] at offset order low
              exact extentOffset_eq_none_of_lt low offset order taken
          rw [nothing]
          simp only [iterForward, offset]
          rfl
      | some off =>
          obtain ⟨e, same, stored⟩ := keyed.extent_of_mem (listed _ (.head _)) offset
          rw [Prod.mk.injEq] at same
          obtain ⟨rfl, rfl⟩ := same
          simp only [iterForward, offset]
          by_cases beyond : endOffset ≤ off
          · have nothing : (((MetaKey.extent oid off).encode, ExtentEntry.layout.bytes e) ::
                rest).filterMap (extentIn oid start endOffset) = [] := by
              rw [List.filterMap_eq_nil_iff]
              intro other member
              rw [Option.eq_none_iff_forall_ne_some]
              rintro ⟨off', e'⟩ taken
              obtain ⟨taken, -, below, -⟩ := extentIn_eq_some_iff.mp taken
              rcases List.mem_cons.mp member with rfl | later
              · rw [offset, Option.some.injEq] at taken
                rw [taken] at beyond
                exact absurd below (UInt64.not_lt.mpr beyond)
              · obtain ⟨put, rfl⟩ := keyed _ (listed _ member)
                have order := smaller _ later
                simp only [MetaPut.encode, extentOffset_eq_some_iff.mp taken,
                  MetaKey.extent_lt_iff] at order
                have further := order.resolve_left (UInt64.lt_irrefl _) |>.2
                exact absurd below (UInt64.not_lt.mpr
                  (UInt64.le_of_lt (UInt64.lt_of_le_of_lt beyond further)))
            rw [if_pos beyond, nothing]
            rfl
          · have inside : extentIn oid start endOffset
                ((MetaKey.extent oid off).encode, ExtentEntry.layout.bytes e) = some (off, e) := by
              rw [extentIn_eq_some_iff]
              exact ⟨offset, ofBytes?_bytes _ _, UInt64.not_le.mp beyond,
                reached off e (.head _)⟩
            rw [if_neg beyond, ofBytes?_bytes, List.filterMap_cons_some inside]
            simp only [continues, if_true]
            exact ih _ (fun other member => listed other (.tail _ member)) restSorted
              (fun other member => above other (.tail _ member))
              fun off e member => reached off e (.tail _ member)

/-- An extent before the predecessor of the range ends before the range. -/
theorem filterMap_before (keyed : db.WellKeyed) {entries : List (ByteString × ByteString)}
    (listed : ∀ entry ∈ entries, entry ∈ db.entries)
    (ended : ∀ off e, ((MetaKey.extent oid off).encode, ExtentEntry.layout.bytes e) ∈ entries →
      db.extent? oid off = some e → off.toNat + e.length.toNat ≤ start.toNat) :
    entries.filterMap (extentIn oid start endOffset) = [] := by
  rw [List.filterMap_eq_nil_iff]
  intro entry member
  rw [Option.eq_none_iff_forall_ne_some]
  rintro ⟨off, e⟩ taken
  obtain ⟨offset, decoded, -, covers⟩ := extentIn_eq_some_iff.mp taken
  obtain ⟨e', rfl, stored⟩ := keyed.extent_of_mem (listed entry member) offset
  rw [ofBytes?_bytes, Option.some.injEq] at decoded
  subst decoded
  exact absurd (ended off e' member stored) (not_le.mpr covers)

/-- The walk from the lower end of the range visits what intersects it, if no extent before the
lower end reaches into the range. -/
theorem iterForward_seek (keyed : db.WellKeyed) (apart : db.ExtentsApart)
    (continues : ∀ state off e, (visit state off e).1 = true) (state : σ)
    (ended : ∀ off e, db.extent? oid off = some e → off < start →
      off.toNat + e.length.toNat ≤ start.toNat) :
    iterForward visit oid endOffset (db.seek (MetaKey.extent oid start).encode) state =
      (.ok (), visitAll visit state (db.entries.filterMap (extentIn oid start endOffset))) := by
  obtain ⟨before, whole, earlier⟩ := db.entries_eq_append_seek (MetaKey.extent oid start).encode
  have nothing : before.filterMap (extentIn oid start endOffset) = [] := by
    refine filterMap_before keyed (fun entry member => ?_) fun off e member stored => ?_
    · rw [whole]
      exact List.mem_append_left _ member
    · refine ended off e stored ?_
      exact (MetaKey.extent_lt_iff.mp (earlier _ member)).resolve_left (UInt64.lt_irrefl _) |>.2
  have seek := db.seek_eq_filter (MetaKey.extent oid start).encode
  have walk := @iterForward_eq db oid start endOffset σ visit keyed continues start
    (db.seek (MetaKey.extent oid start).encode) state
    (fun entry member => by
      rw [seek] at member
      exact (List.mem_filter.mp member).1)
    (by
      rw [seek]
      exact db.sorted.filter _)
    (fun entry member => by
      rw [seek] at member
      simpa using (List.mem_filter.mp member).2)
    fun off e member => by
      rw [seek, List.mem_filter] at member
      obtain ⟨member, from_⟩ := member
      obtain ⟨e', same, stored⟩ := keyed.extent_of_mem member (extentOffset_encode oid off)
      have length : e = e' := by
        have bytes := congrArg (fun entry => ExtentEntry.layout.ofBytes? entry.2) same
        simpa only [ofBytes?_bytes, Option.some.injEq] using bytes
      have positive := apart.positive stored
      have order : ¬ off < start := fun less =>
        absurd (MetaKey.extent_lt_iff.mpr (.inr ⟨rfl, less⟩)) (not_lt.mpr (by simpa using from_))
      rw [UInt64.lt_iff_toNat_lt] at order
      rw [length]
      omega
  rw [walk, whole, List.filterMap_append, nothing, List.nil_append]

/-- The scan visits what intersects the range. -/
theorem iterExtents_eq (keyed : db.WellKeyed) (apart : db.ExtentsApart)
    (nonempty : start < endOffset) (continues : ∀ state off e, (visit state off e).1 = true)
    (state : σ) :
    iterExtents visit db oid start endOffset state =
      (.ok (), visitAll visit state (db.entries.filterMap (extentIn oid start endOffset))) := by
  rw [iterExtents, if_neg (UInt64.not_le.mpr nonempty)]
  simp only
  rcases db.seekForPrev_cases (MetaKey.extent oid start).encode with ⟨nowhere, all⟩ |
    ⟨⟨key, value⟩, member, cursor, below, gap⟩
  · rw [nowhere]
    refine iterForward_seek keyed apart continues state fun off e stored less => ?_
    have above := all _ (keyed.mem_of_extent stored)
    exact absurd (MetaKey.extent_lt_iff.mpr (.inr ⟨rfl, less⟩)) above.asymm
  · rw [cursor]
    simp only at below gap ⊢
    cases offset : extentOffset oid key with
    | none =>
        refine iterForward_seek keyed apart continues state fun off e stored less => ?_
        have upTo : (MetaKey.extent oid off).encode ≤ key :=
          (gap _ (keyed.mem_of_extent stored)).resolve_right
            (MetaKey.extent_lt_iff.mpr (.inr ⟨rfl, less⟩)).asymm
        obtain ⟨put, same⟩ := keyed _ member
        have here : key = put.key.encode := congrArg Prod.fst same
        rw [here] at upTo below offset
        rcases upTo.lt_or_eq with strict | equal
        · obtain ⟨between, extent, -⟩ := MetaKey.eq_extent_of_between strict below
          rw [extent, extentOffset_encode] at offset
          contradiction
        · rw [← equal, extentOffset_encode] at offset
          contradiction
    | some off =>
        obtain ⟨e, same, stored⟩ := keyed.extent_of_mem member offset
        rw [Prod.mk.injEq] at same
        obtain ⟨rfl, rfl⟩ := same
        have bounded := apart.bounded stored
        have order : off.toNat ≤ start.toNat := by
          rw [← not_lt, MetaKey.extent_lt_iff] at below
          simpa [UInt64.lt_iff_toNat_lt] using below
        have range := UInt64.lt_iff_toNat_lt.mp nonempty
        have covering : start < off + e.length.toUInt64 ↔
            start.toNat < off.toNat + e.length.toNat := by
          rw [UInt64.lt_iff_toNat_lt, UInt64.toNat_add, UInt32.toNat_toUInt64,
            Nat.mod_eq_of_lt bounded]
        simp only [ofBytes?_bytes, covering]
        by_cases covers : start.toNat < off.toNat + e.length.toNat
        · obtain ⟨before, whole, earlier⟩ := SortedMap.entries_split member
          simp only at whole earlier
          have nothing : before.filterMap (extentIn oid start endOffset) = [] := by
            refine filterMap_before keyed (fun entry listed => ?_) fun off' e' listed stored' => ?_
            · rw [whole]
              exact List.mem_append_left _ listed
            · have less := (MetaKey.extent_lt_iff.mp (earlier _ listed)).resolve_left
                (UInt64.lt_irrefl _) |>.2
              have lower := UInt64.lt_iff_toNat_lt.mp less
              rcases apart.apart stored' stored (UInt64.ne_of_lt less) with first | second
              · omega
              · omega
          have inside : extentIn oid start endOffset
              ((MetaKey.extent oid off).encode, ExtentEntry.layout.bytes e) = some (off, e) := by
            rw [extentIn_eq_some_iff]
            exact ⟨offset, ofBytes?_bytes _ _, UInt64.lt_iff_toNat_lt.mpr (by omega), covers⟩
          have early : ¬ endOffset ≤ off := by
            rw [UInt64.le_iff_toNat_le]
            omega
          rw [if_pos covers, if_neg early, whole, List.filterMap_append, nothing, List.nil_append,
            List.filterMap_cons_some inside]
          simp only [continues, if_true]
          refine @iterForward_eq db oid start endOffset σ visit keyed continues off _ _
            (fun entry listed => (SortedMap.mem_after.mp listed).1) (db.sorted.filter _)
            (fun entry listed => (SortedMap.mem_after.mp listed).2.le) fun off' e' listed => ?_
          · obtain ⟨member', after⟩ := SortedMap.mem_after.mp listed
            have past := (gap _ member').resolve_left (not_le.mpr after)
            have more := (MetaKey.extent_lt_iff.mp past).resolve_left (UInt64.lt_irrefl _) |>.2
            rw [UInt64.lt_iff_toNat_lt] at more
            omega
        · rw [if_neg covers]
          refine iterForward_seek keyed apart continues state fun off' e' stored' less => ?_
          have upTo : (MetaKey.extent oid off').encode ≤ (MetaKey.extent oid off).encode :=
            (gap _ (keyed.mem_of_extent stored')).resolve_right
              (MetaKey.extent_lt_iff.mpr (.inr ⟨rfl, less⟩)).asymm
          by_cases equal : off' = off
          · rw [equal, stored, Option.some.injEq] at stored'
            rw [equal, ← stored']
            omega
          · rw [← not_lt, MetaKey.extent_lt_iff] at upTo
            have lower : off'.toNat ≤ off.toNat := by
              simpa [UInt64.lt_iff_toNat_lt] using upTo
            have positive := apart.positive stored
            rcases apart.apart stored' stored equal with first | second
            · omega
            · omega

end Scan

/-- For a visitor that always continues, the scan calls it once for each extent of the object that
intersects the range, in ascending order, and for nothing else. -/
theorem iterExtents_exact {db : Db} (keyed : db.WellKeyed) (apart : db.ExtentsApart)
    {oid start endOffset : UInt64} (nonempty : start < endOffset) :
    ∃ visited : List (UInt64 × ExtentEntry),
      (visited.Pairwise fun first second => first.1 < second.1) ∧
      (∀ off e, (off, e) ∈ visited ↔ db.extent? oid off = some e ∧
        ∃ position, off.toNat ≤ position ∧ position < off.toNat + e.length.toNat ∧
          start.toNat ≤ position ∧ position < endOffset.toNat) ∧
      ∀ {σ : Type} (visit : σ → UInt64 → ExtentEntry → Bool × σ) (state : σ),
        (∀ state off e, (visit state off e).1 = true) →
          iterExtents visit db oid start endOffset state =
            (.ok (), visitAll visit state visited) := by
  refine ⟨db.entries.filterMap (extentIn oid start endOffset), ?_, fun off e => ?_,
    fun visit state continues => iterExtents_eq keyed apart nonempty continues state⟩
  · rw [List.pairwise_filterMap]
    refine db.sorted.imp_of_mem fun {first second} member member' order => ?_
    rintro ⟨off, e⟩ taken ⟨off', e'⟩ taken'
    obtain ⟨_, rfl, -⟩ := keyed.extent_of_mem member (extentIn_eq_some_iff.mp taken).1
    obtain ⟨_, rfl, -⟩ := keyed.extent_of_mem member' (extentIn_eq_some_iff.mp taken').1
    exact (MetaKey.extent_lt_iff.mp order).resolve_left (UInt64.lt_irrefl _) |>.2
  · rw [List.mem_filterMap]
    constructor
    · rintro ⟨entry, member, taken⟩
      obtain ⟨offset, decoded, below, covers⟩ := extentIn_eq_some_iff.mp taken
      obtain ⟨e', rfl, stored⟩ := keyed.extent_of_mem member offset
      rw [ofBytes?_bytes, Option.some.injEq] at decoded
      subst decoded
      have positive := apart.positive stored
      rw [UInt64.lt_iff_toNat_lt] at below nonempty
      exact ⟨stored, max off.toNat start.toNat, by omega, by omega, by omega, by omega⟩
    · rintro ⟨stored, position, low, high, inside, last⟩
      refine ⟨_, keyed.mem_of_extent stored, ?_⟩
      rw [extentIn_eq_some_iff]
      exact ⟨extentOffset_encode oid off, ofBytes?_bytes _ _, UInt64.lt_iff_toNat_lt.mpr (by omega),
        by omega⟩

section Batch

variable {batch : Batch} (apart : (batch.map MetaPut.key).Nodup)

include apart

/-- Puts of different keys into an empty database are all found. -/
theorem Db.lookup_apply_empty {put : MetaPut} (member : put ∈ batch) :
    (Db.apply SortedMap.empty batch).lookup put.key = some put.value := by
  refine Db.lookup_apply_of_mem member fun other listed same => ?_
  rw [List.inj_on_of_nodup_map apart listed member same]

theorem Db.extent?_apply_empty {oid off : UInt64} {e : ExtentEntry} :
    (Db.apply SortedMap.empty batch).extent? oid off = some e ↔ .extent oid off e ∈ batch := by
  constructor
  · intro found
    obtain ⟨bytes, lookup, decoded⟩ := Option.bind_eq_some_iff.mp found
    rcases Db.lookup_apply_cases lookup with old | ⟨put, member, key, value⟩
    · simp [Db.lookup] at old
    · cases put with
      | extent oid' off' e' =>
          simp only [MetaPut.key, MetaKey.extent.injEq] at key
          rw [← value, MetaPut.value, ofBytes?_bytes, Option.some.injEq] at decoded
          rwa [key.1, key.2, decoded] at member
      | _ => simp [MetaPut.key] at key
  · intro member
    have stored := Db.lookup_apply_empty apart member
    simp only [MetaPut.key] at stored
    rw [Db.extent?, stored, Option.bind_some, MetaPut.value, ofBytes?_bytes]

end Batch

/-- The records of an object with two extents, among others. -/
def twoExtents : Batch :=
  [.path [47] 0, .extent 1 0 ⟨1, 0, 0, 0, 16, 0⟩, .extent 1 16 ⟨1, 1, 0, 4096, 8, 0⟩, .nextObj 2]

theorem twoExtents_cases {oid off : UInt64} {e : ExtentEntry}
    (stored : (Db.apply SortedMap.empty twoExtents).extent? oid off = some e) :
    off = 0 ∧ e.length = 16 ∨ off = 16 ∧ e.length = 8 := by
  rw [Db.extent?_apply_empty (by simp [twoExtents, MetaPut.key])] at stored
  simp only [twoExtents, List.mem_cons, List.not_mem_nil, or_false, reduceCtorEq, false_or,
    MetaPut.extent.injEq] at stored
  rcases stored with ⟨-, rfl, rfl⟩ | ⟨-, rfl, rfl⟩
  · exact .inl ⟨rfl, rfl⟩
  · exact .inr ⟨rfl, rfl⟩

theorem iterExtents_exact_twoExtents :
    ∃ visited : List (UInt64 × ExtentEntry),
      (visited.Pairwise fun first second => first.1 < second.1) ∧
      (∀ off e, (off, e) ∈ visited ↔
        (Db.apply SortedMap.empty twoExtents).extent? 1 off = some e ∧
        ∃ position, off.toNat ≤ position ∧ position < off.toNat + e.length.toNat ∧
          4 ≤ position ∧ position < 20) ∧
      iterExtents (fun calls off e => (true, calls ++ [(off, e)]))
        (Db.apply SortedMap.empty twoExtents) 1 4 20 [] =
          (.ok (), visitAll (fun calls off e => (true, calls ++ [(off, e)])) [] visited) := by
  have keyed : (Db.apply SortedMap.empty twoExtents).WellKeyed :=
    Db.WellKeyed.apply (fun entry member => absurd member List.not_mem_nil) twoExtents
  have apart : (Db.apply SortedMap.empty twoExtents).ExtentsApart := by
    refine ⟨fun stored => ?_, fun stored => ?_, fun stored stored' distinct => ?_⟩
    · rcases twoExtents_cases stored with ⟨-, length⟩ | ⟨-, length⟩
      · simp [length]
      · simp [length]
    · rcases twoExtents_cases stored with ⟨rfl, length⟩ | ⟨rfl, length⟩
      · simp [length]
      · simp [length]
    · rcases twoExtents_cases stored with ⟨rfl, length⟩ | ⟨rfl, length⟩
      · rcases twoExtents_cases stored' with ⟨rfl, -⟩ | ⟨rfl, -⟩
        · exact absurd rfl distinct
        · simp [length]
      · rcases twoExtents_cases stored' with ⟨rfl, length'⟩ | ⟨rfl, -⟩
        · simp [length']
        · exact absurd rfl distinct
  obtain ⟨visited, sorted, exact, calls⟩ := @iterExtents_exact _ keyed apart 1 4 20 (by decide)
  exact ⟨visited, sorted, exact, calls _ _ fun _ _ _ => rfl⟩

end MiniFs.ObjStore
