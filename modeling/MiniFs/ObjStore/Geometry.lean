import MiniFs.ObjStore.OpenChunk

/-!
# The geometry of reservations

Reservations from a chunk are block-aligned and adjacent, fill it before it is sealed, and number
its entries in 16 bits.  Numbers of chunks are 32-bit, and a chunk and an entry name a reservation
as long as these do not run out.
-/

namespace MiniFs.ObjStore

/-- An action that does not put the chunk id counter to 0. -/
def namingAct (before : Media) (op : PrimOp) (answer : op.Res) (after : Media) : Prop :=
  primAct before op answer after ∧ op ≠ .write true [.nextChunk 0]

/-- No chunk is active, or the active one is full. -/
def StoreMem.Spent (mem : StoreMem) : Prop := ∀ c, mem.active = some c → kChunkSize ≤ c.writeOffset

/-- What `reserve` may return: a part of the active chunk, a part of a new one, or an error, after
which the active chunk is as it was or there is none. -/
inductive ReserveOutcome (mem : StoreMem) (maxLength : UInt32) :
    Except Status Reservation × StoreMem → Prop
  | refused (none : maxLength = 0) :
      ReserveOutcome mem maxLength (.error .ERROR_INVALID_ARGUMENT, mem)
  | carved {c : Chunk} (current : mem.active = some c) (room : c.writeOffset < kChunkSize)
      (positive : 0 < maxLength) :
      ReserveOutcome mem maxLength (.ok (c.carve maxLength room positive).1,
        { mem with active := some (c.carve maxLength room positive).2 })
  | failed {status : Status} {mem' : StoreMem} (spent : mem.Spent) (idle : mem'.active = none)
      (id : mem.nextChunkId ≤ mem'.nextChunkId) : ReserveOutcome mem maxLength (.error status, mem')
  | fresh {lba : Nat} {mem' : StoreMem} (spent : mem.Spent) (positive : 0 < maxLength)
      (current : mem'.active = some ((freshChunk mem.nextChunkId lba).carve maxLength
        (freshChunk_room mem.nextChunkId lba) positive).2)
      (id : mem'.nextChunkId = mem.nextChunkId + 1) (room : mem.nextChunkId + 1 ≠ 0) :
      ReserveOutcome mem maxLength (.ok ((freshChunk mem.nextChunkId lba).carve maxLength
        (freshChunk_room mem.nextChunkId lba) positive).1, mem')

section Outcome

variable {mem : StoreMem} {maxLength : UInt32}

theorem reserveFresh_outcome (idle : mem.active = none) (positive : 0 < maxLength) (media : Media) :
    (reserveFresh maxLength positive mem).Safe namingAct (fun _ _ _ _ => True)
      (fun result _ => ReserveOutcome mem maxLength result) media := by
  have spent : mem.Spent := by
    intro c current
    rw [idle] at current
    contradiction
  rintro ⟨status, mount⟩ after -
  refine ⟨trivial, ?_⟩
  cases status with
  | error error => exact .failed spent idle (UInt32.le_refl _)
  | ok lba =>
      rintro named after ⟨-, counted⟩
      have room : mem.nextChunkId + 1 ≠ 0 := by
        intro wraps
        exact counted (by rw [← wraps])
      have order := UInt32.le_of_lt (UInt32.lt_add_one room)
      refine ⟨trivial, ?_⟩
      cases named with
      | false => exact .failed spent idle order
      | true =>
          rintro recorded after -
          refine ⟨trivial, ?_⟩
          cases recorded with
          | false => exact .failed spent idle order
          | true => exact .fresh spent positive rfl rfl room

/-- What one reservation does, whatever the environment answers. -/
theorem reserve_outcome (mem : StoreMem) (maxLength : UInt32) (media : Media) :
    (reserve maxLength mem).Safe namingAct (fun _ _ _ _ => True)
      (fun result _ => ReserveOutcome mem maxLength result) media := by
  rw [reserve]
  split_ifs with positive
  · cases current : mem.active with
    | none => exact reserveFresh_outcome current positive media
    | some c =>
        simp only
        split_ifs with room
        · exact .carved current room positive
        · have spent : mem.Spent := by
            intro c' current'
            rw [current, Option.some.injEq] at current'
            exact current' ▸ UInt32.not_lt.mp room
          rintro answer after -
          refine ⟨trivial, ?_⟩
          cases answer with
          | false => exact .failed spent rfl (UInt32.le_refl _)
          | true =>
              refine (reserveFresh_outcome rfl positive after).mono fun result _ outcome => ?_
              cases outcome with
              | refused none => exact absurd positive (none ▸ UInt32.lt_irrefl _)
              | carved active => cases active
              | failed _ idle id => exact .failed spent idle id
              | fresh _ _ active id more => exact .fresh spent positive active id more
  · exact .refused (UInt32.le_antisymm (UInt32.not_lt.mp positive) UInt32.zero_le)

end Outcome

/-- An aligned chunk with no more entries than blocks. -/
structure Chunk.Geometric (c : Chunk) : Prop extends Chunk.OffsetOk c where
  entries : c.nextIdx.toNat ≤ c.writeOffset.toNat / 4096

/-- The adopted chunk is geometric, and its number was taken from the counter. -/
def StoreMem.Adopted (mem : StoreMem) : Prop :=
  ∀ c, mem.active = some c → c.Geometric ∧ c.chunkId < mem.nextChunkId

/-- A reservation on a request of `length` bytes: as much as there is room for, padded to whole
blocks inside the chunk. -/
structure Reservation.Fits (r : Reservation) (length : UInt32) : Prop where
  positive : 0 < r.lengthBytes.toNat
  length_le : r.lengthBytes.toNat ≤ length.toNat
  length_eq : r.lengthBytes.toNat = min length.toNat (kChunkSize.toNat - r.offsetBytes.toNat)
  padded_eq : r.paddedBytes.toNat = blocksFor r.lengthBytes.toNat * 4096
  aligned : r.offsetBytes.toNat % 4096 = 0
  within : r.offsetBytes.toNat + r.paddedBytes.toNat ≤ kChunkSize.toNat

theorem kChunkSize_toNat : kChunkSize.toNat = 67108864 := rfl

theorem freshChunk_geometric (cid : UInt32) (lba : Nat) : (freshChunk cid lba).Geometric :=
  ⟨⟨rfl, Nat.zero_le _⟩, Nat.zero_le _⟩

section Entries

variable {c : Chunk} {maxLength : UInt32}

theorem Chunk.take_entry (c : Chunk) (length padded : UInt32) (positive : 0 < length) :
    (c.take length padded positive).1.chunkIdx = c.nextIdx.toUInt16 ∧
      (c.take length padded positive).2.nextIdx = c.nextIdx + 1 := ⟨rfl, rfl⟩

theorem Chunk.Geometric.index_exact (geometric : c.Geometric) :
    c.nextIdx.toUInt16.toNat = c.nextIdx.toNat := by
  have entries := geometric.entries
  have within := geometric.within
  rw [UInt32.toNat_toUInt16]
  omega

/-- A part of a geometric chunk: it fits, its entry is exact, and the chunk stays geometric. -/
structure Part (c : Chunk) (maxLength : UInt32) (r : Reservation) (c' : Chunk) : Prop where
  fits : r.Fits maxLength
  chunkId : r.chunkId = c.chunkId
  offset : r.offsetBytes.toNat = c.writeOffset.toNat
  index : r.chunkIdx.toNat = c.nextIdx.toNat
  ident : c'.chunkId = c.chunkId
  advance : c'.writeOffset.toNat = r.offsetBytes.toNat + r.paddedBytes.toNat
  entry : c'.nextIdx.toNat = c.nextIdx.toNat + 1
  geometric : c'.Geometric

/-- A request that is cut fills the chunk. -/
theorem Part.full {r : Reservation} {c' : Chunk} (part : Part c maxLength r c')
    (cut : r.lengthBytes.toNat < maxLength.toNat) : kChunkSize ≤ c'.writeOffset := by
  have length := part.fits.length_eq
  have padded := part.fits.padded_eq
  have advance := part.advance
  rw [UInt32.le_iff_toNat_le]
  rw [blocksFor] at padded
  omega

theorem Chunk.Geometric.carve (geometric : c.Geometric) (room : c.writeOffset < kChunkSize)
    (positive : 0 < maxLength) :
    Part c maxLength (c.carve maxLength room positive).1 (c.carve maxLength room positive).2 := by
  have carved := Chunk.carve_carved geometric.toOffsetOk room positive
  have index : (c.carve maxLength room positive).1.chunkIdx = c.nextIdx.toUInt16 :=
    (c.take_entry _ _ (Chunk.fit_pos room positive)).1
  have entry : (c.carve maxLength room positive).2.nextIdx = c.nextIdx + 1 :=
    (c.take_entry _ _ (Chunk.fit_pos room positive)).2
  have ident : (c.carve maxLength room positive).2.chunkId = c.chunkId :=
    c.take_chunkId _ _ (Chunk.fit_pos room positive)
  generalize c.carve maxLength room positive = result at carved index entry ident ⊢
  obtain ⟨r, c'⟩ := result
  dsimp only at carved index entry ident ⊢
  have length := UInt32.lt_iff_toNat_lt.mp r.length_pos
  have aligned := geometric.aligned
  have within := carved.offsetOk.within
  have entries := geometric.entries
  have offset : r.offsetBytes.toNat = c.writeOffset.toNat := by rw [carved.offset]
  have padded := carved.padded
  have advance := carved.advance
  have blocks : 1 ≤ blocksFor r.lengthBytes.toNat := by
    rw [blocksFor]
    simp only [UInt32.toNat_zero] at length
    omega
  have next : c'.nextIdx.toNat = c.nextIdx.toNat + 1 := by
    rw [entry, UInt32.toNat_add]
    simp only [UInt32.reduceToNat]
    have start := geometric.within
    omega
  refine ⟨⟨?_, ?_, ?_, padded, ?_, ?_⟩, carved.chunkId, offset, ?_, ident, ?_, next,
    ⟨carved.offsetOk, ?_⟩⟩
  · simpa using length
  · rw [carved.length]
    exact min_le_left _ _
  · rw [carved.length, offset, kChunkSize_toNat]
  · rw [offset]
    exact aligned
  · rw [kChunkSize_toNat]
    omega
  · rw [index]
    exact geometric.index_exact
  · omega
  · rw [next, advance]
    omega

end Entries

/-- A sequence of reservations with positive lengths, and what each returned. -/
inductive ReserveRun (act : Media → (op : PrimOp) → op.Res → Media → Prop) (mem : StoreMem)
    (media : Media) : List (UInt32 × Except Status Reservation) → StoreMem → Media → Prop
  | nil : ReserveRun act mem media [] mem media
  | reserve {calls : List (UInt32 × Except Status Reservation)} {mem₁ mem₂ : StoreMem}
      {media₁ media₂ : Media} {length : UInt32} {result : Except Status Reservation}
      (run : ReserveRun act mem media calls mem₁ media₁) (positive : 0 < length)
      (reach : Prog.Reaches act (reserve length mem₁, media₁) (.ret (result, mem₂), media₂)) :
      ReserveRun act mem media (calls ++ [(length, result)]) mem₂ media₂

/-- The reservations that succeeded. -/
def served (calls : List (UInt32 × Except Status Reservation)) : List Reservation :=
  calls.filterMap fun call => call.2.toOption

/-- The reservations of one chunk. -/
def ofChunk (cid : UInt32) (reservations : List Reservation) : List Reservation :=
  reservations.filter fun r => r.chunkId = cid

/-- One reservation begins where the other one ends. -/
def Adjacent (r r' : Reservation) : Prop :=
  r'.offsetBytes.toNat = r.offsetBytes.toNat + r.paddedBytes.toNat

/-- The reservations so far, and the memory after them. -/
structure Served (reservations : List Reservation) (mem : StoreMem) : Prop where
  adopted : mem.Adopted
  below : ∀ r ∈ reservations, r.chunkId < mem.nextChunkId
  entries : ∀ c, mem.active = some c → ∀ r ∈ reservations, r.chunkId = c.chunkId →
    r.chunkIdx.toNat < c.nextIdx.toNat
  ends : ∀ c, mem.active = some c → ∀ r ∈ (ofChunk c.chunkId reservations).getLast?,
    c.writeOffset.toNat = r.offsetBytes.toNat + r.paddedBytes.toNat
  adjacent : ∀ cid, (ofChunk cid reservations).IsChain Adjacent
  distinct : reservations.Pairwise fun r r' => (r.chunkId, r.chunkIdx) ≠ (r'.chunkId, r'.chunkIdx)

section Served

variable {reservations : List Reservation} {mem mem' : StoreMem} {maxLength : UInt32}

theorem ofChunk_append (cid : UInt32) (r : Reservation) :
    ofChunk cid (reservations ++ [r]) =
      if r.chunkId = cid then ofChunk cid reservations ++ [r] else ofChunk cid reservations := by
  simp only [ofChunk, List.filter_append, List.filter_cons, List.filter_nil, decide_eq_true_eq]
  split_ifs with same
  · rfl
  · rw [List.append_nil]

/-- A part is added at the end of its chunk, whose later entries are new. -/
theorem Served.add (served : Served reservations mem) {c c' : Chunk} {r : Reservation}
    (part : Part c maxLength r c')
    (fresh : ∀ r' ∈ reservations, r'.chunkId = c.chunkId → r'.chunkIdx.toNat < c.nextIdx.toNat)
    (ends : ∀ r' ∈ (ofChunk c.chunkId reservations).getLast?,
      c.writeOffset.toNat = r'.offsetBytes.toNat + r'.paddedBytes.toNat)
    (current : mem'.active = some c') (below : c.chunkId < mem'.nextChunkId)
    (order : mem.nextChunkId ≤ mem'.nextChunkId) : Served (reservations ++ [r]) mem' where
  adopted := by
    intro a active
    obtain rfl : c' = a := Option.some.inj (current.symm.trans active)
    exact ⟨part.geometric, part.ident ▸ below⟩
  below := by
    intro r' member
    rcases List.mem_append.mp member with old | new
    · exact UInt32.lt_of_lt_of_le (served.below r' old) order
    · rw [List.mem_singleton.mp new, part.chunkId]
      exact below
  entries := by
    intro a active r' member same
    obtain rfl : c' = a := Option.some.inj (current.symm.trans active)
    rw [part.entry]
    rcases List.mem_append.mp member with old | new
    · have earlier := fresh r' old (same.trans part.ident)
      omega
    · rw [List.mem_singleton.mp new, part.index]
      omega
  ends := by
    intro a active r' last
    obtain rfl : c' = a := Option.some.inj (current.symm.trans active)
    rw [ofChunk_append, if_pos (part.chunkId.trans part.ident.symm), List.getLast?_concat,
      Option.mem_some] at last
    rw [← last]
    exact part.advance
  adjacent := by
    intro cid
    rw [ofChunk_append]
    split_ifs with same
    · refine List.isChain_append.mpr ⟨served.adjacent cid, .singleton r, ?_⟩
      intro r' last first head
      obtain rfl : r = first := by simpa using head
      rw [← same, part.chunkId] at last
      rw [Adjacent, part.offset]
      exact ends r' last
    · exact served.adjacent cid
  distinct := by
    refine List.pairwise_append.mpr ⟨served.distinct, List.pairwise_singleton _ _, ?_⟩
    intro r' old new member same
    rw [List.mem_singleton.mp member, Prod.mk.injEq, part.chunkId] at same
    have earlier := fresh r' old same.1
    rw [same.2, part.index] at earlier
    omega

/-- One reservation keeps the invariant, and fits. -/
theorem Served.outcome (served : Served reservations mem)
    {result : Except Status Reservation × StoreMem}
    (outcome : ReserveOutcome mem maxLength result) :
    Served (reservations ++ result.1.toOption.toList) result.2 ∧
      ∀ r, result.1 = .ok r → r.Fits maxLength := by
  have keeps : ∀ {mem' : StoreMem}, mem'.active = none → mem.nextChunkId ≤ mem'.nextChunkId →
      Served reservations mem' := by
    intro mem' idle order
    refine ⟨?_, fun r member => UInt32.lt_of_lt_of_le (served.below r member) order, ?_, ?_,
      served.adjacent, served.distinct⟩
    all_goals
      intro c current
      rw [idle] at current
      contradiction
  cases outcome with
  | refused none =>
      refine ⟨?_, fun _ wrong => nomatch wrong⟩
      simpa [Except.toOption] using served
  | carved current room positive =>
      obtain ⟨geometric, below⟩ := served.adopted _ current
      have part := geometric.carve room positive
      refine ⟨served.add part (served.entries _ current) (served.ends _ current) rfl below
        (UInt32.le_refl _), ?_⟩
      rintro r ⟨⟩
      exact part.fits
  | failed spent idle id =>
      refine ⟨?_, fun _ wrong => nomatch wrong⟩
      simpa [Except.toOption] using keeps idle id
  | @fresh lba mem' spent positive current id room =>
      have part := (freshChunk_geometric mem.nextChunkId lba).carve
        (freshChunk_room mem.nextChunkId lba) positive
      have advance := UInt32.lt_add_one room
      have other : ∀ r ∈ reservations, r.chunkId ≠ mem.nextChunkId := fun r member same =>
        UInt32.lt_irrefl _ (same ▸ served.below r member)
      have unused : ofChunk (freshChunk mem.nextChunkId lba).chunkId reservations = [] :=
        List.filter_eq_nil_iff.mpr fun r member => by
          rw [decide_eq_true_eq]
          exact other r member
      refine ⟨served.add part (fun r member same => absurd same (other r member)) ?_ current
        (id ▸ advance) (id ▸ UInt32.le_of_lt advance), ?_⟩
      · rw [unused]
        simp
      · rintro r ⟨⟩
        exact part.fits

end Served

/-- What holds of a sequence of reservations. -/
structure Geometry (calls : List (UInt32 × Except Status Reservation)) : Prop where
  fits : ∀ length r, (length, .ok r) ∈ calls → r.Fits length
  adjacent : ∀ cid, (ofChunk cid (served calls)).IsChain Adjacent
  distinct : (served calls).Pairwise fun r r' => (r.chunkId, r.chunkIdx) ≠ (r'.chunkId, r'.chunkIdx)

/-- Every run keeps the invariant. -/
theorem ReserveRun.served {mem mem' : StoreMem} {media media' : Media}
    {calls : List (UInt32 × Except Status Reservation)} (adopted : mem.Adopted)
    (run : ReserveRun namingAct mem media calls mem' media') :
    Served (served calls) mem' ∧ ∀ length r, (length, .ok r) ∈ calls → r.Fits length := by
  induction run with
  | nil =>
      refine ⟨⟨adopted, by simp [ObjStore.served], by simp [ObjStore.served], ?_, ?_, .nil⟩, by
        simp⟩
      · simp [ObjStore.served, ofChunk]
      · exact fun _ => .nil
  | @reserve calls mem₁ mem₂ media₁ media₂ length result run positive reach ih =>
      obtain ⟨before, fits⟩ := ih
      have outcome := Prog.Safe.reaches (reserve_outcome mem₁ length media₁ :
        Prog.Safe _ _ _ (ObjStore.reserve length mem₁, media₁).1 _) reach
      obtain ⟨after, fit⟩ := before.outcome outcome
      refine ⟨?_, ?_⟩
      · rw [ObjStore.served, List.filterMap_append]
        cases result with
        | ok r => exact after
        | error status => exact after
      · intro length' r member
        rcases List.mem_append.mp member with old | new
        · exact fits length' r old
        · simp only [List.mem_singleton, Prod.mk.injEq] at new
          obtain ⟨rfl, rfl⟩ := new
          exact fit r rfl

/-- A chunk record put as sealed is of a full chunk. -/
def PrimOp.SealsFull : PrimOp → Prop
  | .write _ batch =>
      ∀ c, MetaPut.chunk c ∈ batch → c.isSealed = true → c.writeOffset = kChunkSize
  | _ => True

theorem reserveFresh_sealsFull {maxLength : UInt32} (positive : 0 < maxLength) (mem : StoreMem) :
    (reserveFresh maxLength positive mem).Issues PrimOp.SealsFull fun _ => True := by
  refine ⟨trivial, ?_⟩
  rintro ⟨lba | lba, mount⟩
  · trivial
  · refine ⟨by simp [PrimOp.SealsFull], ?_⟩
    rintro (_ | _)
    · trivial
    · refine ⟨?_, ?_⟩
      · intro c member isSealed
        obtain rfl : c = freshChunk _ lba := by simpa using member
        exact nomatch isSealed
      · rintro (_ | _) <;> trivial

/-- Only a full chunk is sealed. -/
theorem reserve_sealsFull {mem : StoreMem} (adopted : mem.Adopted) (maxLength : UInt32) :
    (reserve maxLength mem).Issues PrimOp.SealsFull fun _ => True := by
  rw [reserve]
  split_ifs with positive
  · cases current : mem.active with
    | none => exact reserveFresh_sealsFull positive mem
    | some c =>
        simp only
        split_ifs with room
        · trivial
        · refine ⟨?_, ?_⟩
          · rintro c' member -
            obtain rfl : c' = { c with isSealed := true } := by simpa using member
            have within := (adopted c current).1.within
            exact UInt32.le_antisymm (UInt32.le_iff_toNat_le.mpr within) (UInt32.not_lt.mp room)
          · rintro (_ | _)
            · trivial
            · exact reserveFresh_sealsFull positive _
  · trivial

/-- The puts that the write loop stages for its reservations. -/
def stagedAll (oid : UInt64) : UInt64 → List Reservation → Batch
  | _, [] => []
  | logical, r :: rest =>
      r.staged oid logical ++ stagedAll oid (logical + r.lengthBytes.toUInt64) rest

/-- The reservations of a write loop that went through: as long as the data together, and each from
a chunk of its own. -/
structure Segmented (length : Nat) (reservations : List Reservation) : Prop where
  total : (reservations.map fun r => r.lengthBytes.toNat).sum = length
  chunks : (reservations.map Reservation.chunkId).Nodup

theorem Segmented.count_le {length : Nat} {reservations : List Reservation}
    (segmented : Segmented length reservations) : reservations.length ≤ length := by
  rw [← segmented.total]
  have each : ∀ n ∈ reservations.map (fun r => r.lengthBytes.toNat), 1 ≤ n := by
    intro n member
    obtain ⟨r, -, rfl⟩ := List.mem_map.mp member
    exact UInt32.lt_iff_toNat_lt.mp r.length_pos
  simpa using List.length_le_sum_of_one_le _ each

/-- What a reservation that went through leaves for the next one. -/
theorem ReserveOutcome.next {mem mem' : StoreMem} {maxLength : UInt32} {r : Reservation}
    (adopted : mem.Adopted) (outcome : ReserveOutcome mem maxLength (.ok r, mem')) :
    mem'.Adopted ∧ r.Fits maxLength ∧ r.chunkId < mem'.nextChunkId ∧
      (mem.Spent → mem.nextChunkId ≤ r.chunkId) ∧ mem.nextChunkId ≤ mem'.nextChunkId ∧
      (r.lengthBytes.toNat < maxLength.toNat → mem'.Spent) := by
  have start : Served [] mem :=
    ⟨adopted, by simp, by simp, by simp [ofChunk], fun _ => .nil, .nil⟩
  obtain ⟨after, fits⟩ := start.outcome outcome
  have below := after.below r (by simp [Except.toOption])
  cases outcome with
  | carved current room positive =>
      have part := (adopted _ current).1.carve room positive
      refine ⟨after.adopted, fits _ rfl, below, fun spent => ?_, UInt32.le_refl _, fun cut => ?_⟩
      · exact absurd room (UInt32.not_lt.mpr (spent _ current))
      · rintro c ⟨⟩
        exact part.full cut
  | @fresh lba mem' spent positive current id room =>
      have part := (freshChunk_geometric mem.nextChunkId lba).carve
        (freshChunk_room mem.nextChunkId lba) positive
      refine ⟨after.adopted, fits _ rfl, below, fun _ => ?_, ?_, fun cut => ?_⟩
      · rw [part.chunkId]
        exact UInt32.le_refl _
      · rw [id]
        exact UInt32.le_of_lt (UInt32.lt_add_one room)
      · intro c active
        rw [current, Option.some.injEq] at active
        exact active ▸ part.full cut

/-- The reservations of the write loop, whatever the environment answers. -/
theorem writeLoop_segmented (oid : UInt64) :
    ∀ (rest : List UInt8) (logical : UInt64) (batch : Batch) (added : UInt64) {mem : StoreMem}
      {media : Media}, mem.Adopted →
      ((writeLoop oid rest logical batch added).refine storeSem mem).Safe namingAct
        (fun _ _ _ _ => True)
        (fun result _ => ∀ batch' added', result.1 = .ok (batch', added') →
          ∃ reservations, batch' = batch ++ stagedAll oid logical reservations ∧
            added' = added + UInt64.ofNat reservations.length ∧
            Segmented rest.length reservations ∧
            (mem.Spent → ∀ r ∈ reservations, mem.nextChunkId ≤ r.chunkId)) media := by
  intro rest
  induction total : rest.length using Nat.strong_induction_on generalizing rest with
  | _ size ih =>
      intro logical batch added mem media adopted
      rw [writeLoop]
      split_ifs with empty
      · rintro batch' added' ⟨⟩
        refine ⟨[], by simp [stagedAll], by simp, ⟨?_, List.nodup_nil⟩, by simp⟩
        rw [← total, empty]
        rfl
      · refine (reserve_outcome mem _ media).bind ?_
        rintro ⟨answer, mem₁⟩ media₁ outcome
        cases answer with
        | error status => rintro _ _ ⟨⟩
        | ok r =>
            obtain ⟨adopted₁, fits, below, first, order, spent⟩ := outcome.next adopted
            have some := List.length_pos_iff.mpr empty
            have wanted : (UInt32.ofNat (min rest.length 4294967295)).toNat =
                min rest.length 4294967295 := by
              rw [UInt32.toNat_ofNat', Nat.mod_eq_of_lt (by omega)]
            have limit := fits.length_le
            have exact_ := fits.length_eq
            have positive := fits.positive
            have left : (rest.drop r.lengthBytes.toNat).length = size - r.lengthBytes.toNat := by
              rw [List.length_drop, total]
            rw [wanted] at limit exact_ spent
            rw [kChunkSize_toNat] at exact_
            rw [Prog.refine_bind]
            have segment : Prog.Safe namingAct (fun _ _ _ _ => True)
                (fun result _ => result.2 = mem₁ ∧ True)
                ((writeSegment (rest.take r.lengthBytes.toNat) r).refine storeSem mem₁) media₁ :=
              (@writeSegment_issues (fun _ => True) _ r mem₁).safe trivial fun _ _ _ _ _ _ _ =>
                ⟨trivial, trivial⟩
            refine segment.bind ?_
            rintro ⟨answer, mem₂⟩ media₂ ⟨same, -⟩
            obtain rfl : mem₁ = mem₂ := same.symm
            cases answer with
            | error status => rintro _ _ ⟨⟩
            | ok done =>
                refine (ih _ (by omega) _ left _ _ _ adopted₁).mono ?_
                intro result media' found batch' added' done'
                obtain ⟨more, rfl, rfl, segmented, later⟩ := found batch' added' done'
                -- a reservation follows only where this one has filled its chunk
                have after : ∀ r' ∈ more, mem₁.nextChunkId ≤ r'.chunkId := by
                  intro r' member
                  have count := List.length_pos_of_mem member
                  have bound := segmented.count_le
                  exact later (spent (by omega)) r' member
                refine ⟨r :: more, ?_, ?_, ⟨?_, ?_⟩, ?_⟩
                · rw [stagedAll, List.append_assoc]
                · rw [List.length_cons, Nat.add_comm, UInt64.ofNat_add, ← UInt64.add_assoc]
                  rfl
                · rw [List.map_cons, List.sum_cons, segmented.total]
                  omega
                · rw [List.map_cons, List.nodup_cons]
                  refine ⟨?_, segmented.chunks⟩
                  intro member
                  obtain ⟨r', listed, same⟩ := List.mem_map.mp member
                  exact UInt32.lt_irrefl _ (UInt32.lt_of_lt_of_le below (same ▸ after r' listed))
                · intro idle r' member
                  rcases List.mem_cons.mp member with rfl | old
                  · exact first idle
                  · exact UInt32.le_trans order (after r' old)

section Renumbering

variable {act : Media → (op : PrimOp) → op.Res → Media → Prop}

/-- The environment may do what is asked, other than put the chunk id counter to 0. -/
def Obliges (act : Media → (op : PrimOp) → op.Res → Media → Prop) : Prop :=
  ∀ media op, op ≠ .write true [.nextChunk 0] → act media op (okExec op media).1 (okExec op media).2

theorem primAct_obliges : Obliges primAct := fun media op _ => primAct_exec _ media op

theorem namingAct_obliges :
    Obliges namingAct := fun media op other => ⟨primAct_exec _ media op, other⟩

/-- The memory after a whole chunk was reserved with the number of the counter. -/
def StoreMem.filled (mem : StoreMem) (mount : NebulaMount) (lba : Nat) : StoreMem :=
  { mem with
    mount := mount
    nextChunkId := mem.nextChunkId + 1
    active := some ((freshChunk mem.nextChunkId lba).carve kChunkSize
      (freshChunk_room mem.nextChunkId lba) (by decide)).2 }

theorem freshChunk_part (cid : UInt32) (lba : Nat) :
    Part (freshChunk cid lba) kChunkSize
      ((freshChunk cid lba).carve kChunkSize (freshChunk_room cid lba) (by decide)).1
      ((freshChunk cid lba).carve kChunkSize (freshChunk_room cid lba) (by decide)).2 :=
  (freshChunk_geometric cid lba).carve _ _

theorem freshChunk_filled (cid : UInt32) (lba : Nat) : ¬ ((freshChunk cid lba).carve kChunkSize
    (freshChunk_room cid lba) (by decide)).2.writeOffset < kChunkSize := by
  have part := freshChunk_part cid lba
  have length := part.fits.length_eq
  have padded := part.fits.padded_eq
  have advance := part.advance
  have start : (freshChunk cid lba).writeOffset.toNat = 0 := rfl
  have offset := part.offset
  have size := kChunkSize_toNat
  rw [UInt32.lt_iff_toNat_lt]
  rw [blocksFor] at padded
  omega

/-- A reservation of a whole chunk after a full one. -/
theorem reserve_renumbers (obliges : Obliges act) {mem : StoreMem} {media : Media} {c : Chunk}
    {start : Nat} {disk : Disk} {mount : NebulaMount} (current : mem.active = some c)
    (full : ¬ c.writeOffset < kChunkSize)
    (counts : ∀ media, act media (.write true [.nextChunk (mem.nextChunkId + 1)]) true
      (media.commit true [.nextChunk (mem.nextChunkId + 1)]))
    (allocated :
      nebulaBlockAlloc .ok media.disk mem.mount kChunkBlocks = (.ok start, disk, mount)) :
    ∃ media', media'.disk = disk ∧ Prog.Reaches act (reserve kChunkSize mem, media)
      (.ret (.ok ((freshChunk mem.nextChunkId start).carve kChunkSize
        (freshChunk_room mem.nextChunkId start) (by decide)).1, mem.filled mount start),
        media') := by
  have put : ∀ media c, act media (.write true [.chunk c]) true (media.commit true [.chunk c]) :=
    fun media c => obliges media (.write true [.chunk c]) (by simp)
  have blocks : ∀ media' : Media, media'.disk = media.disk →
      act media' (.blockAlloc mem.mount kChunkBlocks) (.ok start, mount)
        (media'.withDisk disk) := by
    intro media' same
    have acted := obliges media' (.blockAlloc mem.mount kChunkBlocks) (by simp)
    rw [okExec, PrimOp.exec, same, allocated] at acted
    exact acted
  rw [reserve, dif_pos (by decide), current]
  simp only
  rw [dif_neg full]
  exact ⟨_, rfl, .head (.call (put media _)) (.head (.call (blocks _ rfl))
    (.head (.call (counts _)) (.head (.call (put _ _)) .refl)))⟩

/-- A store that has adopted an empty chunk. -/
def adoptedMem (mount : NebulaMount) (cid counter : UInt32) (lba : Nat) : StoreMem :=
  { newMem mount with nextChunkId := counter, active := some (freshChunk cid lba) }

/-- The first reservation of a chunk, of all of it. -/
def wholeOf (cid : UInt32) (lba : Nat) : Reservation :=
  ((freshChunk cid lba).carve kChunkSize (freshChunk_room cid lba) (by decide)).1

/-- The last reservation took all of a chunk. -/
def StoreMem.Filled (mem : StoreMem) (mount : NebulaMount) (counter : UInt32) : Prop :=
  mem.mount = mount ∧ mem.nextChunkId = counter ∧
    ∃ c, mem.active = some c ∧ ¬ c.writeOffset < kChunkSize

/-- A further reservation from the active chunk. -/
theorem ReserveRun.carve {mem mem₁ : StoreMem} {media media₁ : Media} {c : Chunk} {length : UInt32}
    {calls : List (UInt32 × Except Status Reservation)}
    (run : ReserveRun act mem media calls mem₁ media₁) (current : mem₁.active = some c)
    (room : c.writeOffset < kChunkSize) (positive : 0 < length) :
    ReserveRun act mem media (calls ++ [(length, .ok (c.carve length room positive).1)])
      { mem₁ with active := some (c.carve length room positive).2 } media₁ := by
  refine .reserve run positive ?_
  rw [reserve_of_active current room positive]
  exact .refl

/-- The adopted chunk is reserved as a whole. -/
theorem ReserveRun.adopted (mount : NebulaMount) (cid counter : UInt32) (lba : Nat)
    (media : Media) :
    ∃ mem, mem.Filled mount counter ∧ ReserveRun act (adoptedMem mount cid counter lba) media
      [(kChunkSize, .ok (wholeOf cid lba))] mem media :=
  ⟨_, ⟨rfl, rfl, _, rfl, freshChunk_filled cid lba⟩,
    ReserveRun.nil.carve rfl (freshChunk_room cid lba) (by decide)⟩

/-- A further chunk is reserved as a whole. -/
theorem ReserveRun.renumber (obliges : Obliges act) {mem mem₁ : StoreMem} {media media₁ : Media}
    {calls : List (UInt32 × Except Status Reservation)} {start : Nat} {disk : Disk}
    {mount mount' : NebulaMount} {counter : UInt32}
    (run : ReserveRun act mem media calls mem₁ media₁) (filled : mem₁.Filled mount counter)
    (counts : ∀ media, act media (.write true [.nextChunk (counter + 1)]) true
      (media.commit true [.nextChunk (counter + 1)]))
    (allocated : nebulaBlockAlloc .ok media₁.disk mount kChunkBlocks = (.ok start, disk, mount')) :
    ∃ mem₂ media₂, media₂.disk = disk ∧ mem₂.Filled mount' (counter + 1) ∧
      ReserveRun act mem media (calls ++ [(kChunkSize, .ok (wholeOf counter start))]) mem₂
        media₂ := by
  obtain ⟨rfl, rfl, c, current, full⟩ := filled
  obtain ⟨media₂, same, reach⟩ := reserve_renumbers obliges current full counts allocated
  exact ⟨_, media₂, same, ⟨rfl, rfl, _, rfl, freshChunk_filled mem₁.nextChunkId start⟩,
    .reserve run (by decide) reach⟩

/-- The first reservations of two chunks of one number have one name. -/
theorem wholeOf_name (cid : UInt32) (lba lba' : Nat) :
    ((wholeOf cid lba).chunkId, (wholeOf cid lba).chunkIdx) =
      ((wholeOf cid lba').chunkId, (wholeOf cid lba').chunkIdx) := by
  have part := freshChunk_part cid lba
  have part' := freshChunk_part cid lba'
  refine Prod.ext ?_ (UInt16.toNat_inj.mp ?_)
  · exact part.chunkId.trans part'.chunkId.symm
  · exact part.index.trans part'.index.symm

end Renumbering

/-! ## The geometry -/

/-- What holds of every sequence of reservations and of every write loop from such a memory. -/
structure ReservationGeometry (Start : StoreMem → Prop)
    (act : Media → (op : PrimOp) → op.Res → Media → Prop) : Prop where
  geometry : ∀ ⦃mem media calls mem' media'⦄, Start mem →
    ReserveRun act mem media calls mem' media' → Geometry calls
  index : ∀ ⦃mem media calls mem' media'⦄, Start mem → ReserveRun act mem media calls mem' media' →
    ∀ c, mem'.active = some c → c.nextIdx.toUInt16.toNat = c.nextIdx.toNat
  seals : ∀ ⦃mem media calls mem' media'⦄, Start mem → ReserveRun act mem media calls mem' media' →
    ∀ length, (reserve length mem').Issues PrimOp.SealsFull fun _ => True
  ends : ∀ ⦃mem⦄, Start mem → ∀ oid data logical media,
    Acc (fun after before => Prog.Step act before after)
      ((writeLoop oid data logical [] 0).refine storeSem mem, media)
  loop : ∀ ⦃mem⦄, Start mem → ∀ oid data logical media batch added mem' media',
    Prog.Reaches act ((writeLoop oid data logical [] 0).refine storeSem mem, media)
      (.ret (.ok (batch, added), mem'), media') →
    ∃ reservations, batch = stagedAll oid logical reservations ∧
      added = UInt64.ofNat reservations.length ∧ Segmented data.length reservations

/-- Reservations keep the geometry as long as the chunk id counter does not run out. -/
theorem reservation_geometry : ReservationGeometry StoreMem.Adopted namingAct where
  geometry := by
    intro mem media calls mem' media' adopted run
    obtain ⟨after, fits⟩ := run.served adopted
    exact ⟨fits, after.adjacent, after.distinct⟩
  index := by
    intro mem media calls mem' media' adopted run c current
    exact ((run.served adopted).1.adopted c current).1.index_exact
  seals := by
    intro mem media calls mem' media' adopted run length
    exact reserve_sealsFull (run.served adopted).1.adopted length
  ends := fun mem _ oid data logical media => Prog.acc_step _ _
  loop := by
    intro mem adopted oid data logical media batch added mem' media' reach
    have found := Prog.Safe.reaches (writeLoop_segmented oid data logical [] 0 adopted :
      Prog.Safe _ _ _ ((writeLoop oid data logical [] 0).refine storeSem mem, media).1 _) reach
    obtain ⟨reservations, staged, count, segmented, -⟩ := found batch added rfl
    exact ⟨reservations, staged, by simpa using count, segmented⟩

/-- A run of three reservations: a byte of a new chunk, the rest of it, and all of the
next chunk. -/
theorem reservation_geometry_plainDisk : ∃ mem media mem' media' r r' r'', mem.Adopted ∧
    ReserveRun namingAct mem media [(1, .ok r), (kChunkSize, .ok r'), (kChunkSize, .ok r'')]
      mem' media' ∧
    (ofChunk 1 [r, r', r'']) = [r, r'] ∧ Adjacent r r' ∧ r''.chunkId = 2 ∧
    Geometry [(1, .ok r), (kChunkSize, .ok r'), (kChunkSize, .ok r'')] := by
  obtain ⟨layout, mount, mounts, exact, inside, free⟩ := plainDisk_two_chunks
  generalize plainDisk 65536 (by decide) = disk at mounts exact
  obtain ⟨start, base, mount₁, start₂, disk₂, mount₂, allocated, allocated₂⟩ :=
    exact.alloc_twice (by decide) free inside
  have lawful : ∀ media op, FirstAct media op →
      namingAct media op (okExec op media).1 (okExec op media).2 :=
    fun media op first =>
      ⟨primAct_exec _ media op, fun wraps => absurd (first.2 0 wraps).1 (by decide)⟩
  have first := (reserve_runsBy allocated).reaches lawful
  rw [@reserve_run (createdMem mount) (createdMedia disk) start base mount₁ 1
    (by decide) rfl allocated] at first
  have part : Part (freshChunk 1 start) 1 (freshCarve 1 start 1 (by decide)).1
      (freshCarve 1 start 1 (by decide)).2 := (freshChunk_geometric 1 start).carve _ _
  have zero : (freshChunk 1 start).writeOffset.toNat = 0 := rfl
  have one : (1 : UInt32).toNat = 1 := rfl
  have size := kChunkSize_toNat
  have offset : (freshCarve 1 start 1 (by decide)).2.writeOffset.toNat = 4096 := by
    have length := part.fits.length_eq
    have padded := part.fits.padded_eq
    have advance := part.advance
    have begins := part.offset
    rw [blocksFor] at padded
    omega
  have room : (freshCarve 1 start 1 (by decide)).2.writeOffset < kChunkSize := by
    rw [UInt32.lt_iff_toNat_lt]
    omega
  -- the second reservation is cut, and fills the chunk
  have part' := part.geometric.carve room (show 0 < kChunkSize by decide)
  have full := part'.full (by
    have length := part'.fits.length_eq
    have begins := part'.offset
    omega)
  have counts : ∀ media, namingAct media (.write true [.nextChunk (2 + 1)]) true
      (media.commit true [.nextChunk (2 + 1)]) :=
    fun media => ⟨primAct_exec ⟨.ok, fun _ => zeroBlock⟩ media (.write true _), by simp⟩
  obtain ⟨media', -, third⟩ := @reserve_renumbers namingAct namingAct_obliges
    { (createdMem mount).carved mount₁ (freshCarve 1 start 1 (by decide)).2 with
      active := some ((freshCarve 1 start 1 (by decide)).2.carve kChunkSize room (by decide)).2 }
    ((createdMedia disk).recorded base 1 start) _ start₂ disk₂ mount₂ rfl (UInt32.not_lt.mpr full)
    counts allocated₂
  have run := ((ReserveRun.nil.reserve (by decide) first).carve rfl room
    (show 0 < kChunkSize by decide)).reserve (by decide) third
  have idle : (createdMem mount).Adopted := by
    rintro c ⟨⟩
  have geometry := reservation_geometry.geometry idle run
  have fresh := freshChunk_part 2 start₂
  have chunk : ∀ {r r' r'' : Reservation}, r.chunkId = 1 → r'.chunkId = 1 → r''.chunkId = 2 →
      ofChunk 1 [r, r', r''] = [r, r'] := by
    intro r r' r'' here here' other
    simp [ofChunk, here, here', other]
  have here := chunk part.chunkId (part'.chunkId.trans part.ident) fresh.chunkId
  have adjacent := List.isChain_pair.mp (here ▸ geometry.adjacent 1)
  exact ⟨_, _, _, _, _, _, _, idle, run, here, adjacent, fresh.chunkId, geometry⟩

/-! ## Numbers taken twice -/

/-- The adopted chunk is geometric, whatever its number. -/
def StoreMem.AdoptedRecord (mem : StoreMem) : Prop := ∀ c, mem.active = some c → c.Geometric

/-- A fresh device of 512 MiB has room for three chunks. -/
theorem plainDisk_three_chunks : ∃ layout mount,
    Volume.Exact plainOptions.uuid layout ⟨plainDisk 131072 (by decide), mount⟩ ∧
    layout.dataStartLba + (kChunkBlocks + (kChunkBlocks + kChunkBlocks)) ≤ layout.capacityBlocks ∧
    FreeRun (bitGet mount.bitmap.l0Bits) (kChunkBlocks + (kChunkBlocks + kChunkBlocks))
      layout.dataStartLba := by
  obtain ⟨layout, mount, -, -, exact, -, total, bits⟩ :=
    @plainDisk_mounted 131072 (by decide) (by decide) (by decide)
  have sound := exact.sound
  have data := sound.dataStart_eq
  have dir := sound.dir_eq
  have dirs := sound.dirCount_eq
  have inode := sound.inode_eq
  have inodes := sound.inodeCount_le
  have streams := sound.streamMapCount_eq
  have stream := sound.streamMap_eq
  have bitmap := sound.bitmap_eq
  have tight := sound.bitmap_tight
  have tail := sound.allocRootsTail_eq
  have three : kChunkBlocks + (kChunkBlocks + kChunkBlocks) = 49152 := rfl
  rw [three]
  refine ⟨layout, mount, exact, by omega, fun offset below => ?_⟩
  rw [bits _ (by omega), lbaIsMetadata_data (by omega) (by omega)]

/-- Where the chunk id counter runs out, or the adopted chunk has a number that is still to come,
two reservations get one chunk number and one entry. -/
theorem reservation_names_repeat : ¬ ReservationGeometry StoreMem.Adopted primAct ∧
    ¬ ReservationGeometry StoreMem.AdoptedRecord namingAct := by
  obtain ⟨layout, mount, exact, inside, free⟩ := plainDisk_three_chunks
  generalize plainDisk 131072 (by decide) = disk at exact
  have some : 0 < kChunkBlocks := by decide
  obtain ⟨start₁, disk₁, mount₁, allocated₁, exact₁, free₁⟩ := exact.alloc_next some free inside
  obtain ⟨start₂, disk₂, mount₂, allocated₂, exact₂, free₂⟩ :=
    exact₁.alloc_next some free₁ (by omega)
  obtain ⟨start₃, disk₃, mount₃, -, allocated₃, -⟩ := exact₂.alloc_before some free₂ (by omega)
  refine ⟨fun claim => ?_, fun claim => ?_⟩
  · have counts : ∀ (counter : UInt32) media, primAct media (.write true [.nextChunk counter]) true
        (media.commit true [.nextChunk counter]) :=
      fun counter media => primAct_exec ⟨.ok, fun _ => zeroBlock⟩ media (.write true _)
    -- the counter goes from its last value through 0 to the number of the adopted chunk
    obtain ⟨mem₀, filled₀, run₀⟩ := @ReserveRun.adopted primAct mount 1 4294967295 start₁
      (newMedia disk)
    obtain ⟨mem₁, media₁, same₁, filled₁, run₁⟩ := run₀.renumber primAct_obliges filled₀ (counts _)
      allocated₁
    obtain ⟨mem₂, media₂, same₂, filled₂, run₂⟩ := run₁.renumber primAct_obliges filled₁ (counts _)
      (same₁ ▸ allocated₂)
    obtain ⟨mem₃, media₃, -, -, run₃⟩ := run₂.renumber primAct_obliges filled₂ (counts _)
      (same₂ ▸ allocated₃)
    have adopted : (adoptedMem mount 1 4294967295 start₁).Adopted := by
      rintro c ⟨⟩
      exact ⟨freshChunk_geometric 1 start₁, show (1 : UInt32) < 4294967295 by decide⟩
    have distinct := (claim.geometry adopted run₃).distinct
    simp only [List.cons_append, List.nil_append, served, Except.toOption, List.filterMap_cons,
      List.filterMap_nil, List.pairwise_cons, List.mem_cons] at distinct
    exact distinct.1 _ (.inr (.inr (.inl rfl))) (wholeOf_name 1 start₁ start₃)
  · have counts : ∀ media, namingAct media (.write true [.nextChunk (1 + 1)]) true
        (media.commit true [.nextChunk (1 + 1)]) :=
      fun media => ⟨primAct_exec ⟨.ok, fun _ => zeroBlock⟩ media (.write true _), by simp⟩
    obtain ⟨mem₀, filled₀, run₀⟩ := @ReserveRun.adopted namingAct mount 1 1 start₂ (newMedia disk)
    obtain ⟨mem₁, media₁, -, -, run₁⟩ := run₀.renumber namingAct_obliges filled₀ counts allocated₁
    have adopted : (adoptedMem mount 1 1 start₂).AdoptedRecord := by
      rintro c ⟨⟩
      exact freshChunk_geometric 1 start₂
    have distinct := (claim.geometry adopted run₁).distinct
    simp only [List.cons_append, List.nil_append, served, Except.toOption, List.filterMap_cons,
      List.filterMap_nil, List.pairwise_cons, List.mem_cons] at distinct
    exact distinct.1 _ (.inl rfl) (wholeOf_name 1 start₂ start₁)

end MiniFs.ObjStore
