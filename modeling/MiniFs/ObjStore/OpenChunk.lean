import MiniFs.ObjStore.Bindings

/-!
# The open chunk

Opening looks for the open chunk by reading the records from id 1 on until one is missing.  This
finds it as long as the ids with a record follow one another and only the last of them is not
sealed.  A chunk id that is given out behind a missing or an open record breaks this line.
-/

namespace MiniFs.ObjStore

open Packed

/-- The chunk id counter, as opening reads it. -/
def Db.chunkCounter (db : Db) : Option UInt32 :=
  counterOfGet 1 u32.ofBytes? (.ok (db.lookup .nextChunk))

/-- Every recorded chunk is sealed. -/
def AllSealed (db : Db) : Prop := ∀ ⦃id c⦄, db.chunk? id = some c → c.isSealed = true

/-- The records are those of the ids from 1 below `n`, and all but the last are sealed. -/
structure Line (db : Db) (n : Nat) : Prop where
  positive : 0 < n
  bound : n < 2 ^ 32
  recorded : ∀ id : UInt32, (∃ c, db.chunk? id = some c) ↔ 0 < id.toNat ∧ id.toNat < n
  missing : ∀ id, db.chunk? id = none → db.lookup (.chunk id) = none
  ident : ∀ ⦃id c⦄, db.chunk? id = some c → c.chunkId = id
  sealedBefore : ∀ ⦃id c⦄, db.chunk? id = some c → id.toNat + 1 ≠ n → c.isSealed = true

section Line

variable {db db' : Db} {n : Nat}

theorem Line.congr (line : Line db n)
    (same : ∀ id, db'.lookup (.chunk id) = db.lookup (.chunk id)) : Line db' n := by
  have chunk : ∀ id, db'.chunk? id = db.chunk? id := fun id => Db.chunk?_congr (same id)
  exact ⟨line.positive, line.bound, fun id => by rw [chunk, line.recorded],
    fun id absent => by rw [same, line.missing id (chunk id ▸ absent)],
    fun id c found => line.ident (chunk id ▸ found), fun id c found =>
      line.sealedBefore (chunk id ▸ found)⟩

theorem AllSealed.congr (all : AllSealed db)
    (same : ∀ id, db'.lookup (.chunk id) = db.lookup (.chunk id)) : AllSealed db' := by
  intro id c found
  rw [Db.chunk?_congr (same id)] at found
  exact all found

/-- At most one record is not sealed. -/
theorem Line.unique (line : Line db n) {id id' : UInt32} {c c' : Chunk}
    (found : db.chunk? id = some c)
    (isOpen : c.isSealed = false) (found' : db.chunk? id' = some c')
    (isOpen' : c'.isSealed = false) :
    id = id' := by
  have last : ∀ {id c}, db.chunk? id = some c → c.isSealed = false → id.toNat + 1 = n := by
    intro id c found isOpen
    by_contra before
    rw [line.sealedBefore found before] at isOpen
    contradiction
  apply UInt32.toNat_inj.mp
  have first := last found isOpen
  have second := last found' isOpen'
  omega

/-- The lookups after a batch with one chunk record. -/
theorem Db.lookup_apply_chunk {batch : Batch} {c : Chunk} (member : .chunk c ∈ batch)
    (only : ∀ other, MetaPut.chunk other ∈ batch → other = c) (id : UInt32) :
    (db.apply batch).lookup (.chunk id) =
      if id = c.chunkId then some (encodeChunk c) else db.lookup (.chunk id) := by
  split_ifs with same
  · subst same
    exact @Db.lookup_apply_of_mem db batch (.chunk c) member (by
      intro other listed here
      cases other with
      | chunk other => rw [only other listed]
      | _ => simp [MetaPut.key] at here)
  · apply Db.lookup_apply_of_not_mem
    intro put listed here
    cases put with
    | chunk other =>
        rw [only other listed] at here
        simp only [MetaPut.key, MetaKey.chunk.injEq] at here
        exact same here.symm
    | _ => simp [MetaPut.key] at here

/-- What a batch with one chunk record leaves. -/
structure Put (db db' : Db) (c : Chunk) : Prop where
  here : db'.chunk? c.chunkId = some c
  stored : db'.lookup (.chunk c.chunkId) = some (encodeChunk c)
  there : ∀ ⦃id⦄, id ≠ c.chunkId → db'.lookup (.chunk id) = db.lookup (.chunk id)

theorem Put.of_apply {batch : Batch} {c : Chunk} (member : .chunk c ∈ batch)
    (only : ∀ other, MetaPut.chunk other ∈ batch → other = c) : Put db (db.apply batch) c := by
  have lookup := @Db.lookup_apply_chunk db batch c member only
  refine ⟨Db.chunk?_apply_of_mem member only, ?_, ?_⟩
  · rw [lookup, if_pos rfl]
  · intro id other
    rw [lookup, if_neg other]

theorem Put.chunk? {c : Chunk} (put : Put db db' c) {id : UInt32} {r : Chunk}
    (found : db'.chunk? id = some r) :
    (id = c.chunkId ∧ r = c) ∨ (id ≠ c.chunkId ∧ db.chunk? id = some r) := by
  by_cases same : id = c.chunkId
  · subst same
    rw [put.here, Option.some.injEq] at found
    exact .inl ⟨rfl, found.symm⟩
  · rw [Db.chunk?_congr (put.there same)] at found
    exact .inr ⟨same, found⟩

/-- Replacing a record, by a sealed one or at the end. -/
theorem Line.replace (line : Line db n) {c r : Chunk} (put : Put db db' c)
    (old : db.chunk? c.chunkId = some r) (end_ : c.isSealed = false → c.chunkId.toNat + 1 = n) :
    Line db' n := by
  refine ⟨line.positive, line.bound, ?_, ?_, ?_, ?_⟩
  · intro id
    by_cases same : id = c.chunkId
    · subst same
      rw [← line.recorded]
      exact iff_of_true ⟨c, put.here⟩ ⟨r, old⟩
    · rw [Db.chunk?_congr (put.there same), line.recorded]
  · intro id absent
    by_cases same : id = c.chunkId
    · subst same
      rw [put.here] at absent
      contradiction
    · rw [put.there same]
      rw [Db.chunk?_congr (put.there same)] at absent
      exact line.missing id absent
  · intro id c' found
    rcases put.chunk? found with ⟨rfl, rfl⟩ | ⟨-, found⟩
    · rfl
    · exact line.ident found
  · intro id c' found before
    rcases put.chunk? found with ⟨rfl, rfl⟩ | ⟨-, found⟩
    · cases isOpen : c'.isSealed with
      | true => rfl
      | false => exact absurd (end_ isOpen) before
    · exact line.sealedBefore found before

/-- A new record at the end, after sealed ones. -/
theorem Line.extend (line : Line db n) {c : Chunk} (put : Put db db' c) (next : c.chunkId.toNat = n)
    (room : n + 1 < 2 ^ 32) (all : AllSealed db) : Line db' (n + 1) := by
  refine ⟨Nat.succ_pos n, room, ?_, ?_, ?_, ?_⟩
  · intro id
    by_cases same : id = c.chunkId
    · subst same
      have positive := line.positive
      exact iff_of_true ⟨c, put.here⟩ (by omega)
    · have other : id.toNat ≠ n := fun equal => same (UInt32.toNat_inj.mp (equal.trans next.symm))
      rw [Db.chunk?_congr (put.there same), line.recorded]
      omega
  · intro id absent
    by_cases same : id = c.chunkId
    · subst same
      rw [put.here] at absent
      contradiction
    · rw [put.there same]
      rw [Db.chunk?_congr (put.there same)] at absent
      exact line.missing id absent
  · intro id c' found
    rcases put.chunk? found with ⟨rfl, rfl⟩ | ⟨-, found⟩
    · rfl
    · exact line.ident found
  · intro id c' found before
    rcases put.chunk? found with ⟨rfl, rfl⟩ | ⟨-, found⟩
    · omega
    · exact all found

end Line

/-! ## The discipline -/

/-- A chunk id is given out in order: it is the stored counter, every id from 1 below it has a
record, and every record is sealed. -/
structure InOrder (db : Db) (id : UInt32) : Prop where
  counter : db.chunkCounter = some id
  gapless : ∀ other, 0 < other → other < id → ∃ c, db.chunk? other = some c
  allSealed : AllSealed db

/-- A put of the chunk id counter that succeeds gives out an id in order, and does not come to 0. -/
def PrimOp.Orderly (db : Db) : (op : PrimOp) → op.Res → Prop
  | .write true [.nextChunk next], answer => answer = true → next ≠ 0 ∧ InOrder db (next - 1)
  | _, _ => True

/-- No database read fails. -/
def answeredAct (before : Media) (op : PrimOp) (answer : op.Res) (after : Media) : Prop :=
  primAct before op answer after ∧ op.Answered answer

theorem answeredAct_okExec (media : Media) (op : PrimOp) :
    answeredAct media op (okExec op media).1 (okExec op media).2 := by
  refine ⟨primAct_exec _ media op, ?_⟩
  cases op with
  | get key => exact fun failed => nomatch failed
  | _ => trivial

/-- No database read fails, and chunk ids are given out in order. -/
def orderlyAct (before : Media) (op : PrimOp) (answer : op.Res) (after : Media) : Prop :=
  answeredAct before op answer after ∧ op.Orderly before.view answer

/-- The process stops; the database keeps what was written. -/
def stop (media media' : Media) : Prop := media' = media

/-- The counter follows the line of records; it is one ahead where the record of the last id is
missing, and then every record is sealed. -/
structure Counted (db : Db) (n : Nat) : Prop where
  line : Line db n
  counter : ∃ next, db.chunkCounter = some next ∧
    (next.toNat = n ∨ next.toNat = n + 1 ∧ AllSealed db)

/-- An open store whose active chunk is the open one. -/
structure InLine (db : Db) (mem : StoreMem) (n : Nat) : Prop extends Counted db n where
  active : ∀ a, mem.active = some a → a.isSealed = false ∧
    ∃ r, db.chunk? a.chunkId = some r ∧ r.isSealed = false

/-- The line of records under such actions and stops. -/
def lineDiscipline : Discipline where
  act := fun _ => orderlyAct
  crash := stop
  Closed := fun media => ∃ n, Counted media.view n
  Idle := fun mem media => ∃ n, InLine media.view mem n
  Cut := fun media => ∃ n, Counted media.view n
  Kept := fun _ _ => True

/-- A put of no chunk record and not of the chunk id counter. -/
def MetaPut.Elsewhere (put : MetaPut) : Prop :=
  (∀ c, put ≠ .chunk c) ∧ ∀ id, put ≠ .nextChunk id

section Elsewhere

variable {media after : Media} {mem : StoreMem} {n : Nat}

theorem Batch.elsewhere {db : Db} {batch : Batch} (elsewhere : ∀ put ∈ batch, put.Elsewhere) :
    (∀ id, (db.apply batch).lookup (.chunk id) = db.lookup (.chunk id)) ∧
      (db.apply batch).chunkCounter = db.chunkCounter := by
  have keys : ∀ put ∈ batch, (∀ id, put.key ≠ .chunk id) ∧ put.key ≠ .nextChunk := by
    intro put member
    have other := elsewhere put member
    cases put with
    | chunk c => exact absurd rfl (other.1 c)
    | nextChunk id => exact absurd rfl (other.2 id)
    | _ => simp [MetaPut.key]
  refine ⟨fun id => Db.lookup_apply_of_not_mem fun put member => (keys put member).1 id, ?_⟩
  rw [Db.chunkCounter, Db.chunkCounter,
    Db.lookup_apply_of_not_mem fun put member => (keys put member).2]

theorem PrimOp.PutsOnly.elsewhere {op : PrimOp} {answer : op.Res}
    (only : op.PutsOnly MetaPut.Elsewhere) (acted : primAct media op answer after) :
    (∀ id, after.view.lookup (.chunk id) = media.view.lookup (.chunk id)) ∧
      after.view.chunkCounter = media.view.chunkCounter := by
  rcases primAct_view acted with same | ⟨sync, batch, rfl, rfl⟩
  · rw [same]
    exact ⟨fun _ => rfl, rfl⟩
  · rw [Media.view_commit]
    exact Batch.elsewhere only

theorem Counted.congr {db db' : Db} (counted : Counted db n)
    (same : ∀ id, db'.lookup (.chunk id) = db.lookup (.chunk id))
    (counter : db'.chunkCounter = db.chunkCounter) : Counted db' n :=
  ⟨counted.line.congr same, by
    obtain ⟨next, stored, place⟩ := counted.counter
    exact ⟨next, counter.trans stored, place.imp_right fun ahead => ⟨ahead.1, ahead.2.congr same⟩⟩⟩

theorem InLine.congr {db db' : Db} (inLine : InLine db mem n)
    (same : ∀ id, db'.lookup (.chunk id) = db.lookup (.chunk id))
    (counter : db'.chunkCounter = db.chunkCounter) : InLine db' mem n where
  toCounted := inLine.toCounted.congr same counter
  active := fun a current => by
    rw [Db.chunk?_congr (same a.chunkId)]
    exact inLine.active a current

theorem InLine.congr_mem {db : Db} {mem' : StoreMem} (inLine : InLine db mem n)
    (active : mem'.active = mem.active) : InLine db mem' n where
  toCounted := inLine.toCounted
  active := fun a current => inLine.active a (active ▸ current)

theorem Counted.step (counted : Counted after.view n) {op : PrimOp} {answer : op.Res} :
    lineDiscipline.Step media op answer after :=
  ⟨⟨n, counted⟩, trivial⟩

/-- A program that puts no chunk record and not the counter, as part of opening. -/
theorem Counted.elsewhere {α : Type} {Post : α → Prop} {program : PrimProg α}
    (counted : Counted media.view n)
    (issues : program.Issues (PrimOp.PutsOnly MetaPut.Elsewhere) Post) :
    program.Safe orderlyAct lineDiscipline.Step
      (fun value media' => Post value ∧ Counted media'.view n) media := by
  refine issues.safe counted ?_
  intro before op answer after only held acted
  obtain ⟨same, counter⟩ := only.elsewhere acted.1.1
  exact ⟨(held.congr same counter).step, held.congr same counter⟩

/-- The same as part of a call. -/
theorem InLine.elsewhere {α : Type} {Post : α → Prop} {program : PrimProg α}
    (inLine : InLine media.view mem n)
    (issues : program.Issues (PrimOp.PutsOnly MetaPut.Elsewhere) Post) :
    program.Safe orderlyAct lineDiscipline.Step
      (fun value media' => Post value ∧ InLine media'.view mem n) media := by
  refine issues.safe inLine ?_
  intro before op answer after only held acted
  obtain ⟨same, counter⟩ := only.elsewhere acted.1.1
  exact ⟨(held.congr same counter).toCounted.step, held.congr same counter⟩

end Elsewhere

section Reserve

variable {media : Media} {mem : StoreMem} {n : Nat}

theorem UInt32.toNat_add_one {id : UInt32} (room : id + 1 ≠ 0) : (id + 1).toNat = id.toNat + 1 := by
  have order := UInt32.lt_iff_toNat_lt.mp (UInt32.lt_add_one room)
  rw [UInt32.toNat_add] at order ⊢
  have bound := id.toNat_lt
  simp only [UInt32.reduceToNat] at order ⊢
  omega

theorem Db.chunkCounter_apply_nextChunk (db : Db) (id : UInt32) :
    (db.apply [.nextChunk id]).chunkCounter = some id := by
  have stored := @Db.lookup_apply_of_mem db [.nextChunk id] (.nextChunk id) (.head _) (by simp)
  simp only [MetaPut.key] at stored
  rw [Db.chunkCounter, stored]
  simp [counterOfGet, MetaPut.value]

theorem Db.chunkCounter_apply_of_not_mem {db : Db} {batch : Batch}
    (untouched : ∀ id, MetaPut.nextChunk id ∉ batch) :
    (db.apply batch).chunkCounter = db.chunkCounter := by
  rw [Db.chunkCounter, Db.chunkCounter, Db.lookup_apply_of_not_mem]
  intro put member
  cases put with
  | nextChunk id => exact absurd member (untouched id)
  | _ => simp [MetaPut.key]

/-- An open record is the last one, and the counter follows it. -/
theorem Counted.last {db : Db} (counted : Counted db n) {id : UInt32} {r : Chunk}
    (record : db.chunk? id = some r) (isOpen : r.isSealed = false) :
    id.toNat + 1 = n ∧ ∃ next, db.chunkCounter = some next ∧ next.toNat = n := by
  refine ⟨?_, ?_⟩
  · by_contra before
    rw [counted.line.sealedBefore record before] at isOpen
    contradiction
  · obtain ⟨next, stored, follows | ⟨-, all⟩⟩ := counted.counter
    · exact ⟨next, stored, follows⟩
    · rw [all record] at isOpen
      contradiction

/-- An id given out in order ends the line. -/
theorem Counted.inOrder {db : Db} (counted : Counted db n) {id : UInt32} (order : InOrder db id) :
    id.toNat = n := by
  obtain ⟨next, stored, follows | ⟨ahead, -⟩⟩ := counted.counter
  · obtain rfl : id = next := Option.some.inj (order.counter.symm.trans stored)
    exact follows
  · obtain rfl : id = next := Option.some.inj (order.counter.symm.trans stored)
    have positive := counted.line.positive
    have place : (UInt32.ofNat n).toNat = n := UInt32.toNat_ofNat_of_lt counted.line.bound
    have recorded := order.gapless (UInt32.ofNat n)
      (by rw [UInt32.lt_iff_toNat_lt, place]; exact positive)
      (by rw [UInt32.lt_iff_toNat_lt, place]; omega)
    have below := ((counted.line.recorded _).mp recorded).2
    omega

/-- The put of the counter gives out the next id. -/
theorem Counted.name {db : Db} (counted : Counted db n) {id : UInt32} (order : InOrder db id)
    (room : id + 1 ≠ 0) : Counted (db.apply [.nextChunk (id + 1)]) n := by
  have same : ∀ other, (db.apply [.nextChunk (id + 1)]).lookup (.chunk other) =
      db.lookup (.chunk other) :=
    fun other => Db.lookup_apply_of_not_mem (by simp [MetaPut.key])
  refine ⟨counted.line.congr same, id + 1, Db.chunkCounter_apply_nextChunk _ _, .inr ⟨?_, ?_⟩⟩
  · rw [UInt32.toNat_add_one room, counted.inOrder order]
  · exact order.allSealed.congr same

/-- Sealing the active chunk. -/
theorem InLine.seal (inLine : InLine media.view mem n) {c : Chunk} (current : mem.active = some c) :
    InLine (media.commit true [.chunk { c with isSealed := true }]).view
      { mem with active := none } n := by
  obtain ⟨-, r, record, isOpen⟩ := inLine.active c current
  obtain ⟨-, next, stored, follows⟩ := inLine.last record isOpen
  have put := @Put.of_apply media.view [.chunk { c with isSealed := true }]
    { c with isSealed := true } (.head _) (by simp)
  rw [Media.view_commit]
  refine ⟨⟨inLine.line.replace put record (fun wrong => nomatch wrong), next, ?_, .inl follows⟩,
    fun _ none => nomatch none⟩
  rw [Db.chunkCounter_apply_of_not_mem (by simp)]
  exact stored

/-- Reserving from the active chunk. -/
theorem InLine.carve (inLine : InLine media.view mem n) {c : Chunk} (current : mem.active = some c)
    (length padded : UInt32) (positive : 0 < length) :
    InLine media.view { mem with active := some (c.take length padded positive).2 } n where
  toCounted := inLine.toCounted
  active := by
    rintro a ⟨⟩
    exact inLine.active c current

end Reserve

section Calls

variable {media : Media} {mem : StoreMem} {n : Nat}

end Calls

/-! ## Opening -/

section Opening

variable {media : Media} {n : Nat}

/-- What the scan has seen up to an id. -/
structure Scanned (db : Db) (id : UInt32) (active : Option Chunk) : Prop where
  seen : ∀ ⦃i c⦄, db.chunk? i = some c → i < id → c.isSealed = false → active = some c
  adopted : ∀ ⦃a⦄, active = some a → a.isSealed = false ∧ db.chunk? a.chunkId = some a

theorem Scanned.next {db : Db} {id : UInt32} {active : Option Chunk} {c : Chunk} (line : Line db n)
    (scanned : Scanned db id active) (found : db.chunk? id = some c) (room : id.toNat < n) :
    Scanned db (id + 1) (if c.isSealed then active else some c) := by
  have bound := line.bound
  have advance : (id + 1).toNat = id.toNat + 1 := by
    rw [UInt32.toNat_add]
    simp only [UInt32.reduceToNat]
    omega
  refine ⟨?_, ?_⟩
  · intro i c' found' before isOpen
    rw [UInt32.lt_iff_toNat_lt, advance] at before
    by_cases here : i = id
    · subst here
      obtain rfl : c = c' := Option.some.inj (found.symm.trans found')
      rw [isOpen]
      rfl
    · have earlier : i.toNat ≠ id.toNat := fun same => here (UInt32.toNat_inj.mp same)
      have sealed_ := line.sealedBefore found' (by omega)
      rw [sealed_] at isOpen
      contradiction
  · intro a current
    split_ifs at current with isSealed
    · exact scanned.adopted current
    · obtain rfl : c = a := Option.some.inj current
      rw [line.ident found]
      exact ⟨by simpa using isSealed, found⟩

end Opening

theorem Chunk.take_chunkId (c : Chunk) (length padded : UInt32) (positive : 0 < length) :
    (c.take length padded positive).2.chunkId = c.chunkId := rfl

/-- A reservation from an active chunk with room takes no action. -/
theorem reserve_of_active {mem : StoreMem} {c : Chunk} {maxLength : UInt32}
    (current : mem.active = some c) (room : c.writeOffset < kChunkSize) (positive : 0 < maxLength) :
    reserve maxLength mem = .ret (.ok (c.carve maxLength room positive).1,
      { mem with active := some (c.carve maxLength room positive).2 }) := by
  rw [reserve, dif_pos positive]
  simp only [current]
  rw [dif_pos room]

section Gap

variable {media : Media} {mem : StoreMem}

/-- A write of one byte to the sample path comes to its reservation. -/
theorem write_reserves {bytes bytes' : ByteString} {oid : UInt64} {a : ObjectAttrs}
    (path : media.view.lookup (.path samplePath) = some bytes)
    (oid_ : u64.ofBytes? bytes = some oid) (attrs : media.view.lookup (.attrs oid) = some bytes')
    (decoded : ObjectAttrs.layout.ofBytes? bytes' = some a) :
    ∃ rest : Except Status Reservation × StoreMem → PrimProg (Except Status Unit × StoreMem),
      (∀ status mem', rest (.error status, mem') = .ret (.error status, mem')) ∧
      Prog.Reaches answeredAct ((write samplePath (.bytes [0]) 0).refine storeSem mem, media)
        (reserve 1 mem >>= rest, media) := by
  have get : ∀ {key value}, media.view.lookup key = some value →
      answeredAct media (.get key) (.ok (some value)) media := by
    intro key value stored
    refine ⟨⟨⟨.ok, fun _ => zeroBlock⟩, ?_⟩, by simp [PrimOp.Answered]⟩
    exact Prod.ext (congrArg Except.ok stored) rfl
  obtain ⟨rest, started, refuses⟩ : ∃ rest : _ → StoreProg (Except Status Unit),
      Prog.Reaches answeredAct ((write samplePath (.bytes [0]) 0).refine storeSem mem, media)
        ((writeLoop oid [0] a.size [] 0 >>= rest).refine storeSem mem, media) ∧
      ∀ status, rest (.error status) = .ret (.error status) := by
    apply Exists.intro
    constructor
    · rw [write, if_neg (by decide), if_neg (by decide), writeObject]
      refine .head (.call (get path)) ?_
      simp only [Prog.bind, statusOfGet, decodePathGet, oid_]
      refine .head (.call (get attrs)) ?_
      simp only [Prog.bind, decodeAttrsGet, decoded]
      rw [if_neg (by decide), if_neg (by decide)]
      exact .refl
    · exact fun _ => rfl
  rw [Prog.refine_bind, writeLoop, dif_neg (by decide), Prog.refine_call,
    Prog.bind_assoc] at started
  refine ⟨_, fun status mem' => ?_, started⟩
  show (rest (.error status)).refine storeSem mem' = .ret (.error status, mem')
  rw [refuses]
  rfl

theorem answeredAct_write (done : Bool) (sync : Bool) (batch : Batch) :
    answeredAct media (.write sync batch) done (if done then media.commit sync batch
      else media) := by
  cases done with
  | true => exact ⟨⟨⟨.ok, fun _ => zeroBlock⟩, rfl⟩, trivial⟩
  | false => exact ⟨⟨⟨.fail fun _ => false, fun _ => zeroBlock⟩, rfl⟩, trivial⟩

/-- A reservation without an active chunk comes to the put of the new chunk's record. -/
theorem reserve_records {start : Nat} {disk : Disk} {mount : NebulaMount} (idle : mem.active = none)
    (allocated :
      nebulaBlockAlloc .ok media.disk mem.mount kChunkBlocks = (.ok start, disk, mount)) :
    ∃ next : Bool → PrimProg (Except Status Reservation × StoreMem),
      next false = .ret (.error .ERROR_METADATA, mem.named mount) ∧
      Prog.Reaches answeredAct (reserve 1 mem, media)
        (.call (.write true [.chunk (freshChunk mem.nextChunkId start)]) next,
          (media.withDisk disk).commit true [.nextChunk (mem.nextChunkId + 1)]) := by
  have blocks : answeredAct media (.blockAlloc mem.mount kChunkBlocks) (.ok start, mount)
      (media.withDisk disk) := by
    refine ⟨⟨⟨.ok, fun _ => zeroBlock⟩, ?_⟩, trivial⟩
    rw [PrimOp.exec, allocated]
  rw [reserve, dif_pos (by decide), idle]
  have reach : Prog.Reaches answeredAct (reserveFresh 1 (by decide) mem, media) _ :=
    .head (.call blocks) (.head (.call (answeredAct_write true true _)) .refl)
  exact ⟨_, rfl, reach⟩

/-- The sample path is bound to an object with attributes. -/
def SampleBound (db : Db) : Prop :=
  ∃ bytes oid bytes' a, db.lookup (.path samplePath) = some bytes ∧ u64.ofBytes? bytes = some oid ∧
    db.lookup (.attrs oid) = some bytes' ∧ ObjectAttrs.layout.ofBytes? bytes' = some a

theorem SampleBound.named {disk : Disk} {id : UInt32} (bound : SampleBound media.view) :
    SampleBound ((media.withDisk disk).commit true [.nextChunk id]).view := by
  obtain ⟨bytes, oid, bytes', a, path, named, attrs, decoded⟩ := bound
  refine ⟨bytes, oid, bytes', a, ?_, named, ?_, decoded⟩
  · rw [Media.view_commit, Media.view_withDisk, Db.lookup_apply_of_not_mem (by simp [MetaPut.key])]
    exact path
  · rw [Media.view_commit, Media.view_withDisk, Db.lookup_apply_of_not_mem (by simp [MetaPut.key])]
    exact attrs

theorem createdMedia_bound (disk : Disk) : SampleBound (createdMedia disk).view := by
  rw [createdMedia, Media.view_commit]
  refine ⟨_, 1, _, newAttrs 1 0, @Db.lookup_apply_of_mem _ _ (.path samplePath 1) (by simp)
    (by simp [MetaPut.key]), by simp [MetaPut.value], @Db.lookup_apply_of_mem _ _
    (.attrs (newAttrs 1 0)) (by simp) (by simp [MetaPut.key]), by simp [MetaPut.value]⟩

section Write

variable {crash : Media → Media → Prop} {start : Nat} {disk : Disk} {mount : NebulaMount}
  {log : Log} (bound : SampleBound media.view) (idle : mem.active = none)
  (allocated : nebulaBlockAlloc .ok media.disk mem.mount kChunkBlocks = (.ok start, disk, mount))

include bound idle allocated

/-- A write whose put of the new chunk's record fails. -/
theorem write_loses_record : ∃ log', SystemReaches (fun _ => answeredAct) crash
    ⟨media, .idle mem, log⟩
    ⟨(media.withDisk disk).commit true [.nextChunk (mem.nextChunkId + 1)], .idle (mem.named mount),
      log'⟩ := by
  obtain ⟨bytes, oid, bytes', a, path, named, attrs, decoded⟩ := bound
  obtain ⟨rest, refuses, writes⟩ := @write_reserves media mem _ _ _ _ path named attrs decoded
  obtain ⟨next, failed, records⟩ := reserve_records idle allocated
  have last : (next false).bind rest = .ret (.error .ERROR_METADATA, mem.named mount) := by
    rw [failed]
    exact refuses _ _
  have ended := (writes.trans (records.bind rest)).tail (.call (answeredAct_write false true _))
  rw [last] at ended
  exact ⟨_, @SystemReaches.call _ crash _ _ log (.write samplePath (.bytes [0]) 0) _ _ _ ended⟩

/-- A write whose put of the new chunk's record succeeds. -/
theorem write_records : ∃ s, SystemReaches (fun _ => answeredAct) crash ⟨media, .idle mem, log⟩ s ∧
    s.media = ((media.withDisk disk).commit true [.nextChunk (mem.nextChunkId + 1)]).commit true
      [.chunk (freshChunk mem.nextChunkId start)] := by
  obtain ⟨bytes, oid, bytes', a, path, named, attrs, decoded⟩ := bound
  obtain ⟨rest, -, writes⟩ := @write_reserves media mem _ _ _ _ path named attrs decoded
  obtain ⟨next, -, records⟩ := reserve_records idle allocated
  have ended := (writes.trans (records.bind rest)).tail (.call (answeredAct_write true true _))
  exact ⟨_, .head (.call (.write samplePath (.bytes [0]) 0)) (SystemReaches.running ended), rfl⟩

end Write

end Gap

end MiniFs.ObjStore
