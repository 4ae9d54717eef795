import MiniFs.ObjStore.FirstWrite

/-!
# Path bindings

A created path is bound to a fresh object id in one commit.  The existence check before it takes a
failed read for a missing path, and then the commit binds the path again.
-/

namespace MiniFs.ObjStore

open Packed

/-- The object id counter, as opening reads it. -/
def Db.objectCounter (db : Db) : Option UInt64 :=
  counterOfGet 1 u64.ofBytes? (.ok (db.lookup .nextObj))

/-- Paths are bound one to one to ids below the counter, and only the root to 0. -/
structure Bindings (db : Db) (next : UInt64) : Prop where
  counter : db.objectCounter = some next
  positive : 0 < next
  below : ∀ ⦃path oid⦄, db.path? path = some oid → oid < next
  root : ∀ ⦃path⦄, db.path? path = some 0 → path = [47]
  injective : ∀ ⦃path path' oid⦄, db.path? path = some oid → db.path? path' = some oid →
    path = path'

/-- Bound paths stay bound to their ids. -/
def PathsKept (before after : Media) : Prop :=
  ∀ ⦃path oid⦄, before.view.path? path = some oid → after.view.path? path = some oid

/-- A database read that fails is of a missing key. -/
def PrimOp.MissesOnly (before : Media) : (op : PrimOp) → op.Res → Prop
  | .get key, answer => answer = .error () → before.view.lookup key = none
  | _, _ => True

/-- An action that does not advance the object id counter to 0 and is no failed existence check of a
path that exists. -/
def bindingAct (call : Option Call) (before : Media) (op : PrimOp) (answer : op.Res)
    (after : Media) : Prop :=
  primAct before op answer after ∧ op ≠ .write true [.nextObj 0] ∧
    ∀ path now, call = some (.create path now) → op.MissesOnly before answer

/-- A put that is of no path and not of the object id counter. -/
def MetaPut.Aside (put : MetaPut) : Prop :=
  (∀ path oid, put ≠ .path path oid) ∧ ∀ id, put ≠ .nextObj id

/-- An action whose puts are of no path and not of the object id counter. -/
abbrev PrimOp.Aside : PrimOp → Prop := PrimOp.PutsOnly MetaPut.Aside

section Aside

variable {before after : Media}

theorem MetaPut.Aside.key_ne {put : MetaPut} (aside : put.Aside) :
    (∀ path, put.key ≠ .path path) ∧ put.key ≠ .nextObj := by
  cases put with
  | path path oid => exact absurd rfl (aside.1 path oid)
  | nextObj id => exact absurd rfl (aside.2 id)
  | _ => simp [MetaPut.key]

/-- Actions aside leave the bindings and the counter alone. -/
theorem PrimOp.Aside.keeps {op : PrimOp} {answer : op.Res} (aside : op.Aside)
    (acted : primAct before op answer after) :
    (∀ path, after.view.path? path = before.view.path? path) ∧
      after.view.objectCounter = before.view.objectCounter := by
  rcases primAct_view acted with same | ⟨sync, batch, rfl, rfl⟩
  · rw [same]
    exact ⟨fun _ => rfl, rfl⟩
  · rw [Media.view_commit]
    refine ⟨fun path => Db.path?_congr (Db.lookup_apply_of_not_mem ?_), ?_⟩
    · exact fun put member => (aside put member).key_ne.1 path
    · rw [Db.objectCounter, Db.objectCounter,
        Db.lookup_apply_of_not_mem fun put member => (aside put member).key_ne.2]

theorem Bindings.congr {db db' : Db} {next : UInt64} (bindings : Bindings db next)
    (paths : ∀ path, db'.path? path = db.path? path)
    (counter : db'.objectCounter = db.objectCounter) :
    Bindings db' next where
  counter := counter.trans bindings.counter
  positive := bindings.positive
  below := fun path _ bound => bindings.below (paths path ▸ bound)
  root := fun path bound => bindings.root (paths path ▸ bound)
  injective := fun path path' _ bound bound' =>
    bindings.injective (paths path ▸ bound) (paths path' ▸ bound')

end Aside

section Issues

variable {mem : StoreMem}

theorem reserveFresh_issues {maxLength : UInt32} (some : 0 < maxLength) (mem : StoreMem) :
    (reserveFresh maxLength some mem).Issues PrimOp.Aside
      fun result => result.2.nextObjectId = mem.nextObjectId := by
  refine ⟨trivial, ?_⟩
  rintro ⟨lba | lba, mount⟩
  · rfl
  · refine ⟨by simp [PrimOp.PutsOnly, MetaPut.Aside], ?_⟩
    rintro (_ | _)
    · rfl
    · refine ⟨by simp [PrimOp.PutsOnly, MetaPut.Aside], ?_⟩
      rintro (_ | _) <;> rfl

theorem reserve_issues (maxLength : UInt32) (mem : StoreMem) :
    (reserve maxLength mem).Issues PrimOp.Aside
      fun result => result.2.nextObjectId = mem.nextObjectId := by
  rw [reserve]
  split_ifs with some
  · cases mem.active with
    | none => exact reserveFresh_issues some mem
    | some c =>
        simp only
        split_ifs with room
        · rfl
        · refine ⟨by simp [PrimOp.PutsOnly, MetaPut.Aside], ?_⟩
          rintro (_ | _)
          · rfl
          · exact reserveFresh_issues some _
  · rfl

theorem writeLoop_issues (oid : UInt64) :
    ∀ (rest : List UInt8) (logical : UInt64) (batch : Batch) (added : UInt64) (mem : StoreMem),
      (∀ put ∈ batch, put.Aside) →
      ((writeLoop oid rest logical batch added).refine storeSem mem).Issues PrimOp.Aside
        fun result => result.2.nextObjectId = mem.nextObjectId ∧
          ∀ batch' added', result.1 = .ok (batch', added') → ∀ put ∈ batch', put.Aside := by
  intro rest
  induction total : rest.length using Nat.strong_induction_on generalizing rest with
  | _ size ih =>
      intro logical batch added mem aside
      rw [writeLoop]
      split_ifs with empty
      · refine ⟨rfl, ?_⟩
        rintro batch' added' ⟨⟩
        exact aside
      · refine (reserve_issues _ mem).bind ?_
        rintro ⟨answer, mem₁⟩ same
        cases answer with
        | error status => exact ⟨same, by simp⟩
        | ok r =>
            have positive := UInt32.lt_iff_toNat_lt.mp r.length_pos
            have some := List.length_pos_iff.mpr empty
            have shorter : (rest.drop r.lengthBytes.toNat).length < size := by
              rw [List.length_drop]
              simp only [UInt32.toNat_zero] at positive
              omega
            rw [Prog.refine_bind]
            refine (writeSegment_issues _ r mem₁).bind ?_
            rintro ⟨answer, mem₂⟩ rfl
            cases answer with
            | error status => exact ⟨same, by simp⟩
            | ok done =>
                refine (ih _ shorter _ rfl _ _ _ _ ?_).mono fun result post =>
                  ⟨post.1.trans same, post.2⟩
                intro put member
                rcases List.mem_append.mp member with old | new
                · exact aside put old
                · simp only [Reservation.staged, stageChunkRev, List.mem_cons, List.not_mem_nil,
                    or_false] at new
                  rcases new with rfl | rfl <;> simp [MetaPut.Aside]

theorem write_issues (path : ByteString) (source : Source) (now : UInt64) (mem : StoreMem) :
    ((write path source now).refine storeSem mem).Issues PrimOp.Aside
      fun result => result.2.nextObjectId = mem.nextObjectId := by
  rw [write]
  split_ifs
  · rfl
  · rfl
  · refine ⟨trivial, fun bytes => ?_⟩
    simp only [Prog.bind]
    cases statusOfGet decodePathGet bytes with
    | error status => rfl
    | ok oid =>
        refine ⟨trivial, fun bytes => ?_⟩
        simp only [Prog.bind]
        cases statusOfGet decodeAttrsGet bytes with
        | error status => rfl
        | ok a =>
            simp only
            split_ifs
            · rfl
            · rfl
            · rw [Prog.refine_bind]
              refine (writeLoop_issues oid _ _ _ _ mem (by simp)).bind ?_
              rintro ⟨answer, mem'⟩ ⟨same, aside⟩
              cases answer with
              | error status => exact same
              | ok result =>
                  obtain ⟨batch, added⟩ := result
                  refine ⟨trivial, ?_⟩
                  rintro (_ | _)
                  · exact same
                  · refine ⟨?_, ?_⟩
                    · intro put member
                      simp only [List.mem_append, List.mem_singleton, Option.mem_toList,
                        Option.map_eq_some_iff] at member
                      rcases member with (staged | rfl) | ⟨c, -, rfl⟩
                      · exact aside batch added rfl put staged
                      · simp [MetaPut.Aside]
                      · simp [MetaPut.Aside]
                    · rintro (_ | _) <;> exact same

end Issues

/-- The bindings under such actions, without loss of power. -/
def bindingDiscipline : Discipline where
  act := bindingAct
  crash := noCrash
  Closed := fun media => ∃ next, Bindings media.view next
  Idle := fun mem media => ∃ next, Bindings media.view next ∧ next ≤ mem.nextObjectId
  Cut := fun media => ∃ next, Bindings media.view next
  Kept := PathsKept

section Discipline

variable {call : Option Call} {media : Media} {mem : StoreMem} {next : UInt64}

theorem Bindings.stays (bindings : Bindings media.view next) {op : PrimOp} {answer : op.Res} :
    bindingDiscipline.Step media op answer media :=
  ⟨⟨next, bindings⟩, fun _ _ => id⟩

/-- A program whose actions are aside. -/
theorem Bindings.aside {α : Type} {Post : α → Prop} {program : PrimProg α}
    (bindings : Bindings media.view next) (issues : program.Issues PrimOp.Aside Post) :
    program.Safe (bindingAct call) bindingDiscipline.Step
      (fun value media' => Post value ∧ Bindings media'.view next) media := by
  refine issues.safe bindings ?_
  intro before op answer after aside held acted
  obtain ⟨paths, counter⟩ := PrimOp.Aside.keeps aside acted.1
  have kept := held.congr paths counter
  exact ⟨⟨⟨next, kept⟩, fun path oid bound => (paths path).trans bound⟩, kept⟩

/-- Binding a missing path to an id that is in use nowhere. -/
theorem Bindings.extend {db db' : Db} {path : ByteString} {oid : UInt64}
    (bindings : Bindings db next) (counter : db'.objectCounter = db.objectCounter)
    (paths : ∀ p, db'.path? p = if p = path then some oid else db.path? p) (below : oid < next)
    (root : oid = 0 → path = [47]) (fresh : ∀ p, db.path? p ≠ some oid) : Bindings db' next where
  counter := counter.trans bindings.counter
  positive := bindings.positive
  below := by
    intro p id bound
    rw [paths] at bound
    split_ifs at bound with same
    · exact Option.some.inj bound ▸ below
    · exact bindings.below bound
  root := by
    intro p bound
    rw [paths] at bound
    split_ifs at bound with same
    · exact same.trans (root (Option.some.inj bound))
    · exact bindings.root bound
  injective := by
    intro p p' id bound bound'
    rw [paths] at bound bound'
    split_ifs at bound bound' with same same' same'
    · exact same.trans same'.symm
    · exact absurd (Option.some.inj bound ▸ bound') (fresh p')
    · exact absurd (Option.some.inj bound' ▸ bound) (fresh p)
    · exact bindings.injective bound bound'

theorem Db.path?_apply_path {db : Db} {batch : Batch} {path : ByteString} {oid : UInt64}
    (member : .path path oid ∈ batch)
    (only : ∀ p id, MetaPut.path p id ∈ batch → p = path ∧ id = oid) (p : ByteString) :
    (db.apply batch).path? p = if p = path then some oid else db.path? p := by
  split_ifs with same
  · subst same
    have stored := @Db.lookup_apply_of_mem db batch (.path p oid) member (by
      intro other listed here
      cases other with
      | path p' id =>
          obtain ⟨-, rfl⟩ := only p' id listed
          rfl
      | _ => simp [MetaPut.key] at here)
    simp only [MetaPut.key] at stored
    simp [Db.path?, stored, MetaPut.value]
  · apply Db.path?_congr
    apply Db.lookup_apply_of_not_mem
    intro put listed here
    cases put with
    | path p' id =>
        obtain ⟨rfl, -⟩ := only p' id listed
        exact same (by simpa [MetaPut.key] using here.symm)
    | _ => simp [MetaPut.key] at here

theorem Db.path?_eq_none {db : Db} {path : ByteString} (absent : db.lookup (.path path) = none) :
    db.path? path = none := by
  rw [Db.path?, absent]
  rfl

/-- A commit that binds a missing path. -/
theorem Bindings.commit (bindings : Bindings media.view next) {sync : Bool} {batch : Batch}
    {path : ByteString} {oid : UInt64} {answer : Bool} (member : .path path oid ∈ batch)
    (only : ∀ p id, MetaPut.path p id ∈ batch → p = path ∧ id = oid)
    (noCounter : ∀ id, MetaPut.nextObj id ∉ batch)
    (absent : media.view.lookup (.path path) = none) (below : oid < next)
    (root : oid = 0 → path = [47]) (fresh : ∀ p, media.view.path? p ≠ some oid) :
    Bindings (media.commit sync batch).view next ∧
      bindingDiscipline.Step media (.write sync batch) answer (media.commit sync batch) ∧
      (media.commit sync batch).view.path? path = some oid := by
  have counter : (media.view.apply batch).objectCounter = media.view.objectCounter := by
    rw [Db.objectCounter, Db.objectCounter, Db.lookup_apply_of_not_mem]
    intro put listed here
    cases put with
    | nextObj id => exact noCounter id listed
    | _ => simp [MetaPut.key] at here
  have paths := fun p => @Db.path?_apply_path media.view batch path oid member only p
  have extended : Bindings (media.commit sync batch).view next := by
    rw [Media.view_commit]
    exact bindings.extend counter paths below root fresh
  refine ⟨extended, ⟨⟨next, extended⟩, ?_⟩, ?_⟩
  · intro p id bound
    have other : p ≠ path := by
      rintro rfl
      rw [Db.path?_eq_none absent] at bound
      contradiction
    rw [Media.view_commit, paths, if_neg other]
    exact bound
  · rw [Media.view_commit, paths, if_pos rfl]

theorem openRootEntry_binds (bindings : Bindings media.view next) :
    openRootEntry.Safe (bindingAct call) bindingDiscipline.Step
      (fun _ media' => Bindings media'.view next) media := by
  intro answer after acted
  obtain ⟨answered, unchanged⟩ := primAct_get acted.1
  obtain rfl := unchanged.symm
  refine ⟨bindings.stays, ?_⟩
  rcases answered with rfl | rfl
  · cases absent : media.view.lookup (.path [47]) with
    | some bytes => exact bindings
    | none =>
        intro done after acted
        rcases primAct_write acted.1 with ⟨rfl, rfl⟩ | ⟨rfl, unchanged⟩
        · have fresh : ∀ p, media.view.path? p ≠ some 0 := by
            intro p bound
            rw [bindings.root bound, Db.path?_eq_none absent] at bound
            contradiction
          obtain ⟨extended, step, -⟩ := @Bindings.commit media next bindings false
            [.path [47] 0] [47] 0 true (by simp) (by simp) (by simp) absent bindings.positive
            (fun _ => rfl) fresh
          exact ⟨step, extended⟩
        · obtain rfl := unchanged.symm
          exact ⟨bindings.stays, bindings⟩
  · exact bindings

/-- The counter that opening reads is the one above the bindings. -/
theorem readCounters_binds (bindings : Bindings media.view next) :
    readCounters.Safe (bindingAct call) bindingDiscipline.Step
      (fun result media' => Bindings media'.view next ∧
        ∀ counters, result = .ok counters → counters.1 = next) media := by
  intro answer after acted
  obtain ⟨answered, unchanged⟩ := primAct_get acted.1
  obtain rfl := unchanged.symm
  refine ⟨bindings.stays, ?_⟩
  rcases answered with rfl | rfl
  · have read : counterOfGet 1 u64.ofBytes? (.ok (media.view.lookup .nextObj)) = some next :=
      bindings.counter
    simp only [read]
    intro answer after acted
    obtain ⟨-, unchanged⟩ := primAct_get acted.1
    obtain rfl := unchanged.symm
    refine ⟨bindings.stays, ?_⟩
    simp only
    cases counterOfGet 1 u32.ofBytes? answer with
    | none => exact ⟨bindings, by simp⟩
    | some nextChunkId =>
        intro done after acted
        rcases primAct_write acted.1 with ⟨rfl, rfl⟩ | ⟨rfl, unchanged⟩
        · have paths : ∀ path, (media.commit true
              [.nextObj next, .nextChunk nextChunkId]).view.path? path = media.view.path? path := by
            intro path
            rw [Media.view_commit]
            exact Db.path?_congr (Db.lookup_apply_of_not_mem (by simp [MetaPut.key]))
          have counter : (media.commit true
              [.nextObj next, .nextChunk nextChunkId]).view.objectCounter =
                media.view.objectCounter := by
            have stored := @Db.lookup_apply_of_mem media.view
              [.nextObj next, .nextChunk nextChunkId] (.nextObj next) (by simp)
              (by simp [MetaPut.key])
            simp only [MetaPut.key] at stored
            rw [Media.view_commit, bindings.counter, Db.objectCounter, stored]
            simp [counterOfGet, MetaPut.value]
          have kept := bindings.congr paths counter
          refine ⟨⟨⟨next, kept⟩, fun path oid bound => (paths path).trans bound⟩, kept, ?_⟩
          rintro _ ⟨⟩
          rfl
        · obtain rfl := unchanged.symm
          exact ⟨bindings.stays, bindings, by simp⟩
  · exact ⟨bindings, by simp⟩

theorem openStore_binds (bindings : Bindings media.view next) (sync : Bool) :
    (openStore sync).Safe (bindingAct call) bindingDiscipline.Step bindingDiscipline.Opened
      media := by
  intro answer after acted
  obtain ⟨-, unchanged⟩ := primAct_mount acted.1
  obtain rfl := unchanged.symm
  refine ⟨bindings.stays, ?_⟩
  cases answer with
  | error error => exact ⟨⟨next, bindings⟩, by simp⟩
  | ok mount =>
      have metadata : metadataOpen.Safe (bindingAct call) bindingDiscipline.Step
          (fun result media' => Bindings media'.view next ∧
            ∀ counters, result = .ok counters → counters.1 = next) media := by
        refine (openRootEntry_binds bindings).bind ?_
        rintro (status | done) media₁ bindings₁
        · exact ⟨bindings₁, by simp⟩
        · refine (bindings₁.aside (initOrCheckSchema_issues (by simp [MetaPut.Aside]))).bind ?_
          rintro (status | done) media₂ ⟨-, bindings₂⟩
          · exact ⟨bindings₂, by simp⟩
          · exact readCounters_binds bindings₂
      refine metadata.bind ?_
      rintro (status | ⟨nextObjectId, nextChunkId⟩) media₁ ⟨bindings₁, read⟩
      · exact ⟨⟨next, bindings₁⟩, by simp⟩
      · obtain rfl : nextObjectId = next := read _ rfl
        refine (bindings₁.aside (scanChunks_issues _ _ _)).bind ?_
        rintro (_ | status | active) media₂ ⟨-, bindings₂⟩
        · exact ⟨⟨_, bindings₂⟩, by simp⟩
        · exact ⟨⟨_, bindings₂⟩, by simp⟩
        · refine ⟨⟨_, bindings₂⟩, ?_⟩
          rintro mem ⟨⟩
          exact ⟨_, bindings₂, UInt64.le_refl _⟩

/-- `create` after its existence check. -/
def createMissing (path : ByteString) (now : UInt64) : StoreProg (Except Status Unit) :=
  .call .allocateObjectId fun
    | .error status => .ret (.error status)
    | .ok oid =>
        .call (.commit [.attrs (newAttrs oid now), .path path oid]) fun
          | true => .ret (.ok ())
          | false => .ret (.error .ERROR_METADATA)

theorem createMissing_binds {path : ByteString} {now : UInt64} (bindings : Bindings media.view next)
    (above : next ≤ mem.nextObjectId) (absent : media.view.lookup (.path path) = none) :
    ((createMissing path now).refine storeSem mem).Safe (bindingAct call) bindingDiscipline.Step
      (fun result media' => bindingDiscipline.Idle result.2 media' ∧
        (result.1 = .ok () → ∃ oid, media'.view.path? path = some oid)) media := by
  intro done after acted
  have advance : mem.nextObjectId < mem.nextObjectId + 1 := by
    apply UInt64.lt_add_one
    intro wraps
    exact acted.2.1 (by rw [wraps])
  have above' := UInt64.le_of_lt (UInt64.lt_of_le_of_lt above advance)
  rcases primAct_write acted.1 with ⟨rfl, rfl⟩ | ⟨rfl, unchanged⟩
  · have paths : ∀ p, (media.commit true [.nextObj (mem.nextObjectId + 1)]).view.path? p =
        media.view.path? p := by
      intro p
      rw [Media.view_commit]
      exact Db.path?_congr (Db.lookup_apply_of_not_mem (by simp [MetaPut.key]))
    have named : Bindings (media.commit true [.nextObj (mem.nextObjectId + 1)]).view
        (mem.nextObjectId + 1) := by
      refine ⟨?_, UInt64.lt_of_lt_of_le bindings.positive above', ?_, ?_, ?_⟩
      · have stored := @Db.lookup_apply_of_mem media.view [.nextObj (mem.nextObjectId + 1)]
          (.nextObj (mem.nextObjectId + 1)) (by simp) (by simp)
        simp only [MetaPut.key] at stored
        rw [Media.view_commit, Db.objectCounter, stored]
        simp [counterOfGet, MetaPut.value]
      · exact fun p oid bound =>
          UInt64.lt_of_lt_of_le (bindings.below (paths p ▸ bound)) above'
      · exact fun p bound => bindings.root (paths p ▸ bound)
      · exact fun p p' oid bound bound' =>
          bindings.injective (paths p ▸ bound) (paths p' ▸ bound')
    refine ⟨⟨⟨_, named⟩, fun p oid bound => (paths p).trans bound⟩, ?_⟩
    intro done after acted
    rcases primAct_write acted.1 with ⟨rfl, rfl⟩ | ⟨rfl, unchanged⟩
    · have absent' : (media.commit true [.nextObj (mem.nextObjectId + 1)]).view.lookup
          (.path path) = none := by
        rw [Media.view_commit, Db.lookup_apply_of_not_mem (by simp [MetaPut.key]), absent]
      have fresh : ∀ p, (media.commit true [.nextObj (mem.nextObjectId + 1)]).view.path? p ≠
          some mem.nextObjectId := by
        intro p bound
        rw [paths] at bound
        exact UInt64.lt_irrefl _ (UInt64.lt_of_lt_of_le (bindings.below bound) above)
      have nonzero : mem.nextObjectId = 0 → path = [47] := by
        intro zero
        rw [zero] at above
        exact absurd (UInt64.lt_of_lt_of_le bindings.positive above) (UInt64.lt_irrefl _)
      obtain ⟨extended, step, bound⟩ := @Bindings.commit _ _ named mem.syncMetadata
        [.attrs (newAttrs mem.nextObjectId now), .path path mem.nextObjectId] path
        mem.nextObjectId true (by simp) (by simp) (by simp) absent' advance nonzero fresh
      exact ⟨step, ⟨_, extended, UInt64.le_refl _⟩, fun _ => ⟨_, bound⟩⟩
    · obtain rfl := unchanged.symm
      exact ⟨named.stays, ⟨_, named, UInt64.le_refl _⟩, by simp⟩
  · obtain rfl := unchanged.symm
    exact ⟨bindings.stays, ⟨next, bindings, above'⟩, by simp⟩

/-- A create that returns OK has bound a path that was missing. -/
theorem create_binds {path : ByteString} {now : UInt64} (bindings : Bindings media.view next)
    (above : next ≤ mem.nextObjectId) :
    ((create path now).refine storeSem mem).Safe (bindingAct (some (.create path now)))
      bindingDiscipline.Step
      (fun result media' => bindingDiscipline.Idle result.2 media' ∧
        (result.1 = .ok () → media.view.lookup (.path path) = none ∧
          ∃ oid, media'.view.path? path = some oid)) media := by
  rw [create]
  split_ifs with invalid
  · exact ⟨⟨next, bindings, above⟩, by simp⟩
  · intro answer after acted
    obtain ⟨answered, unchanged⟩ := primAct_get acted.1
    obtain rfl := unchanged.symm
    refine ⟨bindings.stays, ?_⟩
    have missing : media.view.lookup (.path path) = none →
        ((createMissing path now).refine storeSem mem).Safe (bindingAct (some (.create path now)))
          bindingDiscipline.Step
          (fun result media' => bindingDiscipline.Idle result.2 media' ∧
            (result.1 = .ok () → media.view.lookup (.path path) = none ∧
              ∃ oid, media'.view.path? path = some oid)) media := fun absent =>
      (createMissing_binds bindings above absent).mono fun _ _ post =>
        ⟨post.1, fun done => ⟨absent, post.2 done⟩⟩
    rcases answered with rfl | rfl
    · cases found : media.view.lookup (.path path) with
      | some bytes => exact ⟨⟨next, bindings, above⟩, by simp⟩
      | none =>
          rw [found] at missing
          exact missing rfl
    · exact missing (acted.2.2 path now rfl rfl)

end Discipline

theorem bindingDiscipline_lawful : bindingDiscipline.Lawful where
  refl := fun _ _ _ => id
  trans := fun _ _ _ one two _ _ bound => two (one bound)
  opens := by
    rintro media ⟨next, bindings⟩ sync
    exact openStore_binds bindings sync
  calls := by
    rintro mem media ⟨next, bindings, above⟩ call
    cases call with
    | create path now => exact (create_binds bindings above).mono fun _ _ post => post.1
    | write path source now =>
        refine (bindings.aside (write_issues path source now mem)).mono ?_
        rintro result media' ⟨same, kept⟩
        exact ⟨next, kept, same ▸ above⟩
  closes := by
    rintro mem media ⟨next, bindings, -⟩
    exact ⟨next, bindings⟩
  cuts := fun _ held => held
  crashes := fun _ _ _ lost => absurd lost id

theorem freshSystem_binds (disk : Disk) : bindingDiscipline.Holds (freshSystem disk) := by
  refine .closed ⟨1, rfl, by decide, ?_, ?_, ?_⟩
  · exact fun _ _ bound => absurd bound (by simp [Db.path?, Media.view, LoggedMap.view])
  · exact fun _ bound => absurd bound (by simp [Db.path?, Media.view, LoggedMap.view])
  · exact fun _ _ _ bound => absurd bound (by simp [Db.path?, Media.view, LoggedMap.view])

/-- Under the actions `act`, a run of `create` ends with OK. -/
def CreatesOk (act : Option Call → Media → (op : PrimOp) → op.Res → Media → Prop)
    (path : ByteString) (now : UInt64) (mem : StoreMem) (media : Media) (mem' : StoreMem)
    (media' : Media) : Prop :=
  Prog.Reaches (act (some (.create path now)))
    ((create path now).refine storeSem mem, media) (.ret (.ok (), mem'), media')

/-- In every run from a new database, no two paths have one id, and after a create of a path has
returned OK, the path keeps its id and no create of it returns OK. -/
def BindingsPermanent (act : Option Call → Media → (op : PrimOp) → op.Res → Media → Prop)
    (disk : Disk) : Prop :=
  ∀ s, SystemReaches act noCrash (freshSystem disk) s →
    (∀ path path' oid, s.media.view.path? path = some oid → s.media.view.path? path' = some oid →
      path = path') ∧
    ∀ path now mem mem' media', s.phase = .idle mem →
      CreatesOk act path now mem s.media mem' media' →
        ∃ oid, media'.view.path? path = some oid ∧
          ∀ log s', SystemReaches act noCrash ⟨media', .idle mem', log⟩ s' →
            s'.media.view.path? path = some oid ∧
            ∀ now' later later' after, s'.phase = .idle later →
              ¬ CreatesOk act path now' later s'.media later' after

/-- Bindings are permanent in the runs without a failed existence check of a path that exists and in
which the object id counter is not advanced past its last value. -/
theorem path_binding_permanent (disk : Disk) : BindingsPermanent bindingAct disk := by
  intro s run
  have lawful := bindingDiscipline_lawful
  obtain ⟨holds, -⟩ := (freshSystem_binds disk).reaches lawful run
  obtain ⟨next, bindings⟩ := holds.cut lawful
  refine ⟨fun path path' oid bound bound' => bindings.injective bound bound', ?_⟩
  intro path now mem mem' media' idle created
  obtain ⟨media, phase, log⟩ := s
  obtain rfl : phase = .idle mem := idle
  cases holds with
  | idle inv =>
      obtain ⟨next, bindings, above⟩ := inv
      obtain ⟨inv', bound⟩ := Prog.Safe.reaches
        (create_binds bindings above : Prog.Safe _ _ _
          ((create path now).refine storeSem mem, media).1 _) created
      obtain ⟨-, oid, bound⟩ := bound rfl
      refine ⟨oid, bound, ?_⟩
      intro log s' run'
      obtain ⟨holds', kept⟩ := Discipline.Holds.reaches lawful
        (.idle inv' : bindingDiscipline.Holds ⟨media', .idle mem', log⟩) run'
      have still : s'.media.view.path? path = some oid := kept bound
      refine ⟨still, ?_⟩
      intro now' later later' after idle' again
      obtain ⟨media₁, phase₁, log₁⟩ := s'
      obtain rfl : phase₁ = .idle later := idle'
      cases holds' with
      | idle inv₁ =>
          obtain ⟨next₁, bindings₁, above₁⟩ := inv₁
          obtain ⟨-, absent⟩ := Prog.Safe.reaches
            (create_binds bindings₁ above₁ : Prog.Safe _ _ _
              ((create path now').refine storeSem later, media₁).1 _) again
          simp only at still
          rw [Db.path?_eq_none (absent rfl).1] at still
          contradiction

theorem primAct_exec (chance : Chance) (media : Media) (op : PrimOp) :
    primAct media op (op.exec chance media).1 (op.exec chance media).2 := ⟨chance, rfl⟩

theorem bindingAct_okExec {call : Option Call} {media : Media} {op : PrimOp}
    (first : FirstAct media op) :
    bindingAct call media op (okExec op media).1 (okExec op media).2 := by
  refine ⟨primAct_exec _ media op, ?_, fun path now created => ?_⟩
  · rintro rfl
    exact absurd (first.1 0 rfl) (by decide)
  · cases op with
    | get key => exact fun failed => nomatch failed
    | _ => trivial

/-- A run in which a created path keeps its id through a write and another opening, and is not
created again. -/
theorem path_binding_permanent_plainDisk : ∃ disk mount media' mem' oid,
    SystemReaches bindingAct noCrash (freshSystem disk)
      ⟨openedMedia disk, .idle (newMem mount), fun _ => none⟩ ∧
    CreatesOk bindingAct samplePath 0 (newMem mount) (openedMedia disk) (createdMem mount)
      (createdMedia disk) ∧
    SystemReaches bindingAct noCrash
      ⟨createdMedia disk, .idle (createdMem mount),
        Function.update (fun _ => none) samplePath (some [])⟩
      ⟨media', .idle mem', writtenLog⟩ ∧
    media'.view.path? samplePath = some oid ∧
    ∀ now mem after, ¬ CreatesOk bindingAct samplePath now mem' media' mem after := by
  obtain ⟨disk, mount, start, base, mount₁, fresh, fits, mounts, allocated, within⟩ :=
    plainDisk_first_chunk
  obtain ⟨mount', mounts'⟩ := writtenMedia_mounts fresh fits mounts allocated within
  have lawful : ∀ call media op, FirstAct media op →
      bindingAct call media op (okExec op media).1 (okExec op media).2 :=
    fun _ _ _ first => bindingAct_okExec first
  have opened := @firstAct_opens bindingAct noCrash disk mount lawful mounts
  have created : CreatesOk bindingAct samplePath 0 (newMem mount) (openedMedia disk)
      (createdMem mount) (createdMedia disk) := by
    have reach := (@create_runsBy disk mount).reaches (lawful (some (.create samplePath 0)))
    rwa [create_run] at reach
  have later := (@firstAct_writes bindingAct noCrash disk base start mount mount₁ lawful allocated
    within).trans (.head .close (firstAct_reopens lawful mounts'))
  obtain ⟨oid, -, permanent⟩ :=
    (path_binding_permanent disk _ opened).2 samplePath 0 _ _ _ rfl created
  obtain ⟨bound, refused⟩ := permanent _ _ later
  exact ⟨disk, mount, _, _, oid, opened, created, later, bound,
    fun now mem after => refused now _ mem after rfl⟩

/-! ## A path bound twice -/

/-- The first action fails without effect, the rest succeeds. -/
def firstFails (action : Nat) : Chance where
  io := if action = 0 then .fail fun _ => false else .ok
  heap := fun _ => zeroBlock

/-- A second create of a path whose existence check fails binds it to another id. -/
theorem create_rebinds : ¬ ∀ disk, BindingsPermanent (fun _ => primAct) disk := by
  intro claim
  obtain ⟨layout, mount, -, mounts, -⟩ := plainDisk_volume
  generalize plainDisk 65536 (by decide) = disk at mounts
  have opened := @freshSystem_opens (fun _ => primAct) noCrash disk _
    (fun media op _ => primAct_exec _ media op) mounts
  have created : CreatesOk (fun _ => primAct) samplePath 0 (newMem mount) (openedMedia disk)
      (createdMem mount) (createdMedia disk) := by
    have reach := Prog.reaches_run okExec (fun media op => primAct_exec _ media op)
      ((create samplePath 0).refine storeSem (newMem mount)) (openedMedia disk)
    rwa [create_run] at reach
  have again := Prog.reaches_runWith (fun chance (op : PrimOp) => op.exec chance)
    (fun chance media op => primAct_exec chance media op)
    ((create samplePath 0).refine storeSem (createdMem mount)) firstFails (createdMedia disk)
  obtain ⟨oid, bound, permanent⟩ := (claim _ _ opened).2 samplePath 0 _ _ _ rfl created
  obtain ⟨-, refused⟩ := permanent (fun _ => none) _ .refl
  exact refused 0 _ _ _ rfl again

end MiniFs.ObjStore
