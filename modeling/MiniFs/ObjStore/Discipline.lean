import MiniFs.ObjStore.Session

/-!
# Invariants of runs

A discipline says what holds of a closed store, of an idle one, and of the media at every cut, under
actions that may depend on the call.  One proof for opening and one for each call give what holds in
every run.
-/

namespace MiniFs.ObjStore

/-- What is to hold of a store, under some actions and some losses of power. -/
structure Discipline where
  act : Option Call → Media → (op : PrimOp) → op.Res → Media → Prop
  crash : Media → Media → Prop
  /-- Holds of a closed store. -/
  Closed : Media → Prop
  /-- Holds of an open store between calls. -/
  Idle : StoreMem → Media → Prop
  /-- Holds of the media after every action. -/
  Cut : Media → Prop
  /-- Relates the media before and after. -/
  Kept : Media → Media → Prop

namespace Discipline

/-- The contract of one action. -/
def Step (d : Discipline) (before : Media) (op : PrimOp) (_ : op.Res) (after : Media) : Prop :=
  d.Cut after ∧ d.Kept before after

/-- What opening leaves behind. -/
def Opened (d : Discipline) (result : Option (Except Status StoreMem)) (media : Media) : Prop :=
  d.Closed media ∧ ∀ mem, result = some (.ok mem) → d.Idle mem media

/-- What a call leaves behind. -/
def Returned (d : Discipline) (result : Except Status Unit × StoreMem) (media : Media) : Prop :=
  d.Idle result.2 media

/-- Opening, calls, closing and losses of power keep to the discipline. -/
structure Lawful (d : Discipline) : Prop where
  refl : ∀ media, d.Kept media media
  trans : ∀ ⦃first second third⦄, d.Kept first second → d.Kept second third → d.Kept first third
  opens : ∀ ⦃media⦄, d.Closed media → ∀ sync,
    (openStore sync).Safe (d.act none) d.Step d.Opened media
  calls : ∀ ⦃mem media⦄, d.Idle mem media → ∀ call : Call,
    (call.prog.refine storeSem mem).Safe (d.act (some call)) d.Step d.Returned media
  closes : ∀ ⦃mem media⦄, d.Idle mem media → d.Closed media
  cuts : ∀ ⦃media⦄, d.Closed media → d.Cut media
  crashes : ∀ ⦃media media'⦄, d.Cut media → d.crash media media' →
    d.Closed media' ∧ d.Kept media media'

/-- What holds of a system, by phase. -/
inductive Holds (d : Discipline) : System → Prop
  | closed {media : Media} {log : Log} (inv : d.Closed media) : d.Holds ⟨media, .closed, log⟩
  | opening {media : Media} {log : Log} {rest : PrimProg (Option (Except Status StoreMem))}
      (cut : d.Cut media) (safe : rest.Safe (d.act none) d.Step d.Opened media) :
      d.Holds ⟨media, .opening rest, log⟩
  | idle {media : Media} {log : Log} {mem : StoreMem} (inv : d.Idle mem media) :
      d.Holds ⟨media, .idle mem, log⟩
  | running {media : Media} {log : Log} {call : Call}
      {rest : PrimProg (Except Status Unit × StoreMem)} (cut : d.Cut media)
      (safe : rest.Safe (d.act (some call)) d.Step d.Returned media) :
      d.Holds ⟨media, .running call rest, log⟩

variable {d : Discipline}

theorem Holds.cut (lawful : d.Lawful) {s : System} (holds : d.Holds s) : d.Cut s.media := by
  cases holds with
  | closed inv => exact lawful.cuts inv
  | opening cut safe => exact cut
  | idle inv => exact lawful.cuts (lawful.closes inv)
  | running cut safe => exact cut

/-- Every step keeps to the discipline. -/
theorem Holds.step (lawful : d.Lawful) {s s' : System} (holds : d.Holds s)
    (step : SystemStep d.act d.crash s s') : d.Holds s' ∧ d.Kept s.media s'.media := by
  have now := holds.cut lawful
  cases step with
  | openStore sync =>
      cases holds with
      | closed inv => exact ⟨.opening now (lawful.opens inv sync), lawful.refl _⟩
  | opening step =>
      cases holds with
      | opening cut safe =>
          cases step with
          | call acted =>
              obtain ⟨⟨cut', kept⟩, rest⟩ := safe _ _ acted
              exact ⟨.opening cut' rest, kept⟩
  | opened =>
      cases holds with
      | opening cut safe => exact ⟨.idle (safe.2 _ rfl), lawful.refl _⟩
  | openFailed =>
      cases holds with
      | opening cut safe => exact ⟨.closed safe.1, lawful.refl _⟩
  | call call =>
      cases holds with
      | idle inv => exact ⟨.running now (lawful.calls inv call), lawful.refl _⟩
  | running step =>
      cases holds with
      | running cut safe =>
          cases step with
          | call acted =>
              obtain ⟨⟨cut', kept⟩, rest⟩ := safe _ _ acted
              exact ⟨.running cut' rest, kept⟩
  | returned =>
      cases holds with
      | running cut safe => exact ⟨.idle safe, lawful.refl _⟩
  | close =>
      cases holds with
      | idle inv => exact ⟨.closed (lawful.closes inv), lawful.refl _⟩
  | crash lost =>
      obtain ⟨inv, kept⟩ := lawful.crashes now lost
      exact ⟨.closed inv, kept⟩

/-- Every run keeps to the discipline. -/
theorem Holds.reaches (lawful : d.Lawful) {s s' : System} (holds : d.Holds s)
    (run : SystemReaches d.act d.crash s s') : d.Holds s' ∧ d.Kept s.media s'.media := by
  induction run with
  | refl => exact ⟨holds, lawful.refl _⟩
  | tail _ step ih =>
      obtain ⟨holds', kept⟩ := ih
      obtain ⟨holds'', kept'⟩ := holds'.step lawful step
      exact ⟨holds'', lawful.trans kept kept'⟩

end Discipline

/-- An action whose puts are of the given kind. -/
def PrimOp.PutsOnly (Kind : MetaPut → Prop) : PrimOp → Prop
  | .write _ batch => ∀ put ∈ batch, Kind put
  | _ => True

section Issues

variable {Kind : MetaPut → Prop}

theorem writeTail_issues (segment : List UInt8) (r : Reservation) (mem : StoreMem) :
    ((writeTail segment r).refine storeSem mem).Issues (PrimOp.PutsOnly Kind)
      fun result => result.2 = mem := by
  simp only [writeTail]
  split_ifs
  · refine ⟨trivial, ?_⟩
    rintro (_ | _) <;> rfl
  · rfl

/-- The data path of a segment puts nothing. -/
theorem writeSegment_issues (segment : List UInt8) (r : Reservation) (mem : StoreMem) :
    ((writeSegment segment r).refine storeSem mem).Issues (PrimOp.PutsOnly Kind)
      fun result => result.2 = mem := by
  rw [writeSegment]
  split_ifs
  · refine ⟨trivial, ?_⟩
    rintro (_ | _)
    · rfl
    · exact writeTail_issues segment r mem
  · exact writeTail_issues segment r mem

theorem initOrCheckSchema_issues (schema : ∀ version, Kind (.schema version)) :
    initOrCheckSchema.Issues (PrimOp.PutsOnly Kind) fun _ => True := by
  refine ⟨trivial, ?_⟩
  rintro (_ | _ | bytes)
  · trivial
  · refine ⟨by simpa [PrimOp.PutsOnly] using schema _, ?_⟩
    rintro (_ | _) <;> trivial
  · simp only
    split
    · trivial
    · split_ifs <;> trivial

/-- The chunk scan puts nothing. -/
theorem scanChunks_issues (fuel : Nat) (id : UInt32) (active : Option Chunk) :
    (scanChunks fuel id active).Issues (PrimOp.PutsOnly Kind) fun _ => True := by
  refine (scanChunks_reads fuel id active).allow ?_
  rintro _ ⟨key, rfl⟩
  trivial

end Issues

end MiniFs.ObjStore
