import Mathlib.Data.List.Basic
import Mathlib.Logic.Function.Basic

/-!
# Storage behind a volatile write cache

Cells are addressed by natural numbers.  `durable` is what survives a power cut and `pending` the
cell writes since the last flush, oldest first.  A cut keeps any sublist of the pending writes.
A cell that no pending write addresses has the same value before the cut, after it, and now.
-/

/-- Apply cell writes in order. -/
def applyWrites {V : Type} (base : Nat → V) (writes : List (Nat × V)) : Nat → V :=
  writes.foldl (fun cells write => Function.update cells write.1 write.2) base

section applyWrites

variable {V : Type} (base : Nat → V)

@[simp] theorem applyWrites_nil : applyWrites base [] = base := rfl

@[simp] theorem applyWrites_cons (write : Nat × V) (writes : List (Nat × V)) :
    applyWrites base (write :: writes) =
      applyWrites (Function.update base write.1 write.2) writes := rfl

@[simp] theorem applyWrites_append (first second : List (Nat × V)) :
    applyWrites base (first ++ second) = applyWrites (applyWrites base first) second := by
  simp [applyWrites]

/-- A cell that no write addresses keeps its value. -/
theorem applyWrites_of_not_mem {writes : List (Nat × V)} {cell : Nat}
    (untouched : ∀ write ∈ writes, write.1 ≠ cell) : applyWrites base writes cell = base cell := by
  induction writes generalizing base with
  | nil => rfl
  | cons write writes ih =>
      rw [applyWrites_cons, ih _ fun other member => untouched other (.tail _ member)]
      exact Function.update_of_ne (untouched write (.head _)).symm _ _

/-- A cell to which every write carries one value has that value after them. -/
theorem applyWrites_of_mem {writes : List (Nat × V)} {cell : Nat} {value : V}
    (written : ∃ write ∈ writes, write.1 = cell)
    (only : ∀ write ∈ writes, write.1 = cell → write.2 = value) :
    applyWrites base writes cell = value := by
  induction writes generalizing base with
  | nil => simp at written
  | cons write writes ih =>
      rw [applyWrites_cons]
      by_cases again : ∃ later ∈ writes, later.1 = cell
      · exact ih _ again fun other member => only other (.tail _ member)
      · have untouched : ∀ later ∈ writes, later.1 ≠ cell :=
          fun later member here => again ⟨later, member, here⟩
        obtain ⟨last, member, here⟩ := written
        rcases List.mem_cons.mp member with rfl | member
        · rw [applyWrites_of_not_mem _ untouched, ← here, Function.update_self,
            only _ (.head _) here]
        · exact absurd here (untouched last member)

/-- A cell that is addressed holds one of the values written to it. -/
theorem exists_write_of_mem {writes : List (Nat × V)} {cell : Nat}
    (written : ∃ write ∈ writes, write.1 = cell) :
    ∃ write ∈ writes, write.1 = cell ∧ applyWrites base writes cell = write.2 := by
  induction writes generalizing base with
  | nil => simp at written
  | cons write writes ih =>
      rw [applyWrites_cons]
      by_cases again : ∃ later ∈ writes, later.1 = cell
      · obtain ⟨last, member, here, value⟩ := ih (Function.update base write.1 write.2) again
        exact ⟨last, .tail _ member, here, value⟩
      · have untouched : ∀ later ∈ writes, later.1 ≠ cell :=
          fun later member here => again ⟨later, member, here⟩
        obtain ⟨last, member, here⟩ := written
        rcases List.mem_cons.mp member with rfl | member
        · refine ⟨last, .head _, here, ?_⟩
          rw [applyWrites_of_not_mem _ untouched, ← here, Function.update_self]
        · exact absurd here (untouched last member)

/-- A predicate that holds of a cell before the writes, and of every value written to it, holds
after any part of the writes. -/
theorem applyWrites_of_forall {writes kept : List (Nat × V)} {cell : Nat} {P : V → Prop}
    (sub : kept.Sublist writes) (initially : P (base cell))
    (written : ∀ write ∈ writes, write.1 = cell → P write.2) :
    P (applyWrites base kept cell) := by
  have keptWritten : ∀ write ∈ kept, write.1 = cell → P write.2 :=
    fun write member => written write (sub.subset member)
  clear written sub
  induction kept generalizing base with
  | nil => exact initially
  | cons write kept ih =>
      rw [applyWrites_cons]
      apply ih
      · by_cases here : cell = write.1
        · subst here
          simpa using keptWritten write (.head _) rfl
        · simpa [Function.update_of_ne here] using initially
      · exact fun other member => keptWritten other (.tail _ member)

/-- A cell holds the last value written to it. -/
theorem applyWrites_eq_getLast (writes : List (Nat × V)) (cell : Nat) :
    applyWrites base writes cell =
      ((writes.filter (·.1 = cell)).map Prod.snd).getLast?.getD (base cell) := by
  induction writes generalizing base with
  | nil => rfl
  | cons write writes ih =>
      rw [applyWrites_cons, ih]
      by_cases here : write.1 = cell
      · subst here
        simp only [List.filter_cons, decide_true, if_true, List.map_cons, List.getLast?_cons,
          Function.update_self, Option.getD_some]
      · simp only [List.filter_cons, here, decide_false, Function.update_of_ne (Ne.symm here)]
        rw [if_neg (by decide)]

end applyWrites

/-- The cell writes of a range that starts at `first`. -/
def rangeWrites {V : Type} (first : Nat) : List V → List (Nat × V)
  | [] => []
  | value :: values => (first, value) :: rangeWrites (first + 1) values

section rangeWrites

variable {V : Type}

theorem rangeWrites_bounds {first : Nat} {values : List V} {write : Nat × V}
    (member : write ∈ rangeWrites first values) :
    first ≤ write.1 ∧ write.1 < first + values.length := by
  induction values generalizing first with
  | nil => simp [rangeWrites] at member
  | cons value values ih =>
      simp only [rangeWrites, List.mem_cons] at member
      simp only [List.length_cons]
      rcases member with rfl | member
      · simp
      · have := ih member
        omega

theorem mem_rangeWrites {first : Nat} {values : List V} {write : Nat × V} :
    write ∈ rangeWrites first values ↔
      ∃ index, ∃ inside : index < values.length,
        write = (first + index, values.get ⟨index, inside⟩) := by
  induction values generalizing first with
  | nil => simp [rangeWrites]
  | cons value values ih =>
      simp only [rangeWrites, List.mem_cons, ih]
      constructor
      · rintro (rfl | ⟨index, inside, rfl⟩)
        · exact ⟨0, by simp, rfl⟩
        · exact ⟨index + 1, by simpa using inside, by simp [Nat.add_assoc, Nat.add_comm 1]⟩
      · rintro ⟨index, inside, rfl⟩
        cases index with
        | zero => exact .inl rfl
        | succ index =>
            refine .inr ⟨index, by simpa using inside, ?_⟩
            simp [Nat.add_assoc, Nat.add_comm 1]

theorem applyWrites_rangeWrites_of_lt {base : Nat → V} {first cell : Nat} (values : List V)
    (below : cell < first) : applyWrites base (rangeWrites first values) cell = base cell :=
  applyWrites_of_not_mem base fun write member => by
    have := rangeWrites_bounds member
    omega

/-- A range write leaves the written values in the range. -/
theorem applyWrites_rangeWrites_get {base : Nat → V} {first index : Nat} {values : List V}
    (inside : index < values.length) :
    applyWrites base (rangeWrites first values) (first + index) = values.get ⟨index, inside⟩ := by
  induction values generalizing base first index with
  | nil => simp at inside
  | cons value values ih =>
      simp only [rangeWrites, applyWrites_cons]
      cases index with
      | zero =>
          rw [applyWrites_rangeWrites_of_lt values (by omega)]
          simp
      | succ index =>
          have shifted : first + (index + 1) = first + 1 + index := by omega
          rw [shifted, ih (by simpa using inside)]
          rfl

end rangeWrites

/-- Cells behind a volatile write cache. -/
structure WriteCache (V : Type) where
  /-- Cell values at the last flush. -/
  durable : Nat → V
  /-- Cell writes since the last flush, oldest first. -/
  pending : List (Nat × V)

namespace WriteCache

variable {V : Type}

/-- The value a reader sees. -/
def content (cache : WriteCache V) : Nat → V := applyWrites cache.durable cache.pending

/-- Issue cell writes. -/
def push (cache : WriteCache V) (writes : List (Nat × V)) : WriteCache V :=
  { cache with pending := cache.pending ++ writes }

/-- Make every issued write durable. -/
def flush (cache : WriteCache V) : WriteCache V where
  durable := cache.content
  pending := []

/-- Lose power: only the writes in `kept` reach the cells. -/
def cut (cache : WriteCache V) (kept : List (Nat × V)) : WriteCache V where
  durable := applyWrites cache.durable kept
  pending := []

@[simp] theorem content_push (cache : WriteCache V) (writes : List (Nat × V)) :
    (cache.push writes).content = applyWrites cache.content writes := by
  simp [content, push]

@[simp] theorem content_flush (cache : WriteCache V) : cache.flush.content = cache.content := rfl

@[simp] theorem durable_flush (cache : WriteCache V) : cache.flush.durable = cache.content := rfl

@[simp] theorem pending_flush (cache : WriteCache V) : cache.flush.pending = [] := rfl

@[simp] theorem durable_push (cache : WriteCache V) (writes : List (Nat × V)) :
    (cache.push writes).durable = cache.durable := rfl

@[simp] theorem pending_push (cache : WriteCache V) (writes : List (Nat × V)) :
    (cache.push writes).pending = cache.pending ++ writes := rfl

@[simp] theorem content_cut (cache : WriteCache V) (kept : List (Nat × V)) :
    (cache.cut kept).content = applyWrites cache.durable kept := rfl

/-- The cell is as durable as it reads: no issued write addresses it. -/
def Settled (cache : WriteCache V) (cell : Nat) : Prop :=
  ∀ write ∈ cache.pending, write.1 ≠ cell

theorem Settled.content_eq {cache : WriteCache V} {cell : Nat} (settled : cache.Settled cell) :
    cache.content cell = cache.durable cell :=
  applyWrites_of_not_mem _ settled

theorem settled_flush (cache : WriteCache V) (cell : Nat) : cache.flush.Settled cell := by
  simp [Settled]

theorem Settled.push {cache : WriteCache V} {cell : Nat} {writes : List (Nat × V)}
    (settled : cache.Settled cell) (untouched : ∀ write ∈ writes, write.1 ≠ cell) :
    (cache.push writes).Settled cell := by
  intro write member
  rw [pending_push, List.mem_append] at member
  exact member.elim (settled write) (untouched write)

/-- A settled cell survives every cut. -/
theorem Settled.cut {cache : WriteCache V} {cell : Nat} {kept : List (Nat × V)}
    (settled : cache.Settled cell) (sub : kept.Sublist cache.pending) :
    (cache.cut kept).durable cell = cache.durable cell :=
  applyWrites_of_not_mem _ fun write member => settled write (sub.subset member)

end WriteCache
