import Mathlib.Algebra.BigOperators.Group.List.Basic
import Mathlib.Algebra.GroupWithZero.Nat
import Mathlib.Order.Interval.Finset.Nat

/-!
# Concatenations cut into pieces

A list is cut into pieces of positive length.  A place in it is a decomposition `before ++ piece ::
after`; the total length of `before` determines it.  Pieces laid out at disjoint intervals of an
initial segment are no longer in total than the segment.  Intervals that follow one another
partition what is between their two ends.
-/

namespace Tiling

variable {α β : Type}

/-- The total length of pieces. -/
def total (width : α → Nat) (pieces : List α) : Nat := (pieces.map width).sum

@[simp] theorem total_nil (width : α → Nat) : total width [] = 0 := rfl

@[simp] theorem total_cons (width : α → Nat) (piece : α) (pieces : List α) :
    total width (piece :: pieces) = width piece + total width pieces := by
  simp [total]

@[simp] theorem total_append (width : α → Nat) (first second : List α) :
    total width (first ++ second) = total width first + total width second := by
  simp [total]

theorem length_flatMap_eq_total (data : α → List β) (pieces : List α) :
    (pieces.flatMap data).length = total (fun piece => (data piece).length) pieces := by
  simp [total, List.length_flatMap]

section Places

variable {width : α → Nat} {before before' after after' : List α} {piece piece' : α}

/-- Of two places, one is inside the part before the other, unless they are the same. -/
theorem place_trichotomy (same : before ++ piece :: after = before' ++ piece' :: after') :
    (before = before' ∧ piece = piece' ∧ after = after') ∨
      (∃ middle, before' = before ++ piece :: middle ∧ after = middle ++ piece' :: after') ∨
      ∃ middle, before = before' ++ piece' :: middle ∧ after' = middle ++ piece :: after := by
  rcases List.append_eq_append_iff.mp same with ⟨more, rfl, rest⟩ | ⟨more, rfl, rest⟩
  · cases more with
    | nil =>
        simp only [List.nil_append, List.cons.injEq] at rest
        exact .inl ⟨by simp, rest⟩
    | cons head more =>
        simp only [List.cons_append, List.cons.injEq] at rest
        exact .inr (.inl ⟨more, by rw [rest.1], rest.2⟩)
  · cases more with
    | nil =>
        simp only [List.nil_append, List.cons.injEq] at rest
        exact .inl ⟨by simp, rest.1.symm, rest.2.symm⟩
    | cons head more =>
        simp only [List.cons_append, List.cons.injEq] at rest
        exact .inr (.inr ⟨more, by rw [rest.1], rest.2⟩)

/-- A place is determined by the length before it. -/
theorem place_unique (positive : ∀ piece, 0 < width piece)
    (same : before ++ piece :: after = before' ++ piece' :: after')
    (offset : total width before = total width before') :
    before = before' ∧ piece = piece' ∧ after = after' := by
  have first := positive piece
  have second := positive piece'
  rcases place_trichotomy same with equal | ⟨middle, rfl, -⟩ | ⟨middle, rfl, -⟩
  · exact equal
  · simp only [total_append, total_cons] at offset
    omega
  · simp only [total_append, total_cons] at offset
    omega

/-- An offset inside the whole is inside one of the pieces. -/
theorem exists_place (pieces : List α) {offset : Nat} (inside : offset < total width pieces) :
    ∃ before piece after, pieces = before ++ piece :: after ∧ total width before ≤ offset ∧
      offset < total width before + width piece := by
  induction pieces generalizing offset with
  | nil => simp at inside
  | cons head rest ih =>
      rw [total_cons] at inside
      by_cases here : offset < width head
      · exact ⟨[], head, rest, rfl, Nat.zero_le _, by simpa using here⟩
      · obtain ⟨before, piece, after, rfl, low, high⟩ := @ih (offset - width head) (by omega)
        refine ⟨head :: before, piece, after, rfl, ?_, ?_⟩ <;> rw [total_cons] <;> omega

end Places

/-- Disjoint intervals of an initial segment are no longer in total than the segment. -/
theorem total_le_of_disjoint {start width : α → Nat} {pieces : List α} {bound : Nat}
    (inside : ∀ piece ∈ pieces, start piece + width piece ≤ bound)
    (disjoint : pieces.Pairwise fun first second =>
      start first + width first ≤ start second ∨ start second + width second ≤ start first) :
    total width pieces ≤ bound := by
  have covered : ∃ cells : Finset Nat, cells.card = total width pieces ∧ ∀ cell, cell ∈ cells ↔
      ∃ piece ∈ pieces, start piece ≤ cell ∧ cell < start piece + width piece := by
    clear inside
    induction pieces with
    | nil => exact ⟨∅, rfl, by simp⟩
    | cons head rest ih =>
        obtain ⟨apart, restDisjoint⟩ := List.pairwise_cons.mp disjoint
        obtain ⟨cells, card, mem⟩ := ih restDisjoint
        refine ⟨Finset.Ico (start head) (start head + width head) ∪ cells, ?_, ?_⟩
        · rw [Finset.card_union_of_disjoint, Nat.card_Ico, card, total_cons]
          · omega
          · rw [Finset.disjoint_left]
            intro cell low member
            obtain ⟨piece, listed, first, last⟩ := (mem cell).mp member
            have := apart piece listed
            rw [Finset.mem_Ico] at low
            omega
        · intro cell
          rw [Finset.mem_union, Finset.mem_Ico, mem]
          simp
  obtain ⟨cells, card, mem⟩ := covered
  have below : cells ⊆ Finset.range bound := by
    intro cell member
    obtain ⟨piece, listed, -, last⟩ := (mem cell).mp member
    have := inside piece listed
    rw [Finset.mem_range]
    omega
  calc total width pieces = cells.card := card.symm
    _ ≤ (Finset.range bound).card := Finset.card_le_card below
    _ = bound := Finset.card_range bound

/-- Intervals, given by start and length, that follow one another from `start` to `finish`. -/
def Chained (start : Nat) : List (Nat × Nat) → Nat → Prop
  | [], finish => start = finish
  | piece :: rest, finish => piece.1 = start ∧ Chained (start + piece.2) rest finish

/-- Intervals that follow one another, have no cell in common, and have every cell from `start`
below `finish` and no other. -/
structure Partitions (start : Nat) (pieces : List (Nat × Nat)) (finish : Nat) : Prop where
  chained : Chained start pieces finish
  disjoint : pieces.Pairwise fun first second => ∀ cell,
    first.1 ≤ cell ∧ cell < first.1 + first.2 → ¬ (second.1 ≤ cell ∧ cell < second.1 + second.2)
  covers : ∀ cell, start ≤ cell ∧ cell < finish ↔
    ∃ piece ∈ pieces, piece.1 ≤ cell ∧ cell < piece.1 + piece.2

section Chained

variable {start finish : Nat} {pieces : List (Nat × Nat)}

theorem Chained.le (chained : Chained start pieces finish) : start ≤ finish := by
  induction pieces generalizing start with
  | nil => exact chained.le
  | cons piece rest ih =>
      have further := ih chained.2
      omega

theorem Chained.start_le (chained : Chained start pieces finish) :
    ∀ piece ∈ pieces, start ≤ piece.1 := by
  induction pieces generalizing start with
  | nil => simp
  | cons piece rest ih =>
      obtain ⟨first, further⟩ := chained
      intro other member
      rcases List.mem_cons.mp member with rfl | member
      · exact first.ge
      · have later := ih further other member
        omega

theorem Chained.covers (chained : Chained start pieces finish) (cell : Nat) :
    start ≤ cell ∧ cell < finish ↔ ∃ piece ∈ pieces, piece.1 ≤ cell ∧ cell < piece.1 + piece.2 := by
  induction pieces generalizing start with
  | nil =>
      have same : start = finish := chained
      simp
      omega
  | cons piece rest ih =>
      obtain ⟨first, further⟩ := chained
      have ends := further.le
      simp only [List.mem_cons, exists_eq_or_imp, ← ih further]
      omega

theorem Chained.partitions (chained : Chained start pieces finish) :
    Partitions start pieces finish := by
  refine ⟨chained, ?_, chained.covers⟩
  induction pieces generalizing start with
  | nil => exact .nil
  | cons piece rest ih =>
      obtain ⟨first, further⟩ := chained
      refine .cons ?_ (ih further)
      intro other member cell here there
      have later := further.start_le other member
      omega

/-- The steps of an increasing sequence follow one another. -/
theorem chained_steps {f : Nat → Nat} (n first : Nat)
    (increasing : ∀ i, first ≤ i → i < first + n → f i ≤ f (i + 1)) :
    Chained (f first) ((List.range' first n).map fun i => (f i, f (i + 1) - f i))
      (f (first + n)) := by
  induction n generalizing first with
  | zero => rfl
  | succ n ih =>
      have step := increasing first le_rfl (by omega)
      have rest := ih (first + 1) fun i low high => increasing i (by omega) (by omega)
      rw [List.range'_succ, List.map_cons]
      refine ⟨rfl, ?_⟩
      rw [Nat.add_sub_cancel' step]
      rwa [show first + 1 + n = first + (n + 1) by omega] at rest

end Chained

end Tiling
