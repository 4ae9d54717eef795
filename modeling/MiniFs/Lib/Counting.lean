import Mathlib.Algebra.BigOperators.Group.Finset.Basic
import Mathlib.Data.Nat.Count
import Mathlib.Order.Interval.Finset.Nat

/-!
# Counting over initial segments

How `Nat.count` changes when the counted predicate changes on an interval, and what it is on a union
of intervals.
-/

namespace Nat

theorem count_congr {p q : Nat → Prop} [DecidablePred p] [DecidablePred q] {n : Nat}
    (same : ∀ k < n, p k ↔ q k) : count p n = count q n :=
  le_antisymm (count_mono_left fun k inside => (same k inside).mp)
    (count_mono_left fun k inside => (same k inside).mpr)

/-- A predicate and its negation count the whole segment. -/
theorem count_add_count_not (p : Nat → Prop) [DecidablePred p] (n : Nat) :
    count p n + count (fun k => ¬ p k) n = n := by
  induction n with
  | zero => rfl
  | succ n ih =>
      rw [count_succ, count_succ]
      by_cases here : p n <;> simp [here] <;> omega

/-- A predicate that fails from `m` on counts nothing from there on. -/
theorem count_eq_of_not {p : Nat → Prop} [DecidablePred p] {m n : Nat} (order : m ≤ n)
    (fails : ∀ k, m ≤ k → k < n → ¬ p k) : count p n = count p m := by
  obtain ⟨rest, rfl⟩ := Nat.exists_eq_add_of_le order
  rw [count_add, Nat.add_eq_left, count_iff_forall_not]
  exact fun k inside => fails _ (by omega) (by omega)

/-- Dropping a whole interval from a predicate lowers its count by the interval's length. -/
theorem count_remove_interval {p q : Nat → Prop} [DecidablePred p] [DecidablePred q]
    {start length n : Nat} (inside : start + length ≤ n)
    (held : ∀ k, start ≤ k → k < start + length → p k)
    (removed : ∀ k < n, q k ↔ p k ∧ ¬ (start ≤ k ∧ k < start + length)) :
    count q n + length = count p n := by
  obtain ⟨rest, rfl⟩ := Nat.exists_eq_add_of_le inside
  rw [count_add q, count_add q, count_add p, count_add p]
  have before : count q start = count p start :=
    count_congr fun k below => by
      rw [removed _ (by omega)]
      exact ⟨fun h => h.1, fun h => ⟨h, by omega⟩⟩
  have middle : count (fun k => q (start + k)) length = 0 := by
    rw [count_iff_forall_not]
    intro k below holds
    exact ((removed _ (by omega)).mp holds).2 ⟨by omega, by omega⟩
  have whole : count (fun k => p (start + k)) length = length := by
    rw [count_iff_forall]
    intro k below
    exact held _ (by omega) (by omega)
  have after : count (fun k => q (start + length + k)) rest =
      count (fun k => p (start + length + k)) rest :=
    count_congr fun k below => by
      rw [removed _ (by omega)]
      exact ⟨fun h => h.1, fun h => ⟨h, by omega⟩⟩
  omega

/-- Two predicates that exclude each other count what their disjunction counts. -/
theorem count_add_count {p q r : Nat → Prop} [DecidablePred p] [DecidablePred q] [DecidablePred r]
    {n : Nat} (either : ∀ k < n, r k ↔ p k ∨ q k) (never : ∀ k < n, p k → ¬ q k) :
    count p n + count q n = count r n := by
  simp only [count_eq_card_filter_range]
  rw [← Finset.card_union_of_disjoint, ← Finset.filter_or]
  · congr 1
    refine Finset.filter_congr fun k below => ?_
    exact (either k (Finset.mem_range.mp below)).symm
  · refine Finset.disjoint_filter.mpr fun k below => ?_
    exact never k (Finset.mem_range.mp below)

/-- Intervals that have no number in common count the sum of their lengths. -/
theorem count_biUnion {ι : Type} [DecidableEq ι] (runs : Finset ι) (start length : ι → Nat)
    {p : Nat → Prop} [DecidablePred p] {n : Nat}
    (exact : ∀ k < n, p k ↔ ∃ run ∈ runs, start run ≤ k ∧ k < start run + length run)
    (inside : ∀ run ∈ runs, ∀ k, start run ≤ k → k < start run + length run → k < n)
    (apart : ∀ run ∈ runs, ∀ other ∈ runs, ∀ k, start run ≤ k → k < start run + length run →
      start other ≤ k → k < start other + length other → run = other) :
    count p n = ∑ run ∈ runs, length run := by
  have union : {k ∈ Finset.range n | p k} =
      runs.biUnion fun run => Finset.Ico (start run) (start run + length run) := by
    ext k
    simp only [Finset.mem_filter, Finset.mem_range, Finset.mem_biUnion, Finset.mem_Ico]
    constructor
    · rintro ⟨below, holds⟩
      exact (exact k below).mp holds
    · rintro ⟨run, member, low, high⟩
      have below := inside run member k low high
      exact ⟨below, (exact k below).mpr ⟨run, member, low, high⟩⟩
  rw [count_eq_card_filter_range, union, Finset.card_biUnion]
  · exact Finset.sum_congr rfl fun run _ => by rw [card_Ico, Nat.add_sub_cancel_left]
  · intro run member other member' different
    refine Finset.disjoint_left.mpr fun k here there => different ?_
    rw [Finset.mem_Ico] at here there
    exact apart run member other member' k here.1 here.2 there.1 there.2

end Nat
