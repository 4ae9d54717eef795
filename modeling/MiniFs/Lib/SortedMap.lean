import Mathlib.Order.Lattice
import Mathlib.Data.List.Pairwise
import Mathlib.Data.List.TakeWhile

/-!
# Ordered maps with cursors

A finite map as a strictly increasing association list.  A cursor is the part of the list from its
position on; `seek` and `seekForPrev` place it at the first key from a bound on, and at the last
key up to it.
-/

/-- A finite map whose entries are listed in strictly increasing key order. -/
structure SortedMap (κ ν : Type) [LinearOrder κ] where
  /-- The entries, smallest key first. -/
  entries : List (κ × ν)
  /-- Keys strictly increase. -/
  sorted : entries.Pairwise fun a b => a.1 < b.1

namespace SortedMap

variable {κ ν : Type} [LinearOrder κ]

/-- The map without entries. -/
def empty : SortedMap κ ν := ⟨[], .nil⟩

/-- Look a key up. -/
def get (map : SortedMap κ ν) (key : κ) : Option ν :=
  (map.entries.find? fun entry => entry.1 = key).map Prod.snd

/-- Insert or replace in an increasing list. -/
def insertEntry (key : κ) (value : ν) : List (κ × ν) → List (κ × ν)
  | [] => [(key, value)]
  | entry :: rest =>
      if key < entry.1 then (key, value) :: entry :: rest
      else if key = entry.1 then (key, value) :: rest
      else entry :: insertEntry key value rest

theorem mem_insertEntry {key : κ} {value : ν} {list : List (κ × ν)}
    (sorted : list.Pairwise fun a b => a.1 < b.1) {entry : κ × ν} :
    entry ∈ insertEntry key value list ↔
      entry = (key, value) ∨ entry ∈ list ∧ entry.1 ≠ key := by
  induction list with
  | nil => simp [insertEntry]
  | cons head rest ih =>
      obtain ⟨headLess, restSorted⟩ := List.pairwise_cons.mp sorted
      simp only [insertEntry]
      split_ifs with below same
      · have above : ∀ other ∈ head :: rest, other.1 ≠ key := by
          intro other member
          rcases List.mem_cons.mp member with rfl | member
          · exact below.ne'
          · exact (below.trans (headLess other member)).ne'
        simp only [List.mem_cons] at above ⊢
        constructor
        · rintro (rfl | member)
          · exact .inl rfl
          · exact .inr ⟨member, above entry member⟩
        · rintro (rfl | ⟨member, _⟩)
          · exact .inl rfl
          · exact .inr member
      · have above : ∀ other ∈ rest, other.1 ≠ key :=
          fun other member => same ▸ (headLess other member).ne'
        simp only [List.mem_cons]
        constructor
        · rintro (rfl | member)
          · exact .inl rfl
          · exact .inr ⟨.inr member, above entry member⟩
        · rintro (rfl | ⟨rfl | member, distinct⟩)
          · exact .inl rfl
          · exact absurd same.symm distinct
          · exact .inr member
      · simp only [List.mem_cons, ih restSorted]
        constructor
        · rintro (rfl | rfl | ⟨member, distinct⟩)
          · exact .inr ⟨.inl rfl, fun equal => same equal.symm⟩
          · exact .inl rfl
          · exact .inr ⟨.inr member, distinct⟩
        · rintro (rfl | ⟨rfl | member, distinct⟩)
          · exact .inr (.inl rfl)
          · exact .inl rfl
          · exact .inr (.inr ⟨member, distinct⟩)

theorem sorted_insertEntry {key : κ} {value : ν} {list : List (κ × ν)}
    (sorted : list.Pairwise fun a b => a.1 < b.1) :
    (insertEntry key value list).Pairwise fun a b => a.1 < b.1 := by
  induction list with
  | nil => simp [insertEntry]
  | cons head rest ih =>
      obtain ⟨headLess, restSorted⟩ := List.pairwise_cons.mp sorted
      simp only [insertEntry]
      split_ifs with below same
      · refine List.pairwise_cons.mpr ⟨?_, sorted⟩
        intro other member
        rcases List.mem_cons.mp member with rfl | member
        · exact below
        · exact below.trans (headLess other member)
      · exact List.pairwise_cons.mpr ⟨fun other member => same ▸ headLess other member, restSorted⟩
      · refine List.pairwise_cons.mpr ⟨?_, ih restSorted⟩
        intro other member
        rcases (mem_insertEntry restSorted).mp member with rfl | ⟨member, _⟩
        · exact lt_of_le_of_ne (not_lt.mp below) (Ne.symm same)
        · exact headLess other member

/-- Insert or replace one entry. -/
def insert (map : SortedMap κ ν) (key : κ) (value : ν) : SortedMap κ ν :=
  ⟨insertEntry key value map.entries, sorted_insertEntry map.sorted⟩

/-- Insert entries in order: later ones win. -/
def insertAll (map : SortedMap κ ν) (batch : List (κ × ν)) : SortedMap κ ν :=
  batch.foldl (fun current entry => current.insert entry.1 entry.2) map

theorem get_eq_some_iff {map : SortedMap κ ν} {key : κ} {value : ν} :
    map.get key = some value ↔ (key, value) ∈ map.entries := by
  obtain ⟨list, sorted⟩ := map
  simp only [get]
  induction list with
  | nil => simp
  | cons head rest ih =>
      obtain ⟨headLess, restSorted⟩ := List.pairwise_cons.mp sorted
      by_cases here : head.1 = key
      · simp only [List.find?_cons, here, decide_true, Option.map_some, Option.some.injEq,
          List.mem_cons]
        constructor
        · rintro rfl
          exact .inl (Prod.ext here.symm rfl)
        · rintro (rfl | member)
          · rfl
          · exact absurd (headLess _ member) (by simp [here])
      · simp only [List.find?_cons, here, decide_false, List.mem_cons]
        rw [ih restSorted]
        constructor
        · exact .inr
        · rintro (rfl | member)
          · exact absurd rfl here
          · exact member

@[simp] theorem get_empty (key : κ) : (empty : SortedMap κ ν).get key = none := rfl

theorem get_insert (map : SortedMap κ ν) (key other : κ) (value : ν) :
    (map.insert key value).get other = if other = key then some value else map.get other := by
  apply Option.ext
  intro found
  rw [get_eq_some_iff]
  simp only [insert, mem_insertEntry map.sorted, Prod.mk.injEq]
  split_ifs with same
  · simp [same, eq_comm]
  · simp [same, get_eq_some_iff]

theorem get_insert_self (map : SortedMap κ ν) (key : κ) (value : ν) :
    (map.insert key value).get key = some value := by
  simp [get_insert]

theorem get_insert_of_ne (map : SortedMap κ ν) {key other : κ} (value : ν)
    (distinct : other ≠ key) :
    (map.insert key value).get other = map.get other := by
  simp [get_insert, distinct]

@[simp] theorem insertAll_nil (map : SortedMap κ ν) : map.insertAll [] = map := rfl

@[simp] theorem insertAll_cons (map : SortedMap κ ν) (entry : κ × ν) (batch : List (κ × ν)) :
    map.insertAll (entry :: batch) = (map.insert entry.1 entry.2).insertAll batch := rfl

theorem insertAll_append (map : SortedMap κ ν) (first second : List (κ × ν)) :
    map.insertAll (first ++ second) = (map.insertAll first).insertAll second := by
  simp [insertAll]

/-- A batch leaves the keys it does not mention alone. -/
theorem get_insertAll_of_not_mem {map : SortedMap κ ν} {batch : List (κ × ν)} {key : κ}
    (untouched : ∀ entry ∈ batch, entry.1 ≠ key) :
    (map.insertAll batch).get key = map.get key := by
  induction batch generalizing map with
  | nil => rfl
  | cons entry batch ih =>
      rw [insertAll_cons, ih fun other member => untouched other (.tail _ member),
        get_insert_of_ne _ _ (untouched entry (.head _)).symm]

/-- A key that a batch maps to one value has that value after it. -/
theorem get_insertAll_of_mem {map : SortedMap κ ν} {batch : List (κ × ν)} {key : κ} {value : ν}
    (put : (key, value) ∈ batch) (only : ∀ entry ∈ batch, entry.1 = key → entry.2 = value) :
    (map.insertAll batch).get key = some value := by
  induction batch generalizing map with
  | nil => simp at put
  | cons entry batch ih =>
      rw [insertAll_cons]
      by_cases again : (key, value) ∈ batch
      · exact ih again fun other member => only other (.tail _ member)
      · have untouched : ∀ other ∈ batch, other.1 ≠ key := by
          intro other member here
          have same := only other (.tail _ member) here
          exact again (by rwa [← here, ← same])
        have here : entry = (key, value) := by
          rcases List.mem_cons.mp put with same | member
          · exact same.symm
          · exact absurd member again
        rw [get_insertAll_of_not_mem untouched, here, get_insert_self]

/-- An entry after a batch was there before or was put by it. -/
theorem mem_insertAll {map : SortedMap κ ν} {batch : List (κ × ν)} {entry : κ × ν}
    (member : entry ∈ (map.insertAll batch).entries) : entry ∈ map.entries ∨ entry ∈ batch := by
  induction batch generalizing map with
  | nil => exact .inl member
  | cons head batch ih =>
      rw [insertAll_cons] at member
      rcases ih member with old | new
      · rcases (mem_insertEntry map.sorted).mp old with rfl | ⟨kept, _⟩
        · exact .inr (.head _)
        · exact .inl kept
      · exact .inr (.tail _ new)

/-- The cursor at the first entry whose key is at least `bound`. -/
def seek (map : SortedMap κ ν) (bound : κ) : List (κ × ν) :=
  map.entries.dropWhile fun entry => entry.1 < bound

/-- The cursor at the last entry whose key is at most `bound`; empty if there is none. -/
def seekForPrev (map : SortedMap κ ν) (bound : κ) : List (κ × ν) :=
  match (map.entries.takeWhile fun entry => entry.1 ≤ bound).getLast? with
  | none => []
  | some entry => entry :: map.entries.dropWhile fun entry => entry.1 ≤ bound

theorem dropWhile_lt_eq_filter {list : List (κ × ν)} (sorted : list.Pairwise fun a b => a.1 < b.1)
    (bound : κ) :
    (list.dropWhile fun entry => entry.1 < bound) = list.filter fun entry => bound ≤ entry.1 := by
  induction list with
  | nil => rfl
  | cons head rest ih =>
      obtain ⟨headLess, restSorted⟩ := List.pairwise_cons.mp sorted
      by_cases below : head.1 < bound
      · simp [below, not_le.mpr below, ih restSorted]
      · have all : ∀ entry ∈ rest, bound ≤ entry.1 :=
          fun entry member => (not_lt.mp below).trans (headLess entry member).le
        have kept : rest.filter (fun entry => bound ≤ entry.1) = rest :=
          List.filter_eq_self.mpr fun entry member => by simpa using all entry member
        simp [below, not_lt.mp below, kept]

theorem dropWhile_le_eq_filter {list : List (κ × ν)} (sorted : list.Pairwise fun a b => a.1 < b.1)
    (bound : κ) :
    (list.dropWhile fun entry => entry.1 ≤ bound) = list.filter fun entry => bound < entry.1 := by
  induction list with
  | nil => rfl
  | cons head rest ih =>
      obtain ⟨headLess, restSorted⟩ := List.pairwise_cons.mp sorted
      by_cases below : head.1 ≤ bound
      · simp [below, not_lt.mpr below, ih restSorted]
      · have all : ∀ entry ∈ rest, bound < entry.1 :=
          fun entry member => (not_le.mp below).trans (headLess entry member)
        have kept : rest.filter (fun entry => bound < entry.1) = rest :=
          List.filter_eq_self.mpr fun entry member => by simpa using all entry member
        simp [below, not_le.mp below, kept]

theorem takeWhile_le_eq_filter {list : List (κ × ν)} (sorted : list.Pairwise fun a b => a.1 < b.1)
    (bound : κ) :
    (list.takeWhile fun entry => entry.1 ≤ bound) = list.filter fun entry => entry.1 ≤ bound := by
  induction list with
  | nil => rfl
  | cons head rest ih =>
      obtain ⟨headLess, restSorted⟩ := List.pairwise_cons.mp sorted
      by_cases below : head.1 ≤ bound
      · simp [below, ih restSorted]
      · have none : rest.filter (fun entry => entry.1 ≤ bound) = [] := by
          rw [List.filter_eq_nil_iff]
          intro entry member
          simpa using (not_le.mp below).trans (headLess entry member)
        simp [below, none]

theorem seek_eq_filter (map : SortedMap κ ν) (bound : κ) :
    map.seek bound = map.entries.filter fun entry => bound ≤ entry.1 :=
  dropWhile_lt_eq_filter map.sorted bound

/-- Without entries between a bound and a key, the key's entry comes first after the bound. -/
theorem filter_eq_cons {list : List (κ × ν)} (sorted : list.Pairwise fun a b => a.1 < b.1)
    {bound key : κ} {value : ν} (member : (key, value) ∈ list) (above : bound < key)
    (gap : ∀ entry ∈ list, entry.1 ≤ bound ∨ key ≤ entry.1) :
    (list.filter fun entry => bound < entry.1) =
      (key, value) :: list.filter fun entry => key < entry.1 := by
  induction list with
  | nil => simp at member
  | cons head rest ih =>
      obtain ⟨headLess, restSorted⟩ := List.pairwise_cons.mp sorted
      rcases List.mem_cons.mp member with rfl | later
      · have all : ∀ entry ∈ rest, bound < entry.1 :=
          fun entry listed => above.trans (headLess entry listed)
        have kept : rest.filter (fun entry => bound < entry.1) = rest :=
          List.filter_eq_self.mpr fun entry listed => by simpa using all entry listed
        have kept' : rest.filter (fun entry => key < entry.1) = rest :=
          List.filter_eq_self.mpr fun entry listed => by simpa using headLess entry listed
        simp [above, kept, kept']
      · have below : head.1 < key := headLess _ later
        have out : head.1 ≤ bound := (gap head (.head _)).resolve_right (not_le.mpr below)
        rw [List.filter_cons_of_neg (by simpa using out),
          List.filter_cons_of_neg (by simpa using below.le)]
        exact ih restSorted later fun entry listed => gap entry (.tail _ listed)

/-- The entries with larger keys. -/
def after (map : SortedMap κ ν) (key : κ) : List (κ × ν) :=
  map.entries.filter fun entry => key < entry.1

theorem mem_after {map : SortedMap κ ν} {key : κ} {entry : κ × ν} :
    entry ∈ map.after key ↔ entry ∈ map.entries ∧ key < entry.1 := by
  simp [after]

theorem after_eq_cons {map : SortedMap κ ν} {bound key : κ} {value : ν}
    (member : (key, value) ∈ map.entries) (above : bound < key)
    (gap : ∀ entry ∈ map.entries, entry.1 ≤ bound ∨ key ≤ entry.1) :
    map.after bound = (key, value) :: map.after key :=
  filter_eq_cons map.sorted member above gap

/-- Without entries above a key up to a bound, the cursor at the bound is at the key. -/
theorem seekForPrev_eq_cons {map : SortedMap κ ν} {bound key : κ} {value : ν}
    (member : (key, value) ∈ map.entries) (below : key ≤ bound)
    (gap : ∀ entry ∈ map.entries, entry.1 ≤ key ∨ bound < entry.1) :
    map.seekForPrev bound = (key, value) :: map.after key := by
  have last : ∀ {list : List (κ × ν)}, (list.Pairwise fun a b => a.1 < b.1) →
      (key, value) ∈ list → (∀ entry ∈ list, entry.1 ≤ key) →
        list.getLast? = some (key, value) := by
    intro list sorted here most
    obtain ⟨front, rfl⟩ : ∃ front, list = front ++ [(key, value)] := by
      obtain ⟨front, back, rfl⟩ := List.append_of_mem here
      cases back with
      | nil => exact ⟨front, rfl⟩
      | cons next back =>
          have order := (List.pairwise_append.mp sorted).2.1
          have more := (List.pairwise_cons.mp order).1 next (.head _)
          exact absurd (most next (by simp)) (not_le.mpr more)
    simp
  have same : ∀ entry ∈ map.entries, (bound < entry.1 ↔ key < entry.1) := by
    intro entry listed
    refine ⟨below.trans_lt, fun above => ?_⟩
    exact (gap entry listed).resolve_left (not_le.mpr above)
  rw [seekForPrev, takeWhile_le_eq_filter map.sorted, dropWhile_le_eq_filter map.sorted,
    last (map.sorted.filter _) (List.mem_filter.mpr ⟨member, by simpa using below⟩)]
  · simp only [List.cons.injEq, true_and, after]
    exact List.filter_congr fun entry listed => by simp [same entry listed]
  · intro entry listed
    obtain ⟨listed, inside⟩ := List.mem_filter.mp listed
    exact (gap entry listed).resolve_right (not_lt.mpr (by simpa using inside))

/-- The cursor of `seekForPrev` is at the last key up to the bound, or nowhere. -/
theorem seekForPrev_cases (map : SortedMap κ ν) (bound : κ) :
    map.seekForPrev bound = [] ∧ (∀ entry ∈ map.entries, bound < entry.1) ∨
      ∃ entry ∈ map.entries, map.seekForPrev bound = entry :: map.after entry.1 ∧
        entry.1 ≤ bound ∧ ∀ other ∈ map.entries, other.1 ≤ entry.1 ∨ bound < other.1 := by
  cases last : (map.entries.filter fun entry => entry.1 ≤ bound).getLast? with
  | none =>
      left
      refine ⟨by rw [seekForPrev, takeWhile_le_eq_filter map.sorted, last], fun entry member => ?_⟩
      have nothing := List.getLast?_eq_none_iff.mp last
      rw [List.filter_eq_nil_iff] at nothing
      simpa using nothing entry member
  | some entry =>
      right
      obtain ⟨front, whole⟩ := List.getLast?_eq_some_iff.mp last
      obtain ⟨listed, inside⟩ : entry ∈ map.entries ∧ decide (entry.1 ≤ bound) = true := by
        rw [← List.mem_filter (p := fun entry : κ × ν => decide (entry.1 ≤ bound)), whole]
        simp
      have below : entry.1 ≤ bound := of_decide_eq_true inside
      have gap : ∀ other ∈ map.entries, other.1 ≤ entry.1 ∨ bound < other.1 := by
        intro other member
        rcases le_or_gt other.1 bound with low | high
        · left
          have kept : other ∈ front ++ [entry] := by
            rw [← whole]
            exact List.mem_filter.mpr ⟨member, decide_eq_true low⟩
          have order := map.sorted.filter fun entry => decide (entry.1 ≤ bound)
          rw [whole, List.pairwise_append] at order
          rcases List.mem_append.mp kept with earlier | here
          · exact (order.2.2 other earlier entry (.head _)).le
          · rw [List.mem_singleton.mp here]
        · exact .inr high
      exact ⟨entry, listed, seekForPrev_eq_cons listed below gap, below, gap⟩

/-- The entries around one of them. -/
theorem entries_split {map : SortedMap κ ν} {entry : κ × ν} (member : entry ∈ map.entries) :
    ∃ before, map.entries = before ++ entry :: map.after entry.1 ∧
      ∀ other ∈ before, other.1 < entry.1 := by
  obtain ⟨before, rest, whole⟩ := List.append_of_mem member
  have order := map.sorted
  rw [whole, List.pairwise_append, List.pairwise_cons] at order
  obtain ⟨-, ⟨later, -⟩, across⟩ := order
  have earlier : ∀ other ∈ before, other.1 < entry.1 := fun other listed =>
    across other listed entry (.head _)
  refine ⟨before, ?_, earlier⟩
  have nothing : before.filter (fun other => entry.1 < other.1) = [] := by
    rw [List.filter_eq_nil_iff]
    intro other listed
    simpa using (earlier other listed).le
  have everything : rest.filter (fun other => entry.1 < other.1) = rest :=
    List.filter_eq_self.mpr fun other listed => by simpa using later other listed
  rw [after, whole, List.filter_append, nothing, List.filter_cons_of_neg (by simp), everything,
    List.nil_append]

/-- The entries before and from a bound on. -/
theorem entries_eq_append_seek (map : SortedMap κ ν) (bound : κ) :
    ∃ before, map.entries = before ++ map.seek bound ∧ ∀ other ∈ before, other.1 < bound :=
  ⟨_, List.takeWhile_append_dropWhile.symm, fun _ member => by
    simpa using List.mem_takeWhile_imp member⟩

end SortedMap
