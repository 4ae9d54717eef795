import MiniFs.Lib.SortedMap

/-!
# Ordered maps behind a write-ahead log

Batches are applied atomically and in order.  A synced batch makes itself and everything before it
durable; after a crash the map is the durable part with some prefix of the later batches.
-/

/-- A map with the batches that are not durable yet. -/
structure LoggedMap (κ ν : Type) [LinearOrder κ] where
  /-- The map at the last synced batch. -/
  durable : SortedMap κ ν
  /-- Batches since then, oldest first. -/
  unsynced : List (List (κ × ν))

namespace LoggedMap

variable {κ ν : Type} [LinearOrder κ]

/-- The map that readers see. -/
def view (map : LoggedMap κ ν) : SortedMap κ ν := map.durable.insertAll map.unsynced.flatten

/-- Apply a batch. -/
def write (map : LoggedMap κ ν) (sync : Bool) (batch : List (κ × ν)) : LoggedMap κ ν :=
  if sync then ⟨map.view.insertAll batch, []⟩ else ⟨map.durable, map.unsynced ++ [batch]⟩

/-- The maps a crash can leave. -/
def Recoverable (map : LoggedMap κ ν) (recovered : SortedMap κ ν) : Prop :=
  ∃ kept, recovered = map.durable.insertAll (map.unsynced.take kept).flatten

/-- The map after a crash that keeps the first `kept` unsynced batches. -/
def crash (map : LoggedMap κ ν) (kept : Nat) : LoggedMap κ ν :=
  ⟨map.durable.insertAll (map.unsynced.take kept).flatten, []⟩

@[simp] theorem view_write (map : LoggedMap κ ν) (sync : Bool) (batch : List (κ × ν)) :
    (map.write sync batch).view = map.view.insertAll batch := by
  cases sync with
  | true => simp [write, view]
  | false => simp [write, view, SortedMap.insertAll_append]

theorem recoverable_crash (map : LoggedMap κ ν) (kept : Nat) :
    map.Recoverable (map.crash kept).view :=
  ⟨kept, by simp [crash, view]⟩

/-- A batch adds one recoverable map, the new view. -/
theorem Recoverable.of_write {map : LoggedMap κ ν} {sync : Bool} {batch : List (κ × ν)}
    {recovered : SortedMap κ ν} (recoverable : (map.write sync batch).Recoverable recovered) :
    map.Recoverable recovered ∨ recovered = (map.write sync batch).view := by
  obtain ⟨kept, rfl⟩ := recoverable
  cases sync with
  | true => exact .inr (by simp [write, view])
  | false =>
      by_cases short : kept ≤ map.unsynced.length
      · refine .inl ⟨kept, ?_⟩
        simp [write, List.take_append_of_le_length short]
      · refine .inr ?_
        have whole : (map.unsynced ++ [batch]).take kept = map.unsynced ++ [batch] :=
          List.take_of_length_le (by simp; omega)
        simp [write, view, whole]

end LoggedMap
