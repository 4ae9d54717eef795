import Mathlib.Logic.Function.Basic
import Mathlib.Data.List.Nodup

/-!
# Lists linked through a store

A chain starts at a head and follows the link stored at each member up to a fixed end mark.  Writes
off the chain leave it alone, and the two stack operations change it at its head only.
-/

namespace MiniFs.Lib

variable {α : Type*}

/-- The members met from `head` to the end mark `stop`, by the links of `store`. -/
def Chain (stop : α) (store : α → α) : α → List α → Prop
  | head, [] => head = stop
  | head, member :: rest => member = head ∧ head ≠ stop ∧ Chain stop store (store head) rest

namespace Chain

variable {stop head : α} {store store' : α → α} {members : List α}

theorem congr (agree : ∀ member ∈ members, store' member = store member)
    (chain : Chain stop store head members) : Chain stop store' head members := by
  induction members generalizing head with
  | nil => exact chain
  | cons member rest ih =>
      obtain ⟨rfl, proper, linked⟩ := chain
      refine ⟨rfl, proper, ?_⟩
      rw [agree member (List.mem_cons_self ..)]
      exact ih (fun other listed => agree other (List.mem_cons_of_mem _ listed)) linked

theorem push [DecidableEq α] {node : α} (chain : Chain stop store head members)
    (proper : node ≠ stop) (fresh : node ∉ members) :
    Chain stop (Function.update store node head) node (node :: members) := by
  refine ⟨rfl, proper, ?_⟩
  rw [Function.update_self]
  refine chain.congr fun member listed => Function.update_of_ne ?_ _ _
  rintro rfl
  exact fresh listed

/-- Every member but the last links to the next one, so a chain that does not start at the end mark
is not empty. -/
theorem pop (chain : Chain stop store head members) (proper : head ≠ stop) :
    ∃ rest, members = head :: rest ∧ Chain stop store (store head) rest := by
  cases members with
  | nil => exact absurd chain proper
  | cons member rest =>
      obtain ⟨rfl, -, linked⟩ := chain
      exact ⟨rest, rfl, linked⟩

theorem head_ne (chain : Chain stop store head members) (nonempty : members ≠ []) :
    head ≠ stop := by
  cases members with
  | nil => exact absurd rfl nonempty
  | cons member rest => exact chain.2.1

end Chain

end MiniFs.Lib
