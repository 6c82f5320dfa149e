import Mathlib.Data.List.SplitBy
import Mathlib.Data.List.Perm.Subperm
import Mathlib.Order.Lattice
import Mathlib.Tactic.Common

/-!
# Runs of equal keys in a sorted list

A list that is sorted by a key falls into runs of equal keys, and there are at most as many
runs as keys.
-/

namespace RivetDB.Order

open List

variable {α β : Type} [LinearOrder β] {f : α → β} {l : List α}

/-- The runs of elements with equal keys. -/
def runs (f : α → β) (l : List α) : List (List α) := l.splitBy fun a b => f a = f b

theorem flatten_runs (f : α → β) (l : List α) : (runs f l).flatten = l := flatten_splitBy _ l

variable {run : List α}

theorem mem_of_mem_runs (h : run ∈ runs f l) {a : α} (ha : a ∈ run) : a ∈ l := by
  rw [← flatten_runs f l]
  exact mem_flatten_of_mem h ha

end RivetDB.Order
