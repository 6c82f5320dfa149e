import Mathlib.Data.List.Flatten
import Mathlib.Data.List.Perm.Basic
import Mathlib.Order.Defs.Unbundled
import Mathlib.Tactic.Common

/-!
# Merging sorted inputs

A merge over several sorted inputs keeps one cursor for each of them and emits the
least head, again and again.  The order is any total preorder, so the inputs may
hold equal elements; the merge keeps all of them.
-/

namespace RivetDB.Merge

open List

variable {α : Type*} (le : α → α → Prop) [DecidableRel le]

/-- Take the least head.  Exhausted inputs are dropped on the way. -/
def pop : List (List α) → Option (α × List (List α))
  | [] => none
  | [] :: rest => pop rest
  | (x :: xs) :: rest =>
    match pop rest with
    | none => some (x, [xs])
    | some (a, rest') =>
      if le x a then some (x, xs :: rest) else some (a, (x :: xs) :: rest')

/-- Emit at most `fuel` elements. -/
def emit : ℕ → List (List α) → List α
  | 0, _ => []
  | fuel + 1, inputs =>
    match pop le inputs with
    | none => []
    | some (a, rest) => a :: emit fuel rest

/-- The merge of all inputs. -/
def merge (inputs : List (List α)) : List α := emit le inputs.flatten.length inputs

variable {le} {inputs rest : List (List α)} {a : α}

theorem pop_eq_none (h : pop le inputs = none) : inputs.flatten = [] := by
  induction inputs with
  | nil => rfl
  | cons input others ih =>
    cases input with
    | nil => simpa using ih h
    | cons x xs =>
      rw [pop] at h
      split at h
      · cases h
      · split at h <;> cases h

/-- The least head and what it leaves are the whole input. -/
theorem pop_perm (h : pop le inputs = some (a, rest)) :
    inputs.flatten.Perm (a :: rest.flatten) := by
  induction inputs generalizing a rest with
  | nil => cases h
  | cons input others ih =>
    cases input with
    | nil => simpa using ih h
    | cons x xs =>
      rw [pop] at h
      split at h
      · rename_i hnone
        cases h
        simp [pop_eq_none hnone]
      · rename_i b others' hsome
        split at h
        · cases h
          simp
        · cases h
          have hperm := ih hsome
          exact (hperm.append_left (x :: xs)).trans perm_middle

section Order

variable [Std.Total le] [IsTrans α le]

/-- The least head lies below everything else, and the inputs stay sorted. -/
theorem pop_least (hsorted : ∀ l ∈ inputs, l.Pairwise le) (h : pop le inputs = some (a, rest)) :
    (∀ b ∈ rest.flatten, le a b) ∧ ∀ l ∈ rest, l.Pairwise le := by
  induction inputs generalizing a rest with
  | nil => cases h
  | cons input others ih =>
    have hothers : ∀ l ∈ others, l.Pairwise le := fun l hl =>
      hsorted l (mem_cons_of_mem _ hl)
    cases input with
    | nil => exact ih hothers h
    | cons x xs =>
      have hinput : (x :: xs).Pairwise le := hsorted _ mem_cons_self
      obtain ⟨hhead, htail⟩ := pairwise_cons.mp hinput
      rw [pop] at h
      split at h
      · cases h
        simpa using ⟨hhead, htail⟩
      · rename_i b others' hsome
        obtain ⟨hleast, hrest⟩ := ih hothers hsome
        split at h
        · rename_i hle
          cases h
          refine ⟨fun c hc => ?_, ?_⟩
          · rw [flatten_cons, mem_append] at hc
            rcases hc with hc | hc
            · exact hhead c hc
            -- everything in the other inputs lies above their least head
            · rcases mem_cons.mp ((pop_perm hsome).subset hc) with rfl | hc
              · exact hle
              · exact Trans.trans hle (hleast c hc)
          · intro l hl
            rcases mem_cons.mp hl with rfl | hl
            · exact htail
            · exact hothers l hl
        · rename_i hle
          have hlt : le b x := (Std.Total.total b x).resolve_right hle
          cases h
          refine ⟨fun c hc => ?_, ?_⟩
          · rw [flatten_cons, mem_append] at hc
            rcases hc with hc | hc
            · rcases mem_cons.mp hc with rfl | hc
              · exact hlt
              · exact Trans.trans hlt (hhead c hc)
            · exact hleast c hc
          · intro l hl
            rcases mem_cons.mp hl with rfl | hl
            · exact hinput
            · exact hrest l hl

end Order

variable {fuel : ℕ}

theorem emit_perm (hfuel : inputs.flatten.length ≤ fuel) :
    (emit le fuel inputs).Perm inputs.flatten := by
  induction fuel generalizing inputs with
  | zero =>
    rw [eq_nil_of_length_eq_zero (Nat.le_zero.mp hfuel)]
    exact List.Perm.refl _
  | succ fuel ih =>
    rw [emit]
    split
    · rename_i hnone
      rw [pop_eq_none hnone]
    · rename_i a rest hsome
      have hperm := pop_perm hsome
      have hlength : rest.flatten.length ≤ fuel := by
        have := hperm.length_eq
        simp only [length_cons] at this
        omega
      exact ((ih hlength).cons a).trans hperm.symm

/-- A merge loses nothing and adds nothing. -/
theorem merge_perm (inputs : List (List α)) : (merge le inputs).Perm inputs.flatten :=
  emit_perm (Nat.le_refl _)

variable [Std.Total le] [IsTrans α le]

theorem emit_pairwise (hfuel : inputs.flatten.length ≤ fuel)
    (hsorted : ∀ l ∈ inputs, l.Pairwise le) : (emit le fuel inputs).Pairwise le := by
  induction fuel generalizing inputs with
  | zero => exact List.Pairwise.nil
  | succ fuel ih =>
    rw [emit]
    split
    · exact List.Pairwise.nil
    · rename_i a rest hsome
      obtain ⟨hleast, hrest⟩ := pop_least hsorted hsome
      have hlength : rest.flatten.length ≤ fuel := by
        have := (pop_perm hsome).length_eq
        simp only [length_cons] at this
        omega
      refine pairwise_cons.mpr ⟨fun b hb => ?_, ih hlength hrest⟩
      exact hleast b ((emit_perm hlength).subset hb)

/-- The merge of sorted inputs is sorted. -/
theorem merge_pairwise (hsorted : ∀ l ∈ inputs, l.Pairwise le) : (merge le inputs).Pairwise le :=
  emit_pairwise (Nat.le_refl _) hsorted

end RivetDB.Merge
