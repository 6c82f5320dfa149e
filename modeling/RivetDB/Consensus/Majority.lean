import Mathlib.Data.Set.Basic
import Mathlib.Tactic.Common

/-!
# Majorities of a list of voters

Two sets that each contain a strict majority of the same list share a member.
The list need not be free of duplicates: members are counted as often as they
are listed.
-/

namespace RivetDB.Consensus

universe u

variable {ν : Type u}

/-- `A` contains more than half of the listed voters. -/
def Majority (voters : List ν) (A : Set ν) : Prop :=
  ∃ f : ν → Bool, (∀ x, f x = true → x ∈ A) ∧ voters.length < 2 * voters.countP f

theorem countP_add_countP_le (f g : ν → Bool) (voters : List ν) :
    voters.countP f + voters.countP g ≤ voters.length + voters.countP fun x => f x && g x := by
  induction voters with
  | nil => simp
  | cons x xs ih =>
    simp only [List.countP_cons, List.length_cons]
    cases hf : f x <;> cases hg : g x <;> simp <;> omega

/-- Counts that exceed the list together have a voter in common. -/
theorem exists_of_length_lt {f g : ν → Bool} {voters : List ν}
    (h : voters.length < voters.countP f + voters.countP g) :
    ∃ x ∈ voters, f x = true ∧ g x = true := by
  have hsum := countP_add_countP_le f g voters
  have hpos : 0 < voters.countP fun x => f x && g x := by omega
  obtain ⟨x, hmem, hx⟩ := List.countP_pos_iff.mp hpos
  exact ⟨x, hmem, (Bool.and_eq_true _ _).mp hx⟩

/-- Two majorities of one list meet. -/
theorem Majority.meet {voters : List ν} {A B : Set ν} (hA : Majority voters A)
    (hB : Majority voters B) : ∃ x, x ∈ A ∧ x ∈ B := by
  obtain ⟨f, hf, hfcount⟩ := hA
  obtain ⟨g, hg, hgcount⟩ := hB
  obtain ⟨x, -, hfx, hgx⟩ := @exists_of_length_lt _ f g voters (by omega)
  exact ⟨x, hf x hfx, hg x hgx⟩

end RivetDB.Consensus
