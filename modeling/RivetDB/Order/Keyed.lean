import Mathlib.Data.List.Nodup

/-!
# Lists keyed by a field

A table whose records carry their own key, kept as a list: the keys are distinct, and a
record is replaced by mapping over the list.
-/

namespace RivetDB.Keyed

open List

variable {α β γ : Type*} [DecidableEq γ] {key : α → γ} {l : List α} {r r' : α}

/-- Put `r'` in the place of the record with its key. -/
def replace (key : α → γ) (r' : α) (l : List α) : List α :=
  l.map fun x => if key x = key r' then r' else x

theorem find?_eq_some_iff (h : (l.map key).Nodup) {k : γ} :
    l.find? (fun x => decide (key x = k)) = some r ↔ r ∈ l ∧ key r = k := by
  constructor
  · intro hfind
    exact ⟨mem_of_find?_eq_some hfind, by simpa using find?_some hfind⟩
  · rintro ⟨hr, rfl⟩
    rcases hfind : l.find? (fun x => decide (key x = key r)) with - | x
    · have := find?_eq_none.mp hfind r hr
      simp at this
    · have hx := mem_of_find?_eq_some hfind
      have hkey : key x = key r := by simpa using find?_some hfind
      rw [inj_on_of_nodup_map h hx hr hkey]

theorem mem_replace_iff (h : (l.map key).Nodup) (hr : r ∈ l) (hkey : key r' = key r) {x : α} :
    x ∈ replace key r' l ↔ x = r' ∨ (x ∈ l ∧ x ≠ r) := by
  simp only [replace, mem_map]
  constructor
  · rintro ⟨y, hy, rfl⟩
    by_cases hyr : key y = key r'
    · exact .inl (if_pos hyr)
    · rw [if_neg hyr]
      exact .inr ⟨hy, fun heq => hyr (by rw [heq, hkey])⟩
  · rintro (rfl | ⟨hx, hne⟩)
    · exact ⟨r, hr, if_pos hkey.symm⟩
    · refine ⟨x, hx, if_neg fun heq => hne ?_⟩
      exact inj_on_of_nodup_map h hx hr (heq.trans hkey)

variable {f : α → β}

/-- A field on which the two records agree does not see the replacement. -/
theorem map_replace (h : (l.map key).Nodup) (hr : r ∈ l) (hkey : key r' = key r)
    (hf : f r' = f r) : (replace key r' l).map f = l.map f := by
  simp only [replace, map_map]
  refine map_congr_left fun x hx => ?_
  by_cases hxr : key x = key r'
  · have hxr' : x = r := inj_on_of_nodup_map h hx hr (hxr.trans hkey)
    simp [hxr', hkey, hf]
  · simp [hxr]

theorem le_map_replace (h : (l.map key).Nodup) (hr : r ∈ l) (hkey : key r' = key r)
    (hf : f r' = f r) : l.map f <+: (replace key r' l).map f := by
  have heq := map_replace h hr hkey hf
  exact heq.symm ▸ prefix_rfl

end RivetDB.Keyed
