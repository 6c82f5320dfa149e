import RivetDB.Order.Keyed
import Mathlib.Data.List.Sort
import Mathlib.Tactic.Common

/-!
# Maps that can be enumerated

A Go map whose entries are also walked over: an association list without a repeated key.
What callers may depend on is `get`; `sorted` lists the values by key, and two maps with the
same `get` have the same sorted values.
-/

namespace RivetDB

open List

/-- A finite map. -/
structure Dict (κ ν : Type) where
  entries : List (κ × ν)
  nodup : (entries.map Prod.fst).Nodup

namespace Dict

variable {κ ν : Type} {d d' : Dict κ ν} {k k' : κ} {v : ν}

def empty : Dict κ ν := ⟨[], nodup_nil⟩

instance : EmptyCollection (Dict κ ν) := ⟨empty⟩

def values (d : Dict κ ν) : List ν := d.entries.map Prod.snd

section Sorted

variable {ι : Type} [LinearOrder ι] (rank : ν → ι)

/-- The values by rank. -/
def sorted (d : Dict κ ν) : List ν := d.values.insertionSort fun v w => rank v ≤ rank w

theorem sorted_perm : (d.sorted rank).Perm d.values := perm_insertionSort _ _

end Sorted

/-! ### Lookups -/

variable [DecidableEq κ]

def get (d : Dict κ ν) (k : κ) : Option ν := (d.entries.find? (·.1 = k)).map Prod.snd

def set (d : Dict κ ν) (k : κ) (v : ν) : Dict κ ν where
  entries := (k, v) :: d.entries.filter (·.1 ≠ k)
  nodup := by
    rw [map_cons, nodup_cons]
    refine ⟨fun hmem => ?_, (filter_sublist.map _).nodup d.nodup⟩
    obtain ⟨e, he, heq⟩ := mem_map.mp hmem
    simpa [heq] using (mem_filter.mp he).2

/-- The entries whose key passes a test. -/
def filter (d : Dict κ ν) (p : κ → Bool) : Dict κ ν where
  entries := d.entries.filter (p ·.1)
  nodup := (filter_sublist.map _).nodup d.nodup

/-- The builtin `delete`. -/
def erase (d : Dict κ ν) (k : κ) : Dict κ ν := d.filter (· ≠ k)

/-- The map that holds each value under its key; a later value replaces an earlier one. -/
def ofList (key : ν → κ) (l : List ν) : Dict κ ν := l.foldl (fun d v => d.set (key v) v) ∅

@[simp] theorem get_empty : (∅ : Dict κ ν).get k = none := rfl

theorem mem_entries : (k, v) ∈ d.entries ↔ d.get k = some v := by
  unfold get
  rw [Option.map_eq_some_iff]
  constructor
  · intro hmem
    exact ⟨_, (Keyed.find?_eq_some_iff d.nodup).mpr ⟨hmem, rfl⟩, rfl⟩
  · rintro ⟨e, hfind, rfl⟩
    obtain ⟨hmem, rfl⟩ := (Keyed.find?_eq_some_iff d.nodup).mp hfind
    exact hmem

theorem get_set : (d.set k v).get k' = if k' = k then some v else d.get k' := by
  ext w
  rw [← mem_entries]
  unfold set
  rw [mem_cons, mem_filter, mem_entries, Prod.mk.injEq]
  split_ifs with hk
  · simp [hk, eq_comm]
  · simp [hk]

@[simp] theorem get_set_self : (d.set k v).get k = some v := by
  rw [get_set, if_pos rfl]

theorem get_filter {p : κ → Bool} : (d.filter p).get k = if p k then d.get k else none := by
  ext w
  rw [← mem_entries]
  unfold filter
  rw [mem_filter, mem_entries]
  by_cases hp : p k = true
  · simp [hp]
  · simp [hp]

theorem get_erase : (d.erase k).get k' = if k' = k then none else d.get k' := by
  unfold erase
  rw [get_filter]
  by_cases hk : k' = k
  · simp [hk]
  · simp [hk]

theorem mem_values : v ∈ d.values ↔ ∃ k, d.get k = some v := by
  unfold values
  rw [mem_map]
  constructor
  · rintro ⟨⟨k, v⟩, hmem, rfl⟩
    exact ⟨k, mem_entries.mp hmem⟩
  · rintro ⟨k, hget⟩
    exact ⟨(k, v), mem_entries.mpr hget, rfl⟩

/-- Maps with the same lookups hold the same values. -/
theorem values_perm (h : ∀ k, d.get k = d'.get k) : d.values.Perm d'.values := by
  refine List.Perm.map _ ((perm_ext_iff_of_nodup d.nodup.of_map d'.nodup.of_map).mpr ?_)
  rintro ⟨k, v⟩
  rw [mem_entries, mem_entries, h]

/-- The values of a map to which new keys are added. -/
theorem values_foldl_set {α : Type} {key : α → κ} (value : α → ν) {l : List α}
    (hnodup : (l.map key).Nodup) :
    (l.foldl (fun (d : Dict κ ν) a => d.set (key a) (value a)) ∅).values.Perm (l.map value) := by
  have hfold : ∀ (l : List α) (d : Dict κ ν), (d.entries.map Prod.fst ++ l.map key).Nodup →
      (l.foldl (fun d a => d.set (key a) (value a)) d).values.Perm (d.values ++ l.map value) := by
    intro l
    induction l with
    | nil => exact fun d _ => by simp
    | cons a l ih =>
      intro d hl
      rw [map_cons, nodup_middle, nodup_cons] at hl
      have hfilter : d.entries.filter (·.1 ≠ key a) = d.entries :=
        filter_eq_self.mpr fun e he => by
          simp only [ne_eq, decide_eq_true_eq]
          exact fun heq => hl.1 (mem_append_left _ (heq ▸ mem_map_of_mem he))
      have hset : (d.set (key a) (value a)).entries = (key a, value a) :: d.entries :=
        congrArg _ hfilter
      refine (ih _ ?_).trans ?_
      · rw [hset]
        exact nodup_cons.mpr hl
      · rw [values, hset]
        exact perm_middle.symm
  exact hfold l ∅ hnodup

variable {key : ν → κ} {l : List ν}

/-- What such a map holds comes from the list, whether or not keys are repeated. -/
theorem mem_of_get_ofList (h : (ofList key l).get k = some v) : v ∈ l ∧ key v = k := by
  have hfold : ∀ (l : List ν) (d : Dict κ ν),
      (l.foldl (fun d v => d.set (key v) v) d).get k = some v →
        (v ∈ l ∧ key v = k) ∨ d.get k = some v := by
    intro l
    induction l with
    | nil => exact fun d hget => .inr hget
    | cons w l ih =>
      intro d hget
      rcases ih _ hget with ⟨hv, hk⟩ | hget
      · exact .inl ⟨mem_cons_of_mem _ hv, hk⟩
      rw [get_set] at hget
      split_ifs at hget with hk
      · cases hget
        exact .inl ⟨mem_cons_self, hk.symm⟩
      · exact .inr hget
  exact (hfold l ∅ h).resolve_right (by simp)

/-- When values are stored under their own keys and ranked by them, the sorted values are
determined by the lookups. -/
theorem sorted_eq {ι : Type} [LinearOrder ι] {rank : ν → ι}
    (h : ∀ k, d.get k = d'.get k) (hkey : ∀ k v, d.get k = some v → key v = k)
    (hrank : ∀ v w, rank v = rank w → key v = key w) : d.sorted rank = d'.sorted rank := by
  have hperm : (d.sorted rank).Perm (d'.sorted rank) :=
    (sorted_perm rank).trans ((values_perm h).trans (sorted_perm rank).symm)
  refine hperm.eq_of_pairwise ?_ (pairwise_insertionSort _ _) (pairwise_insertionSort _ _)
  intro v w hv hw hvw hwv
  obtain ⟨k, hk⟩ := mem_values.mp ((sorted_perm rank).subset hv)
  obtain ⟨k', hk'⟩ := mem_values.mp ((values_perm h).symm.subset ((sorted_perm rank).subset hw))
  have hkeys : k = k' := by
    rw [← hkey k v hk, ← hkey k' w hk']
    exact hrank v w (le_antisymm hvw hwv)
  rw [hkeys, hk'] at hk
  exact (Option.some.inj hk).symm

end Dict

end RivetDB
