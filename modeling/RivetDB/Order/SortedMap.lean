import Mathlib.Data.List.Pairwise
import Mathlib.Data.Set.Card
import Mathlib.Order.Lattice

/-!
# Maps as sorted lists

A finite map kept as the list of its bindings in the order of the keys.  `Enumerates` relates the
list to the map, `put` writes one binding.  A test that only fails further up the order cuts a
sorted list in two, so that `takeWhile` and `dropWhile` are filters.
-/

namespace RivetDB.SortedMap

open List

section Cut

variable {α : Type*} {p : α → Bool} {l : List α}

/-- Once the test fails it keeps failing. -/
def Cuts (p : α → Bool) (l : List α) : Prop := l.Pairwise fun a b => p b = true → p a = true

theorem takeWhile_eq_filter (h : Cuts p l) : l.takeWhile p = l.filter p := by
  induction l with
  | nil => rfl
  | cons a rest ih =>
    obtain ⟨ha, hrest⟩ := pairwise_cons.mp h
    by_cases hp : p a = true
    · rw [takeWhile_cons_of_pos hp, filter_cons_of_pos hp, ih hrest]
    · rw [takeWhile_cons_of_neg hp, filter_cons_of_neg hp]
      exact (filter_eq_nil_iff.mpr fun b hb hpb => hp (ha b hb hpb)).symm

theorem dropWhile_eq_filter (h : Cuts p l) : l.dropWhile p = l.filter (!p ·) := by
  induction l with
  | nil => rfl
  | cons a rest ih =>
    obtain ⟨ha, hrest⟩ := pairwise_cons.mp h
    by_cases hp : p a = true
    · rw [dropWhile_cons_of_pos hp, filter_cons_of_neg (by simp [hp]), ih hrest]
    · rw [dropWhile_cons_of_neg hp]
      refine (filter_eq_self.mpr fun b hb => ?_).symm
      rcases mem_cons.mp hb with rfl | hb
      · simpa using hp
      · simpa using fun hpb => hp (ha b hb hpb)

theorem not_of_mem_dropWhile (h : Cuts p l) {a : α} (ha : a ∈ l.dropWhile p) : p a = false := by
  rw [dropWhile_eq_filter h] at ha
  simpa using (mem_filter.mp ha).2

end Cut

variable {κ ν : Type*} [LinearOrder κ] {l : List (κ × ν)} {f : κ → Option ν} {k k' : κ} {v v' : ν}

/-- The bindings are in strictly increasing order of the keys. -/
def Sorted (l : List (κ × ν)) : Prop := l.Pairwise fun a b => a.1 < b.1

/-- The list holds the bindings of the map, each once. -/
structure Enumerates (l : List (κ × ν)) (f : κ → Option ν) : Prop where
  sorted : Sorted l
  mem_iff : ∀ k v, (k, v) ∈ l ↔ f k = some v

/-- Bind `k` to `v`. -/
def put (k : κ) (v : ν) (l : List (κ × ν)) : List (κ × ν) :=
  l.filter (·.1 < k) ++ (k, v) :: l.filter (k < ·.1)

theorem enumerates_nil : Enumerates ([] : List (κ × ν)) fun _ => none where
  sorted := List.Pairwise.nil
  mem_iff k v := by simp

theorem Enumerates.put [DecidableEq κ] (h : Enumerates l f) (k : κ) (v : ν) :
    Enumerates (put k v l) (Function.update f k (some v)) where
  sorted := by
    refine pairwise_append.mpr ⟨h.sorted.filter _, ?_, ?_⟩
    · refine pairwise_cons.mpr ⟨fun b hb => ?_, h.sorted.filter _⟩
      simpa using (mem_filter.mp hb).2
    · intro a ha b hb
      have hak : a.1 < k := by simpa using (mem_filter.mp ha).2
      rcases mem_cons.mp hb with rfl | hb
      · exact hak
      · exact hak.trans (by simpa using (mem_filter.mp hb).2)
  mem_iff k' v' := by
    simp only [SortedMap.put, mem_append, mem_cons, mem_filter, h.mem_iff,
      decide_eq_true_eq, Prod.mk.injEq]
    by_cases hk : k' = k
    · subst hk
      simp [eq_comm]
    · rw [Function.update_of_ne hk]
      constructor
      · rintro (⟨hmem, -⟩ | ⟨heq, -⟩ | ⟨hmem, -⟩)
        · exact hmem
        · exact absurd heq hk
        · exact hmem
      · intro hmem
        rcases lt_or_gt_of_ne hk with hlt | hgt
        · exact .inl ⟨hmem, hlt⟩
        · exact .inr (.inr ⟨hmem, hgt⟩)

/-- The new binding stands between the smaller and the larger keys, in the place of its own. -/
theorem put_eq {low middle high : List (κ × ν)} (hlow : ∀ b ∈ low, b.1 < k)
    (hmiddle : ∀ b ∈ middle, b.1 = k) (hhigh : ∀ b ∈ high, k < b.1) :
    put k v (low ++ (middle ++ high)) = low ++ (k, v) :: high := by
  have hbelow : ∀ b ∈ middle ++ high, ¬ b.1 < k := fun b hb =>
    (mem_append.mp hb).elim (fun hb => (hmiddle b hb).not_lt) fun hb => (hhigh b hb).not_gt
  have habove : ∀ b ∈ low ++ middle, ¬ k < b.1 := fun b hb =>
    (mem_append.mp hb).elim (fun hb => (hlow b hb).not_gt) fun hb => (hmiddle b hb).not_gt
  have hfront : (low ++ (middle ++ high)).filter (·.1 < k) = low := by
    rw [filter_append, filter_eq_self.mpr (by simpa using hlow),
      filter_eq_nil_iff.mpr (by simpa using hbelow), append_nil]
  have hback : (low ++ (middle ++ high)).filter (k < ·.1) = high := by
    rw [← append_assoc, filter_append, filter_eq_nil_iff.mpr (by simpa using habove),
      filter_eq_self.mpr (by simpa using hhigh), nil_append]
  rw [put, hfront, hback]

theorem cuts_lt (h : Sorted l) (k : κ) : Cuts (fun b => decide (b.1 < k)) l :=
  h.imp fun hab hb => by
    simp only [decide_eq_true_eq] at hb ⊢
    exact hab.trans hb

/-- A binding at its place: nothing is in the way below, and what is at the place has its key. -/
theorem Enumerates.head?_dropWhile (h : Enumerates l f) (k : κ) :
    ((l.dropWhile (·.1 < k)).head?.filter (·.1 = k)).map Prod.snd = f k := by
  have hcuts := cuts_lt h.sorted k
  rcases hfound : (l.dropWhile (·.1 < k)) with - | ⟨⟨k₀, v₀⟩, rest⟩
  · rw [hfound]
    -- every key is below `k`
    rcases hf : f k with - | v
    · rfl
    · have hmem := (h.mem_iff k v).mpr hf
      have hdrop : (k, v) ∈ l.dropWhile (·.1 < k) := by
        rw [dropWhile_eq_filter hcuts]
        simp [hmem]
      rw [hfound] at hdrop
      cases hdrop
  · rw [hfound]
    have hsuffix : (k₀, v₀) :: rest <:+ l := hfound ▸ dropWhile_suffix _
    by_cases hk : k₀ = k
    · subst hk
      have hmem : (k₀, v₀) ∈ l := hsuffix.subset mem_cons_self
      simp only [head?_cons, Option.filter, decide_true, if_true, Option.map_some]
      exact ((h.mem_iff k₀ v₀).mp hmem).symm
    · rcases hf : f k with - | v
      · simp [hk]
      · have hmem := (h.mem_iff k v).mpr hf
        have hdrop : (k, v) ∈ (k₀, v₀) :: rest := by
          rw [← hfound, dropWhile_eq_filter hcuts]
          simp [hmem]
        -- the binding of `k` would stand behind a larger key
        have hge : ¬ k₀ < k := by
          have := not_of_mem_dropWhile hcuts (hfound ▸ mem_cons_self : (k₀, v₀) ∈ _)
          simpa using this
        rcases mem_cons.mp hdrop with heq | hrest
        · exact absurd (congrArg Prod.fst heq).symm hk
        · have hsorted : Sorted ((k₀, v₀) :: rest) := h.sorted.sublist hsuffix.sublist
          exact absurd ((pairwise_cons.mp hsorted).1 _ hrest) hge

/-- The list is as long as the map is large. -/
theorem Enumerates.ncard_eq (h : Enumerates l f) : {k | (f k).isSome}.ncard = l.length := by
  have hnodup : (l.map Prod.fst).Nodup :=
    pairwise_map.mpr (h.sorted.imp fun hab => ne_of_lt hab)
  have hset : {k | (f k).isSome} = ((l.map Prod.fst).toFinset : Set κ) := by
    ext k
    simp only [Set.mem_ofPred_eq, Option.isSome_iff_exists, ← h.mem_iff, coe_toFinset,
      mem_map, Prod.exists, exists_and_right, exists_eq_right]
  rw [hset, Set.ncard_coe_finset, toFinset_card_of_nodup hnodup, length_map]

end RivetDB.SortedMap
