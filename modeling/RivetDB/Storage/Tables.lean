import RivetDB.Storage.Reads
import Mathlib.Data.List.TakeWhile

/-!
# Sorted tables

A MemTable and an SSTable both hold entries in strictly increasing internal-key
order: user key ascending, sequence descending, kind ascending.  `Run` is such a
sequence; a point read seeks in it, a scan takes the part between two bounds.

A MemTable inserts, an SSTable is written once.  An SSTable also carries what the
manifest records about it and a Bloom filter over its user keys, and neither hides
an entry: the user-key bounds are those of the entries, and the filter has no false
negatives.
-/

namespace RivetDB.Storage

open List
open scoped ByteOrder

/-! ### The order of internal keys -/

namespace Version

/-- `CompareInternal(v, w) < 0`. -/
def precedes (v w : Version) : Prop := v.key < w.key ∨ v.key = w.key ∧ v.before w = true

instance : DecidableRel precedes := fun _ _ =>
  inferInstanceAs (Decidable (_ ∨ _))

variable {u v w : Version}

theorem precedes_trans (h : u.precedes v) (h' : v.precedes w) : u.precedes w := by
  rcases h with hlt | ⟨heq, hbefore⟩
  · rcases h' with hlt' | ⟨heq', -⟩
    · exact .inl (hlt.trans hlt')
    · exact .inl (heq' ▸ hlt)
  · rcases h' with hlt' | ⟨heq', hbefore'⟩
    · exact .inl (heq ▸ hlt')
    · exact .inr ⟨heq.trans heq', before_trans hbefore hbefore'⟩

theorem not_precedes_self (v : Version) : ¬ v.precedes v := by
  rintro (hlt | ⟨-, hbefore⟩)
  · exact lt_irrefl _ hlt
  · simp [not_before_self] at hbefore

theorem precedes_total (h : v.internal ≠ w.internal) : v.precedes w ∨ w.precedes v := by
  rcases lt_trichotomy v.key w.key with hlt | heq | hgt
  · exact .inl (.inl hlt)
  · rcases before_total heq h with hbefore | hbefore
    · exact .inl (.inr ⟨heq, hbefore⟩)
    · exact .inr (.inr ⟨heq.symm, hbefore⟩)
  · exact .inr (.inl hgt)

theorem precedes_asymm (h : v.precedes w) : ¬ w.precedes v := fun h' =>
  not_precedes_self v (precedes_trans h h')

/-- The order looks at internal keys only. -/
theorem precedes_congr {v' w' : Version} (hv : v.internal = v'.internal)
    (hw : w.internal = w'.internal) : v.precedes w ↔ v'.precedes w' := by
  simp only [internal, Prod.mk.injEq] at hv hw
  simp only [precedes, before, hv, hw]

theorem internal_ne_of_precedes (h : v.precedes w) : v.internal ≠ w.internal := fun heq =>
  not_precedes_self v ((precedes_congr rfl heq).mpr h)

theorem key_le_of_precedes (h : v.precedes w) : v.key ≤ w.key := by
  rcases h with hlt | ⟨heq, -⟩
  · exact hlt.le
  · exact heq.le

end Version

/-! ### Cutting a sorted list -/

section Cut

variable {α : Type*} {p : α → Bool} {l : List α} {a : α}

/-- When `p` passes from an element to the ones in front of it, `takeWhile` filters. -/
theorem mem_takeWhile_iff (h : l.Pairwise fun x y => p y = true → p x = true) :
    a ∈ l.takeWhile p ↔ a ∈ l ∧ p a = true := by
  induction l with
  | nil => simp
  | cons x rest ih =>
    obtain ⟨hhead, hrest⟩ := pairwise_cons.mp h
    by_cases hx : p x = true
    · rw [takeWhile_cons_of_pos hx, mem_cons, ih hrest, mem_cons]
      constructor
      · rintro (rfl | ⟨ha, hpa⟩)
        · exact ⟨.inl rfl, hx⟩
        · exact ⟨.inr ha, hpa⟩
      · rintro ⟨rfl | ha, hpa⟩
        · exact .inl rfl
        · exact .inr ⟨ha, hpa⟩
    · rw [takeWhile_cons_of_neg hx]
      refine iff_of_false not_mem_nil ?_
      rintro ⟨ha, hpa⟩
      rcases mem_cons.mp ha with rfl | ha
      · exact hx hpa
      · exact hx (hhead a ha hpa)

theorem mem_dropWhile_iff (h : l.Pairwise fun x y => p y = true → p x = true) :
    a ∈ l.dropWhile p ↔ a ∈ l ∧ ¬ p a = true := by
  induction l with
  | nil => simp
  | cons x rest ih =>
    obtain ⟨hhead, hrest⟩ := pairwise_cons.mp h
    by_cases hx : p x = true
    · rw [dropWhile_cons_of_pos hx, ih hrest, mem_cons]
      refine and_congr_left fun hpa => ⟨.inr, fun ha => ha.resolve_left ?_⟩
      rintro rfl
      exact hpa hx
    · rw [dropWhile_cons_of_neg hx]
      refine ⟨fun ha => ⟨ha, fun hpa => ?_⟩, And.left⟩
      rcases mem_cons.mp ha with rfl | ha
      · exact hx hpa
      · exact hx (hhead a ha hpa)

end Cut

/-! ### Sorted entries -/

/-- Entries in strictly increasing internal-key order. -/
structure Run where
  entries : List Version
  sorted : entries.Pairwise Version.precedes

/-- `insertLocked`: an equal internal key has its value replaced. -/
def insertSorted (v : Version) : List Version → List Version
  | [] => [v]
  | w :: rest =>
    if v.internal = w.internal then v :: rest
    else if v.precedes w then v :: w :: rest
    else w :: insertSorted v rest

variable {v w : Version} {entries : List Version}

theorem mem_insertSorted (hsorted : entries.Pairwise Version.precedes) :
    w ∈ insertSorted v entries ↔ w = v ∨ w ∈ entries ∧ w.internal ≠ v.internal := by
  induction entries with
  | nil => simp [insertSorted]
  | cons x rest ih =>
    obtain ⟨hhead, hrest⟩ := pairwise_cons.mp hsorted
    have hbeyond : ∀ u ∈ rest, u.internal ≠ x.internal := fun u hu heq =>
      Version.internal_ne_of_precedes (hhead u hu) heq.symm
    rw [insertSorted]
    split_ifs with heq hlt
    · rw [heq, mem_cons, mem_cons]
      constructor
      · rintro (rfl | hw)
        · exact .inl rfl
        · exact .inr ⟨.inr hw, hbeyond w hw⟩
      · rintro (rfl | ⟨rfl | hw, hne⟩)
        · exact .inl rfl
        · exact absurd rfl hne
        · exact .inr hw
    · have hfresh : ∀ u ∈ x :: rest, u.internal ≠ v.internal := by
        intro u hu
        rcases mem_cons.mp hu with rfl | hu
        · exact fun h => heq h.symm
        · exact fun h =>
            Version.internal_ne_of_precedes (Version.precedes_trans hlt (hhead u hu)) h.symm
      rw [mem_cons]
      exact or_congr_right ⟨fun hw => ⟨hw, hfresh w hw⟩, And.left⟩
    · rw [mem_cons, ih hrest, mem_cons]
      constructor
      · rintro (rfl | rfl | ⟨hw, hne⟩)
        · exact .inr ⟨.inl rfl, fun h => heq h.symm⟩
        · exact .inl rfl
        · exact .inr ⟨.inr hw, hne⟩
      · rintro (rfl | ⟨rfl | hw, hne⟩)
        · exact .inr (.inl rfl)
        · exact .inl rfl
        · exact .inr (.inr ⟨hw, hne⟩)

theorem pairwise_insertSorted (hsorted : entries.Pairwise Version.precedes) :
    (insertSorted v entries).Pairwise Version.precedes := by
  induction entries with
  | nil => exact pairwise_singleton _ _
  | cons x rest ih =>
    obtain ⟨hhead, hrest⟩ := pairwise_cons.mp hsorted
    rw [insertSorted]
    split_ifs with heq hlt
    · refine pairwise_cons.mpr ⟨fun u hu => ?_, hrest⟩
      exact (Version.precedes_congr heq rfl).mpr (hhead u hu)
    · refine pairwise_cons.mpr ⟨fun u hu => ?_, hsorted⟩
      rcases mem_cons.mp hu with rfl | hu
      · exact hlt
      · exact Version.precedes_trans hlt (hhead u hu)
    · refine pairwise_cons.mpr ⟨fun u hu => ?_, ih hrest⟩
      rcases (mem_insertSorted hrest).mp hu with rfl | ⟨hu, -⟩
      · exact (Version.precedes_total heq).resolve_left hlt
      · exact hhead u hu

namespace Run

/-- `memtable.New`. -/
def empty : Run := ⟨[], List.Pairwise.nil⟩

/-- `Insert`. -/
def insert (r : Run) (v : Version) : Run :=
  ⟨insertSorted v r.entries, pairwise_insertSorted r.sorted⟩

/-- The insertions of `ApplyBatch` and `ApplyVersion`. -/
def insertAll (r : Run) (versions : List Version) : Run := versions.foldl insert r

/-- `GetCandidate`: seek the first entry that is not below the internal key
`(key, target, KindDelete)`, and take it when it is an entry of `key`. -/
def getCandidate (r : Run) (key : Bytes) (target : ℕ) : Option Version :=
  match r.entries.find? (fun v => ¬ v.precedes ⟨key, target, .delete, []⟩) with
  | none => none
  | some v => if v.key = key then some v else none

/-- A user key lies in `[start, stop)`; an absent bound is unbounded. -/
def Within (start stop : Option Bytes) (key : Bytes) : Prop :=
  (∀ s ∈ start, s ≤ key) ∧ ∀ e ∈ stop, key < e

/-- `Range`.  The seek key of the lower bound has the largest sequence and the least
kind, so no entry of the bound itself is below it. -/
def range (r : Run) (start stop : Option Bytes) : List Version :=
  (r.entries.dropWhile fun v => start.any (v.key < ·)).takeWhile fun v => stop.all (v.key < ·)

variable {r : Run} {key : Bytes} {target : ℕ} {v w : Version}

theorem distinct (r : Run) : Distinct r.entries := by
  unfold Distinct
  rw [nodup_iff_pairwise_ne, pairwise_map]
  exact r.sorted.imp Version.internal_ne_of_precedes

theorem mem_insert : w ∈ (r.insert v).entries ↔ w = v ∨ w ∈ r.entries ∧ w.internal ≠ v.internal :=
  mem_insertSorted r.sorted

/-- Two runs with the same entries are the same run. -/
theorem ext_mem {r' : Run} (h : ∀ v, v ∈ r.entries ↔ v ∈ r'.entries) : r = r' := by
  have heq : r.entries = r'.entries := by
    refine Perm.eq_of_pairwise (fun v w _ _ hvw hwv => ?_) r.sorted r'.sorted ?_
    · exact absurd hwv (Version.precedes_asymm hvw)
    · refine (perm_ext_iff_of_nodup ?_ ?_).mpr h
      · exact r.distinct.of_map
      · exact r'.distinct.of_map
  cases r'
  cases heq
  rfl

/-- The sequence number of an entry that is not below the seek key is visible. -/
theorem not_precedes_seek :
    ¬ v.precedes ⟨key, target, .delete, []⟩ ↔ key < v.key ∨ v.key = key ∧ v.seq ≤ target := by
  simp only [Version.precedes, Version.before_iff, Kind.rank, Nat.not_lt_zero, and_false, or_false]
  rcases lt_trichotomy v.key key with hlt | heq | hgt
  · simp [hlt, hlt.not_gt, hlt.ne]
  · simp [heq]
  · simp [hgt, hgt.not_gt, hgt.ne']

/-- A table answers a point read with its first version at or below the target. -/
theorem getCandidate_leads (r : Run) (key : Bytes) (target : ℕ) :
    Leads r.entries key target (r.getCandidate key target) := by
  unfold getCandidate
  rcases hfind : r.entries.find? (fun v => ¬ v.precedes ⟨key, target, .delete, []⟩) with - | v
  · rw [hfind]
    intro v hv hkey hle
    have hbelow := find?_eq_none.mp hfind v hv
    simp only [decide_eq_true_eq] at hbelow
    exact hbelow (not_precedes_seek.mpr (.inr ⟨hkey, hle⟩))
  · obtain ⟨hv, below, above, hsplit, hbelow⟩ := find?_eq_some_iff_append.mp hfind
    rw [decide_eq_true_eq, not_precedes_seek] at hv
    -- what a read could see is not in front of the entry found
    have hlater : ∀ u ∈ r.entries, u.key = key → u.seq ≤ target → u = v ∨ v.precedes u := by
      intro u hu hkey hle
      have hsorted := r.sorted
      rw [hsplit] at hu hsorted
      rcases mem_append.mp hu with hu | hu
      · have hseek := hbelow u hu
        simp only [Bool.not_eq_true', decide_eq_false_iff_not] at hseek
        exact absurd (not_precedes_seek.mpr (.inr ⟨hkey, hle⟩)) hseek
      · rcases mem_cons.mp hu with rfl | hu
        · exact .inl rfl
        · have htail := (pairwise_append.mp hsorted).2.1
          exact .inr ((pairwise_cons.mp htail).1 u hu)
    have hmem : v ∈ r.entries := by
      rw [hsplit]
      simp
    rw [hfind]
    dsimp only
    split_ifs with hkey
    · have hle : v.seq ≤ target := by
        rcases hv with hlt | ⟨-, hle⟩
        · exact absurd hkey hlt.ne'
        · exact hle
      refine ⟨hmem, hkey, hle, fun u hu hukey hule => ?_⟩
      rcases hlater u hu hukey hule with rfl | hprecedes
      · exact .inl rfl
      · rcases hprecedes with hlt | ⟨-, hbefore⟩
        · exact absurd (hkey.trans hukey.symm) hlt.ne
        · exact .inr hbefore
    · have hgt : key < v.key := hv.resolve_right fun h => hkey h.1
      intro u hu hukey hule
      rcases hlater u hu hukey hule with rfl | hprecedes
      · exact hkey hukey
      · exact absurd (Version.key_le_of_precedes hprecedes) (by rw [hukey]; exact not_le.mpr hgt)

theorem range_sublist (start stop : Option Bytes) : (r.range start stop).Sublist r.entries :=
  (takeWhile_sublist _).trans (dropWhile_sublist _)

/-- A scan of one table sees the entries between the bounds. -/
theorem mem_range {start stop : Option Bytes} :
    v ∈ r.range start stop ↔ v ∈ r.entries ∧ Within start stop v.key := by
  have hkeys : r.entries.Pairwise fun v w => v.key ≤ w.key :=
    r.sorted.imp Version.key_le_of_precedes
  have hlow : r.entries.Pairwise fun v w =>
      start.any (w.key < ·) = true → start.any (v.key < ·) = true := by
    refine hkeys.imp fun hle h => ?_
    cases start with
    | none => exact h
    | some s =>
      simp only [Option.any_some, decide_eq_true_eq] at h ⊢
      exact hle.trans_lt h
  have hhigh : (r.entries.dropWhile fun v => start.any (v.key < ·)).Pairwise fun v w =>
      stop.all (w.key < ·) = true → stop.all (v.key < ·) = true := by
    refine (hkeys.sublist (dropWhile_sublist _)).imp fun hle h => ?_
    cases stop with
    | none => exact h
    | some e =>
      simp only [Option.all_some, decide_eq_true_eq] at h ⊢
      exact hle.trans_lt h
  unfold range Within
  rw [mem_takeWhile_iff hhigh, mem_dropWhile_iff hlow, and_assoc]
  refine and_congr_right fun _ => and_congr ?_ ?_
  · cases start <;> simp
  · cases stop <;> simp

end Run

end RivetDB.Storage
