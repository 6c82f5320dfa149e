import RivetDB.Storage.LsmScans

/-!
# What edits and batches change

Two sets of facts that a run of the tree rests on.  An accepted manifest edit replaces
the files it names and moves the marks it carries, and nothing else.  A table that was
filled batch by batch holds the last version of every internal key in these batches, so
tables that were filled from different batches together hold the history of all of them,
as long as no internal key is in two of them.
-/

namespace RivetDB.Storage

open SSTable List Fallible
open scoped ByteOrder

/-! ### Edits of the manifest -/

namespace Manifest

variable {v next : Manifest} {edit : VersionEdit} {levels levels' : ℕ → List SSTable}
  {tables : List SSTable}

theorem leveled_of_not_overlaps (h : overlaps tables = false) :
    Leveled tables := by
  induction tables with
  | nil => exact List.Pairwise.nil
  | cons s rest ih =>
    refine pairwise_cons.mpr ⟨?_, ?_⟩
    · cases rest with
      | nil => simp
      | cons t rest =>
        simp only [overlaps, Bool.or_eq_false_iff, decide_eq_false_iff_not, not_le] at h
        have hrest := ih h.2
        intro u hu
        rcases mem_cons.mp hu with rfl | hu
        · exact h.1
        · exact h.1.trans (t.smallestUser_le_largestUser.trans_lt ((pairwise_cons.mp hrest).1 u hu))
    · cases rest with
      | nil => exact List.Pairwise.nil
      | cons t rest =>
        simp only [overlaps, Bool.or_eq_false_iff] at h
        exact ih h.2

/-- The files of an accepted edit. -/
structure Files (v : Manifest) (edit : VersionEdit) (next : Manifest)
    (kept levels : ℕ → List SSTable) : Prop where
  deleted : deleteFiles v.levels edit.deletedFiles = .ok kept
  added : addFiles (edit.nextFileNumber.getD v.nextFileNumber) kept edit.addedFiles = .ok levels
  sorted : ∀ level, (next.levels level).Perm (levels level)
  leveled : ∀ level, 0 < level → level < maxLevels → Leveled (next.levels level)

/-- What an accepted edit changes. -/
theorem apply_ok (h : v.apply edit = .ok next) :
    (∃ kept levels, Files v edit next kept levels) ∧
      next.mode = v.mode ∧
      next.frontier = (edit.replayFrontier <|> v.frontier) ∧
      next.lastSequence = (edit.lastSequence <|> v.lastSequence) ∧
      next.replicatedApplied = (edit.replicatedAppliedThrough <|> v.replicatedApplied) ∧
      next.maxAppliedMVCC = (edit.maxAppliedMVCC <|> v.maxAppliedMVCC) ∧
      validateEditShape edit = .ok () := by
  obtain ⟨_, hshape, h⟩ := bind_eq_ok.mp h
  obtain ⟨numbers, hnumbers, h⟩ := bind_eq_ok.mp h
  obtain ⟨files, hfiles, h⟩ := bind_eq_ok.mp h
  obtain ⟨frontier, hfrontier, h⟩ := bind_eq_ok.mp h
  obtain ⟨replicated, hreplicated, h⟩ := bind_eq_ok.mp h
  unfold publish at h
  split_ifs at h
  cases h
  unfold applyNumbers at hnumbers
  split_ifs at hnumbers
  cases hnumbers
  obtain ⟨kept, hkept, hfiles⟩ := bind_eq_ok.mp hfiles
  obtain ⟨levels, hlevels, hfiles⟩ := bind_eq_ok.mp hfiles
  dsimp only at hfiles
  split at hfiles
  · cases hfiles
  rename_i hoverlap
  cases hfiles
  have hreplicated' : replicated = { frontier with
      replicatedApplied := edit.replicatedAppliedThrough <|> frontier.replicatedApplied
      maxAppliedMVCC := edit.maxAppliedMVCC <|> frontier.maxAppliedMVCC } := by
    unfold applyReplicated at hreplicated
    split_ifs at hreplicated
    · exact (Except.ok.inj hreplicated).symm
  subst hreplicated'
  unfold applyFrontier at hfrontier
  have hfrontier' : frontier = { v with
      nextFileNumber := edit.nextFileNumber.getD v.nextFileNumber
      lastSequence := edit.lastSequence <|> v.lastSequence
      levels := fun level => (levels level).insertionSort (levelLe level)
      frontier := edit.replayFrontier <|> v.frontier } := by
    split at hfrontier
    · rename_i hnone
      rw [← Except.ok.inj hfrontier, hnone]
      rfl
    · rename_i target hsome
      split_ifs at hfrontier
      · rw [← Except.ok.inj hfrontier, hsome]
        rfl
  subst hfrontier'
  refine ⟨⟨kept, levels, hkept, hlevels, fun level => perm_insertionSort _ _,
    fun level hpos hlt => leveled_of_not_overlaps ?_⟩, rfl, rfl, rfl, rfl, rfl, hshape⟩
  by_contra htrue
  refine hoverlap (any_eq_true.mpr ⟨level, mem_range.mpr hlt, ?_⟩)
  simpa [hpos] using htrue

theorem tables_perm (h : ∀ level, (levels level).Perm (levels' level)) :
    (liveTables levels).Perm (liveTables levels') := by
  exact Perm.flatMap_left _ fun level _ => h level

/-- An edit without files leaves every level alone. -/
theorem apply_levels_of_no_files (h : v.apply edit = .ok next) (hdeleted : edit.deletedFiles = [])
    (hadded : edit.addedFiles = []) (level : ℕ) : (next.levels level).Perm (v.levels level) := by
  obtain ⟨⟨kept, levels, hfiles⟩, -⟩ := apply_ok h
  have hkept := hfiles.deleted
  rw [hdeleted] at hkept
  have hlevels := hfiles.added
  rw [hadded] at hlevels
  cases hkept
  cases hlevels
  exact hfiles.sorted level

variable {number : ℕ}

theorem allocateFileNumber_ok (h : v.allocateFileNumber = .ok (number, next)) :
    v.apply { nextFileNumber := some (v.nextFileNumber + 1) } = .ok next := by
  unfold allocateFileNumber at h
  split at h
  · cases h
  · obtain ⟨next', hnext, h⟩ := bind_eq_ok.mp h
    cases h
    exact hnext

/-- Replacing a level inside the list of levels. -/
theorem liveTables_update (levels : ℕ → List SSTable) {level : ℕ} (hlevel : level < maxLevels)
    (tables : List SSTable) :
    (liveTables (Function.update levels level tables) ++ levels level).Perm
      (liveTables levels ++ tables) := by
  have hsplit : ∀ f : ℕ → List SSTable,
      (liveTables f).Perm (f level ++ ((List.range maxLevels).erase level).flatMap f) := by
    intro f
    have hperm := perm_cons_erase (mem_range.mpr hlevel)
    exact (Perm.flatMap_right f hperm).trans (by rw [flatMap_cons])
  have hrest : ((List.range maxLevels).erase level).flatMap (Function.update levels level tables) =
      ((List.range maxLevels).erase level).flatMap levels := by
    refine flatMap_congr fun l hl => ?_
    have hne : l ≠ level := fun heq => by
      subst heq
      exact (Nodup.not_mem_erase nodup_range) hl
    rw [Function.update_of_ne hne]
  have hupdated := hsplit (Function.update levels level tables)
  rw [Function.update_self, hrest] at hupdated
  refine (hupdated.append_right _).trans ?_
  refine List.Perm.trans ?_ ((hsplit levels).append_right _).symm
  refine perm_append_comm.trans ?_
  rw [append_assoc]
  exact perm_append_comm.append_left (levels level)

/-- Adding files. -/
theorem addFiles_perm {number : ℕ} {added : List (ℕ × SSTable)}
    (hlevels : ∀ a ∈ added, a.1 < maxLevels) (h : addFiles number levels added = .ok levels') :
    (liveTables levels').Perm (liveTables levels ++ added.map Prod.snd) := by
  induction added generalizing levels with
  | nil =>
    cases h
    simp
  | cons a rest ih =>
    obtain ⟨level, t⟩ := a
    rw [addFiles] at h
    split_ifs at h
    have hrest := ih (fun a ha => hlevels a (mem_cons_of_mem _ ha)) h
    have hupdate := liveTables_update levels (hlevels (level, t) mem_cons_self)
      (levels level ++ [t])
    have hone : (liveTables (Function.update levels level (levels level ++ [t]))).Perm
        (liveTables levels ++ [t]) := by
      refine (perm_append_right_iff (levels level)).mp (hupdate.trans ?_)
      rw [append_assoc]
      exact Perm.append_left _ perm_append_comm
    refine hrest.trans ((hone.append_right _).trans ?_)
    simp

/-- Deleting files. -/
theorem deleteFiles_perm {deleted : List (ℕ × ℕ)} (hlevels : ∀ d ∈ deleted, d.1 < maxLevels)
    (h : deleteFiles levels deleted = .ok levels') :
    ∃ removed, (liveTables levels).Perm (liveTables levels' ++ removed) ∧
      removed.map fileNumber = deleted.map Prod.snd := by
  induction deleted generalizing levels with
  | nil =>
    cases h
    exact ⟨[], by simp, rfl⟩
  | cons d rest ih =>
    obtain ⟨level, number⟩ := d
    rw [deleteFiles] at h
    split at h
    · rename_i hany
      obtain ⟨removed, hperm, hnumbers⟩ := ih (fun d hd => hlevels d (mem_cons_of_mem _ hd)) h
      obtain ⟨t, ht, hnumber⟩ := any_eq_true.mp hany
      obtain ⟨t', l₁, l₂, -, hnumber', hsplit, herase⟩ :=
        exists_of_eraseP (p := fun t => decide (t.fileNumber = number)) ht hnumber
      have hupdate := liveTables_update levels (hlevels (level, number) mem_cons_self)
        ((levels level).eraseP (·.fileNumber = number))
      have hone : (liveTables levels).Perm (liveTables (Function.update levels level
            ((levels level).eraseP (·.fileNumber = number))) ++ [t']) := by
        refine (perm_append_right_iff
          ((levels level).eraseP (·.fileNumber = number))).mp (hupdate.symm.trans ?_)
        rw [append_assoc]
        refine Perm.append_left _ ?_
        rw [herase, hsplit]
        exact perm_middle
      refine ⟨t' :: removed, ?_, ?_⟩
      · refine hone.trans ((hperm.append_right _).trans ?_)
        rw [append_assoc]
        exact Perm.append_left _ (perm_append_comm.trans (List.Perm.refl _))
      · simp only [decide_eq_true_eq] at hnumber'
        simp [hnumber', hnumbers]
    · cases h

theorem validateEditShape_ok (h : validateEditShape edit = .ok ()) :
    (∀ d ∈ edit.deletedFiles, d.1 < maxLevels) ∧
      ∀ a ∈ edit.addedFiles, a.1 < maxLevels ∧ a.2.fileNumber ≠ 0 := by
  unfold validateEditShape at h
  iterate 3
    split at h
    · cases h
  split_ifs at h with hdeleted
  constructor
  · intro d hd
    by_contra hlevel
    exact hdeleted (any_eq_true.mpr ⟨d, hd, by simp [not_lt.mp hlevel]⟩)
  · intro a ha
    have hvalid : validateTable a.1 a.2 = .ok () := by
      generalize edit.addedFiles = added at h ha
      induction added with
      | nil => cases ha
      | cons b rest ih =>
        have hbind : (validateTable b.1 b.2 >>= fun _ =>
            rest.forM fun added => validateTable added.1 added.2) = .ok () := h
        obtain ⟨_, hb, hrest⟩ := bind_eq_ok.mp hbind
        rcases mem_cons.mp ha with rfl | ha
        · exact hb
        · exact ih hrest ha
    unfold validateTable at hvalid
    split_ifs at hvalid with hlevel hnumber
    simp only [not_or] at hnumber
    exact ⟨not_le.mp hlevel, hnumber.1⟩

/-- The live tables after an accepted edit. -/
theorem apply_tables (h : v.apply edit = .ok next) :
    ∃ removed, (next.tables ++ removed).Perm (v.tables ++ edit.addedFiles.map Prod.snd) ∧
      removed.map fileNumber = edit.deletedFiles.map Prod.snd ∧ removed ⊆ v.tables := by
  obtain ⟨⟨kept, levels, hfiles⟩, -, -, -, -, -, hshape⟩ := apply_ok h
  obtain ⟨hdeleted, hadded⟩ := validateEditShape_ok hshape
  obtain ⟨removed, hperm, hnumbers⟩ := deleteFiles_perm hdeleted hfiles.deleted
  refine ⟨removed, ?_, hnumbers, fun t ht => hperm.symm.subset (mem_append_right _ ht)⟩
  have hnext := (tables_perm hfiles.sorted).trans
    (addFiles_perm (fun a ha => (hadded a ha).1) hfiles.added)
  refine (hnext.append_right removed).trans ?_
  refine List.Perm.trans ?_ (hperm.symm.append_right _)
  rw [append_assoc, append_assoc]
  exact perm_append_comm.append_left _

/-- File numbers stay distinct. -/
theorem addFiles_nodup {added : List (ℕ × SSTable)} (hlevels : ∀ a ∈ added, a.1 < maxLevels)
    (hnodup : ((liveTables levels).map fileNumber).Nodup)
    (h : addFiles number levels added = .ok levels') :
    ((liveTables levels').map fileNumber).Nodup := by
  induction added generalizing levels with
  | nil =>
    cases h
    exact hnodup
  | cons a rest ih =>
    obtain ⟨level, t⟩ := a
    have hone := @addFiles_perm levels _ number [(level, t)]
      (fun a ha => hlevels a (by simp_all)) (by
        rw [addFiles] at h ⊢
        split_ifs at h
        rw [if_neg ‹_›, if_neg ‹_›]
        rfl)
    rw [addFiles] at h
    split_ifs at h with hfresh
    refine ih (fun a ha => hlevels a (mem_cons_of_mem _ ha)) ?_ h
    refine (hone.map fileNumber).nodup_iff.mpr ?_
    rw [map_append, nodup_append]
    refine ⟨hnodup, by simp, fun n hn m hm heq => hfresh ?_⟩
    obtain ⟨u, hu, rfl⟩ := mem_map.mp hn
    simp only [map_cons, map_nil, mem_singleton] at hm
    exact any_eq_true.mpr ⟨u, hu, by simp [heq, hm]⟩

theorem apply_nodup (h : v.apply edit = .ok next) (hnodup : (v.tables.map fileNumber).Nodup) :
    (next.tables.map fileNumber).Nodup := by
  obtain ⟨⟨kept, levels, hfiles⟩, -, -, -, -, -, hshape⟩ := apply_ok h
  obtain ⟨hdeleted, hadded⟩ := validateEditShape_ok hshape
  obtain ⟨removed, hperm, -⟩ := deleteFiles_perm hdeleted hfiles.deleted
  have hkept : ((liveTables kept).map fileNumber).Nodup := by
    have hall := (hperm.map fileNumber).nodup_iff.mp hnodup
    rw [map_append] at hall
    exact hall.of_append_left
  exact ((tables_perm hfiles.sorted).map fileNumber).nodup_iff.mpr
    (addFiles_nodup (fun a ha => (hadded a ha).1) hkept hfiles.added)

end Manifest

/-! ### The history of batches -/

/-- What one successful write or apply stored: the last sequence of the batch, or the Raft
index of the command, and the versions. -/
structure Batch where
  index : ℕ
  versions : List Version

/-- The versions of a log, in the order in which they were stored. -/
def logged (log : List Batch) : List Version := log.flatMap Batch.versions

/-- The last version of every internal key in a log. -/
def history (log : List Batch) : Run := Run.empty.insertAll (logged log)

@[simp] theorem logged_nil : logged [] = [] := rfl

@[simp] theorem logged_append (A B : List Batch) : logged (A ++ B) = logged A ++ logged B :=
  flatMap_append

@[simp] theorem logged_singleton (b : Batch) : logged [b] = b.versions := by
  simp [logged]

namespace Run

variable {r : Run} {vs : List Version} {v w : Version}

/-- A batch stores the last version of its internal keys, and keeps the other entries. -/
theorem mem_insertAll : v ∈ (r.insertAll vs).entries ↔
    v ∈ (Run.empty.insertAll vs).entries ∨
      v ∈ r.entries ∧ v.internal ∉ vs.map Version.internal := by
  induction vs generalizing r with
  | nil => simp [insertAll, Run.empty]
  | cons x rest ih =>
    have hstep : ∀ q : Run, q.insertAll (x :: rest) = (q.insert x).insertAll rest := fun _ => rfl
    have hempty : ∀ w, w ∈ (Run.empty.insert x).entries ↔ w = x := by
      intro w
      rw [mem_insert]
      simp [Run.empty]
    rw [hstep, hstep, ih, @ih (Run.empty.insert x), hempty, mem_insert, map_cons, mem_cons, not_or]
    constructor
    · rintro (h | ⟨rfl | ⟨h, hne⟩, hrest⟩)
      · exact .inl (.inl h)
      · exact .inl (.inr ⟨rfl, hrest⟩)
      · exact .inr ⟨h, hne, hrest⟩
    · rintro ((h | ⟨rfl, hrest⟩) | ⟨h, hne, hrest⟩)
      · exact .inl h
      · exact .inr ⟨.inl rfl, hrest⟩
      · exact .inr ⟨.inr ⟨h, hne⟩, hrest⟩

theorem mem_of_mem_insertAll_empty (h : v ∈ (Run.empty.insertAll vs).entries) : v ∈ vs := by
  induction vs with
  | nil => cases h
  | cons x rest ih =>
    have hstep : Run.empty.insertAll (x :: rest) = (Run.empty.insert x).insertAll rest := rfl
    rw [hstep, mem_insertAll] at h
    rcases h with h | ⟨h, -⟩
    · exact mem_cons_of_mem _ (ih h)
    · rw [mem_insert] at h
      rcases h with rfl | ⟨h, -⟩
      · exact mem_cons_self
      · cases h

/-- Every internal key of a batch is stored. -/
theorem exists_internal_of_mem (h : w ∈ vs) :
    ∃ v ∈ (Run.empty.insertAll vs).entries, v.internal = w.internal := by
  induction vs generalizing w with
  | nil => cases h
  | cons x rest ih =>
    have hstep : Run.empty.insertAll (x :: rest) = (Run.empty.insert x).insertAll rest := rfl
    rw [hstep]
    by_cases hrest : w.internal ∈ rest.map Version.internal
    · obtain ⟨u, hu, heq⟩ := mem_map.mp hrest
      obtain ⟨v, hv, hvu⟩ := ih hu
      exact ⟨v, mem_insertAll.mpr (.inl hv), hvu.trans heq⟩
    · have hwx : w = x := by
        rcases mem_cons.mp h with rfl | h
        · rfl
        · exact absurd (mem_map_of_mem h) hrest
      subst hwx
      exact ⟨w, mem_insertAll.mpr (.inr ⟨mem_insert.mpr (.inl rfl), hrest⟩), rfl⟩

end Run

/-! ### Logs that share no internal key -/

/-- No internal key is in both logs. -/
def Apart (A B : List Batch) : Prop := ∀ v ∈ logged A, ∀ w ∈ logged B, v.internal ≠ w.internal

variable {A B C : List Batch} {v w : Version}

theorem mem_logged_of_mem_history (h : v ∈ (history A).entries) : v ∈ logged A :=
  Run.mem_of_mem_insertAll_empty h

theorem history_append (A B : List Batch) :
    history (A ++ B) = (history A).insertAll (logged B) := by
  unfold history
  rw [logged_append]
  exact foldl_append

theorem Apart.append_left (hA : Apart A C) (hB : Apart B C) : Apart (A ++ B) C := by
  intro v hv
  rw [logged_append, mem_append] at hv
  rcases hv with hv | hv
  · exact hA v hv
  · exact hB v hv

theorem Apart.append_right (hA : Apart C A) (hB : Apart C B) : Apart C (A ++ B) := by
  intro v hv w hw
  rw [logged_append, mem_append] at hw
  rcases hw with hw | hw
  · exact hA v hv w hw
  · exact hB v hv w hw

theorem apart_nil (A : List Batch) : Apart A [] := fun _ _ _ hw => absurd hw (not_mem_nil)

/-- Stored entries tell whether a batch is new. -/
theorem apart_singleton {b : Batch}
    (h : ∀ v ∈ (history A).entries, ∀ w ∈ b.versions, v.internal ≠ w.internal) : Apart A [b] := by
  intro v hv w hw heq
  rw [logged_singleton] at hw
  obtain ⟨u, hu, huv⟩ := Run.exists_internal_of_mem hv
  exact h u hu w hw (huv.trans heq)

theorem history_append_perm (h : Apart A B) :
    (history (A ++ B)).entries.Perm ((history A).entries ++ (history B).entries) := by
  have hdistinct : Distinct ((history A).entries ++ (history B).entries) := by
    unfold Distinct
    rw [map_append, nodup_append]
    refine ⟨(history A).distinct, (history B).distinct, ?_⟩
    rintro _ hv _ hw rfl
    obtain ⟨v, hv, hveq⟩ := mem_map.mp hv
    obtain ⟨w, hw, hweq⟩ := mem_map.mp hw
    exact h v (mem_logged_of_mem_history hv) w (mem_logged_of_mem_history hw) (hveq.trans hweq.symm)
  refine (perm_ext_iff_of_nodup (history (A ++ B)).distinct.of_map hdistinct.of_map).mpr ?_
  intro v
  rw [history_append, Run.mem_insertAll, mem_append, or_comm]
  refine or_congr_left ⟨And.left, fun hv => ⟨hv, fun hmem => ?_⟩⟩
  obtain ⟨w, hw, heq⟩ := mem_map.mp hmem
  exact h v (mem_logged_of_mem_history hv) w hw heq.symm

/-- Tables filled from logs that are apart hold the history of all of them. -/
theorem history_flatten_perm {parts : List (List Batch)} (h : parts.Pairwise Apart) :
    (history parts.flatten).entries.Perm (parts.flatMap fun part => (history part).entries) := by
  induction parts with
  | nil => exact List.Perm.refl _
  | cons part rest ih =>
    obtain ⟨hpart, hrest⟩ := pairwise_cons.mp h
    have happart : Apart part rest.flatten := by
      intro v hv w hw
      obtain ⟨b, hb, hwb⟩ := mem_flatMap.mp hw
      obtain ⟨other, hother, hbo⟩ := mem_flatten.mp hb
      exact hpart other hother v hv w (mem_flatMap.mpr ⟨b, hbo, hwb⟩)
    exact (history_append_perm happart).trans ((ih hrest).append_left _)

/-! ### Spans -/

variable {V : List Version}

theorem recoveredSpan_of_ne_nil (h : V ≠ []) :
    ∃ a b, Lsm.recoveredSpan V = some (a, b) ∧
      (a ∈ V.map Version.seq ∧ ∀ c ∈ V.map Version.seq, a ≤ c) ∧
      b ∈ V.map Version.seq ∧ ∀ c ∈ V.map Version.seq, c ≤ b := by
  have hne : V.map Version.seq ≠ [] := by simpa using h
  rcases hmin : (V.map Version.seq).min? with - | a
  · exact absurd (min?_eq_none_iff.mp hmin) hne
  rcases hmax : (V.map Version.seq).max? with - | b
  · exact absurd (max?_eq_none_iff.mp hmax) hne
  refine ⟨a, b, ?_, min?_eq_some_iff.mp hmin, max?_eq_some_iff.mp hmax⟩
  simp only [Lsm.recoveredSpan, hmin, hmax]

/-- The span of a list of versions is its least and its largest sequence. -/
theorem recoveredSpan_eq_some_iff {least largest : ℕ} :
    Lsm.recoveredSpan V = some (least, largest) ↔
      (∃ v ∈ V, v.seq = least) ∧ (∃ v ∈ V, v.seq = largest) ∧
        ∀ v ∈ V, least ≤ v.seq ∧ v.seq ≤ largest := by
  by_cases hV : V = []
  · subst hV
    simp [Lsm.recoveredSpan]
  obtain ⟨a, b, hspan, ⟨ha, hleast⟩, hb, hlargest⟩ := recoveredSpan_of_ne_nil hV
  rw [hspan, Option.some.injEq, Prod.mk.injEq]
  constructor
  · rintro ⟨rfl, rfl⟩
    exact ⟨mem_map.mp ha, mem_map.mp hb, fun v hv =>
      ⟨hleast _ (mem_map_of_mem hv), hlargest _ (mem_map_of_mem hv)⟩⟩
  · rintro ⟨⟨u, hu, rfl⟩, ⟨w, hw, rfl⟩, hall⟩
    obtain ⟨x, hx, rfl⟩ := mem_map.mp ha
    obtain ⟨y, hy, rfl⟩ := mem_map.mp hb
    exact ⟨Nat.le_antisymm (hleast _ (mem_map_of_mem hu)) (hall x hx).1,
      Nat.le_antisymm (hall y hy).2 (hlargest _ (mem_map_of_mem hw))⟩

theorem recoveredSpan_eq_none_iff : Lsm.recoveredSpan V = none ↔ V = [] := by
  constructor
  · intro h
    by_contra hne
    obtain ⟨a, b, hspan, -⟩ := recoveredSpan_of_ne_nil hne
    rw [h] at hspan
    cases hspan
  · rintro rfl
    rfl

/-- A recovered table has the span of the batches it was filled from. -/
theorem recoveredSpan_history (A : List Batch) :
    Lsm.recoveredSpan (history A).entries = Lsm.recoveredSpan (logged A) := by
  rcases hspan : Lsm.recoveredSpan (logged A) with - | ⟨least, largest⟩
  · rw [recoveredSpan_eq_none_iff] at hspan ⊢
    refine eq_nil_iff_forall_not_mem.mpr fun v hv => ?_
    have := mem_logged_of_mem_history hv
    rw [hspan] at this
    cases this
  · rw [recoveredSpan_eq_some_iff] at hspan ⊢
    obtain ⟨⟨u, hu, hleast⟩, ⟨w, hw, hlargest⟩, hall⟩ := hspan
    have hstored : ∀ x ∈ logged A, ∃ y ∈ (history A).entries, y.seq = x.seq := by
      intro x hx
      obtain ⟨y, hy, heq⟩ := Run.exists_internal_of_mem hx
      exact ⟨y, hy, congrArg (fun i => i.2.1) heq⟩
    obtain ⟨y, hy, hyu⟩ := hstored u hu
    obtain ⟨z, hz, hzw⟩ := hstored w hw
    exact ⟨⟨y, hy, hyu.trans hleast⟩, ⟨z, hz, hzw.trans hlargest⟩,
      fun x hx => hall x (mem_logged_of_mem_history hx)⟩

/-! ### Logs without gaps -/

/-- The batches of a log carry the sequences from `n` on, one after the other, and each
batch is filed under its last sequence. -/
def Contiguous : ℕ → List Batch → Prop
  | _, [] => True
  | n, b :: rest => b.versions ≠ [] ∧ b.versions.map Version.seq = List.range' n b.versions.length ∧
      b.index + 1 = n + b.versions.length ∧ Contiguous (n + b.versions.length) rest

variable {n : ℕ}

theorem contiguous_append : Contiguous n (A ++ B) ↔
    Contiguous n A ∧ Contiguous (n + (logged A).length) B := by
  induction A generalizing n with
  | nil => simp [Contiguous]
  | cons b rest ih =>
    have hlength : (logged (b :: rest)).length = b.versions.length + (logged rest).length := by
      simp [logged]
    rw [cons_append, Contiguous, Contiguous, ih, hlength, ← Nat.add_assoc]
    tauto

theorem Contiguous.seq_bounds (h : Contiguous n A) :
    ∀ v ∈ logged A, n ≤ v.seq ∧ v.seq < n + (logged A).length := by
  induction A generalizing n with
  | nil => simp
  | cons b rest ih =>
    obtain ⟨-, hseqs, -, hrest⟩ := h
    have hlength : (logged (b :: rest)).length = b.versions.length + (logged rest).length := by
      simp [logged]
    intro v hv
    rcases mem_append.mp (show v ∈ b.versions ++ logged rest from hv) with hv | hv
    · have hmem := mem_map_of_mem (f := Version.seq) hv
      rw [hseqs, mem_range'_1] at hmem
      omega
    · have := ih hrest v hv
      omega

theorem Contiguous.index_bounds (h : Contiguous n A) :
    ∀ b ∈ A, n ≤ b.index ∧ b.index < n + (logged A).length := by
  induction A generalizing n with
  | nil => simp
  | cons c rest ih =>
    obtain ⟨hne, -, hindex, hrest⟩ := h
    have hpos := length_pos_iff.mpr hne
    have hlength : (logged (c :: rest)).length = c.versions.length + (logged rest).length := by
      simp [logged]
    intro b hb
    rcases mem_cons.mp hb with rfl | hb
    · omega
    · have := ih hrest b hb
      omega

/-- The span of a log without gaps. -/
theorem Contiguous.span (h : Contiguous n A) (hne : A ≠ []) :
    Lsm.recoveredSpan (logged A) = some (n, n + (logged A).length - 1) := by
  have hall : ∀ m, n ≤ m → m < n + (logged A).length → ∃ v ∈ logged A, v.seq = m := by
    clear hne
    induction A generalizing n with
    | nil =>
      intro m hlow hhigh
      exact absurd hhigh (by simpa using hlow)
    | cons b rest ih =>
      obtain ⟨-, hseqs, -, hrest⟩ := h
      have hlength : (logged (b :: rest)).length = b.versions.length + (logged rest).length := by
        simp [logged]
      intro m hlow hhigh
      rcases Nat.lt_or_ge m (n + b.versions.length) with hlt | hge
      · have hmem : m ∈ b.versions.map Version.seq := by
          rw [hseqs, mem_range'_1]
          omega
        obtain ⟨v, hv, hvm⟩ := mem_map.mp hmem
        exact ⟨v, mem_append_left _ hv, hvm⟩
      · obtain ⟨v, hv, hvm⟩ := ih hrest m hge (by omega)
        exact ⟨v, mem_append_right _ hv, hvm⟩
  have hpos : 0 < (logged A).length := by
    rcases A with - | ⟨b, rest⟩
    · exact absurd rfl hne
    · have := length_pos_iff.mpr h.1
      simp [logged]
      omega
  rw [recoveredSpan_eq_some_iff]
  refine ⟨hall n (Nat.le_refl _) (by omega), hall _ (by omega) (by omega), fun v hv => ?_⟩
  have := h.seq_bounds v hv
  omega

end RivetDB.Storage
