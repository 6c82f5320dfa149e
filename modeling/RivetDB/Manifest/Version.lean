import RivetDB.Manifest.Edit
import RivetDB.Wal.Recovery
import Mathlib.Data.List.Pairwise

/-!
# Versions of the manifest

`manifest/version.go`: a version lists the live tables by level and the durable marks, and
`apply` leads from one version to the next.  Tables enter at their level and every level is
sorted again, so the order in which an edit lists its files is forgotten; this is why an edit
that was stored and read back has the same effect.

* `Accepts` — all that `apply` asks of an edit, side by side, next to the version it then makes of
  it (`updated`).
* `WellFormed` — what holds of every version that edits can reach.
-/

namespace RivetDB.Manifest

open List Fallible
open Storage (Mode maxFileNumber maxLevels maxUint64)
open scoped ByteOrder

/-- `ComparatorName`. -/
def comparatorName : Bytes := "rivetdb.internal-key.v1".toList.map (·.toNat.toUInt8)

/-- A `Version`; a mark that is not set is `none`. -/
structure Version where
  generation : ℕ := 0
  comparator : Bytes := []
  levels : ℕ → List TableMetadata := fun _ => []
  nextFileNumber : UInt64 := 1
  lastSequence : Option UInt64 := none
  frontier : Option UInt64 := none
  mode : Mode := .standalone
  modeExplicit : Bool := false
  replicatedApplied : Option UInt64 := none
  maxAppliedMVCC : Option UInt64 := none

def initialVersion : Version := {}

/-- The tables of all levels. -/
def liveTables (levels : ℕ → List TableMetadata) : List TableMetadata :=
  (List.range maxLevels).flatMap levels

def highestFile (levels : ℕ → List TableMetadata) : UInt64 :=
  (liveTables levels).foldl (fun highest t => max highest t.fileNumber) 0

def hasFile (levels : ℕ → List TableMetadata) (fileNumber : UInt64) : Bool :=
  (liveTables levels).any (·.fileNumber = fileNumber)

/-- The order of `sortLevel`: level 0 newest first, the other levels by key. -/
def levelLe (level : ℕ) (s t : TableMetadata) : Prop :=
  if level = 0 then
    toLex (t.largestSequence.toNat, toLex (t.flushGeneration.toNat, t.fileNumber.toNat)) ≤
      toLex (s.largestSequence.toNat, toLex (s.flushGeneration.toNat, s.fileNumber.toNat))
  else toLex (s.smallestUser, s.fileNumber.toNat) ≤ toLex (t.smallestUser, t.fileNumber.toNat)

instance (level : ℕ) : DecidableRel (levelLe level) := fun _ _ =>
  inferInstanceAs (Decidable (if level = 0 then _ ≤ _ else _ ≤ _))

def sortLevel (level : ℕ) (tables : List TableMetadata) : List TableMetadata :=
  tables.insertionSort (levelLe level)

def overlaps : List TableMetadata → Bool
  | s :: t :: rest => s.largestUser ≥ t.smallestUser || overlaps (t :: rest)
  | _ => false

namespace Version

/-! ### The replay frontier -/

/-- The order of sequence spans: by first sequence, the longer span first. -/
def spanLe (s t : UInt64 × UInt64) : Prop := s.1 < t.1 ∨ s.1 = t.1 ∧ t.2 ≤ s.2

instance : DecidableRel spanLe := fun _ _ =>
  inferInstanceAs (Decidable (_ ∨ _))

/-- The loop of `frontierCovered`. -/
def covers (target : UInt64) : UInt64 → List (UInt64 × UInt64) → Bool
  | _, [] => false
  | cursor, (first, last) :: rest =>
    if first > cursor then false
    else if last < cursor then covers target cursor rest
    else if last ≥ target then true
    else covers target (last + 1) rest

def frontierCovered (v : Version) (target : UInt64) : Bool :=
  if v.frontier = some target then true
  else if v.frontier = some maxUint64.toUInt64 then target = maxUint64.toUInt64
  else
    let start := match v.frontier with
      | none => 0
      | some frontier => frontier + 1
    let spans := ((liveTables v.levels).filter fun t =>
      t.largestSequence ≥ start && t.smallestSequence ≤ target).map
        fun t => (t.smallestSequence, t.largestSequence)
    covers target start (spans.insertionSort spanLe)

/-! ### Edits -/

/-- The comparator and the storage mode of an edit. -/
def applyIdentity (v : Version) (edit : VersionEdit) : Except Error Version :=
  if v.generation = maxUint64 then .error .invalidEdit
  else if edit.comparator.any fun name =>
      name ≠ comparatorName || v.comparator ≠ [] && v.comparator ≠ name then
    .error .comparatorMismatch
  else if edit.comparator.getD v.comparator = [] then .error .comparatorMismatch
  else
    match edit.storageMode with
    | none => .ok { v with comparator := edit.comparator.getD v.comparator }
    | some byte =>
      match Mode.ofByte byte with
      | none => .error .modeMismatch
      | some mode =>
        if v.modeExplicit || v.generation ≠ 0 then .error .modeMismatch
        else .ok { v with
          comparator := edit.comparator.getD v.comparator
          mode := mode
          modeExplicit := true }

/-- The next file number and the last sequence of an edit. -/
def applyNumbers (v : Version) (edit : VersionEdit) : Except Error Version :=
  if edit.nextFileNumber.any
      (fun n => n < v.nextFileNumber || n = 0 || n.toNat > maxFileNumber + 1) then
    .error .fileNumberCollision
  else if edit.lastSequence.any fun n => v.lastSequence.any (n < ·) then
    .error .sequenceRegression
  else .ok { v with
    nextFileNumber := edit.nextFileNumber.getD v.nextFileNumber
    lastSequence := edit.lastSequence <|> v.lastSequence }

/-- The loop of `apply` over the deleted files; `seen` are the file numbers so far. -/
def deleteFiles (seen : List UInt64) (levels : ℕ → List TableMetadata) :
    List DeletedFile → Except Error (List UInt64 × (ℕ → List TableMetadata))
  | [] => .ok (seen, levels)
  | d :: rest =>
    if d.fileNumber ∈ seen then .error .invalidEdit
    else if (levels d.level.toNat).any (·.fileNumber = d.fileNumber) then
      deleteFiles (d.fileNumber :: seen) (Function.update levels d.level.toNat
        ((levels d.level.toNat).eraseP (·.fileNumber = d.fileNumber))) rest
    else .error .unknownFile

/-- The loop of `apply` over the added files. -/
def addFiles (next : UInt64) (seen : List UInt64) (levels : ℕ → List TableMetadata) :
    List TableMetadata → Except Error (ℕ → List TableMetadata)
  | [] => .ok levels
  | t :: rest =>
    if t.fileNumber ∈ seen then .error .invalidEdit
    else if hasFile levels t.fileNumber then .error .duplicateFile
    else if t.fileNumber ≥ next then .error .fileNumberCollision
    else addFiles next (t.fileNumber :: seen)
      (Function.update levels t.level.toNat (levels t.level.toNat ++ [t])) rest

/-- The files of an edit: delete, add, sort, and refuse a level above 0 that overlaps. -/
def applyFiles (v : Version) (edit : VersionEdit) : Except Error Version := do
  let (seen, levels) ← deleteFiles [] v.levels edit.deletedFiles
  let levels ← addFiles v.nextFileNumber seen levels edit.addedFiles
  let sorted := fun level => sortLevel level (levels level)
  if (List.range maxLevels).any fun level => level > 0 && overlaps (sorted level) then
    .error .overlappingLevel
  else return { v with levels := sorted }

/-- The replay frontier of an edit. -/
def applyFrontier (v : Version) (edit : VersionEdit) : Except Error Version :=
  match edit.replayFrontier with
  | none => .ok v
  | some frontier =>
    if v.mode ≠ .standalone then .error .modeMismatch
    else if v.frontier.any (frontier < ·) then .error .frontierRegression
    else if v.lastSequence.all (· < frontier) then .error .frontierGap
    else if !v.frontierCovered frontier then .error .frontierGap
    else .ok { v with frontier := some frontier }

/-- The replicated marks of an edit. -/
def applyReplicated (v : Version) (edit : VersionEdit) : Except Error Version :=
  if edit.replicatedAppliedThrough.any fun n =>
      v.mode = .standalone || v.replicatedApplied.any (n < ·) then .error .modeMismatch
  else if edit.maxAppliedMVCC.any fun n =>
      v.mode ≠ .replicatedMVCC || n = 0 || v.maxAppliedMVCC.any (n < ·) then
    .error .sequenceRegression
  else .ok { v with
    replicatedApplied := edit.replicatedAppliedThrough <|> v.replicatedApplied
    maxAppliedMVCC := edit.maxAppliedMVCC <|> v.maxAppliedMVCC }

/-- The last checks of `apply`, and the generation it makes. -/
def publish (v : Version) : Except Error Version :=
  if (v.mode = .standalone && v.replicatedApplied.isSome) ||
      (v.mode ≠ .standalone && v.frontier.isSome) ||
      (v.mode ≠ .replicatedMVCC && v.maxAppliedMVCC.isSome) then .error .modeMismatch
  else if highestFile v.levels ≥ v.nextFileNumber then .error .fileNumberCollision
  else .ok { v with generation := v.generation + 1 }

def apply (v : Version) (edit : VersionEdit) : Except Error Version := do
  validateEditShape edit
  let next ← v.applyIdentity edit
  let next ← next.applyNumbers edit
  let next ← next.applyFiles edit
  let next ← next.applyFrontier edit
  let next ← next.applyReplicated edit
  next.publish

end Version

/-! ### The files of an edit -/

section Files

variable {levels levels' : ℕ → List TableMetadata} {ds : List DeletedFile} {ts : List TableMetadata}
  {t : TableMetadata}

theorem mem_liveTables : t ∈ liveTables levels ↔ ∃ level < maxLevels, t ∈ levels level := by
  simp [liveTables]

/-- The file numbers are unique within each level and differ between levels. -/
theorem unique_iff :
    ((liveTables levels).map (·.fileNumber)).Nodup ↔
      (∀ level < maxLevels, ((levels level).map (·.fileNumber)).Nodup) ∧
        ∀ i < maxLevels, ∀ j < maxLevels, ∀ s ∈ levels i, ∀ t ∈ levels j,
          s.fileNumber = t.fileNumber → i = j := by
  unfold liveTables
  rw [map_flatMap, nodup_flatMap]
  refine and_congr (by simp) ⟨fun h i hi j hj s hs t ht heq => ?_, fun h => ?_⟩
  · by_contra hne
    have hsymm : Std.Symm (Function.onFun List.Disjoint fun level =>
        (levels level).map (·.fileNumber)) := ⟨fun _ _ hd => hd.symm⟩
    have hdisjoint := h.forall (mem_range.mpr hi) (mem_range.mpr hj) hne
    exact hdisjoint (mem_map_of_mem hs) (heq ▸ mem_map_of_mem ht)
  · refine (nodup_range (n := maxLevels)).pairwise_of_forall_ne fun i hi j hj hne => ?_
    intro n hn hn'
    obtain ⟨s, hs, rfl⟩ := mem_map.mp hn
    obtain ⟨t, ht, heq⟩ := mem_map.mp hn'
    exact hne (h i (mem_range.mp hi) j (mem_range.mp hj) s hs t ht heq.symm)

/-- The levels without the deleted files. -/
def remaining (levels : ℕ → List TableMetadata) (ds : List DeletedFile) (level : ℕ) :
    List TableMetadata :=
  (levels level).filter fun t =>
    ¬ ∃ d ∈ ds, d.level.toNat = level ∧ d.fileNumber = t.fileNumber

/-- The levels with the added files. -/
def extended (levels : ℕ → List TableMetadata) (ts : List TableMetadata) (level : ℕ) :
    List TableMetadata :=
  levels level ++ ts.filter (·.level.toNat = level)

variable {tables : List TableMetadata}

theorem eraseP_number (h : (tables.map (·.fileNumber)).Nodup) (n : UInt64) :
    tables.eraseP (·.fileNumber = n) = tables.filter (·.fileNumber ≠ n) := by
  induction tables with
  | nil => rfl
  | cons t rest ih =>
    rw [map_cons, nodup_cons] at h
    by_cases heq : t.fileNumber = n
    · rw [eraseP_cons_of_pos (by simpa using heq), filter_cons_of_neg (by simpa using heq)]
      refine (filter_eq_self.mpr fun s hs => ?_).symm
      simp only [decide_eq_true_eq, ne_eq]
      exact fun hsame => h.1 (mem_map.mpr ⟨s, hs, hsame.trans heq.symm⟩)
    · rw [eraseP_cons_of_neg (by simpa using heq), filter_cons_of_pos (by simpa using heq), ih h.2]

/-- A deletion of files that are all there. -/
theorem deleteFiles_eq_ok {seen seen' : List UInt64}
    (hunique : ∀ level, ((levels level).map (·.fileNumber)).Nodup)
    (hnodup : (ds.map (·.fileNumber)).Nodup) (hfresh : ∀ d ∈ ds, d.fileNumber ∉ seen) :
    Version.deleteFiles seen levels ds = .ok (seen', levels') ↔
      (∀ d ∈ ds, ∃ t ∈ levels d.level.toNat, t.fileNumber = d.fileNumber) ∧
        seen' = (ds.map (·.fileNumber)).reverse ++ seen ∧ levels' = remaining levels ds := by
  induction ds generalizing seen levels with
  | nil =>
    have hall : remaining levels [] = levels := by
      funext level
      simp [remaining]
    rw [hall]
    simp [Version.deleteFiles, eq_comm]
  | cons d rest ih =>
    rw [map_cons, nodup_cons] at hnodup
    rw [Version.deleteFiles, if_neg (hfresh d mem_cons_self)]
    by_cases hfound : ∃ t ∈ levels d.level.toNat, t.fileNumber = d.fileNumber
    · have hkept : ∀ x ∈ rest, x.fileNumber ≠ d.fileNumber := fun x hx heq =>
        hnodup.1 (heq ▸ mem_map_of_mem hx)
      set levels₁ := Function.update levels d.level.toNat
        ((levels d.level.toNat).eraseP (·.fileNumber = d.fileNumber)) with hlevels₁
      have hlevel : ∀ level, levels₁ level = (levels level).filter fun t =>
          ¬ (d.level.toNat = level ∧ d.fileNumber = t.fileNumber) := by
        intro level
        by_cases heq : level = d.level.toNat
        · subst heq
          rw [hlevels₁, Function.update_self, eraseP_number (hunique _)]
          simp [eq_comm]
        · rw [hlevels₁, Function.update_of_ne heq]
          simp [Ne.symm heq]
      rw [if_pos (by simpa using hfound), ih ?_ hnodup.2 ?_]
      · refine and_congr ?_ (and_congr (by simp) ?_)
        · rw [forall_mem_cons, and_iff_right hfound]
          refine forall_congr' fun x => forall_congr' fun hx => exists_congr fun t => ?_
          rw [hlevel]
          simp only [mem_filter, decide_eq_true_eq]
          constructor
          · exact fun h => ⟨h.1.1, h.2⟩
          · exact fun h => ⟨⟨h.1, fun hd => hkept x hx (h.2.symm.trans hd.2.symm)⟩, h.2⟩
        · have hremaining : remaining levels₁ rest = remaining levels (d :: rest) := by
            funext level
            unfold remaining
            rw [hlevel, filter_filter]
            refine filter_congr fun t _ => ?_
            rw [← Bool.decide_and, decide_eq_decide]
            simp only [mem_cons, exists_eq_or_imp, not_or]
            exact And.comm
          rw [hremaining]
      · intro level
        rw [hlevel]
        exact (hunique level).sublist (filter_sublist.map _)
      · intro x hx hmem
        rcases mem_cons.mp hmem with heq | hmem
        · exact hkept x hx heq
        · exact hfresh x (mem_cons_of_mem _ hx) hmem
    · rw [if_neg (by simpa using hfound)]
      exact ⟨nofun, fun h => absurd (h.1 d mem_cons_self) hfound⟩

theorem hasFile_iff {n : UInt64} :
    hasFile levels n = true ↔ ∃ level < maxLevels, ∃ t ∈ levels level, t.fileNumber = n := by
  simp only [hasFile, any_eq_true, mem_liveTables, decide_eq_true_eq]
  constructor
  · rintro ⟨t, ⟨level, hlevel, ht⟩, heq⟩
    exact ⟨level, hlevel, t, ht, heq⟩
  · rintro ⟨level, hlevel, t, ht, heq⟩
    exact ⟨t, ⟨level, hlevel, ht⟩, heq⟩

/-- An addition of files that are all new. -/
theorem addFiles_eq_ok {next : UInt64} {seen : List UInt64}
    (hnodup : (ts.map (·.fileNumber)).Nodup) (hfresh : ∀ t ∈ ts, t.fileNumber ∉ seen) :
    Version.addFiles next seen levels ts = .ok levels' ↔
      (∀ t ∈ ts, hasFile levels t.fileNumber = false ∧ t.fileNumber < next) ∧
        levels' = extended levels ts := by
  induction ts generalizing seen levels with
  | nil =>
    have hall : extended levels [] = levels := by
      funext level
      simp [extended]
    rw [hall, Version.addFiles, Except.ok.injEq]
    exact ⟨fun heq => ⟨nofun, heq.symm⟩, fun h => h.2.symm⟩
  | cons t rest ih =>
    rw [map_cons, nodup_cons] at hnodup
    rw [Version.addFiles, if_neg (hfresh t mem_cons_self), forall_mem_cons]
    cases hhas : hasFile levels t.fileNumber with
    | true => simp
    | false =>
      by_cases hnext : t.fileNumber ≥ next
      · simp [hnext, UInt64.not_lt.mpr hnext]
      · have hkept : ∀ x ∈ rest, x.fileNumber ≠ t.fileNumber := fun x hx heq =>
          hnodup.1 (heq ▸ mem_map_of_mem hx)
        set levels₁ := Function.update levels t.level.toNat (levels t.level.toNat ++ [t])
          with hlevels₁
        have hlevel : ∀ level, levels₁ level = levels level ++
            [t].filter (·.level.toNat = level) := by
          intro level
          by_cases heq : level = t.level.toNat
          · subst heq
            rw [hlevels₁, Function.update_self]
            simp
          · rw [hlevels₁, Function.update_of_ne heq]
            simp [Ne.symm heq]
        have hsame : ∀ x ∈ rest, hasFile levels₁ x.fileNumber = hasFile levels x.fileNumber := by
          intro x hx
          rw [Bool.eq_iff_iff, hasFile_iff, hasFile_iff]
          refine exists_congr fun level => and_congr_right fun _ => ?_
          rw [hlevel]
          constructor
          · rintro ⟨s, hs, heq⟩
            rcases mem_append.mp hs with hs | hs
            · exact ⟨s, hs, heq⟩
            · rw [mem_singleton.mp (mem_filter.mp hs).1] at heq
              exact absurd heq.symm (hkept x hx)
          · rintro ⟨s, hs, heq⟩
            exact ⟨s, mem_append_left _ hs, heq⟩
        rw [if_neg (by simp), if_neg hnext, ih hnodup.2]
        · refine and_congr ?_ ?_
          · rw [and_iff_right ⟨rfl, UInt64.not_le.mp hnext⟩]
            exact forall_congr' fun x => forall_congr' fun hx => by rw [hsame x hx]
          · have hextended : extended levels₁ rest = extended levels (t :: rest) := by
              funext level
              unfold extended
              rw [hlevel, append_assoc, ← filter_append, singleton_append]
            rw [hextended]
        · intro x hx hmem
          rcases mem_cons.mp hmem with heq | hmem
          · exact hkept x hx heq
          · exact hfresh x (mem_cons_of_mem _ hx) hmem

/-! #### Sorted levels -/

instance (level : ℕ) : IsTrans TableMetadata (levelLe level) where
  trans s t u := by
    unfold levelLe
    split_ifs
    · exact fun h h' => le_trans h' h
    · exact le_trans

instance (level : ℕ) : Std.Total (levelLe level) where
  total s t := by
    unfold levelLe
    split_ifs
    · exact le_total _ _
    · exact le_total _ _

variable {level : ℕ}

/-- The order of a level tells files apart. -/
theorem fileNumber_eq_of_levelLe {s t : TableMetadata} (h : levelLe level s t)
    (h' : levelLe level t s) : s.fileNumber = t.fileNumber := by
  unfold levelLe at h h'
  split_ifs at h h' with hzero
  · have heq := le_antisymm h' h
    have hrest := congrArg (fun key => (ofLex (ofLex key).2).2) heq
    exact UInt64.toNat_inj.mp hrest
  · have heq := le_antisymm h h'
    have hrest := congrArg (fun key => (ofLex key).2) heq
    exact UInt64.toNat_inj.mp hrest

/-- A level is determined by the files in it. -/
theorem sortLevel_perm {tables tables' : List TableMetadata} (h : tables.Perm tables')
    (hnodup : (tables.map (·.fileNumber)).Nodup) :
    sortLevel level tables = sortLevel level tables' := by
  have hsort := perm_insertionSort (levelLe level) tables
  have hsort' := perm_insertionSort (levelLe level) tables'
  refine Perm.eq_of_pairwise (fun s t hs ht hle hge => ?_)
    (pairwise_insertionSort _ _) (pairwise_insertionSort _ _)
    (hsort.trans (h.trans hsort'.symm))
  exact inj_on_of_nodup_map hnodup (hsort.mem_iff.mp hs)
    (h.mem_iff.mpr (hsort'.mem_iff.mp ht)) (fileNumber_eq_of_levelLe hle hge)

/-- Tables whose key ranges follow each other. -/
def Leveled (tables : List TableMetadata) : Prop :=
  tables.Pairwise fun s t => s.smallestUser < t.smallestUser ∧ s.largestUser < t.smallestUser

theorem leveled_of_not_overlaps
    (hordered : ∀ t ∈ tables, t.smallestUser ≤ t.largestUser) (h : overlaps tables = false) :
    Leveled tables := by
  induction tables with
  | nil => exact List.Pairwise.nil
  | cons s rest ih =>
    have hs := hordered s mem_cons_self
    have hrest := fun t ht => hordered t (mem_cons_of_mem _ ht)
    rcases rest with - | ⟨t, rest⟩
    · exact pairwise_singleton _ _
    simp only [overlaps, Bool.or_eq_false_iff, decide_eq_false_iff_not, ge_iff_le, not_le] at h
    have ih' := ih hrest h.2
    refine pairwise_cons.mpr ⟨fun u hu => ?_, ih'⟩
    have hfollows : s.largestUser < u.smallestUser := by
      rcases mem_cons.mp hu with rfl | hu
      · exact h.1
      · calc s.largestUser < t.smallestUser := h.1
          _ < u.smallestUser := ((pairwise_cons.mp ih').1 u hu).1
    exact ⟨hs.trans_lt hfollows, hfollows⟩

end Files

/-! ### Well-formed versions -/

/-- A mark never goes back, and stays set. -/
def MarkLe (a b : Option UInt64) : Prop := ∀ x ∈ a, ∃ y ∈ b, x ≤ y

theorem MarkLe.refl (a : Option UInt64) : MarkLe a a := fun x hx => ⟨x, hx, UInt64.le_refl x⟩

theorem MarkLe.trans {a b c : Option UInt64} (h : MarkLe a b) (h' : MarkLe b c) : MarkLe a c := by
  intro x hx
  obtain ⟨y, hy, hxy⟩ := h x hx
  obtain ⟨z, hz, hyz⟩ := h' y hy
  exact ⟨z, hz, UInt64.le_trans hxy hyz⟩

/-- A mark that an edit may only move forward. -/
theorem markLe_orElse {a edit : Option UInt64} (h : ∀ n ∈ edit, ∀ m ∈ a, m ≤ n) :
    MarkLe a (edit <|> a) := by
  cases edit with
  | none => exact MarkLe.refl a
  | some n => exact fun x hx => ⟨n, rfl, h n rfl x hx⟩

namespace Version

variable {v v' : Version} {edit : VersionEdit}

/-- What holds of every version that edits can reach. -/
structure WellFormed (v : Version) : Prop where
  comparator : v.comparator = [] ∨ v.comparator = comparatorName
  unique : ((liveTables v.levels).map (·.fileNumber)).Nodup
  below : ∀ t ∈ liveTables v.levels, t.fileNumber < v.nextFileNumber
  placed : ∀ level, ∀ t ∈ v.levels level, t.Valid ∧ t.level.toNat = level
  leveled : ∀ level, 0 < level → Leveled (v.levels level)
  frontier : MarkLe v.frontier v.lastSequence

/-- The marks of `v'` are not behind those of `v`. -/
structure Advances (v v' : Version) : Prop where
  nextFileNumber : v.nextFileNumber ≤ v'.nextFileNumber
  lastSequence : MarkLe v.lastSequence v'.lastSequence
  frontier : MarkLe v.frontier v'.frontier
  replicatedApplied : MarkLe v.replicatedApplied v'.replicatedApplied
  maxAppliedMVCC : MarkLe v.maxAppliedMVCC v'.maxAppliedMVCC

theorem Advances.refl (v : Version) : v.Advances v :=
  ⟨UInt64.le_refl _, .refl _, .refl _, .refl _, .refl _⟩

/-- The levels of a version after the files of an edit. -/
def filed (v : Version) (edit : VersionEdit) (level : ℕ) : List TableMetadata :=
  sortLevel level (extended (remaining v.levels edit.deletedFiles) edit.addedFiles level)

/-- What the files of an accepted edit satisfy. -/
structure Fits (v : Version) (edit : VersionEdit) (next : UInt64) : Prop where
  deleted : ∀ d ∈ edit.deletedFiles, ∃ t ∈ v.levels d.level.toNat, t.fileNumber = d.fileNumber
  added : ∀ t ∈ edit.addedFiles,
    hasFile (remaining v.levels edit.deletedFiles) t.fileNumber = false ∧ t.fileNumber < next
  apart : ∀ level < maxLevels, 0 < level → overlaps (v.filed edit level) = false

theorem WellFormed.unique_level (h : v.WellFormed) (level : ℕ) :
    ((v.levels level).map (·.fileNumber)).Nodup := by
  by_cases hlevel : level < maxLevels
  · exact (unique_iff.mp h.unique).1 level hlevel
  · have hempty : v.levels level = [] := eq_nil_iff_forall_not_mem.mpr fun t ht =>
      hlevel ((h.placed level t ht).2 ▸ (h.placed level t ht).1.level)
    rw [hempty]
    exact nodup_nil

theorem applyFiles_eq_ok (hunique : ∀ level, ((v.levels level).map (·.fileNumber)).Nodup)
    (hshape : edit.Shaped) :
    v.applyFiles edit = .ok v' ↔
      v.Fits edit v.nextFileNumber ∧ v' = { v with levels := v.filed edit } := by
  obtain ⟨hdeletions, hadditions, hapart⟩ := nodup_append.mp hshape.numbers
  have hfresh : ∀ t ∈ edit.addedFiles,
      t.fileNumber ∉ (edit.deletedFiles.map (·.fileNumber)).reverse ++ [] := fun t ht hmem => by
    rw [append_nil, mem_reverse] at hmem
    exact hapart _ hmem _ (mem_map_of_mem ht) rfl
  have hguard : ((List.range maxLevels).any fun level =>
      level > 0 && overlaps (v.filed edit level)) = true ↔
        ¬ ∀ level < maxLevels, 0 < level → overlaps (v.filed edit level) = false := by
    simp
  unfold applyFiles
  rw [bind_eq_ok]
  constructor
  · rintro ⟨⟨seen, levels⟩, hdelete, hrest⟩
    obtain ⟨hdeleted, rfl, rfl⟩ := (deleteFiles_eq_ok hunique hdeletions (by simp)).mp hdelete
    obtain ⟨levels', hadd, hsorted⟩ := bind_eq_ok.mp hrest
    obtain ⟨hadded, rfl⟩ := (addFiles_eq_ok hadditions hfresh).mp hadd
    dsimp only at hsorted
    split_ifs at hsorted with hoverlap
    cases hsorted
    exact ⟨⟨hdeleted, hadded, not_not.mp (hguard.not.mp hoverlap)⟩, rfl⟩
  · rintro ⟨hfits, rfl⟩
    refine ⟨_, (deleteFiles_eq_ok hunique hdeletions (by simp)).mpr ⟨hfits.deleted, rfl, rfl⟩, ?_⟩
    rw [bind_eq_ok]
    refine ⟨_, (addFiles_eq_ok hadditions hfresh).mpr ⟨hfits.added, rfl⟩, ?_⟩
    exact if_neg (hguard.not.mpr (not_not.mpr hfits.apart))

/-! #### The order of the files -/

variable {levels : ℕ → List TableMetadata}

theorem remaining_perm {ds ds' : List DeletedFile}
    (h : ds.Perm ds') : remaining levels ds = remaining levels ds' := by
  funext level
  refine filter_congr fun t _ => ?_
  simp only [h.mem_iff]

/-- A level holds no file twice once the files of a fitting edit are in it. -/
theorem nodup_filed (hlevels : ∀ level, ((v.levels level).map (·.fileNumber)).Nodup)
    (hshape : edit.Shaped) {next : UInt64} (hfits : v.Fits edit next) (level : ℕ) :
    ((extended (remaining v.levels edit.deletedFiles) edit.addedFiles level).map
      (·.fileNumber)).Nodup := by
  have hadditions := (nodup_append.mp hshape.numbers).2.1
  unfold extended
  rw [map_append]
  refine nodup_append.mpr ⟨(hlevels level).sublist (filter_sublist.map _),
    hadditions.sublist (filter_sublist.map _), fun n hn n' hn' heq => ?_⟩
  obtain ⟨s, hs, rfl⟩ := mem_map.mp hn
  obtain ⟨t, ht, rfl⟩ := mem_map.mp hn'
  obtain ⟨ht, hlevel⟩ := mem_filter.mp ht
  have hlt : level < maxLevels := of_decide_eq_true hlevel ▸
    (valid_of_validateTable (hshape.added t ht)).level
  have hhas : hasFile (remaining v.levels edit.deletedFiles) t.fileNumber = true :=
    hasFile_iff.mpr ⟨level, hlt, s, hs, heq⟩
  rw [(hfits.added t ht).1] at hhas
  cases hhas

/-! ### When an edit is accepted -/

/-- The version that an accepted edit leads to. -/
def updated (v : Version) (edit : VersionEdit) : Version where
  generation := v.generation + 1
  comparator := edit.comparator.getD v.comparator
  levels := v.filed edit
  nextFileNumber := edit.nextFileNumber.getD v.nextFileNumber
  lastSequence := edit.lastSequence <|> v.lastSequence
  frontier := edit.replayFrontier <|> v.frontier
  mode := (edit.storageMode.bind Mode.ofByte).getD v.mode
  modeExplicit := edit.storageMode.isSome || v.modeExplicit
  replicatedApplied := edit.replicatedAppliedThrough <|> v.replicatedApplied
  maxAppliedMVCC := edit.maxAppliedMVCC <|> v.maxAppliedMVCC

/-- The marks of a version belong to its mode. -/
structure Consistent (v : Version) : Prop where
  replicated : v.mode = .standalone → v.replicatedApplied = none
  frontier : v.mode ≠ .standalone → v.frontier = none
  maximum : v.mode ≠ .replicatedMVCC → v.maxAppliedMVCC = none

/-- What `apply` asks of an edit. -/
structure Accepts (v : Version) (edit : VersionEdit) : Prop where
  shape : validateEditShape edit = .ok ()
  generation : v.generation ≠ maxUint64
  name : ∀ name ∈ edit.comparator, name = comparatorName ∧ (v.comparator = [] ∨ v.comparator = name)
  comparator : edit.comparator.getD v.comparator ≠ []
  mode : ∀ byte ∈ edit.storageMode,
    (Mode.ofByte byte).isSome ∧ v.modeExplicit = false ∧ v.generation = 0
  next : ∀ n ∈ edit.nextFileNumber, v.nextFileNumber ≤ n ∧ n ≠ 0 ∧ n.toNat ≤ maxFileNumber + 1
  last : ∀ n ∈ edit.lastSequence, ∀ m ∈ v.lastSequence, m ≤ n
  fits : v.Fits edit (v.updated edit).nextFileNumber
  frontier : ∀ f ∈ edit.replayFrontier, (v.updated edit).mode = .standalone ∧
    (∀ g ∈ v.frontier, g ≤ f) ∧ (∃ l ∈ (v.updated edit).lastSequence, f ≤ l) ∧
    frontierCovered { v with levels := v.filed edit } f = true
  replicated : ∀ n ∈ edit.replicatedAppliedThrough, (v.updated edit).mode ≠ .standalone ∧
    ∀ m ∈ v.replicatedApplied, m ≤ n
  maximum : ∀ n ∈ edit.maxAppliedMVCC, (v.updated edit).mode = .replicatedMVCC ∧ n ≠ 0 ∧
    ∀ m ∈ v.maxAppliedMVCC, m ≤ n
  consistent : (v.updated edit).Consistent
  highest : highestFile (v.filed edit) < (v.updated edit).nextFileNumber

/-! #### The parts of `apply` -/

theorem applyIdentity_eq_ok :
    v.applyIdentity edit = .ok v' ↔
      (v.generation ≠ maxUint64 ∧
        (∀ name ∈ edit.comparator, name = comparatorName ∧
          (v.comparator = [] ∨ v.comparator = name)) ∧
        edit.comparator.getD v.comparator ≠ [] ∧
        ∀ byte ∈ edit.storageMode,
          (Mode.ofByte byte).isSome ∧ v.modeExplicit = false ∧ v.generation = 0) ∧
      v' = { v with
        comparator := edit.comparator.getD v.comparator
        mode := (edit.storageMode.bind Mode.ofByte).getD v.mode
        modeExplicit := edit.storageMode.isSome || v.modeExplicit } := by
  have hname : (edit.comparator.any fun name =>
      name ≠ comparatorName || v.comparator ≠ [] && v.comparator ≠ name) = true ↔
      ¬ ∀ name ∈ edit.comparator, name = comparatorName ∧
        (v.comparator = [] ∨ v.comparator = name) := by
    cases edit.comparator with
    | none => simp
    | some name =>
      simp only [Option.any_some, Bool.or_eq_true, Bool.and_eq_true, decide_eq_true_eq,
        Option.mem_some_iff, forall_eq']
      tauto
  unfold applyIdentity
  rw [ite_error_eq_ok, ite_error_eq_ok, ite_error_eq_ok, hname, not_not,
    and_assoc, and_assoc, and_assoc]
  refine and_congr_right fun _ => and_congr_right fun _ => and_congr_right fun _ => ?_
  cases hmode : edit.storageMode with
  | none => exact ⟨fun h => ⟨nofun, (Except.ok.inj h).symm⟩, fun h => congrArg _ h.2.symm⟩
  | some byte =>
    simp only [Option.mem_some_iff, forall_eq', Option.bind_some, Option.isSome_some, Bool.true_or]
    cases Mode.ofByte byte with
    | none => simp
    | some mode =>
      dsimp only
      rw [ite_error_eq_ok]
      simp only [Option.isSome_some, true_and, Bool.or_eq_true, decide_eq_true_eq, not_or,
        Bool.not_eq_true, ne_eq, not_not, Except.ok.injEq, Option.getD_some]
      rw [eq_comm (b := v')]

theorem applyNumbers_eq_ok :
    v.applyNumbers edit = .ok v' ↔
      ((∀ n ∈ edit.nextFileNumber, v.nextFileNumber ≤ n ∧ n ≠ 0 ∧ n.toNat ≤ maxFileNumber + 1) ∧
        ∀ n ∈ edit.lastSequence, ∀ m ∈ v.lastSequence, m ≤ n) ∧
      v' = { v with
        nextFileNumber := edit.nextFileNumber.getD v.nextFileNumber
        lastSequence := edit.lastSequence <|> v.lastSequence } := by
  unfold applyNumbers
  rw [ite_error_eq_ok, ite_error_eq_ok, and_assoc]
  refine and_congr ?_ (and_congr ?_ (by rw [Except.ok.injEq, eq_comm]))
  · cases edit.nextFileNumber with
    | none => simp
    | some n => simp [not_or, and_assoc]
  · cases edit.lastSequence with
    | none => simp
    | some n => cases v.lastSequence <;> simp

theorem applyFrontier_eq_ok :
    v.applyFrontier edit = .ok v' ↔
      (∀ f ∈ edit.replayFrontier, v.mode = .standalone ∧ (∀ g ∈ v.frontier, g ≤ f) ∧
        (∃ l ∈ v.lastSequence, f ≤ l) ∧ v.frontierCovered f = true) ∧
      v' = { v with frontier := edit.replayFrontier <|> v.frontier } := by
  unfold applyFrontier
  cases edit.replayFrontier with
  | none => exact ⟨fun h => ⟨nofun, (Except.ok.inj h).symm⟩, fun h => congrArg _ h.2.symm⟩
  | some f =>
    rw [ite_error_eq_ok, ite_error_eq_ok, ite_error_eq_ok, ite_error_eq_ok]
    simp only [Option.mem_some_iff, forall_eq', and_assoc]
    refine and_congr not_not (and_congr ?_ (and_congr ?_ (and_congr (by simp) ?_)))
    · cases v.frontier <;> simp
    · cases v.lastSequence <;> simp
    · rw [Except.ok.injEq, eq_comm]
      rfl

theorem applyReplicated_eq_ok :
    v.applyReplicated edit = .ok v' ↔
      ((∀ n ∈ edit.replicatedAppliedThrough, v.mode ≠ .standalone ∧
          ∀ m ∈ v.replicatedApplied, m ≤ n) ∧
        ∀ n ∈ edit.maxAppliedMVCC, v.mode = .replicatedMVCC ∧ n ≠ 0 ∧
          ∀ m ∈ v.maxAppliedMVCC, m ≤ n) ∧
      v' = { v with
        replicatedApplied := edit.replicatedAppliedThrough <|> v.replicatedApplied
        maxAppliedMVCC := edit.maxAppliedMVCC <|> v.maxAppliedMVCC } := by
  unfold applyReplicated
  rw [ite_error_eq_ok, ite_error_eq_ok, and_assoc]
  refine and_congr ?_ (and_congr ?_ (by rw [Except.ok.injEq, eq_comm]))
  · cases edit.replicatedAppliedThrough with
    | none => simp
    | some n => cases v.replicatedApplied <;> simp
  · cases edit.maxAppliedMVCC with
    | none => simp
    | some n => cases v.maxAppliedMVCC <;> simp [and_assoc]

theorem publish_eq_ok :
    v.publish = .ok v' ↔
      (v.Consistent ∧ highestFile v.levels < v.nextFileNumber) ∧
        v' = { v with generation := v.generation + 1 } := by
  unfold publish
  rw [ite_error_eq_ok, ite_error_eq_ok, and_assoc]
  refine and_congr ⟨fun h => ?_, fun h => ?_⟩
    (and_congr (by simp) (by rw [Except.ok.injEq, eq_comm]))
  · simp only [Bool.or_eq_true, Bool.and_eq_true, decide_eq_true_eq, not_or, not_and,
      Option.not_isSome_iff_eq_none] at h
    exact ⟨h.1.1, h.1.2, h.2⟩
  · simp only [Bool.or_eq_true, Bool.and_eq_true, decide_eq_true_eq, not_or, not_and,
      Option.not_isSome_iff_eq_none]
    exact ⟨⟨h.replicated, h.frontier⟩, h.maximum⟩

/-- `apply` accepts an edit exactly when all its conditions hold, and then makes one version. -/
theorem apply_eq_ok (hunique : ∀ level, ((v.levels level).map (·.fileNumber)).Nodup) :
    v.apply edit = .ok v' ↔ v.Accepts edit ∧ v' = v.updated edit := by
  unfold apply
  simp only [bind_eq_ok, applyIdentity_eq_ok, applyNumbers_eq_ok, applyFrontier_eq_ok,
    applyReplicated_eq_ok, publish_eq_ok]
  constructor
  · rintro ⟨⟨⟩, hshape, v₁, ⟨⟨hgeneration, hname, hcomparator, hmode⟩, rfl⟩, v₂,
      ⟨⟨hnext, hlast⟩, rfl⟩, v₃, hfiles, v₄, ⟨hfrontier, rfl⟩, v₅, ⟨⟨hreplicated, hmaximum⟩, rfl⟩,
      ⟨hconsistent, hhighest⟩, rfl⟩
    obtain ⟨hfits, rfl⟩ :=
      (applyFiles_eq_ok (by exact hunique) (shaped_of_validateEditShape hshape)).mp hfiles
    exact ⟨⟨hshape, hgeneration, hname, hcomparator, hmode, hnext, hlast,
      { hfits with }, hfrontier, hreplicated, hmaximum,
      { hconsistent with }, hhighest⟩, rfl⟩
  · rintro ⟨h, rfl⟩
    refine ⟨(), h.shape, _, ⟨⟨h.generation, h.name, h.comparator, h.mode⟩, rfl⟩, _,
      ⟨⟨h.next, h.last⟩, rfl⟩, _,
      (applyFiles_eq_ok (by exact hunique) (shaped_of_validateEditShape h.shape)).mpr
        ⟨⟨h.fits.deleted, h.fits.added, h.fits.apart⟩, rfl⟩, _, ⟨h.frontier, rfl⟩, _,
      ⟨⟨h.replicated, h.maximum⟩, rfl⟩, ⟨?_, h.highest⟩, rfl⟩
    exact ⟨h.consistent.replicated, h.consistent.frontier, h.consistent.maximum⟩

theorem WellFormed.apply_eq_ok (hv : v.WellFormed) :
    v.apply edit = .ok v' ↔ v.Accepts edit ∧ v' = v.updated edit :=
  Version.apply_eq_ok hv.unique_level

/-! ### What accepted edits keep -/

theorem Accepts.shaped (h : v.Accepts edit) : edit.Shaped := shaped_of_validateEditShape h.shape

/-- No mark goes back. -/
theorem Accepts.advances (h : v.Accepts edit) : v.Advances (v.updated edit) where
  nextFileNumber := by
    cases hnext : edit.nextFileNumber with
    | none => simp [updated, hnext]
    | some n => simpa [updated, hnext] using (h.next n hnext).1
  lastSequence := markLe_orElse h.last
  frontier := markLe_orElse fun f hf => (h.frontier f hf).2.1
  replicatedApplied := markLe_orElse fun n hn => (h.replicated n hn).2
  maxAppliedMVCC := markLe_orElse fun n hn => (h.maximum n hn).2.2

theorem Accepts.comparator_updated (h : v.Accepts edit) (hv : v.WellFormed) :
    (v.updated edit).comparator = comparatorName := by
  have hset := h.comparator
  show edit.comparator.getD v.comparator = comparatorName
  cases hname : edit.comparator with
  | none =>
    rw [hname] at hset
    exact hv.comparator.resolve_left hset
  | some name => exact (h.name name hname).1

variable {ds : List DeletedFile} {ts : List TableMetadata}

/-- An edit whose files are listed in another order has the same effect. -/
theorem apply_perm (hdeletions : ds.Perm edit.deletedFiles) (hadditions : ts.Perm edit.addedFiles)
    (hv : v.WellFormed) (h : v.apply edit = .ok v') :
    v.apply { edit with deletedFiles := ds, addedFiles := ts } = .ok v' := by
  obtain ⟨ha, rfl⟩ := hv.apply_eq_ok.mp h
  -- the sorted levels are those of the other order
  have hfiled : v.filed { edit with deletedFiles := ds, addedFiles := ts } = v.filed edit := by
    funext level
    refine (sortLevel_perm ?_ (nodup_filed hv.unique_level ha.shaped ha.fits level)).symm
    rw [remaining_perm hdeletions]
    exact (hadditions.symm.filter _).append_left _
  have hupdated :
      v.updated { edit with deletedFiles := ds, addedFiles := ts } = v.updated edit := by
    unfold updated
    rw [hfiled]
  refine hv.apply_eq_ok.mpr ⟨{ ha with
    shape := validateEditShape_perm hdeletions hadditions ha.shape
    fits := ?_
    frontier := ?_
    consistent := hupdated ▸ ha.consistent
    highest := ?_ }, hupdated.symm⟩
  · refine ⟨fun d hd => ha.fits.deleted d (hdeletions.mem_iff.mp hd), fun t ht => ?_, ?_⟩
    · dsimp only
      rw [remaining_perm hdeletions]
      exact ha.fits.added t (hadditions.mem_iff.mp ht)
    · rw [hfiled]
      exact ha.fits.apart
  · rw [hfiled]
    exact ha.frontier
  · rw [hfiled]
    exact ha.highest

/-- Accepted edits keep versions well formed. -/
theorem WellFormed.apply (hv : v.WellFormed) (h : v.apply edit = .ok v') : v'.WellFormed := by
  obtain ⟨ha, rfl⟩ := hv.apply_eq_ok.mp h
  have hfits := ha.fits
  have hshape := ha.shaped
  -- a file of a level was there before or is new
  have hmem : ∀ level, ∀ t ∈ v.filed edit level,
      (t ∈ v.levels level ∧ t ∈ remaining v.levels edit.deletedFiles level) ∨
        (t ∈ edit.addedFiles ∧ t.level.toNat = level) := by
    intro level t ht
    have ht' := (perm_insertionSort _ _).mem_iff.mp ht
    rcases mem_append.mp ht' with hold | hnew
    · exact .inl ⟨(mem_filter.mp hold).1, hold⟩
    · exact .inr ⟨(mem_filter.mp hnew).1, of_decide_eq_true (mem_filter.mp hnew).2⟩
  have hplaced : ∀ level, ∀ t ∈ v.filed edit level, t.Valid ∧ t.level.toNat = level := by
    intro level t ht
    rcases hmem level t ht with ⟨hold, -⟩ | ⟨hnew, hlevel⟩
    · exact hv.placed level t hold
    · exact ⟨valid_of_validateTable (hshape.added t hnew), hlevel⟩
  have hfrontier : MarkLe (v.updated edit).frontier (v.updated edit).lastSequence := by
    intro f hf
    cases hedit : edit.replayFrontier with
    | none =>
      rw [show (v.updated edit).frontier = v.frontier by simp [updated, hedit]] at hf
      exact hv.frontier.trans ha.advances.lastSequence f hf
    | some g =>
      obtain rfl : g = f := by simpa [updated, hedit] using hf
      exact (ha.frontier g hedit).2.2.1
  refine ⟨.inr (ha.comparator_updated hv), ?_, ?_, hplaced, ?_, hfrontier⟩
  · refine unique_iff.mpr ⟨fun level _ => ?_, fun i hi j hj s hs t ht heq => ?_⟩
    · exact ((perm_insertionSort _ _).map _).nodup_iff.mpr
        (nodup_filed hv.unique_level hshape hfits level)
    · have hadditions := (nodup_append.mp hshape.numbers).2.1
      have hnot : ∀ level < maxLevels, ∀ old ∈ remaining v.levels edit.deletedFiles level,
          ∀ new ∈ edit.addedFiles, old.fileNumber ≠ new.fileNumber := by
        intro level hlevel old hold new hnew heq
        have hhas := hasFile_iff.mpr ⟨level, hlevel, old, hold, heq⟩
        rw [(hfits.added new hnew).1] at hhas
        cases hhas
      rcases hmem i s hs with ⟨hs, hs'⟩ | ⟨hs, hlevel⟩ <;>
        rcases hmem j t ht with ⟨ht, ht'⟩ | ⟨ht, hlevel'⟩
      · exact (unique_iff.mp hv.unique).2 i hi j hj s hs t ht heq
      · exact absurd heq (hnot i hi s hs' t ht)
      · exact absurd heq.symm (hnot j hj t ht' s hs)
      · rw [← hlevel, ← hlevel', inj_on_of_nodup_map hadditions hs ht heq]
  · intro t ht
    obtain ⟨level, hlevel, ht⟩ := mem_liveTables.mp ht
    rcases hmem level t ht with ⟨hold, -⟩ | ⟨hnew, -⟩
    · exact UInt64.lt_of_lt_of_le (hv.below t (mem_liveTables.mpr ⟨level, hlevel, hold⟩))
        ha.advances.nextFileNumber
    · exact (hfits.added t hnew).2
  · intro level hpositive
    by_cases hlevel : level < maxLevels
    · exact leveled_of_not_overlaps (fun t ht => (hplaced level t ht).1.ordered)
        (hfits.apart level hlevel hpositive)
    · have hempty : v.filed edit level = [] := eq_nil_iff_forall_not_mem.mpr fun t ht =>
        hlevel ((hplaced level t ht).2 ▸ (hplaced level t ht).1.level)
      show Leveled (v.filed edit level)
      rw [hempty]
      exact List.Pairwise.nil

theorem wellFormed_initialVersion : initialVersion.WellFormed where
  comparator := .inl rfl
  unique := by
    rw [show liveTables initialVersion.levels = [] from rfl]
    exact nodup_nil
  below := by simp [liveTables, initialVersion]
  placed := by simp [initialVersion]
  leveled := fun _ _ => List.Pairwise.nil
  frontier := .refl _

/-! ### Histories and their replay -/

/-- An edit that is rejected leaves the version as it is. -/
def attempt (v : Version) (edit : VersionEdit) : Version :=
  match v.apply edit with
  | .ok next => next
  | .error _ => v

/-- The edits that are accepted, one after the other. -/
def accepted : Version → List VersionEdit → List VersionEdit
  | _, [] => []
  | v, edit :: rest =>
    match v.apply edit with
    | .ok next => edit :: accepted next rest
    | .error _ => accepted v rest

/-- The callback of `recoverManifest`. -/
def applyRecord (v : Version) (record : Wal.Record) : Except Error Version := do
  let edit ← (decodeVersionEdit record.payload).mapError
    (.wrap ("decode VersionEdit " ++ toString record.number))
  (v.apply edit).mapError (.wrap ("apply VersionEdit " ++ toString record.number))

theorem attempt_cases (v : Version) (edit : VersionEdit) :
    (v.apply edit = .ok (v.attempt edit)) ∨
      ((∃ err, v.apply edit = .error err) ∧ v.attempt edit = v) := by
  unfold attempt
  rcases h : v.apply edit with err | next
  · exact .inr ⟨⟨err, rfl⟩, rfl⟩
  · exact .inl rfl

theorem WellFormed.attempt (hv : v.WellFormed) (edit : VersionEdit) :
    (v.attempt edit).WellFormed := by
  rcases v.attempt_cases edit with hok | ⟨-, heq⟩
  · exact hv.apply hok
  · exact heq.symm ▸ hv

theorem WellFormed.advances (hv : v.WellFormed) (edit : VersionEdit) :
    v.Advances (v.attempt edit) := by
  rcases v.attempt_cases edit with hok | ⟨-, heq⟩
  · obtain ⟨ha, heq⟩ := hv.apply_eq_ok.mp hok
    exact heq ▸ ha.advances
  · exact heq.symm ▸ .refl v

theorem WellFormed.foldl_attempt (hv : v.WellFormed) (edits : List VersionEdit) :
    (edits.foldl Version.attempt v).WellFormed := by
  induction edits generalizing v with
  | nil => exact hv
  | cons edit rest ih => exact ih (hv.attempt edit)

variable {edits : List VersionEdit} {records : List Wal.Record}

/-- The stored edits lead to the version that the edits themselves led to. -/
theorem WellFormed.replay (hv : v.WellFormed) {payloads : List Bytes}
    (hencode : (v.accepted edits).mapM encodeVersionEdit = .ok payloads)
    (hrecords : records.map (·.payload) = payloads) :
    records.foldlM applyRecord v = .ok (edits.foldl Version.attempt v) := by
  induction edits generalizing v payloads records with
  | nil =>
    cases hencode
    rw [map_eq_nil_iff.mp hrecords]
    rfl
  | cons edit rest ih =>
    rw [foldl_cons, accepted] at *
    unfold Version.attempt
    rcases h : v.apply edit with err | next
    · rw [h] at hencode
      exact ih hv hencode hrecords
    · rw [h] at hencode
      rw [mapM_cons] at hencode
      obtain ⟨payload, hpayload, hencode⟩ := bind_eq_ok.mp hencode
      obtain ⟨more, hmore, hcons⟩ := bind_eq_ok.mp hencode
      cases hcons
      obtain ⟨record, records, rfl, hfirst, hrest⟩ := map_eq_cons_iff.mp hrecords
      obtain ⟨hdeletions, hadditions⟩ := canonical_perm edit
      have happly : v.apply edit.canonical = .ok next := apply_perm hdeletions hadditions hv h
      have hstep : v.applyRecord record = .ok next := by
        unfold applyRecord
        rw [hfirst, decodeVersionEdit_encodeVersionEdit hpayload]
        show (v.apply edit.canonical).mapError _ = _
        rw [happly]
        rfl
      rw [foldlM_cons, hstep, ok_bind]
      exact ih (hv.apply h) hmore hrest

/-- A version whose comparator is not set has accepted nothing yet. -/
theorem comparator_foldl_attempt (hv : v.WellFormed)
    (h : v.comparator = comparatorName ∨ v.accepted edits ≠ []) :
    (edits.foldl Version.attempt v).comparator = comparatorName := by
  induction edits generalizing v with
  | nil => exact h.resolve_right (not_not.mpr rfl)
  | cons edit rest ih =>
    refine ih (hv.attempt edit) ?_
    unfold Version.attempt
    rw [accepted] at h
    rcases hedit : v.apply edit with err | next
    · rw [hedit] at h
      exact h
    · obtain ⟨ha, rfl⟩ := hv.apply_eq_ok.mp hedit
      exact .inl (ha.comparator_updated hv)

end Version

/-- `recoverManifest`, on the contents of the file. -/
def recoverManifest (update : Wal.Update) (data : Bytes) :
    Except Error (Version × Wal.RecoveryResult) :=
  let (records, result, scan) := Wal.recover update data
  match records.foldlM Version.applyRecord initialVersion, scan with
  | .error err, _ => .error (.wrap "recover Manifest" (.join .manifestCorrupt err))
  | .ok _, some err => .error (.wrap "recover Manifest" (.join .manifestCorrupt (.wal err)))
  | .ok v, none =>
    if records = [] ∨ v.comparator ≠ comparatorName then
      .error (.join .manifestCorrupt .comparatorMismatch)
    else .ok (v, result)

/-- The version that a list of edits leads to, each of which may be rejected. -/
def history (edits : List VersionEdit) : Version := edits.foldl Version.attempt initialVersion

/-- Every version that edits can reach is well formed, no edit moves a mark back or, when it is
rejected, changes anything, and a manifest file with the accepted edits recovers to it. -/
theorem history_sound (update : Wal.Update) (edits : List VersionEdit) :
    (history edits).WellFormed ∧
      (∀ edit, (history edits).Advances (history (edits ++ [edit]))) ∧
      (∀ edit err, (history edits).apply edit = .error err →
        history (edits ++ [edit]) = history edits) ∧
      ∀ payloads, (initialVersion.accepted edits).mapM encodeVersionEdit = .ok payloads →
        payloads ≠ [] →
        ∃ s result, Wal.run update (payloads.map .append) = .ok s ∧
          recoverManifest update s.file = .ok (history edits, result) := by
  have hinitial := Version.wellFormed_initialVersion
  have hwell : (history edits).WellFormed := hinitial.foldl_attempt edits
  have hnext : ∀ edit, history (edits ++ [edit]) = (history edits).attempt edit := fun edit => by
    unfold history
    rw [foldl_append]
    rfl
  refine ⟨hwell, fun edit => ?_, fun edit err herr => ?_, fun payloads hencode hnonempty => ?_⟩
  · rw [hnext]
    exact hwell.advances edit
  · rw [hnext]
    rcases (history edits).attempt_cases edit with hok | ⟨-, heq⟩
    · rw [herr] at hok
      cases hok
    · exact heq
  · have hsize : ∀ payload ∈ payloads, payload.length ≤ Wal.maxRecordSize := fun payload hmem => by
      obtain ⟨edit, -, hedit⟩ := mem_of_mapM hencode hmem
      exact (length_encodeVersionEdit hedit).trans (by decide)
    obtain ⟨s, hrun, hlog, hlaid⟩ := @Wal.run_appends update _ hsize
    obtain ⟨hcut, -⟩ := hlaid.whole
    have hrecovers := hcut.recovers
    rcases hrecover : Wal.recover update s.file with ⟨records, result, scan⟩
    have hrecords := hrecovers.records
    have hscan := hrecovers.err
    rw [hrecover] at hrecords hscan
    obtain rfl : scan = none := hscan
    have hpayloads : records.map (·.payload) = payloads := by
      rw [← hlog, ← show records.map _ = s.log from hrecords, map_map]
      rfl
    have hreplay := hinitial.replay hencode hpayloads
    refine ⟨s, result, hrun, ?_⟩
    unfold recoverManifest
    rw [hrecover]
    dsimp only
    rw [hreplay]
    refine if_neg (not_or.mpr ⟨fun hnil => hnonempty ?_, not_not.mpr ?_⟩)
    · rw [← hpayloads, hnil, map_nil]
    · refine Version.comparator_foldl_attempt hinitial (.inr fun hnil => hnonempty ?_)
      rw [hnil] at hencode
      cases hencode
      rfl

/-- A table of one entry. -/
def oneEntry (level : UInt32) (fileNumber : UInt64) : TableMetadata where
  level := level
  fileNumber := fileNumber
  flushGeneration := 1
  fileSize := 200
  entryCount := 1
  deletionCount := 0
  rawKeyValueBytes := 2
  dataBlockCount := 1
  smallestSequence := 0
  largestSequence := 0
  smallestInternal := { userKey := [97] }
  largestInternal := { userKey := [97] }
  smallestUser := [97]
  largestUser := [97]

/-- The edit of `Create`, one that reserves file numbers, a flush, the same file once more, which
is refused, and the compaction of the flushed table. -/
def createdEdits : List VersionEdit :=
  [{ comparator := some comparatorName, nextFileNumber := some 1 }, { nextFileNumber := some 3 },
    { lastSequence := some 0, addedFiles := [oneEntry 0 1] }, { addedFiles := [oneEntry 0 1] },
    { deletedFiles := [⟨0, 1⟩], addedFiles := [oneEntry 1 2] }]

theorem history_sound_created :
    ∃ payloads, (initialVersion.accepted createdEdits).mapM encodeVersionEdit = .ok payloads ∧
      payloads.length = 4 ∧ liveTables (history createdEdits).levels = [oneEntry 1 2] ∧
      ∃ s result,
        Wal.run (fun crc bytes => crc + bytes.length.toUInt32) (payloads.map .append) = .ok s ∧
        recoverManifest (fun crc bytes => crc + bytes.length.toUInt32) s.file =
          .ok (history createdEdits, result) :=
  ⟨(initialVersion.accepted createdEdits).map fun edit =>
      (encodeVersionEdit edit).toOption.getD [],
    by decide +kernel, by decide +kernel, by decide +kernel,
    (history_sound _ createdEdits).2.2.2 _ (by decide +kernel) (by decide +kernel)⟩

end RivetDB.Manifest
