import RivetDB.Order.Search
import RivetDB.Storage.Bloom
import RivetDB.Storage.Tables
import Mathlib.Data.List.Sort
import Mathlib.Data.Prod.Lex

/-!
# SSTables and the manifest

The manifest lists the live tables by level and records how far the durable state
reaches: the replay frontier of the write-ahead log in standalone mode, the applied
Raft index in the replicated modes.  An edit deletes and adds files and moves these
marks; `Manifest.apply` checks it as `Version.apply` does.

Level 0 holds flushed tables, whose key ranges may overlap.  The tables of any other
level are sorted and do not overlap, so a point read looks at one of them.
-/

namespace RivetDB.Storage

open List
open scoped ByteOrder

def maxUint64 : ℕ := 2 ^ 64 - 1

def maxUint32 : ℕ := 2 ^ 32 - 1

/-- `sstable.MaxFileNumber`. -/
def maxFileNumber : ℕ := 999999999999

def maxLevels : ℕ := 8

def maxChangesPerEdit : ℕ := 4096

/-- `StorageMode`. -/
inductive Mode where
  | standalone
  | replicated
  | replicatedMVCC
deriving DecidableEq, Repr

/-! ### SSTables -/

/-- The user keys whose hashes `Writer.Add` collects: each key of the sorted stream
once. -/
def bloomUsers : Option Bytes → List Version → List Bytes
  | _, [] => []
  | last, v :: rest =>
    if last = some v.key then bloomUsers last rest else v.key :: bloomUsers (some v.key) rest

theorem mem_bloomUsers {last : Option Bytes} {entries : List Version} {v : Version}
    (h : v ∈ entries) : last = some v.key ∨ v.key ∈ bloomUsers last entries := by
  induction entries generalizing last with
  | nil => cases h
  | cons w rest ih =>
    rw [bloomUsers]
    rcases mem_cons.mp h with rfl | h
    · split_ifs with heq
      · exact .inl heq
      · exact .inr mem_cons_self
    · split_ifs with heq
      · exact ih h
      · rcases @ih (some w.key) h with heq' | hmem
        · right
          rw [← Option.some.inj heq']
          exact mem_cons_self
        · exact .inr (mem_cons_of_mem _ hmem)

/-- A finished table and what the manifest records about it. -/
structure SSTable where
  fileNumber : ℕ
  flushGeneration : ℕ
  smallestSequence : ℕ
  largestSequence : ℕ
  enableBloom : Bool
  run : Run
  nonempty : run.entries ≠ []
  filterFits : enableBloom = true →
    Bloom.bitCount (bloomUsers none run.entries).length ≤ maxUint32

namespace SSTable

variable {t : SSTable} {v : Version}

def smallestUser (t : SSTable) : Bytes := (t.run.entries.head t.nonempty).key

def largestUser (t : SSTable) : Bytes := (t.run.entries.getLast t.nonempty).key

/-- `MayContain`. -/
def mayContain (t : SSTable) (key : Bytes) : Bool :=
  if t.enableBloom then
    Bloom.mayContain
      (Bloom.encodeBloom ((bloomUsers none t.run.entries).map Bloom.hashBloomKey)) key
  else true

/-- `tableCandidate`. -/
def candidate (t : SSTable) (key : Bytes) (target : ℕ) : Option Version :=
  if t.mayContain key then t.run.getCandidate key target else none

theorem mayContain_of_mem (h : v ∈ t.run.entries) : t.mayContain v.key = true := by
  unfold mayContain
  split_ifs with hbloom
  · have hmem := (@mem_bloomUsers none _ _ h).resolve_left (by simp)
    refine Bloom.mayContain_encodeBloom hmem ?_
    refine Nat.lt_of_le_of_lt (t.filterFits hbloom) ?_
    decide
  · rfl

theorem smallestUser_le (h : v ∈ t.run.entries) : t.smallestUser ≤ v.key := by
  have hsorted := t.run.sorted
  unfold smallestUser
  rw [← cons_head_tail t.nonempty] at h hsorted
  rcases mem_cons.mp h with heq | h
  · rw [← heq]
  · exact Version.key_le_of_precedes ((pairwise_cons.mp hsorted).1 v h)

theorem le_largestUser (h : v ∈ t.run.entries) : v.key ≤ t.largestUser := by
  have hsorted := t.run.sorted
  unfold largestUser
  rw [← dropLast_append_getLast t.nonempty] at h hsorted
  rcases mem_append.mp h with h | h
  · exact Version.key_le_of_precedes ((pairwise_append.mp hsorted).2.2 v h _ mem_cons_self)
  · rw [mem_singleton.mp h]

theorem smallestUser_le_largestUser (t : SSTable) : t.smallestUser ≤ t.largestUser :=
  smallestUser_le (t.run.entries.getLast_mem t.nonempty)

/-- A filter that reports a key as absent is right, so the table has no candidate. -/
theorem candidate_eq (t : SSTable) (key : Bytes) (target : ℕ) :
    t.candidate key target = t.run.getCandidate key target := by
  unfold candidate
  split_ifs with hmay
  · rfl
  · have hleads := t.run.getCandidate_leads key target
    rcases hc : t.run.getCandidate key target with - | v
    · rfl
    · rw [hc] at hleads
      have htop : Top t.run.entries key target v := hleads
      exact absurd (htop.keyed ▸ mayContain_of_mem htop.mem) hmay

end SSTable

/-- The errors of the manifest. -/
inductive ManifestError where
  | invalidOptions
  | invalidEdit
  | invalidLevel
  | fileNumberCollision
  | fileNumberExhausted
  | sequenceRegression
  | frontierRegression
  | frontierGap
  | frontierSplitsBatch
  | duplicateFile
  | unknownFile
  | overlappingLevel
  | staleVersion
  | modeMismatch
  | replicatedFrontierGap
  | duplicateKey
  | outOfOrder
  | emptyTable
  | resourceLimit
  | join (left right : ManifestError)
deriving DecidableEq, Repr

/-- `Writer.Add` and `Writer.Finish`: the stream has to be strictly increasing, and the
filter has to fit. -/
def writeTable (fileNumber generation smallest largest : ℕ) (enableBloom : Bool)
    (entries : List Version) : Except ManifestError SSTable :=
  if hnonempty : entries = [] then .error .emptyTable
  else if hsorted : entries.Pairwise Version.precedes then
    if hfits : enableBloom = true → Bloom.bitCount (bloomUsers none entries).length ≤ maxUint32 then
      .ok {
        fileNumber := fileNumber
        flushGeneration := generation
        smallestSequence := smallest
        largestSequence := largest
        enableBloom := enableBloom
        run := ⟨entries, hsorted⟩
        nonempty := hnonempty
        filterFits := hfits }
    else .error .resourceLimit
  else .error .outOfOrder

/-! ### Versions of the manifest -/

/-- A `VersionEdit`.  Comparator and storage mode are fixed when the store is created. -/
structure VersionEdit where
  nextFileNumber : Option ℕ := none
  lastSequence : Option ℕ := none
  replayFrontier : Option ℕ := none
  replicatedAppliedThrough : Option ℕ := none
  maxAppliedMVCC : Option ℕ := none
  deletedFiles : List (ℕ × ℕ) := []
  addedFiles : List (ℕ × SSTable) := []

/-- A `manifest.Version`. -/
structure Manifest where
  mode : Mode
  generation : ℕ := 0
  levels : ℕ → List SSTable := fun _ => []
  nextFileNumber : ℕ := 1
  lastSequence : Option ℕ := none
  frontier : Option ℕ := none
  replicatedApplied : Option ℕ := none
  maxAppliedMVCC : Option ℕ := none

/-- The files a list of levels holds, in order. -/
def liveTables (levels : ℕ → List SSTable) : List SSTable := (List.range maxLevels).flatMap levels

/-- `overlaps`. -/
def overlaps : List SSTable → Bool
  | s :: t :: rest => s.largestUser ≥ t.smallestUser || overlaps (t :: rest)
  | _ => false

/-- The order of `sortLevel`: level 0 newest first, the other levels by key. -/
def levelLe (level : ℕ) (s t : SSTable) : Prop :=
  if level = 0 then
    toLex (t.largestSequence, toLex (t.flushGeneration, t.fileNumber)) ≤
      toLex (s.largestSequence, toLex (s.flushGeneration, s.fileNumber))
  else toLex (s.smallestUser, s.fileNumber) ≤ toLex (t.smallestUser, t.fileNumber)

instance (level : ℕ) : DecidableRel (levelLe level) := fun _ _ =>
  inferInstanceAs (Decidable (if level = 0 then _ ≤ _ else _ ≤ _))

namespace Manifest

def tables (v : Manifest) : List SSTable := liveTables v.levels

/-- `hasFile`. -/
def hasFile (levels : ℕ → List SSTable) (fileNumber : ℕ) : Bool :=
  (liveTables levels).any (·.fileNumber = fileNumber)

/-- `Contains`, for a table at its level. -/
def contains (v : Manifest) (level fileNumber : ℕ) : Bool :=
  level < maxLevels && (v.levels level).any (·.fileNumber = fileNumber)

/-! #### The replay frontier -/

/-- The first sequence behind the frontier. -/
def frontierStart (v : Manifest) : ℕ :=
  match v.frontier with
  | none => 0
  | some frontier => frontier + 1

/-- The order of sequence spans: by first sequence, the longer span first. -/
def spanLe (s t : ℕ × ℕ) : Prop := s.1 < t.1 ∨ s.1 = t.1 ∧ t.2 ≤ s.2

instance : DecidableRel spanLe := fun _ _ =>
  inferInstanceAs (Decidable (_ ∨ _))

/-- The sorted spans of the tables that reach `start`. -/
def spans (v : Manifest) (start : ℕ) : List (ℕ × ℕ) :=
  ((v.tables.map fun t => (t.smallestSequence, t.largestSequence)).filter
    fun span => start ≤ span.2).insertionSort spanLe

/-- The loop of `maximumContiguousFrontier`: the first sequence that no span covers. -/
def sweep : ℕ → List (ℕ × ℕ) → ℕ
  | cursor, [] => cursor
  | cursor, (first, last) :: rest =>
    if first > cursor then cursor
    else if last < cursor then sweep cursor rest
    else sweep (last + 1) rest

/-- `maximumContiguousFrontier`. -/
def maximumContiguousFrontier (v : Manifest) : Option ℕ :=
  let cursor := sweep v.frontierStart (v.spans v.frontierStart)
  if cursor = v.frontierStart then v.frontier else some (cursor - 1)

/-- The loop of `frontierCovered`. -/
def covers (target : ℕ) : ℕ → List (ℕ × ℕ) → Bool
  | _, [] => false
  | cursor, (first, last) :: rest =>
    if first > cursor then false
    else if last < cursor then covers target cursor rest
    else if last ≥ target then true
    else covers target (last + 1) rest

/-- `frontierCovered`. -/
def frontierCovered (v : Manifest) (target : ℕ) : Bool :=
  v.frontier = some target ||
    covers target v.frontierStart ((v.spans v.frontierStart).filter fun span => span.1 ≤ target)

/-! #### Edits -/

/-- `validateTable`, for what is not already part of an `SSTable`. -/
def validateTable (level : ℕ) (t : SSTable) : Except ManifestError Unit :=
  if level ≥ maxLevels then .error .invalidLevel
  else if t.fileNumber = 0 ∨ t.fileNumber > maxFileNumber ∨
      t.smallestSequence > t.largestSequence then .error .invalidEdit
  else if t.smallestUser.length > maxUserKeySize ∨ t.largestUser.length > maxUserKeySize then
    .error .invalidEdit
  else .ok ()

/-- `validateEditShape`. -/
def validateEditShape (edit : VersionEdit) : Except ManifestError Unit :=
  if edit.nextFileNumber = none ∧ edit.lastSequence = none ∧ edit.replayFrontier = none ∧
      edit.replicatedAppliedThrough = none ∧ edit.maxAppliedMVCC = none ∧
      edit.addedFiles.isEmpty ∧ edit.deletedFiles.isEmpty then .error .invalidEdit
  else if edit.addedFiles.length > maxChangesPerEdit ∨
      edit.deletedFiles.length > maxChangesPerEdit then .error .invalidEdit
  else if (edit.replayFrontier.isSome ∧ edit.replicatedAppliedThrough.isSome) ∨
      (edit.maxAppliedMVCC.isSome ∧ edit.replicatedAppliedThrough.isNone) then .error .invalidEdit
  else if edit.deletedFiles.any (fun d => d.1 ≥ maxLevels || d.2 = 0 || d.2 > maxFileNumber) then
    .error .invalidEdit
  else if ¬ (edit.deletedFiles.map (·.2) ++ edit.addedFiles.map (·.2.fileNumber)).Nodup then
    .error .invalidEdit
  else edit.addedFiles.forM fun added => validateTable added.1 added.2

/-- The file numbers and the last sequence of an edit; the generations are finite. -/
def applyNumbers (v : Manifest) (edit : VersionEdit) : Except ManifestError Manifest :=
  if v.generation = maxUint64 then .error .invalidEdit
  else if edit.nextFileNumber.any
      (fun n => n < v.nextFileNumber || n = 0 || n > maxFileNumber + 1) then
    .error .fileNumberCollision
  else if edit.lastSequence.any fun n => v.lastSequence.any (n < ·) then
    .error .sequenceRegression
  else .ok { v with
    nextFileNumber := edit.nextFileNumber.getD v.nextFileNumber
    lastSequence := edit.lastSequence <|> v.lastSequence }

/-- Delete the files of an edit. -/
def deleteFiles : (ℕ → List SSTable) → List (ℕ × ℕ) → Except ManifestError (ℕ → List SSTable)
  | levels, [] => .ok levels
  | levels, (level, number) :: rest =>
    if (levels level).any (·.fileNumber = number) then
      deleteFiles (Function.update levels level
        ((levels level).eraseP (·.fileNumber = number))) rest
    else .error .unknownFile

/-- Add the files of an edit. -/
def addFiles (next : ℕ) :
    (ℕ → List SSTable) → List (ℕ × SSTable) → Except ManifestError (ℕ → List SSTable)
  | levels, [] => .ok levels
  | levels, (level, t) :: rest =>
    if hasFile levels t.fileNumber then .error .duplicateFile
    else if t.fileNumber ≥ next then .error .fileNumberCollision
    else addFiles next (Function.update levels level (levels level ++ [t])) rest

/-- The files of an edit: delete, add, sort, and refuse a level above 0 that overlaps. -/
def applyFiles (v : Manifest) (edit : VersionEdit) : Except ManifestError Manifest := do
  let levels ← deleteFiles v.levels edit.deletedFiles
  let levels ← addFiles v.nextFileNumber levels edit.addedFiles
  let sorted := fun level => (levels level).insertionSort (levelLe level)
  if (List.range maxLevels).any fun level => level > 0 && overlaps (sorted level) then
    .error .overlappingLevel
  else .ok { v with levels := sorted }

/-- The replay frontier of an edit. -/
def applyFrontier (v : Manifest) (edit : VersionEdit) : Except ManifestError Manifest :=
  match edit.replayFrontier with
  | none => .ok v
  | some frontier =>
    if v.mode ≠ .standalone then .error .modeMismatch
    else if v.frontier.any (frontier < ·) then .error .frontierRegression
    else if v.lastSequence.all (· < frontier) then .error .frontierGap
    else if !v.frontierCovered frontier then .error .frontierGap
    else .ok { v with frontier := some frontier }

/-- The replicated marks of an edit. -/
def applyReplicated (v : Manifest) (edit : VersionEdit) : Except ManifestError Manifest :=
  if edit.replicatedAppliedThrough.any fun n =>
      v.mode = .standalone || v.replicatedApplied.any (n < ·) then .error .modeMismatch
  else if edit.maxAppliedMVCC.any fun n =>
      v.mode ≠ .replicatedMVCC || n = 0 || v.maxAppliedMVCC.any (n < ·) then
    .error .sequenceRegression
  else .ok { v with
    replicatedApplied := edit.replicatedAppliedThrough <|> v.replicatedApplied
    maxAppliedMVCC := edit.maxAppliedMVCC <|> v.maxAppliedMVCC }

/-- The marks of a version belong to its mode. -/
def modeConsistent (v : Manifest) : Bool :=
  !(v.mode = .standalone && v.replicatedApplied.isSome) &&
    !(v.mode ≠ .standalone && v.frontier.isSome) &&
    !(v.mode ≠ .replicatedMVCC && v.maxAppliedMVCC.isSome)

/-- The last checks of an edit, and the generation it makes. -/
def publish (v : Manifest) : Except ManifestError Manifest :=
  if !v.modeConsistent then .error .modeMismatch
  else if v.tables.any (·.fileNumber ≥ v.nextFileNumber) then .error .fileNumberCollision
  else .ok { v with generation := v.generation + 1 }

/-- `Version.apply`. -/
def apply (v : Manifest) (edit : VersionEdit) : Except ManifestError Manifest := do
  validateEditShape edit
  let next ← v.applyNumbers edit
  let next ← next.applyFiles edit
  let next ← next.applyFrontier edit
  let next ← next.applyReplicated edit
  next.publish

/-- `AllocateFileNumber`. -/
def allocateFileNumber (v : Manifest) : Except ManifestError (ℕ × Manifest) :=
  if v.nextFileNumber = 0 ∨ v.nextFileNumber > maxFileNumber then .error .fileNumberExhausted
  else do
    let next ← v.apply { nextFileNumber := some (v.nextFileNumber + 1) }
    return (v.nextFileNumber, next)

/-- `InstallTable`: a flushed table enters level 0.  `applied` is the first and the last
Raft index its generation covers, `maximum` its largest MVCC timestamp. -/
def installTable (v : Manifest) (t : SSTable) (applied : Option (ℕ × ℕ)) :
    Except ManifestError Manifest :=
  let last := max (v.lastSequence.getD 0) t.largestSequence
  let edit : VersionEdit := { addedFiles := [(0, t)], lastSequence := some last }
  if v.mode = .standalone then do
    let preliminary ← v.apply edit
    let frontier := preliminary.maximumContiguousFrontier
    -- the frontier only moves forward
    if frontier.any fun n => v.frontier.all (· < n) then
      v.apply { edit with replayFrontier := frontier }
    else v.apply edit
  else
    match applied with
    | none => .error .replicatedFrontierGap
    | some (first, through) =>
      if first ≠ v.replicatedApplied.getD 0 + 1 ∨ through < first then
        .error .replicatedFrontierGap
      else if v.mode = .replicatedMVCC then
        if t.largestSequence = 0 then .error .sequenceRegression
        else v.apply { edit with
          replicatedAppliedThrough := some through
          maxAppliedMVCC := some (max t.largestSequence (v.maxAppliedMVCC.getD 0)) }
      else v.apply { edit with replicatedAppliedThrough := some through }

/-- `InstallCompaction`: live inputs are replaced by the outputs. -/
def installCompaction (v : Manifest) (inputs : List (ℕ × ℕ)) (outputs : List SSTable) :
    Except ManifestError Manifest :=
  if inputs = [] ∨ outputs = [] then .error .invalidOptions
  else if !inputs.all fun input => v.contains input.1 input.2 then .error .staleVersion
  else
    match v.apply { deletedFiles := inputs, addedFiles := outputs.map ((1, ·)) } with
    | .error err => .error (.join .staleVersion err)
    | .ok next => .ok next

/-! #### Point reads -/

/-- The table of a level above 0 that `tablesForPoint` takes: the last one that starts at
or below the key, when it reaches the key. -/
def levelForPoint (tables : List SSTable) (key : Bytes) : List SSTable :=
  let position :=
    Search.search (fun index => tables[index]?.all fun t => key < t.smallestUser) tables.length
  if position = 0 then []
  else (tables[position - 1]?).toList.filter fun t => key ≤ t.largestUser

/-- `tablesForPoint`. -/
def tablesForPoint (v : Manifest) (key : Bytes) : List SSTable :=
  (v.levels 0).filter (fun t => t.smallestUser ≤ key && key ≤ t.largestUser) ++
    (List.range (maxLevels - 1)).flatMap fun offset => levelForPoint (v.levels (offset + 1)) key

end Manifest

end RivetDB.Storage
