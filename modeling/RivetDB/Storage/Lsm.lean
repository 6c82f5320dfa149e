import RivetDB.Order.Merge
import RivetDB.Storage.Manifest

/-!
# The engine as a log-structured merge tree

`Storage.Engine` keeps its tables in one list.  This module models where they really
are: the active MemTable, the queue of frozen MemTables that wait for their flush, and
the levels of the manifest.  Writes go to the active table, rotation freezes it, the
flush worker writes the head of the queue to a level-0 file and lists it in the
manifest before the table leaves the queue, and a compaction merges live files into
new ones.

A standalone engine appends every batch to a write-ahead log before it applies it, and
replays what lies behind the replay frontier when it is opened again.  A replicated
engine keeps no log; what was not flushed is applied again by its caller.

A step that needs room in the queue fails here where the source waits for room.
-/

namespace RivetDB.Storage

open scoped ByteOrder

/-- `storage.MaxRecordSize`. -/
def maxRecordSize : ℕ := 64 <<< 20

/-- The errors of the engine over its manifest and its write pipeline. -/
inductive LsmError where
  | storage (cause : Error)
  | manifest (cause : ManifestError)
  | wrongMode
  | invalidRange
  | sequenceOverflow
  | batchTooLarge
  | generationExhausted
  | noCapacity
  | noFlush
  | walFailed
  | duplicateInternalKey
  | unresolvedIntent
  | wrap (text : String) (cause : LsmError)
deriving DecidableEq, Repr

/-! ### Write batches -/

/-- A `storage.WriteBatch`: mutation `i` owns sequence `firstSequence + i`. -/
structure WriteBatch where
  firstSequence : ℕ
  mutations : List Mutation
deriving DecidableEq, Repr

/-- `uvarintLen`. -/
def uvarintLen (n : ℕ) : ℕ := n.log2 / 7 + 1

namespace WriteBatch

/-- The entries of a batch, numbered from `first`. -/
def numbered : ℕ → List Mutation → List Version
  | _, [] => []
  | first, m :: rest => m.stored first :: numbered (first + 1) rest

def versions (b : WriteBatch) : List Version := numbered b.firstSequence b.mutations

def lastSequence (b : WriteBatch) : ℕ := b.firstSequence + b.mutations.length - 1

/-- The length of the encoding of `EncodeWriteBatch`. -/
def encodedSize (b : WriteBatch) : ℕ :=
  12 + (b.mutations.map fun m =>
    1 + uvarintLen m.key.length + m.key.length +
      if m.kind.carriesValue then uvarintLen m.value.length + m.value.length else 0).sum

end WriteBatch

/-! ### The state -/

/-- A `generation` of the write pipeline: a MemTable, its reserved file number, the
least and the largest sequence in it, and the Raft indexes it covers. -/
structure Generation where
  id : ℕ
  fileNumber : ℕ := 0
  table : Run := .empty
  span : Option (ℕ × ℕ) := none
  applied : Option (ℕ × ℕ) := none

/-- An open engine and the files behind it.  `installing` says that the head of the
queue is already listed in the manifest; `nextSequence` is `2 ^ 64` when the sequences
are exhausted; `walFailed` says that the write-ahead log refuses further records. -/
structure Lsm where
  mode : Mode
  enableBloom : Bool := true
  maxImmutables : ℕ := 4
  targetFileSize : ℕ := 4 <<< 20
  sha256 : Bytes → Digest
  manifest : Manifest
  wal : List WriteBatch := []
  walFailed : Bool := false
  active : Generation := { id := 1 }
  immutables : List Generation := []
  installing : Bool := false
  nextGeneration : ℕ := 2
  nextSequence : ℕ := 0
  visible : Option ℕ := none
  replicatedApplied : ℕ := 0
  durableApplied : ℕ := 0
  coveredApplied : ℕ := 0
  identities : ℕ → Option (ℕ × Digest) := fun _ => none

namespace Lsm

/-- `Open` on a new directory. -/
def create (mode : Mode) (enableBloom : Bool) (maxImmutables targetFileSize : ℕ)
    (sha256 : Bytes → Digest) : Lsm where
  mode := mode
  enableBloom := enableBloom
  maxImmutables := maxImmutables
  targetFileSize := targetFileSize
  sha256 := sha256
  manifest :=
    { mode := mode
      replicatedApplied := if mode = .standalone then none else some 0
      generation := 1 }

/-! ### The write pipeline -/

/-- `ensureActiveFile`. -/
def ensureActiveFile (s : Lsm) : Except LsmError Lsm :=
  if s.nextGeneration = 0 then .error .generationExhausted
  else if s.active.fileNumber ≠ 0 then .ok s
  else
    match s.manifest.allocateFileNumber with
    | .error err => .error (.wrap "reserve active MemTable file number" (.manifest err))
    | .ok (number, manifest) =>
      .ok { s with manifest := manifest, active := { s.active with fileNumber := number } }

/-- The checks of `Write` before the log is touched, and the batch it then assigns. -/
def assign (s : Lsm) (mutations : List Mutation) : Except LsmError (Lsm × WriteBatch) :=
  if s.mode ≠ .standalone then .error .wrongMode
  else
    match Engine.validateMutations mutations with
    | .error err => .error (.storage err)
    | .ok () =>
      if s.immutables.length ≥ s.maxImmutables then .error .noCapacity
      else if s.nextGeneration = 0 then .error .generationExhausted
      else if s.nextSequence + mutations.length > maxUint64 + 1 then .error .sequenceOverflow
      else
        match s.ensureActiveFile with
        | .error err => .error err
        | .ok s' =>
          let batch : WriteBatch := ⟨s.nextSequence, mutations⟩
          if batch.encodedSize > maxRecordSize then .error .batchTooLarge
          else .ok ({ s' with nextSequence := s.nextSequence + mutations.length }, batch)

/-- The part of `Write` behind the log: apply the batch and publish its last sequence. -/
def publish (s : Lsm) (batch : WriteBatch) : Lsm :=
  { s with
    active := { s.active with
      table := s.active.table.insertAll batch.versions
      span := some ((s.active.span.map Prod.fst).getD batch.firstSequence, batch.lastSequence) }
    visible := some batch.lastSequence }

/-- `Write`. -/
def write (s : Lsm) (mutations : List Mutation) : Except LsmError Lsm :=
  match s.assign mutations with
  | .error err => .error err
  | .ok (s', batch) =>
    if s'.walFailed then .error .walFailed
    else .ok ({ s' with wal := s'.wal ++ [batch] }.publish batch)

/-- A `Write` whose append or sync fails.  The log takes no further records; the record
itself may have reached the disk. -/
def writeFailing (s : Lsm) (mutations : List Mutation) (persisted : Bool) : Except LsmError Lsm :=
  match s.assign mutations with
  | .error err => .error err
  | .ok (s', batch) =>
    if s'.walFailed then .error .walFailed
    else .ok { s' with
      wal := if persisted then s'.wal ++ [batch] else s'.wal
      walFailed := true }

/-- `ApplyReplicatedVersionBatch`. -/
def applyReplicatedVersionBatch (s : Lsm) (index version : ℕ) (mutations : List Mutation)
    (allowExistingVersion : Bool) : Except LsmError Lsm :=
  if s.mode = .standalone then .error .wrongMode
  else if index = 0 ∨ version = 0 ∨ (s.mode ≠ .replicatedMVCC ∧ version ≠ index) then
    .error (.storage .invalidOptions)
  else
    match Engine.validateMutations mutations with
    | .error err => .error (.storage err)
    | .ok () =>
      if s.immutables.length ≥ s.maxImmutables then .error .noCapacity
      else if index ≤ s.durableApplied then .error (.storage .alreadyApplied)
      else if index ≤ s.replicatedApplied then .error (.storage .applyRegression)
      else if s.mode = .replicatedMVCC ∧ s.visible.any (version ≤ ·) ∧
          !allowExistingVersion then .error (.storage .applyRegression)
      else
        match s.ensureActiveFile with
        | .error err => .error err
        | .ok s' => .ok { s' with
            active := { s'.active with
              table := s'.active.table.insertAll (mutations.map (·.stored version))
              span := some (match s'.active.span with
                | none => (version, version)
                | some (least, largest) => (min least version, max largest version))
              applied := some (match s'.active.applied with
                | none => (s'.coveredApplied + 1, index)
                | some (first, _) => (first, index)) }
            coveredApplied := index
            replicatedApplied := index
            visible := some (max (s'.visible.getD 0) version) }

/-- `applyCommittedBatch`. -/
def applyCommittedBatch (s : Lsm) (index term version : ℕ) (command : Bytes)
    (mutations : List Mutation) (required : Mode) (allowExistingVersion : Bool) :
    Except LsmError Lsm :=
  if index = 0 ∨ term = 0 ∨ version = 0 ∨ command = [] then .error (.storage .invalidOptions)
  else if s.mode ≠ required then .error .wrongMode
  else
    match s.identities index with
    | some identity =>
      if identity ≠ (term, s.sha256 command) then .error (.storage .conflictingApply)
      else .error (.storage .alreadyApplied)
    | none =>
      if s.manifest.replicatedApplied.any (index ≤ ·) then .error (.storage .alreadyApplied)
      else if index ≤ s.replicatedApplied then .error (.storage .applyOrder)
      else
        match s.applyReplicatedVersionBatch index version mutations allowExistingVersion with
        | .error err => .error (.wrap "materialize committed Raft mutation" err)
        | .ok s' => .ok { s' with
            identities := Function.update s'.identities index (some (term, s.sha256 command)) }

/-- `AdvanceApplied`. -/
def advanceApplied (s : Lsm) (index : ℕ) : Except LsmError Lsm :=
  if s.mode = .standalone then .error .wrongMode
  else if index < s.replicatedApplied then
    .error (.wrap "advance replicated applied progress" (.storage .applyRegression))
  else if index = s.replicatedApplied then .ok s
  else .ok { s with
    replicatedApplied := index
    visible := if s.mode = .replicatedMVCC then s.visible else some index
    active := { s.active with applied := s.active.applied.map fun (first, _) => (first, index) }
    coveredApplied := if s.active.applied.isSome then index else s.coveredApplied }

/-- `Rotate`, and the rotation at the end of a write that fills the active table. -/
def rotate (s : Lsm) : Except LsmError Lsm :=
  if s.active.table.entries = [] then .ok s
  else if s.immutables.length ≥ s.maxImmutables then .error .noCapacity
  else
    match s.ensureActiveFile with
    | .error err => .error err
    | .ok s' => .ok { s' with
        active := { id := s'.nextGeneration }
        nextGeneration := (s'.nextGeneration + 1) % 2 ^ 64
        immutables := s'.immutables ++ [s'.active] }

/-- The flush worker writes the head of the queue to its file and installs it. -/
def installTable (s : Lsm) : Except LsmError Lsm :=
  match s.immutables, s.installing with
  | head :: _, false =>
    let (smallest, largest) := head.span.getD (0, 0)
    match writeTable head.fileNumber head.id smallest largest s.enableBloom
        head.table.entries with
    | .error err => .error (.manifest err)
    | .ok table =>
      match s.manifest.installTable table head.applied with
      | .error err => .error (.manifest err)
      | .ok manifest => .ok { s with manifest := manifest, installing := true }
  | _, _ => .error .noFlush

/-- `finishInstallation`: the installed table leaves the queue. -/
def finishInstallation (s : Lsm) : Except LsmError Lsm :=
  if s.installing then .ok { s with immutables := s.immutables.tail, installing := false }
  else .error .noFlush

end Lsm

/-! ### Merging -/

/-- An entry together with the file it was read from. -/
structure Candidate where
  entry : Version
  file : ℕ

/-- The order of the merge heap: internal key, then file number.  Of two inputs with one
file number the first one wins, which the merge does by itself. -/
def Candidate.le (a b : Candidate) : Prop :=
  a.entry.precedes b.entry ∨ a.entry.internal = b.entry.internal ∧ a.file ≤ b.file

instance : DecidableRel Candidate.le := fun _ _ =>
  inferInstanceAs (Decidable (_ ∨ _))

/-- Tag the entries of one input of a merge. -/
def tagged (file : ℕ) (entries : List Version) : List Candidate := entries.map (⟨·, file⟩)

/-! ### Compaction -/

/-- What an entry adds to the logical size of an output. -/
def Version.logicalSize (v : Version) : ℕ := v.key.length + 9 + v.value.length

/-- The loop of `buildOutputs`: an output is finished once it is large enough and the user
key changes.  `chunk` is the output being written, `logical` its size. -/
def buildOutputs (targetFileSize : ℕ) :
    Option Version → List Version → ℕ → List Version → Except LsmError (List (List Version))
  | _, chunk, _, [] => .ok (if chunk = [] then [] else [chunk])
  | previous, chunk, logical, v :: rest =>
    if previous.any (·.internal = v.internal) then .error .duplicateInternalKey
    else if chunk ≠ [] ∧ targetFileSize ≤ logical ∧ previous.all (·.key ≠ v.key) then
      match buildOutputs targetFileSize (some v) [v] v.logicalSize rest with
      | .error err => .error err
      | .ok outputs => .ok (chunk :: outputs)
    else buildOutputs targetFileSize (some v) (chunk ++ [v]) (logical + v.logicalSize) rest

/-- Write the outputs of a compaction, each to a new file. -/
def writeOutputs (enableBloom : Bool) (job : ℕ) :
    Manifest → List (List Version) → Except LsmError (Manifest × List SSTable)
  | manifest, [] => .ok (manifest, [])
  | manifest, chunk :: rest =>
    match manifest.allocateFileNumber with
    | .error err => .error (.wrap "allocate compaction output" (.manifest err))
    | .ok (number, manifest) =>
      let sequences := chunk.map Version.seq
      match writeTable number job (sequences.foldl min (sequences.headD 0))
          (sequences.foldl max 0) enableBloom chunk with
      | .error err => .error (.manifest err)
      | .ok table =>
        match writeOutputs enableBloom job manifest rest with
        | .error err => .error err
        | .ok (manifest, tables) => .ok (manifest, table :: tables)

namespace Lsm

/-- The live tables that the inputs of a compaction name. -/
def inputTables (s : Lsm) (inputs : List (ℕ × ℕ)) : List SSTable :=
  inputs.filterMap fun input =>
    (s.manifest.levels input.1).find? (·.fileNumber = input.2)

/-- `Executor.Run` for a plan with the given inputs, as levels and file numbers; `job`
numbers the attempt.  A plan may have been made on an earlier version: what is checked
is that its inputs are still live. -/
def compact (s : Lsm) (job : ℕ) (inputs : List (ℕ × ℕ)) : Except LsmError Lsm :=
  let merged := Merge.merge Candidate.le
    ((s.inputTables inputs).map fun t => tagged t.fileNumber t.run.entries)
  match buildOutputs s.targetFileSize none [] 0 (merged.map Candidate.entry) with
  | .error err => .error err
  | .ok chunks =>
    match writeOutputs s.enableBloom job s.manifest chunks with
    | .error err => .error err
    | .ok (manifest, outputs) =>
      match manifest.installCompaction inputs outputs with
      | .error err => .error (.manifest err)
      | .ok manifest => .ok { s with manifest := manifest }

/-! ### Opening again -/

/-- The loop of `ReplayWAL`: the batches behind the frontier. -/
def replayWAL (frontier : Option ℕ) : Run → List WriteBatch → Except LsmError Run
  | table, [] => .ok table
  | table, batch :: rest =>
    if frontier.any (batch.lastSequence ≤ ·) then replayWAL frontier table rest
    else if frontier.any (batch.firstSequence ≤ ·) then .error (.manifest .frontierSplitsBatch)
    else replayWAL frontier (table.insertAll batch.versions) rest

/-- The largest sequence that tables, log and manifest know of. -/
def maximumSequence (s : Lsm) : Option ℕ :=
  ((s.manifest.tables.map SSTable.largestSequence) ++ s.wal.map WriteBatch.lastSequence ++
    s.manifest.lastSequence.toList).max?

/-- The span of a recovered table. -/
def recoveredSpan (entries : List Version) : Option (ℕ × ℕ) :=
  let sequences := entries.map Version.seq
  match sequences.min?, sequences.max? with
  | some least, some largest => some (least, largest)
  | _, _ => none

/-- The generation number `Open` starts with. -/
def firstGeneration (manifest : Manifest) : ℕ :=
  let largest := (manifest.tables.map SSTable.flushGeneration).foldl max 0
  if largest = maxUint64 then largest else largest + 1

/-- The manifest after `manifest.Open` has persisted the recovered last sequence. -/
def recoverManifest (s : Lsm) : Except LsmError Manifest :=
  match (if s.mode = .standalone then s.maximumSequence
    else (s.manifest.tables.map SSTable.largestSequence ++
      s.manifest.lastSequence.toList).max?) with
  | none => .ok s.manifest
  | some maximum =>
    if s.manifest.lastSequence.all (· < maximum) then
      match s.manifest.apply { lastSequence := some maximum } with
      | .error err => .error (.manifest err)
      | .ok manifest => .ok manifest
    else .ok s.manifest

/-- `Open` on the files of an engine that stopped: what was only in memory is gone. -/
def reopen (s : Lsm) : Except LsmError Lsm :=
  match s.recoverManifest with
  | .error err => .error err
  | .ok manifest =>
    match (if s.mode = .standalone then replayWAL manifest.frontier .empty s.wal
      else .ok .empty) with
    | .error err => .error err
    | .ok recovered =>
      let nextSequence :=
        if s.mode = .standalone then
          match s.maximumSequence with
          | none => 0
          | some maximum => maximum + 1
        else 0
      let durableApplied := manifest.replicatedApplied.getD 0
      let first := firstGeneration manifest
      .ok { s with
        manifest := manifest
        walFailed := false
        active := { id := first, table := recovered, span := recoveredSpan recovered.entries }
        immutables := []
        installing := false
        nextGeneration := (first + 1) % 2 ^ 64
        nextSequence := nextSequence
        visible :=
          if s.mode = .replicatedMVCC ∧ manifest.maxAppliedMVCC.any (· ≠ 0) then
            manifest.maxAppliedMVCC
          else if s.mode ≠ .standalone ∧ durableApplied ≠ 0 then some durableApplied
          else if nextSequence ≠ 0 then some (nextSequence - 1)
          else none
        replicatedApplied := durableApplied
        durableApplied := durableApplied
        coveredApplied := durableApplied
        identities := fun _ => none }

/-! ### Reads -/

/-- The MemTables a read looks at, newest first. -/
def memtables (s : Lsm) : List Generation := s.active :: s.immutables.reverse

/-- The candidates of a point read, in the order in which they are considered. -/
def pointCandidates (s : Lsm) (key : Bytes) (target : ℕ) : List Candidate :=
  (s.memtables.filterMap fun g => (g.table.getCandidate key target).map (⟨·, g.fileNumber⟩)) ++
    (s.manifest.tablesForPoint key).filterMap fun t =>
      (t.candidate key target).map (⟨·, t.fileNumber⟩)

/-- The closure `consider` of `getMVCCAt`. -/
def consider (target : ℕ) (best : Option Candidate) (value : Candidate) :
    Except LsmError (Option Candidate) :=
  if value.entry.seq > target then .ok best
  else
    match best with
    | none => .ok (some value)
    | some winner =>
      if value.entry.seq > winner.entry.seq then .ok (some value)
      else if value.entry.seq < winner.entry.seq then .ok best
      else if value.entry.kind ≠ winner.entry.kind then
        .ok (if value.entry.kind.rank < winner.entry.kind.rank then some value else best)
      else if value.entry.value ≠ winner.entry.value then
        .error (.storage (.join .corruption .duplicateEntry))
      else if value.file = 0 ∨ value.file ≠ winner.file then
        .error (.storage (.join .corruption .duplicateEntry))
      else .ok best

/-- The loop of `getMVCCAt`; an abort marker continues in older history. -/
def getLoop (s : Lsm) (key : Bytes) : ℕ → ℕ → Except LsmError Version
  | 0, _ => .error (.storage .notFound)
  | fuel + 1, target =>
    match (s.pointCandidates key target).foldlM (consider target) none with
    | .error err => .error err
    | .ok none => .error (.storage .notFound)
    | .ok (some best) =>
      if best.entry.kind = .txnAbort then
        if best.entry.seq = 0 then .error (.storage .notFound)
        else getLoop s key fuel (best.entry.seq - 1)
      else .ok best.entry

/-- Every stored entry with the file it is in, in the order of the sources of a scan. -/
def stored (s : Lsm) : List Candidate :=
  (s.memtables.flatMap fun g => tagged g.fileNumber g.table.entries) ++
    s.manifest.tables.flatMap fun t => tagged t.fileNumber t.run.entries

/-- `getMVCCAt`.  Every round leaves an entry behind, so the number of stored entries
bounds the rounds. -/
def getMVCCAt (s : Lsm) (key : Bytes) (requested : Option ℕ) : Except LsmError Version :=
  if key.length > maxUserKeySize then .error (.storage .invalidOptions)
  else
    match s.visible with
    | none => .error (.storage .notFound)
    | some latest =>
      s.getLoop key (s.stored.length + 1) (min (requested.getD latest) latest)

/-- `scanInputs`: the part of every source between the bounds. -/
def scanInputs (s : Lsm) (start stop : Option Bytes) : List (List Candidate) :=
  (s.memtables.map fun g => tagged g.fileNumber (g.table.range start stop)) ++
    ((s.manifest.tables.filter fun t =>
      start.all (· ≤ t.largestUser) && stop.all (t.smallestUser < ·)).map fun t =>
        tagged t.fileNumber (t.run.range start stop))

/-- What `scanMVCCAt` does with one entry of the current user key. -/
def scanEntry (target : ℕ) (selected : Option Candidate) (value : Candidate) :
    Except LsmError (Option Candidate) :=
  if value.entry.seq > target then .ok selected
  else
    match selected with
    | none => .ok (some value)
    | some winner =>
      if value.entry.seq = winner.entry.seq then
        if value.entry.kind ≠ winner.entry.kind then
          .ok (if value.entry.kind.rank < winner.entry.kind.rank then some value else selected)
        else if value.entry.value ≠ winner.entry.value ∨ value.file = 0 ∨
            value.file ≠ winner.file then
          .error (.storage (.join .corruption .duplicateEntry))
        else .ok selected
      else if winner.entry.kind = .txnAbort then .ok (some value)
      else .ok selected

/-- The closure `emit`. -/
def emit (selected : Option Candidate) : List Version :=
  match selected with
  | none => []
  | some winner => if winner.entry.kind = .txnAbort then [] else [winner.entry]

/-- The loop of `scanMVCCAt` over the merged entries. -/
def scanLoop (target : ℕ) :
    Option Bytes → Option Candidate → List Candidate → Except LsmError (List Version)
  | _, selected, [] => .ok (emit selected)
  | user, selected, value :: rest =>
    -- the entries of one user key come one after the other
    let continuing := user = some value.entry.key
    match scanEntry target (if continuing then selected else none) value with
    | .error err => .error err
    | .ok selected' =>
      match scanLoop target (some value.entry.key) selected' rest with
      | .error err => .error err
      | .ok values => .ok (if continuing then values else emit selected ++ values)

/-- `scanMVCCAt`. -/
def scanMVCCAt (s : Lsm) (start stop : Option Bytes) (requested : Option ℕ) :
    Except LsmError (List Version) :=
  if start.any (·.length > maxUserKeySize) ∨ stop.any (·.length > maxUserKeySize) then
    .error (.storage .invalidOptions)
  else if start.any fun a => stop.any (· < a) then .error .invalidRange
  else if start.isSome ∧ start = stop then .ok []
  else
    match s.visible with
    | none => .ok []
    | some latest =>
      scanLoop (min (requested.getD latest) latest) none none
        (Merge.merge Candidate.le (s.scanInputs start stop))

/-- `getAt`: a tombstone reads as absent, an intent is the caller's to resolve. -/
def getAt (s : Lsm) (key : Bytes) (requested : Option ℕ) : Except LsmError Bytes :=
  match s.getMVCCAt key requested with
  | .error err => .error err
  | .ok entry =>
    match entry.kind with
    | .value => .ok entry.value
    | .delete => .error (.storage .notFound)
    | .intent => .error .unresolvedIntent
    | .txnAbort => .error (.storage .corruption)

/-- The loop of `scanAt`. -/
def interpret : List Version → Except LsmError (List (Bytes × Bytes))
  | [] => .ok []
  | entry :: rest =>
    match entry.kind with
    | .value =>
      match interpret rest with
      | .error err => .error err
      | .ok values => .ok ((entry.key, entry.value) :: values)
    | .delete => interpret rest
    | .intent => .error .unresolvedIntent
    | .txnAbort => .error (.storage .corruption)

/-- `scanAt`. -/
def scanAt (s : Lsm) (start stop : Option Bytes) (requested : Option ℕ) :
    Except LsmError (List (Bytes × Bytes)) :=
  match s.scanMVCCAt start stop requested with
  | .error err => .error err
  | .ok entries => interpret entries

end Lsm

end RivetDB.Storage
