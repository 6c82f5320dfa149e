import RivetDB.Program.Prog
import RivetDB.Multiraft.Catalog

/-!
# The replicated metadata of a cluster

`metadata.go` and `migration_metadata.go`: the catalog together with the records of
splits and migrations and the lineage of split ranges.  A method either returns the
changed state or an error; the caller works on a clone, so an error changes nothing.

The maps of the Go type are lists, in the order in which their keys were added; every
record carries its key.
-/

namespace RivetDB.Multiraft

/-- `MetaRangeID`. -/
def metaRangeID : ℕ := 2 ^ 64 - 1

/-- `MaxLineageDepth`. -/
def maxLineageDepth : ℕ := 128

/-! ### Records -/

inductive MigrationState where
  | planned
  | bootstrapping
  | learner
  | catchingUp
  | ready
  | joint
  | promoted
  | sourceRemoving
  | committed
  | sourceRetired
  | aborted
deriving DecidableEq, Repr

/-- The numeric value of a migration state. -/
def MigrationState.rank : MigrationState → ℕ
  | .planned => 1
  | .bootstrapping => 2
  | .learner => 3
  | .catchingUp => 4
  | .ready => 5
  | .joint => 6
  | .promoted => 7
  | .sourceRemoving => 8
  | .committed => 9
  | .sourceRetired => 10
  | .aborted => 11

/-- Whether a migration no longer holds its range. -/
def MigrationState.terminal (s : MigrationState) : Bool := s = .aborted || s = .sourceRetired

structure MigrationRecord where
  migrationID : ℕ
  rangeID : ℕ
  rangeGeneration : ℕ
  sourceReplicaID : ℕ
  sourceNodeID : Raft.NodeID
  targetReplicaID : ℕ
  targetNodeID : Raft.NodeID
  epoch : ℕ
  state : MigrationState
  bootstrapIndex : ℕ := 0
  catchUpIndex : ℕ := 0
  promotionBarrier : ℕ := 0
  configVersion : ℕ := 0
  catalogGeneration : ℕ
  stateDigest : Digest := .zero
  lastError : Bytes := []
deriving DecidableEq, Repr

inductive SplitState where
  | preparing
  | copying
  | catchingUp
  | ready
  | fenced
  | committed
  | aborted
deriving DecidableEq, Repr

/-- The numeric value of a split state. -/
def SplitState.rank : SplitState → ℕ
  | .preparing => 1
  | .copying => 2
  | .catchingUp => 3
  | .ready => 4
  | .fenced => 5
  | .committed => 6
  | .aborted => 7

/-- Whether a split no longer holds its parent. -/
def SplitState.terminal (s : SplitState) : Bool := s = .committed || s = .aborted

structure RangeRef where
  rangeID : ℕ
  generation : ℕ
deriving DecidableEq, Repr

structure SplitRecord where
  splitID : ℕ
  parent : RangeRef
  splitKey : Bytes
  left : RangeDescriptor
  right : RangeDescriptor
  epoch : ℕ
  state : SplitState
  bootstrapIndex : ℕ := 0
  fenceIndex : ℕ := 0
  leftReplayThrough : ℕ := 0
  rightReplayThrough : ℕ := 0
  imageDigest : Digest := .zero
  cutoverCatalogGeneration : ℕ := 0
  lastError : Bytes := []
deriving DecidableEq, Repr

structure LineageRecord where
  splitID : ℕ
  parent : RangeRef
  leftChild : RangeRef
  rightChild : RangeRef
  splitKey : Bytes
  cutoverCatalogGeneration : ℕ
deriving DecidableEq, Repr

/-- The reference of a descriptor. -/
def RangeDescriptor.ref (d : RangeDescriptor) : RangeRef := ⟨d.rangeID, d.generation⟩

/-- `metadataState`, without the rebalance control, which none of these methods reads. -/
structure MetadataState where
  catalog : Catalog
  nextRangeID : ℕ
  nextSplitID : ℕ := 1
  nextReplicaID : ℕ
  nextMigrationID : ℕ := 1
  splits : List SplitRecord := []
  migrations : List MigrationRecord := []
  lineage : List LineageRecord := []
deriving DecidableEq, Repr

/-- The largest number of a list. -/
def largest (ids : List ℕ) : ℕ := ids.foldl max 0

/-- `newMetadataState`. -/
def newMetadataState (catalog : Catalog) : Except Error MetadataState :=
  let largestRange := largest (catalog.ranges.map RangeDescriptor.rangeID)
  let largestReplica :=
    largest (catalog.ranges.flatMap fun d => d.replicas.map ReplicaDescriptor.replicaID)
  if largestRange = metaRangeID ∨ largestRange + 1 = metaRangeID then .error .resourceLimit
  else .ok
    { catalog := catalog
      nextRangeID := largestRange + 1
      nextReplicaID := wrap64 (largestReplica + 1) }

namespace MetadataState

def split? (s : MetadataState) (id : ℕ) : Option SplitRecord := s.splits.find? (·.splitID = id)

def migration? (s : MetadataState) (id : ℕ) : Option MigrationRecord :=
  s.migrations.find? (·.migrationID = id)

def edge? (s : MetadataState) (parent : RangeRef) : Option LineageRecord :=
  s.lineage.find? (·.parent = parent)

/-- Replace the record of an existing split. -/
def setSplit (s : MetadataState) (record : SplitRecord) : MetadataState :=
  { s with splits := s.splits.map fun r => if r.splitID = record.splitID then record else r }

/-- Replace the record of an existing migration. -/
def setMigration (s : MetadataState) (record : MigrationRecord) : MetadataState :=
  { s with
    migrations :=
      s.migrations.map fun r => if r.migrationID = record.migrationID then record else r }

end MetadataState

/-! ### Splits -/

/-- `strictInterior`. -/
def strictInterior (startKey endKey : KeyBound) (key : Bytes) : Bool :=
  (startKey.unbounded || startKey.key < key) && (endKey.unbounded || key < endKey.key)

/-- `legalSplitTransition`. -/
def legalSplitTransition (source target : SplitState) : Bool :=
  if target = .aborted then
    source = .preparing || source = .copying || source = .catchingUp || source = .ready
  else target.rank = source.rank + 1 && source.rank < SplitState.committed.rank

/-- The record `begin` stores. -/
def newSplit (parent : RangeRef) (d : RangeDescriptor) (splitKey : Bytes)
    (leftID rightID splitID : ℕ) : SplitRecord where
  splitID := splitID
  parent := parent
  splitKey := splitKey
  left := { d with rangeID := leftID, generation := 1, endKey := { key := splitKey } }
  right := { d with rangeID := rightID, generation := 1, startKey := { key := splitKey } }
  epoch := 1
  state := .preparing

namespace MetadataState

/-- `begin` behind its checks: allocate the identities. -/
def allocateSplit (s : MetadataState) (parent : RangeRef) (d : RangeDescriptor)
    (splitKey : Bytes) : Except Error (SplitRecord × MetadataState) :=
  if s.nextRangeID = 0 ∨ s.nextRangeID ≥ metaRangeID - 1 ∨ s.nextSplitID = 0 then
    .error .resourceLimit
  else
    let record := newSplit parent d splitKey s.nextRangeID (s.nextRangeID + 1) s.nextSplitID
    .ok (record,
      { s with
        nextRangeID := s.nextRangeID + 2
        nextSplitID := wrap64 (s.nextSplitID + 1)
        splits := s.splits ++ [record] })

/-- `begin`. -/
def begin (s : MetadataState) (parent : RangeRef) (splitKey : Bytes)
    (expectedGeneration : ℕ) : Except Error (SplitRecord × MetadataState) :=
  if s.catalog.generation ≠ expectedGeneration then .error .staleRange
  else
    match s.catalog.lookupByID parent.rangeID with
    | .error _ => .error .staleRange
    | .ok d =>
      if d.generation ≠ parent.generation then .error .staleRange
      else if !strictInterior d.startKey d.endKey splitKey then .error .invalidDescriptor
      else
        match s.splits.find? (fun r => r.parent = parent && !r.state.terminal) with
        | some existing =>
          if existing.splitKey = splitKey then .ok (existing, s)
          else .error .splitInProgress
        | none =>
          if s.migrations.any fun r => r.rangeID = parent.rangeID && !r.state.terminal then
            .error .migrationInProgress
          else s.allocateSplit parent d splitKey

end MetadataState

/-- The record `advance` stores: the evidence of the caller on top of what is known. -/
def SplitRecord.advanced (record : SplitRecord) (target : SplitState) (update : SplitRecord) :
    SplitRecord :=
  { record with
    state := target
    bootstrapIndex :=
      if update.bootstrapIndex ≠ 0 then update.bootstrapIndex else record.bootstrapIndex
    fenceIndex := if update.fenceIndex ≠ 0 then update.fenceIndex else record.fenceIndex
    leftReplayThrough := max record.leftReplayThrough update.leftReplayThrough
    rightReplayThrough := max record.rightReplayThrough update.rightReplayThrough
    imageDigest := if update.imageDigest ≠ .zero then update.imageDigest else record.imageDigest
    lastError := update.lastError }

/-- The ranges after a split: the parent's place is taken by its children. -/
def replaceParent (record : SplitRecord) (d : RangeDescriptor) : List RangeDescriptor :=
  if d.rangeID = record.parent.rangeID then [record.left, record.right] else [d]

namespace MetadataState

/-- `advance`. -/
def advance (s : MetadataState) (id epoch : ℕ) (target : SplitState) (update : SplitRecord) :
    Except Error (SplitRecord × MetadataState) :=
  match s.split? id with
  | none => .error .splitConflict
  | some record =>
    if epoch ≠ record.epoch ∨ !legalSplitTransition record.state target then
      .error .splitConflict
    else
      let record := record.advanced target update
      .ok (record, s.setSplit record)

/-- `takeover`. -/
def takeover (s : MetadataState) (id epoch : ℕ) : Except Error (SplitRecord × MetadataState) :=
  match s.split? id with
  | none => .error .splitConflict
  | some record =>
    if record.state = .committed ∨ record.state = .aborted ∨ epoch ≠ record.epoch ∨
        record.epoch = Raft.maxUint64 then
      .error .splitConflict
    else
      let record := { record with epoch := record.epoch + 1 }
      .ok (record, s.setSplit record)

/-! ### Lineage -/

/-- The current range that answers for a reference: its range, not at an older
generation. -/
def current? (s : MetadataState) (ref : RangeRef) : Option RangeDescriptor :=
  match s.catalog.ranges.find? (·.rangeID = ref.rangeID) with
  | some d => if d.generation ≥ ref.generation then some d else none
  | none => none

/-- The loop of `resolve`: a reference without a current range is replaced by its two
children at the end of the queue.  `seen` are the references taken from the queue. -/
def resolveLoop (s : MetadataState) :
    ℕ → List (RangeRef × ℕ) → List RangeRef → List RangeDescriptor →
      Except Error (List RangeDescriptor)
  | _, [], _, result => .ok result
  | 0, _ :: _, _, _ => .error .corruptMetadata
  | fuel + 1, (ref, depth) :: queue, seen, result =>
    if depth > maxLineageDepth then .error .resourceLimit
    else if ref ∈ seen then .error .corruptMetadata
    else
      match s.current? ref with
      | some d => s.resolveLoop fuel queue (ref :: seen) (result ++ [d])
      | none =>
        match s.edge? ref with
        | none => .error .rangeNotFound
        | some edge =>
          if queue.length + 2 + result.length > maxCatalogRanges then
            .error .resourceLimit
          else
            s.resolveLoop fuel
              (queue ++ [(edge.leftChild, depth + 1), (edge.rightChild, depth + 1)])
              (ref :: seen) result

/-- `resolve`.  No reference is expanded twice, so the number of edges bounds the
rounds of the loop. -/
def resolve (s : MetadataState) (ref : RangeRef) : Except Error (List RangeDescriptor) :=
  match s.catalog.ranges.find? (·.rangeID = ref.rangeID) with
  | some d =>
    if d.generation = ref.generation then .ok [d]
    else (s.resolveLoop (2 * s.lineage.length + 2) [(ref, 0)] [] []).map
      (·.insertionSort RangeDescriptor.startLE)
  | none =>
    (s.resolveLoop (2 * s.lineage.length + 2) [(ref, 0)] [] []).map
      (·.insertionSort RangeDescriptor.startLE)

/-- The loop of `validateLineage`. -/
def validateEdges (s : MetadataState) : List LineageRecord → Except Error Unit
  | [] => .ok ()
  | edge :: rest =>
    if edge.leftChild = edge.rightChild ∨ edge.leftChild = edge.parent ∨
        edge.rightChild = edge.parent then
      .error .corruptMetadata
    else
      match s.resolve edge.parent with
      | .error err => .error (.join .corruptMetadata err)
      | .ok _ => s.validateEdges rest

/-- `validateLineage`. -/
def validateLineage (s : MetadataState) : Except Error Unit := s.validateEdges s.lineage

end MetadataState

/-- The edge a committed split leaves in the lineage. -/
def SplitRecord.lineage (record : SplitRecord) (cutover : ℕ) : LineageRecord where
  splitID := record.splitID
  parent := record.parent
  leftChild := record.left.ref
  rightChild := record.right.ref
  splitKey := record.splitKey
  cutoverCatalogGeneration := cutover

namespace MetadataState

/-- The bootstrap `commit` builds. -/
def splitBootstrap (s : MetadataState) (record : SplitRecord) : Bootstrap :=
  { s.catalog.snapshot with
    generation := wrap64 (s.catalog.generation + 1)
    ranges := s.catalog.ranges.flatMap (replaceParent record) }

/-- The state `commit` leaves behind, for the catalog it built. -/
def splitCommitted (s : MetadataState) (record : SplitRecord) (candidate : Catalog) :
    MetadataState :=
  { s with
    catalog := candidate
    lineage := s.lineage ++ [record.lineage candidate.generation] }.setSplit
      { record with
        state := .committed
        cutoverCatalogGeneration := candidate.generation }

/-- `commit`. -/
def commit (s : MetadataState) (id epoch expectedCatalog : ℕ) :
    Except Error (SplitRecord × MetadataState) :=
  match s.split? id with
  | none => .error .splitConflict
  | some record =>
    if record.epoch ≠ epoch ∨ record.state ≠ .fenced ∨
        s.catalog.generation ≠ expectedCatalog ∨ record.fenceIndex = 0 ∨
        record.leftReplayThrough ≠ record.fenceIndex ∨
        record.rightReplayThrough ≠ record.fenceIndex then
      .error .splitConflict
    else
      match newCatalog (s.splitBootstrap record) with
      | .error err => .error (.wrap "validate split catalog" err)
      | .ok candidate =>
        if (s.edge? record.parent).isSome then .error .splitConflict
        else
          let next := s.splitCommitted record candidate
          match next.validateLineage with
          | .error err => .error err
          | .ok () =>
            .ok ({ record with
              state := .committed
              cutoverCatalogGeneration := candidate.generation }, next)

end MetadataState

/-! ### Migrations -/

/-- `legalMigrationTransition`. -/
def legalMigrationTransition (source target : MigrationState) : Bool :=
  if target = .aborted then source.rank < MigrationState.joint.rank
  else target.rank = source.rank + 1 && source.rank < MigrationState.sourceRetired.rank

/-- The record `beginMigration` stores. -/
def newMigration (id rangeID generation : ℕ) (source : ReplicaDescriptor) (targetID : ℕ)
    (target : Raft.NodeID) (expectedCatalog : ℕ) : MigrationRecord where
  migrationID := id
  rangeID := rangeID
  rangeGeneration := generation
  sourceReplicaID := source.replicaID
  sourceNodeID := source.nodeID
  targetReplicaID := targetID
  targetNodeID := target
  epoch := 1
  state := .planned
  catalogGeneration := expectedCatalog

/-- The record `advanceMigration` stores. -/
def MigrationRecord.advanced (record : MigrationRecord) (target : MigrationState)
    (update : MigrationRecord) : MigrationRecord :=
  { record with
    state := target
    bootstrapIndex := max record.bootstrapIndex update.bootstrapIndex
    catchUpIndex := max record.catchUpIndex update.catchUpIndex
    promotionBarrier := max record.promotionBarrier update.promotionBarrier
    configVersion := max record.configVersion update.configVersion
    stateDigest := if update.stateDigest ≠ .zero then update.stateDigest else record.stateDigest
    lastError := update.lastError }

/-- A range after its migration: the target stands in the source's place. -/
def replaceReplica (record : MigrationRecord) (d : RangeDescriptor) : RangeDescriptor :=
  if d.rangeID = record.rangeID then
    { d with
      generation := wrap64 (d.generation + 1)
      replicas := d.replicas.map fun r =>
        if r.replicaID = record.sourceReplicaID then
          { replicaID := record.targetReplicaID, nodeID := record.targetNodeID }
        else r }
  else d

namespace MetadataState

/-- `beginMigration` behind its checks: allocate the identities. -/
def allocateMigration (s : MetadataState) (d : RangeDescriptor) (source : ReplicaDescriptor)
    (target : Raft.NodeID) (expectedCatalog : ℕ) :
    Except Error (MigrationRecord × MetadataState) :=
  if s.nextReplicaID = 0 ∨ s.nextMigrationID = 0 then .error .resourceLimit
  else
    let record := newMigration s.nextMigrationID d.rangeID d.generation source
      s.nextReplicaID target expectedCatalog
    .ok (record,
      { s with
        nextMigrationID := wrap64 (s.nextMigrationID + 1)
        nextReplicaID := wrap64 (s.nextReplicaID + 1)
        migrations := s.migrations ++ [record] })

/-- `beginMigration`. -/
def beginMigration (s : MetadataState) (rangeID source : ℕ) (target : Raft.NodeID)
    (generation expectedCatalog : ℕ) : Except Error (MigrationRecord × MetadataState) :=
  if s.catalog.generation ≠ expectedCatalog then .error .staleRange
  else
    match s.catalog.lookupByID rangeID with
    | .error _ => .error .staleRange
    | .ok d =>
      if d.generation ≠ generation then .error .staleRange
      else if d.replicas.any (·.nodeID = target) then .error .invalidDescriptor
      else
        match d.replicas.find? (·.replicaID = source) with
        | none => .error .invalidDescriptor
        | some sourceDescriptor =>
          if source = 0 ∨ target = 0 ∨ target ∉ s.catalog.nodes then
            .error .invalidDescriptor
          else if s.splits.any fun r =>
              r.parent.rangeID = rangeID && !r.state.terminal then
            .error .splitInProgress
          else
            match s.migrations.find? (fun r =>
                r.rangeID = rangeID && !r.state.terminal) with
            | some existing =>
              if existing.sourceReplicaID = source ∧ existing.targetNodeID = target then
                .ok (existing, s)
              else .error .migrationInProgress
            | none => s.allocateMigration d sourceDescriptor target expectedCatalog

/-- `advanceMigration`. -/
def advanceMigration (s : MetadataState) (id epoch : ℕ) (target : MigrationState)
    (update : MigrationRecord) : Except Error (MigrationRecord × MetadataState) :=
  match s.migration? id with
  | none => .error .migrationConflict
  | some record =>
    if record.epoch ≠ epoch then .error .migrationConflict
    else if record.state = target then .ok (record, s)
    else if !legalMigrationTransition record.state target then .error .migrationConflict
    else
      let record := record.advanced target update
      .ok (record, s.setMigration record)

/-- `takeoverMigration`. -/
def takeoverMigration (s : MetadataState) (id epoch : ℕ) :
    Except Error (MigrationRecord × MetadataState) :=
  match s.migration? id with
  | none => .error .migrationConflict
  | some record =>
    if record.epoch ≠ epoch ∨ record.state = .sourceRetired ∨ record.state = .aborted ∨
        record.epoch = Raft.maxUint64 then
      .error .migrationConflict
    else
      let record := { record with epoch := record.epoch + 1 }
      .ok (record, s.setMigration record)

/-- The bootstrap `commitMigration` builds. -/
def migrationBootstrap (s : MetadataState) (record : MigrationRecord) : Bootstrap :=
  { s.catalog.snapshot with
    generation := wrap64 (s.catalog.generation + 1)
    ranges := s.catalog.ranges.map (replaceReplica record) }

/-- `commitMigration`. -/
def commitMigration (s : MetadataState) (id epoch expectedCatalog configVersion : ℕ) :
    Except Error (MigrationRecord × MetadataState) :=
  match s.migration? id with
  | none => .error .migrationConflict
  | some record =>
    if record.epoch ≠ epoch ∨ record.state ≠ .sourceRemoving ∨
        s.catalog.generation ≠ expectedCatalog ∨ record.promotionBarrier = 0 ∨
        record.configVersion ≠ configVersion ∨ record.stateDigest = .zero then
      .error .migrationConflict
    else
      match s.catalog.ranges.find? (·.rangeID = record.rangeID) with
      | none => .error .migrationConflict
      | some d =>
        if d.generation ≠ record.rangeGeneration then .error .staleRange
        else if !d.replicas.any (·.replicaID = record.sourceReplicaID) then
          .error .migrationConflict
        else
          match newCatalog (s.migrationBootstrap record) with
          | .error err => .error (.wrap "validate migration catalog" err)
          | .ok candidate =>
            let record := { record with
              state := .committed
              catalogGeneration := candidate.generation }
            .ok (record, { s with catalog := candidate }.setMigration record)

end MetadataState

/-! ### Runs -/

/-- A call of one of the methods. -/
inductive MetadataCall where
  | begin (parent : RangeRef) (splitKey : Bytes) (expectedGeneration : ℕ)
  | advance (id epoch : ℕ) (target : SplitState) (update : SplitRecord)
  | takeover (id epoch : ℕ)
  | commit (id epoch expectedCatalog : ℕ)
  | beginMigration (rangeID source : ℕ) (target : Raft.NodeID) (generation expectedCatalog : ℕ)
  | advanceMigration (id epoch : ℕ) (target : MigrationState) (update : MigrationRecord)
  | takeoverMigration (id epoch : ℕ)
  | commitMigration (id epoch expectedCatalog configVersion : ℕ)

namespace MetadataState

/-- The state a successful call leaves. -/
def result (s : MetadataState) : MetadataCall → Except Error MetadataState
  | .begin parent splitKey generation => (s.begin parent splitKey generation).map (·.2)
  | .advance id epoch target update => (s.advance id epoch target update).map (·.2)
  | .takeover id epoch => (s.takeover id epoch).map (·.2)
  | .commit id epoch expected => (s.commit id epoch expected).map (·.2)
  | .beginMigration rangeID source target generation expected =>
    (s.beginMigration rangeID source target generation expected).map (·.2)
  | .advanceMigration id epoch target update =>
    (s.advanceMigration id epoch target update).map (·.2)
  | .takeoverMigration id epoch => (s.takeoverMigration id epoch).map (·.2)
  | .commitMigration id epoch expected version =>
    (s.commitMigration id epoch expected version).map (·.2)

/-- One call; a failing call changes nothing. -/
def call (s : MetadataState) (c : MetadataCall) : MetadataState :=
  match s.result c with
  | .ok s' => s'
  | .error _ => s

/-- A sequence of calls. -/
def run (s : MetadataState) (calls : List MetadataCall) : MetadataState := calls.foldl call s

@[simp] theorem run_nil (s : MetadataState) : s.run [] = s := rfl

@[simp] theorem run_cons (s : MetadataState) (c : MetadataCall) (calls : List MetadataCall) :
    s.run (c :: calls) = (s.call c).run calls := rfl

theorem run_append (s : MetadataState) (calls calls' : List MetadataCall) :
    s.run (calls ++ calls') = (s.run calls).run calls' :=
  List.foldl_append

end MetadataState

end RivetDB.Multiraft
