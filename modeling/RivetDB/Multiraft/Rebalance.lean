import RivetDB.Multiraft.Metadata

/-!
# The rebalance control

`rebalance_types.go` and `rebalance_policy_codec.go`, as far as the replicated metadata
holds them: the policy, the action history and the cooldowns.  A duration and a point in
time are their nanoseconds; strings are their bytes.  The maps of the cooldowns are lists
with one entry per key.
-/

namespace RivetDB.Multiraft

open Codec (putLE)

structure RebalancePolicy where
  version : ℕ := 0
  enabled : Bool := false
  moves : Bool := false
  splits : Bool := false
  leaders : Bool := false
  sampleInterval : ℤ := 0
  ewmaAlphaPPM : ℕ := 0
  minSamples : ℕ := 0
  nodeImbalanceStartPPM : ℕ := 0
  nodeImbalanceRecoveryPPM : ℕ := 0
  bytesWeight : ℕ := 0
  writeWeight : ℕ := 0
  readWeight : ℕ := 0
  leaderWeight : ℕ := 0
  backlogWeight : ℕ := 0
  replicaWeight : ℕ := 0
  rangeBytesWeight : ℕ := 0
  rangeWriteWeight : ℕ := 0
  rangeReadWeight : ℕ := 0
  rangeBacklogWeight : ℕ := 0
  maxLogicalBytesPerNode : ℕ := 0
  maxReplicaCountPerNode : ℕ := 0
  maxLeaderCountPerNode : ℕ := 0
  maxWriteRatePerNode : ℕ := 0
  rangeSplitBytes : ℕ := 0
  rangeHotReadRate : ℕ := 0
  rangeHotWriteRate : ℕ := 0
  minRangeBytes : ℕ := 0
  maxRanges : ℕ := 0
  minExpectedImprovement : ℕ := 0
  maxActionsPerCycle : ℕ := 0
  maxConcurrentMigrationsCluster : ℕ := 0
  maxConcurrentSplitsCluster : ℕ := 0
  maxOutgoingMigrationsPerNode : ℕ := 0
  maxIncomingMigrationsPerNode : ℕ := 0
  maxSplitsPerNode : ℕ := 0
  cooldown : ℤ := 0
  splitCooldown : ℤ := 0
  failureCooldown : ℤ := 0
  historyLimit : ℕ := 0
  emergencyCapacityOverridesCooldown : Bool := false
deriving DecidableEq, Repr

inductive RebalanceActionType where
  | moveReplica
  | splitRange
  | transferLeader
  | noop
deriving DecidableEq, Repr

/-- The numeric value of an action type. -/
def RebalanceActionType.rank : RebalanceActionType → ℕ
  | .moveReplica => 1
  | .splitRange => 2
  | .transferLeader => 3
  | .noop => 4

structure RebalanceAction where
  actionID : ℕ
  type : RebalanceActionType
  reason : Bytes
  rangeID : ℕ
  rangeGeneration : ℕ
  catalogGeneration : ℕ
  sourceReplicaID : ℕ
  sourceNodeID : Raft.NodeID
  targetNodeID : Raft.NodeID
  splitKey : Bytes
  sourceScore : ℕ
  targetScore : ℕ
  estimatedCost : ℕ
  expectedImprovement : ℕ
  constraints : List Bytes
  emergency : Bool
deriving DecidableEq, Repr

inductive RebalanceActionState where
  | planned
  | executing
  | succeeded
  | failed
deriving DecidableEq, Repr

/-- The numeric value of an action state. -/
def RebalanceActionState.rank : RebalanceActionState → ℕ
  | .planned => 1
  | .executing => 2
  | .succeeded => 3
  | .failed => 4

structure RebalanceActionRecord where
  action : RebalanceAction
  controllerEpoch : ℕ
  policyVersion : ℕ
  state : RebalanceActionState
  plannedAt : ℤ
  updatedAt : ℤ
  migrationID : ℕ
  splitID : ℕ
  lastError : Bytes
deriving DecidableEq, Repr

/-- `RebalanceControlSnapshot`; the defaults are those of `newMetadataState`. -/
structure RebalanceControl where
  policy : RebalancePolicy := {}
  policyVersion : ℕ := 0
  controllerEpoch : ℕ := 0
  nextActionID : ℕ := 1
  history : List RebalanceActionRecord := []
  rangeCooldowns : List (ℕ × ℤ) := []
  nodeCooldowns : List (Raft.NodeID × ℤ) := []
deriving DecidableEq, Repr

/-- `MaxRebalanceActionRecords`. -/
def maxRebalanceActionRecords : ℕ := 4096

/-! ### Encoding -/

/-- The bits of a signed number. -/
def bits64 (t : ℤ) : ℕ := (t % 2 ^ 64).toNat

/-- A signed number, stored bit for bit. -/
def putInt64 (n : ℤ) : Bytes := putLE 8 (bits64 n)

/-- One bit per flag, the first one lowest. -/
def flagBits : List Bool → ℕ
  | [] => 0
  | b :: rest => (if b then 1 else 0) + 2 * flagBits rest

/-- The numbers of a policy, in the order in which they are written. -/
def RebalancePolicy.words (p : RebalancePolicy) : List ℕ :=
  [p.version, bits64 p.sampleInterval, p.ewmaAlphaPPM, p.minSamples, p.nodeImbalanceStartPPM,
    p.nodeImbalanceRecoveryPPM, p.bytesWeight, p.writeWeight, p.readWeight, p.leaderWeight,
    p.backlogWeight, p.replicaWeight, p.rangeBytesWeight, p.rangeWriteWeight,
    p.rangeReadWeight, p.rangeBacklogWeight, p.maxLogicalBytesPerNode,
    p.maxReplicaCountPerNode, p.maxLeaderCountPerNode, p.maxWriteRatePerNode,
    p.rangeSplitBytes, p.rangeHotReadRate, p.rangeHotWriteRate, p.minRangeBytes, p.maxRanges,
    p.minExpectedImprovement, p.maxActionsPerCycle, p.maxConcurrentMigrationsCluster,
    p.maxConcurrentSplitsCluster, p.maxOutgoingMigrationsPerNode,
    p.maxIncomingMigrationsPerNode, p.maxSplitsPerNode, bits64 p.cooldown,
    bits64 p.splitCooldown, bits64 p.failureCooldown, p.historyLimit]

def RebalancePolicy.flags (p : RebalancePolicy) : ℕ :=
  flagBits [p.enabled, p.moves, p.splits, p.leaders, p.emergencyCapacityOverridesCooldown]

/-- `appendRebalancePolicy`. -/
def RebalancePolicy.encode (p : RebalancePolicy) : Bytes :=
  putLE 1 p.flags ++ (List.replicate 7 0 ++ p.words.flatMap (putLE 8))

/-- The bounds `appendRebalanceControl` checks on a record of the history. -/
def RebalanceActionRecord.bounded (r : RebalanceActionRecord) : Bool :=
  r.action.splitKey.length ≤ 1 <<< 20 && r.action.reason.length ≤ 1 <<< 16 &&
    r.lastError.length ≤ 1 <<< 16 && r.action.constraints.length ≤ 64 &&
    r.action.constraints.all (·.length ≤ 1 <<< 16)

/-- The numbers of a record, in the order in which they are written. -/
def RebalanceActionRecord.words (r : RebalanceActionRecord) : List ℕ :=
  [r.action.actionID, r.action.type.rank, r.action.rangeID, r.action.rangeGeneration,
    r.action.catalogGeneration, r.action.sourceReplicaID, r.action.sourceNodeID.toNat,
    r.action.targetNodeID.toNat, r.action.sourceScore, r.action.targetScore,
    r.action.estimatedCost, r.action.expectedImprovement, r.controllerEpoch,
    r.policyVersion, r.state.rank, r.migrationID, r.splitID, bits64 r.plannedAt,
    bits64 r.updatedAt, if r.action.emergency then 1 else 0]

/-- The bytes of a record of the history. -/
def RebalanceActionRecord.encode (r : RebalanceActionRecord) : Bytes :=
  r.words.flatMap (putLE 8) ++
    (putLE 4 r.action.splitKey.length ++ (putLE 4 r.action.reason.length ++
    (putLE 4 r.lastError.length ++ (putLE 4 r.action.constraints.length ++
    (r.action.splitKey ++ (r.action.reason ++ (r.lastError ++
    r.action.constraints.flatMap fun c => putLE 4 c.length ++ c)))))))

/-- The cooldowns of ranges in the order in which they are written. -/
def RebalanceControl.sortedRanges (c : RebalanceControl) : List (ℕ × ℤ) :=
  c.rangeCooldowns.insertionSort fun a b => a.1 ≤ b.1

def RebalanceControl.sortedNodes (c : RebalanceControl) : List (Raft.NodeID × ℤ) :=
  c.nodeCooldowns.insertionSort fun a b => a.1 ≤ b.1

/-- What `appendRebalanceControl` writes. -/
def RebalanceControl.bytes (c : RebalanceControl) : Bytes :=
  c.policy.encode ++ (putLE 8 c.controllerEpoch ++ (putLE 8 c.nextActionID ++
    (putLE 4 c.history.length ++ (c.history.flatMap RebalanceActionRecord.encode ++
    (putLE 4 c.sortedRanges.length ++
    (c.sortedRanges.flatMap (fun p => putLE 8 p.1 ++ putInt64 p.2) ++
    (putLE 4 c.sortedNodes.length ++
    c.sortedNodes.flatMap fun p => putLE 8 p.1.toNat ++ putInt64 p.2)))))))

/-- `appendRebalanceControl`. -/
def RebalanceControl.encode (c : RebalanceControl) : Except Error Bytes :=
  if c.history.length > maxRebalanceActionRecords ∨
      c.rangeCooldowns.length > maxCatalogRanges ∨ c.nodeCooldowns.length > maxCatalogNodes then
    .error .resourceLimit
  else if c.policyVersion ≠ c.policy.version then .error .corruptMetadata
  else if !c.history.all RebalanceActionRecord.bounded then .error .resourceLimit
  else .ok c.bytes

/-- The part of a split record that has a fixed length. -/
def SplitRecord.headerBytes (r : SplitRecord) : Bytes :=
  putLE 8 r.splitID ++ (putLE 8 r.parent.rangeID ++ (putLE 8 r.parent.generation ++
    (putLE 8 r.epoch ++ (putLE 1 r.state.rank ++ ([0, 0, 0] ++ (putLE 4 r.splitKey.length ++
    (putLE 8 r.bootstrapIndex ++ (putLE 8 r.fenceIndex ++ (putLE 8 r.leftReplayThrough ++
    (putLE 8 r.rightReplayThrough ++ (putLE 8 r.cutoverCatalogGeneration ++
    (r.imageDigest.bytes ++ putLE 4 r.lastError.length))))))))))))

/-- `appendSplitRecord`. -/
def SplitRecord.encode (r : SplitRecord) : Bytes :=
  r.headerBytes ++ (r.splitKey ++ (r.lastError ++ (r.left.encode ++ r.right.encode)))

/-- `appendLineage`. -/
def LineageRecord.encode (r : LineageRecord) : Bytes :=
  [r.splitID, r.parent.rangeID, r.parent.generation, r.leftChild.rangeID,
      r.leftChild.generation, r.rightChild.rangeID, r.rightChild.generation,
      r.cutoverCatalogGeneration].flatMap (putLE 8) ++
    (putLE 4 r.splitKey.length ++ r.splitKey)

/-- The numbers of a migration record, in the order in which they are written. -/
def MigrationRecord.words (m : MigrationRecord) : List ℕ :=
  [m.migrationID, m.rangeID, m.rangeGeneration, m.sourceReplicaID, m.sourceNodeID.toNat,
    m.targetReplicaID, m.targetNodeID.toNat, m.epoch, m.bootstrapIndex, m.catchUpIndex,
    m.promotionBarrier, m.configVersion, m.catalogGeneration]

/-- `appendMigrationRecord`. -/
def MigrationRecord.encode (m : MigrationRecord) : Bytes :=
  m.words.flatMap (putLE 8) ++ (putLE 1 m.state.rank ++ ([0, 0, 0] ++
    (m.stateDigest.bytes ++ (putLE 4 m.lastError.length ++ m.lastError))))

/-- `MaxSplitRecords`, the bound on the splits and on the lineage. -/
def maxSplitRecords : ℕ := 4096

/-- `MaxMigrationRecords`. -/
def maxMigrationRecords : ℕ := 4096

/-- `metadataMagic`: `RVMD`. -/
def metadataMagic : Bytes := [82, 86, 77, 68]

/-- What `encodeMetadata` writes, for the encoded catalog and control. -/
def MetadataState.image (s : MetadataState) (catalog control : Bytes) : Bytes :=
  metadataMagic ++ (putLE 2 3 ++ (putLE 2 0 ++ (putLE 8 s.nextRangeID ++
    (putLE 8 s.nextSplitID ++ (putLE 8 s.nextReplicaID ++ (putLE 8 s.nextMigrationID ++
    (putLE 4 catalog.length ++ (catalog ++
    (putLE 4 s.splits.length ++
      ((s.splits.insertionSort fun a b => a.splitID ≤ b.splitID).flatMap SplitRecord.encode ++
    (putLE 4 s.migrations.length ++
      ((s.migrations.insertionSort fun a b => a.migrationID ≤ b.migrationID).flatMap
        MigrationRecord.encode ++
    (putLE 4 s.lineage.length ++
      ((s.lineage.insertionSort fun a b => a.parent.rangeID ≤ b.parent.rangeID).flatMap
        LineageRecord.encode ++ control))))))))))))))

/-- `encodeMetadata`, for the metadata together with its rebalance control. -/
def encodeMetadata (crc32 : Bytes → ℕ) (s : MetadataState) (control : RebalanceControl) :
    Except Error Bytes :=
  if s.splits.length > maxSplitRecords ∨ s.migrations.length > maxMigrationRecords ∨
      s.lineage.length > maxSplitRecords then
    .error .resourceLimit
  else
    match s.catalog.encode crc32 with
    | .error err => .error err
    | .ok catalog =>
      match control.encode with
      | .error err => .error err
      | .ok bytes =>
        if (s.image catalog bytes).length > Raft.maxCommandBytes then .error .resourceLimit
        else .ok (s.image catalog bytes)

end RivetDB.Multiraft
