import RivetDB.Codec.Decoder
import RivetDB.Multiraft.Planner
import RivetDB.Multiraft.Cutover

/-!
# Reading the metadata back

The decoders of `metadata.go`, `rebalance_policy_codec.go` and `catalog_codec.go`.  They
check more than the encoders do: the length of a key or of an error text, the identities
and counters that may not be zero, the shape of a split.  For each kind of record it is
said here when its encoding is read back and when it is refused; which records can arise is
the subject of the modules that follow.
-/

namespace RivetDB.Multiraft

open Codec (putLE getLE slice)
open Decoder (Reads Fails)

/-- `metadataState`: the catalog and the records, with the rebalance control. -/
@[ext]
structure Metadata where
  state : MetadataState
  control : RebalanceControl := {}
deriving DecidableEq, Repr

/-- `maxMetadataCatalogBytes`. -/
def maxMetadataCatalogBytes : ℕ := 32 <<< 20

/-- The limit on the keys of a split, a descriptor or an action. -/
def maxMetadataKey : ℕ := 1 <<< 20

/-- The limit on the texts of a record. -/
def maxMetadataText : ℕ := 1 <<< 16

/-- `int64(bits)`. -/
def getInt64 (bits : ℕ) : ℤ := (bits : ℤ).bmod (2 ^ 64)

def MigrationState.ofRank : ℕ → Option MigrationState
  | 1 => some .planned
  | 2 => some .bootstrapping
  | 3 => some .learner
  | 4 => some .catchingUp
  | 5 => some .ready
  | 6 => some .joint
  | 7 => some .promoted
  | 8 => some .sourceRemoving
  | 9 => some .committed
  | 10 => some .sourceRetired
  | 11 => some .aborted
  | _ => none

def SplitState.ofRank : ℕ → Option SplitState
  | 1 => some .preparing
  | 2 => some .copying
  | 3 => some .catchingUp
  | 4 => some .ready
  | 5 => some .fenced
  | 6 => some .committed
  | 7 => some .aborted
  | _ => none

/-- The action types a record may have. -/
def RebalanceActionType.ofRank : ℕ → Option RebalanceActionType
  | 1 => some .moveReplica
  | 2 => some .splitRange
  | 3 => some .transferLeader
  | _ => none

def RebalanceActionState.ofRank : ℕ → Option RebalanceActionState
  | 1 => some .planned
  | 2 => some .executing
  | 3 => some .succeeded
  | 4 => some .failed
  | _ => none

/-! ### The catalog -/

/-- The loop over the replicas of a descriptor. -/
def decodeReplica (err : Error) : Decoder Error ReplicaDescriptor := do
  let replicaID ← Decoder.uint err 8
  let nodeID ← Decoder.uint err 8
  return ⟨replicaID, UInt64.ofNat nodeID⟩

/-- The endpoints behind the flags of a descriptor. -/
def flaggedDescriptor (id generation flags : ℕ) (start finish : Bytes)
    (replicas : List ReplicaDescriptor) : RangeDescriptor where
  rangeID := id
  generation := generation
  startKey := { unbounded := flags % 2 = 1, key := start }
  endKey := { unbounded := flags / 2 % 2 = 1, key := finish }
  replicas := replicas

namespace Catalog

/-- A descriptor of the catalog.  The sum of the two lengths, which the source compares with
`math.MaxInt`, is that of two 32-bit numbers. -/
def decodeDescriptor : Decoder Error RangeDescriptor := do
  let id ← Decoder.uint .corruptCatalog 8
  let generation ← Decoder.uint .corruptCatalog 8
  let flags ← Decoder.uint .corruptCatalog 1
  let reserved ← Decoder.take .corruptCatalog 3
  let startN ← Decoder.uint .corruptCatalog 4
  let endN ← Decoder.uint .corruptCatalog 4
  let replicasN ← Decoder.uint .corruptCatalog 4
  if flags > 3 ∨ reserved ≠ [0, 0, 0] ∨ replicasN > maxRangeReplicas then throw .corruptCatalog
  else do
    let start ← Decoder.take .corruptCatalog startN
    let finish ← Decoder.take .corruptCatalog endN
    let replicas ← Decoder.many (decodeReplica .corruptCatalog) replicasN
    return flaggedDescriptor id generation flags start finish replicas

/-- What `decodeCatalog` reads behind the header. -/
def decodeFields (allowPartial : Bool) : Decoder Error Bootstrap := do
  let generation ← Decoder.uint .corruptCatalog 8
  let replication ← Decoder.uint .corruptCatalog 4
  if replication > maxRangeReplicas then throw .corruptCatalog
  else do
    let nodeCount ← Decoder.uint .corruptCatalog 4
    if nodeCount > maxCatalogNodes then throw .corruptCatalog
    else do
      let rangeCount ← Decoder.uint .corruptCatalog 4
      if rangeCount > maxCatalogRanges then throw .corruptCatalog
      else do
        let nodes ← Decoder.many (Decoder.uint .corruptCatalog 8) nodeCount
        let ranges ← Decoder.many decodeDescriptor rangeCount
        return {
          generation := generation
          nodes := nodes.map UInt64.ofNat
          replicationFactor := replication
          allowPartial := allowPartial
          ranges := ranges }

/-- The end of `decodeCatalog`: the catalog is accepted and was written as it would be
written again. -/
def revalidate (crc32 : Bytes → ℕ) (encoded : Bytes) (b : Bootstrap) : Except Error Catalog :=
  match newCatalog b with
  | .error err => .error (.wrap "validate decoded catalog" (.join .corruptCatalog err))
  | .ok catalog =>
    match catalog.encode crc32 with
    | .error _ => .error .corruptCatalog
    | .ok canonical => if canonical ≠ encoded then .error .corruptCatalog else .ok catalog

/-- `decodeCatalog`. -/
def decode (crc32 : Bytes → ℕ) (encoded : Bytes) : Except Error Catalog :=
  if encoded.length < 32 ∨ encoded.length > maxCatalogBytes ∨ encoded.take 4 ≠ magic then
    .error .corruptCatalog
  else if getLE (slice encoded 4 6) ≠ 1 then .error .unsupportedCatalog
  else if getLE (slice encoded 6 8) > 1 then .error .corruptCatalog
  else if crc32 (encoded.take (encoded.length - 4)) % 2 ^ 32 ≠
      getLE (encoded.drop (encoded.length - 4)) then .error .corruptCatalog
  else
    match (decodeFields (getLE (slice encoded 6 8) = 1)).run
        (slice encoded 8 (encoded.length - 4)) with
    | .error err => .error err
    | .ok (b, rest) =>
      if rest ≠ [] then .error (.wrap "trailing bytes" .corruptCatalog)
      else revalidate crc32 encoded b

end Catalog

/-! ### The records -/

/-- A decoder of the metadata. -/
abbrev MetadataDecoder := Decoder Error

namespace MetadataDecoder

def take (n : ℕ) : MetadataDecoder Bytes := Decoder.take .corruptMetadata n

def u8 : MetadataDecoder ℕ := Decoder.uint .corruptMetadata 1

def u32 : MetadataDecoder ℕ := Decoder.uint .corruptMetadata 4

def u64 : MetadataDecoder ℕ := Decoder.uint .corruptMetadata 8

/-- `decodeDescriptorBytes`. -/
def descriptor : MetadataDecoder RangeDescriptor := do
  let id ← u64
  let generation ← u64
  let flags ← u8
  let reserved ← take 3
  if flags > 3 ∨ reserved ≠ [0, 0, 0] then throw .corruptMetadata
  else do
    let startN ← u32
    let endN ← u32
    let replicasN ← u32
    if startN > maxMetadataKey ∨ endN > maxMetadataKey ∨ replicasN > maxRangeReplicas then
      throw .resourceLimit
    else do
      let start ← take startN
      let finish ← take endN
      let replicas ← Decoder.many (decodeReplica .corruptMetadata) replicasN
      let d := flaggedDescriptor id generation flags start finish replicas
      match d.validate with
      | .error err => throw (.join .corruptMetadata err)
      | .ok () => pure d

/-- The check at the end of `decodeSplitRecord`, but for the state. -/
def wellShaped (r : SplitRecord) : Bool :=
  r.splitID ≠ 0 && r.parent.rangeID ≠ 0 && r.parent.generation ≠ 0 && r.epoch ≠ 0 &&
    strictInterior r.left.startKey r.right.endKey r.splitKey &&
    !r.left.endKey.unbounded && !r.right.startKey.unbounded &&
    r.left.endKey.key = r.splitKey && r.right.startKey.key = r.splitKey &&
    r.left.replicas = r.right.replicas

/-- The fields of fixed size at the front of a split record. -/
structure SplitHeader where
  id : ℕ
  parent : RangeRef
  epoch : ℕ
  stateByte : ℕ
  keyN : ℕ
  bootstrap : ℕ
  fence : ℕ
  leftReplay : ℕ
  rightReplay : ℕ
  cutover : ℕ
  digest : Digest
  errN : ℕ

/-- The first part of `decodeSplitRecord`. -/
def splitHeader : MetadataDecoder SplitHeader := do
  let id ← u64
  let parent ← u64
  let generation ← u64
  let epoch ← u64
  let stateByte ← u8
  let reserved ← take 3
  if reserved ≠ [0, 0, 0] then throw .corruptMetadata
  else do
    let keyN ← u32
    let bootstrap ← u64
    let fence ← u64
    let leftReplay ← u64
    let rightReplay ← u64
    let cutover ← u64
    let digest ← take 32
    let errN ← u32
    return {
      id := id
      parent := ⟨parent, generation⟩
      epoch := epoch
      stateByte := stateByte
      keyN := keyN
      bootstrap := bootstrap
      fence := fence
      leftReplay := leftReplay
      rightReplay := rightReplay
      cutover := cutover
      digest := .copy digest
      errN := errN }

/-- `decodeSplitRecord`. -/
def splitRecord : MetadataDecoder SplitRecord := do
  let h ← splitHeader
  if h.keyN > maxMetadataKey ∨ h.errN > maxMetadataText then throw .resourceLimit
  else do
    let key ← take h.keyN
    let last ← take h.errN
    let left ← descriptor
    let right ← descriptor
    match SplitState.ofRank h.stateByte with
    | none => throw .corruptMetadata
    | some state =>
      let r : SplitRecord := {
        splitID := h.id
        parent := h.parent
        splitKey := key
        left := left
        right := right
        epoch := h.epoch
        state := state
        bootstrapIndex := h.bootstrap
        fenceIndex := h.fence
        leftReplayThrough := h.leftReplay
        rightReplayThrough := h.rightReplay
        imageDigest := h.digest
        cutoverCatalogGeneration := h.cutover
        lastError := last }
      if !wellShaped r then throw .corruptMetadata else pure r

/-- `decodeMigrationRecord`. -/
def migrationRecord : MetadataDecoder MigrationRecord := do
  let values ← Decoder.many u64 13
  let stateByte ← u8
  let reserved ← take 3
  if reserved ≠ [0, 0, 0] then throw .corruptMetadata
  else do
    let digest ← take 32
    let n ← Decoder.uint .resourceLimit 4
    if n > maxMetadataText then throw .resourceLimit
    else do
      let last ← take n
      match MigrationState.ofRank stateByte with
      | none => throw .corruptMetadata
      | some state =>
        if values.take 8 |>.any (· = 0) then throw .corruptMetadata
        else pure {
          migrationID := values.getD 0 0
          rangeID := values.getD 1 0
          rangeGeneration := values.getD 2 0
          sourceReplicaID := values.getD 3 0
          sourceNodeID := UInt64.ofNat (values.getD 4 0)
          targetReplicaID := values.getD 5 0
          targetNodeID := UInt64.ofNat (values.getD 6 0)
          epoch := values.getD 7 0
          state := state
          bootstrapIndex := values.getD 8 0
          catchUpIndex := values.getD 9 0
          promotionBarrier := values.getD 10 0
          configVersion := values.getD 11 0
          catalogGeneration := values.getD 12 0
          stateDigest := .copy digest
          lastError := last }

/-- `decodeLineage`. -/
def lineage : MetadataDecoder LineageRecord := do
  let values ← Decoder.many u64 8
  let n ← u32
  if n > maxMetadataKey then throw .resourceLimit
  else do
    let key ← take n
    let r : LineageRecord := {
      splitID := values.getD 0 0
      parent := ⟨values.getD 1 0, values.getD 2 0⟩
      leftChild := ⟨values.getD 3 0, values.getD 4 0⟩
      rightChild := ⟨values.getD 5 0, values.getD 6 0⟩
      splitKey := key
      cutoverCatalogGeneration := values.getD 7 0 }
    if r.splitID = 0 ∨ r.parent.rangeID = 0 ∨ r.leftChild.rangeID = 0 ∨
        r.rightChild.rangeID = 0 then
      throw .corruptMetadata
    else pure r

/-! ### The rebalance control -/

/-- The policy with the values in the order of `appendRebalancePolicy`. -/
def policyOf (flags : ℕ) (values : List ℕ) : RebalancePolicy where
  version := values.getD 0 0
  enabled := flags % 2 = 1
  moves := flags / 2 % 2 = 1
  splits := flags / 4 % 2 = 1
  leaders := flags / 8 % 2 = 1
  sampleInterval := getInt64 (values.getD 1 0)
  ewmaAlphaPPM := values.getD 2 0
  minSamples := values.getD 3 0
  nodeImbalanceStartPPM := values.getD 4 0
  nodeImbalanceRecoveryPPM := values.getD 5 0
  bytesWeight := values.getD 6 0
  writeWeight := values.getD 7 0
  readWeight := values.getD 8 0
  leaderWeight := values.getD 9 0
  backlogWeight := values.getD 10 0
  replicaWeight := values.getD 11 0
  rangeBytesWeight := values.getD 12 0
  rangeWriteWeight := values.getD 13 0
  rangeReadWeight := values.getD 14 0
  rangeBacklogWeight := values.getD 15 0
  maxLogicalBytesPerNode := values.getD 16 0
  maxReplicaCountPerNode := values.getD 17 0
  maxLeaderCountPerNode := values.getD 18 0
  maxWriteRatePerNode := values.getD 19 0
  rangeSplitBytes := values.getD 20 0
  rangeHotReadRate := values.getD 21 0
  rangeHotWriteRate := values.getD 22 0
  minRangeBytes := values.getD 23 0
  maxRanges := values.getD 24 0
  minExpectedImprovement := values.getD 25 0
  maxActionsPerCycle := values.getD 26 0
  maxConcurrentMigrationsCluster := values.getD 27 0
  maxConcurrentSplitsCluster := values.getD 28 0
  maxOutgoingMigrationsPerNode := values.getD 29 0
  maxIncomingMigrationsPerNode := values.getD 30 0
  maxSplitsPerNode := values.getD 31 0
  cooldown := getInt64 (values.getD 32 0)
  splitCooldown := getInt64 (values.getD 33 0)
  failureCooldown := getInt64 (values.getD 34 0)
  historyLimit := values.getD 35 0
  emergencyCapacityOverridesCooldown := flags / 16 % 2 = 1

/-- `decodeRebalancePolicy`. -/
def policy : MetadataDecoder RebalancePolicy := do
  let flags ← u8
  let reserved ← take 7
  if flags > 31 ∨ reserved ≠ List.replicate 7 0 then throw .corruptMetadata
  else do
    let values ← Decoder.many u64 36
    if [3, 26, 27, 28, 29, 30, 31, 35].any (fun i => values.getD i 0 ≥ 2 ^ 32) then
      throw .corruptMetadata
    else
      let p := policyOf flags values
      match p.validate with
      | .error _ => if p.version ≠ 0 then throw .corruptMetadata else pure p
      | .ok () => pure p

/-- A text of the constraints of an action. -/
def constraint : MetadataDecoder Bytes := do
  let n ← Decoder.uint .resourceLimit 4
  if n > maxMetadataText then throw .resourceLimit else take n

/-- A record of the history. -/
def actionRecord : MetadataDecoder RebalanceActionRecord := do
  let values ← Decoder.many u64 20
  let keyN ← Decoder.uint .resourceLimit 4
  let reasonN ← Decoder.uint .resourceLimit 4
  let errorN ← Decoder.uint .resourceLimit 4
  let constraintN ← Decoder.uint .resourceLimit 4
  if keyN > maxMetadataKey ∨ reasonN > maxMetadataText ∨ errorN > maxMetadataText ∨
      constraintN > 64 then
    throw .resourceLimit
  else do
    let key ← take keyN
    let reason ← take reasonN
    let last ← take errorN
    if values.getD 1 0 > RebalanceActionType.transferLeader.rank ∨
        values.getD 14 0 > RebalanceActionState.failed.rank ∨ values.getD 19 0 > 1 then
      throw .corruptMetadata
    else do
      let constraints ← Decoder.many constraint constraintN
      match RebalanceActionType.ofRank (values.getD 1 0),
          RebalanceActionState.ofRank (values.getD 14 0) with
      | some type, some state =>
        if values.getD 0 0 = 0 ∨ values.getD 2 0 = 0 then throw .corruptMetadata
        else pure {
          action := {
            actionID := values.getD 0 0
            type := type
            reason := reason
            rangeID := values.getD 2 0
            rangeGeneration := values.getD 3 0
            catalogGeneration := values.getD 4 0
            sourceReplicaID := values.getD 5 0
            sourceNodeID := UInt64.ofNat (values.getD 6 0)
            targetNodeID := UInt64.ofNat (values.getD 7 0)
            splitKey := key
            sourceScore := values.getD 8 0
            targetScore := values.getD 9 0
            estimatedCost := values.getD 10 0
            expectedImprovement := values.getD 11 0
            constraints := constraints
            emergency := values.getD 19 0 = 1 }
          controllerEpoch := values.getD 12 0
          policyVersion := values.getD 13 0
          state := state
          plannedAt := getInt64 (values.getD 17 0)
          updatedAt := getInt64 (values.getD 18 0)
          migrationID := values.getD 15 0
          splitID := values.getD 16 0
          lastError := last }
      | _, _ => throw .corruptMetadata

/-- A cooldown: an identity and the bits of its deadline. -/
def cooldown : MetadataDecoder (ℕ × ℤ) := do
  let id ← u64
  let deadline ← u64
  if id = 0 then throw .corruptMetadata else pure (id, getInt64 deadline)

end MetadataDecoder

/-- The map assignment `m[key] = value`. -/
def assign {κ ν : Type} [DecidableEq κ] (m : List (κ × ν)) (key : κ) (value : ν) : List (κ × ν) :=
  if m.any (·.1 = key) then m.map fun p => if p.1 = key then (key, value) else p
  else m ++ [(key, value)]

/-- The map that a sequence of assignments leaves. -/
def assignAll {κ ν : Type} [DecidableEq κ] (ps : List (κ × ν)) : List (κ × ν) :=
  ps.foldl (fun m p => assign m p.1 p.2) []

namespace MetadataDecoder

/-- A count of items, and the items. -/
def counted {α : Type} (limit : ℕ) (x : MetadataDecoder α) : MetadataDecoder (List α) := do
  let n ← Decoder.uint .resourceLimit 4
  if n > limit then throw .resourceLimit else Decoder.many x n

/-- The fields of `decodeRebalanceControl`. -/
def controlFields : MetadataDecoder RebalanceControl := do
  let policy ← policy
  let epoch ← u64
  let nextAction ← u64
  let history ← counted maxRebalanceActionRecords actionRecord
  let ranges ← counted maxCatalogRanges cooldown
  let nodes ← counted maxCatalogNodes cooldown
  return {
    policy := policy
    policyVersion := policy.version
    controllerEpoch := epoch
    nextActionID := nextAction
    history := history
    rangeCooldowns := assignAll ranges
    nodeCooldowns := assignAll (nodes.map fun p => (UInt64.ofNat p.1, p.2)) }

/-- `decodeRebalanceControl`. -/
def control : MetadataDecoder RebalanceControl := do
  let result ← controlFields
  if result.nextActionID = 0 then throw .corruptMetadata else pure result

/-- The records of `decodeMetadata`, a count before them; none has the key of another. -/
def table {α κ : Type} [DecidableEq κ] (limit : ℕ) (key : α → κ) (x : MetadataDecoder α) :
    MetadataDecoder (List α) := do
  let n ← u32
  if n > limit then throw .resourceLimit else Decoder.distinct .corruptMetadata key x n []

/-- The counters and the catalog, with which `decodeMetadata` starts its state. -/
def bare (crc32 : Bytes → ℕ) : MetadataDecoder MetadataState := do
  let reserved ← take 2
  if reserved ≠ [0, 0] then throw .corruptMetadata
  else do
    let nextRange ← u64
    let nextSplit ← u64
    let nextReplica ← u64
    let nextMigration ← u64
    let catalogN ← u32
    if catalogN > maxMetadataCatalogBytes then throw .resourceLimit
    else do
      let encodedCatalog ← take catalogN
      match Catalog.decode crc32 encodedCatalog with
      | .error err => throw (.join .corruptMetadata err)
      | .ok catalog => pure {
          catalog := catalog
          nextRangeID := nextRange
          nextSplitID := nextSplit
          nextReplicaID := nextReplica
          nextMigrationID := nextMigration }

/-- The fields of `decodeMetadata` behind the version. -/
def fields (crc32 : Bytes → ℕ) (version : ℕ) : MetadataDecoder Metadata := do
  let s ← bare crc32
  let splits ← table maxSplitRecords SplitRecord.splitID splitRecord
  let migrations ← table maxMigrationRecords MigrationRecord.migrationID migrationRecord
  let edges ← table maxSplitRecords LineageRecord.parent lineage
  let rebalance ← if version ≥ 3 then control else pure {}
  return {
    state := { s with
      splits := splits
      migrations := migrations
      lineage := edges }
    control := rebalance }

/-- The magic number and the version in front of the fields. -/
def header : MetadataDecoder ℕ := do
  let magic ← take 4
  if magic ≠ metadataMagic then throw .corruptMetadata
  else do
    let versionBytes ← take 2
    if getLE versionBytes ≠ 2 ∧ getLE versionBytes ≠ 3 then throw .unsupportedMetadata
    else return getLE versionBytes

end MetadataDecoder

/-- `decodeMetadata`. -/
def decodeMetadata (crc32 : Bytes → ℕ) (data : Bytes) : Except Error Metadata :=
  match (MetadataDecoder.header >>= MetadataDecoder.fields crc32).run data with
  | .error err => .error err
  | .ok (m, rest) =>
    if rest ≠ [] ∨ m.state.nextRangeID = 0 ∨ m.state.nextSplitID = 0 ∨
        m.state.nextReplicaID = 0 ∨ m.state.nextMigrationID = 0 then
      .error .corruptMetadata
    else
      match m.state.validateLineage with
      | .error err => .error err
      | .ok () => .ok m

end RivetDB.Multiraft
