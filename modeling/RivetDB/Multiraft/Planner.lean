import RivetDB.Multiraft.Rebalance
import RivetDB.Program.Dict

/-!
# The rebalance planner

`rebalance_planner.go` and the part of `rebalance_telemetry.go` that puts an observation into
a canonical order.  `planRebalance` collects candidates from three generators, ranks them
together and takes them greedily; `validateRebalancePlan` is a second reading of the same
limits, made when a plan is about to be executed.

Metrics and weights are natural numbers.  Sums saturate at `maxUint64` where the code says so;
the plain sums of the code wrap.  A product of two `uint64` is compared in full, as `bits.Mul64`
does.  A role other than the three named ones stands for any other text.
-/

namespace RivetDB.Multiraft

/-- The errors of planning and validation. -/
inductive RebalanceError where
  | invalidRebalancePolicy
  | staleRebalancePlan
  | invalidTelemetry
  | wrap (text : String) (cause : RebalanceError)
deriving DecidableEq, Repr

/-! ### Arithmetic -/

def rateScale : ℕ := 1000000

def saturatingAdd (left right : ℕ) : ℕ :=
  if Raft.maxUint64 - left < right then Raft.maxUint64 else left + right

def saturatingMul (left right : ℕ) : ℕ :=
  if left = 0 ∨ right = 0 then 0
  else if left > Raft.maxUint64 / right then Raft.maxUint64
  else left * right

def mulDivSaturating (value multiplier divisor : ℕ) : ℕ :=
  if value = 0 ∨ multiplier = 0 then 0
  else if value * multiplier / 2 ^ 64 ≥ divisor then Raft.maxUint64
  else value * multiplier / divisor

def subtractClamp (value amount : ℕ) : ℕ :=
  if amount > value then 0 else value - amount

def maybeClamp (value ceiling : ℕ) : ℕ :=
  if value > ceiling then ceiling else value

/-! ### Policy -/

namespace RebalancePolicy

def weights (p : RebalancePolicy) : ℕ :=
  wrap64 (p.bytesWeight + p.writeWeight + p.readWeight + p.leaderWeight + p.backlogWeight +
    p.replicaWeight)

def rangeWeights (p : RebalancePolicy) : ℕ :=
  wrap64 (p.rangeBytesWeight + p.rangeWriteWeight + p.rangeReadWeight + p.rangeBacklogWeight)

/-- `Validate`. -/
def validate (p : RebalancePolicy) : Except RebalanceError Unit :=
  if p.version = 0 ∨ p.sampleInterval ≤ 0 ∨ p.ewmaAlphaPPM = 0 ∨ p.ewmaAlphaPPM > rateScale ∨
      p.minSamples = 0 ∨ p.nodeImbalanceStartPPM ≤ p.nodeImbalanceRecoveryPPM ∨
      p.weights = 0 ∨ p.rangeWeights = 0 ∨ p.minRangeBytes = 0 ∨
      p.rangeSplitBytes < p.minRangeBytes ∨ p.maxRanges = 0 ∨ p.maxActionsPerCycle = 0 ∨
      p.maxConcurrentMigrationsCluster = 0 ∨ p.maxConcurrentSplitsCluster = 0 ∨
      p.maxOutgoingMigrationsPerNode = 0 ∨ p.maxIncomingMigrationsPerNode = 0 ∨
      p.maxSplitsPerNode = 0 ∨ p.cooldown < 0 ∨ p.splitCooldown < 0 ∨ p.failureCooldown < 0 ∨
      p.historyLimit = 0 then
    .error .invalidRebalancePolicy
  else .ok ()

end RebalancePolicy

/-! ### Observations -/

inductive MembershipRole where
  | voter
  | learner
  | retired
  | unknown
deriving DecidableEq, Repr

structure RebalanceReplicaMetric where
  replicaID : ℕ
  nodeID : Raft.NodeID
  role : MembershipRole := .voter
  lastApplied : ℕ := 0
  lag : ℕ := 0
  healthy : Bool := true
deriving DecidableEq, Repr

structure RebalanceRangeMetric where
  rangeID : ℕ
  generation : ℕ
  startKey : Bytes := []
  endKey : Bytes := []
  startUnbounded : Bool := false
  endUnbounded : Bool := false
  logicalBytes : ℕ := 0
  physicalBytes : ℕ := 0
  userKeys : List Bytes := []
  readRate : ℕ := 0
  writeRate : ℕ := 0
  requestRate : ℕ := 0
  samples : ℕ := 0
  leader : Raft.NodeID := 0
  commitIndex : ℕ := 0
  applyBacklog : ℕ := 0
  splitting : Bool := false
  migrating : Bool := false
  active : Bool := true
  replicas : List RebalanceReplicaMetric := []
deriving DecidableEq, Repr

structure RebalanceNodeMetric where
  nodeID : Raft.NodeID
  hostedReplicas : ℕ := 0
  leaders : ℕ := 0
  logicalBytes : ℕ := 0
  readRate : ℕ := 0
  writeRate : ℕ := 0
  requestRate : ℕ := 0
  applyBacklog : ℕ := 0
  migrationsIn : ℕ := 0
  migrationsOut : ℕ := 0
  splitsInFlight : ℕ := 0
  healthy : Bool := true
  available : Bool := true
  warming : Bool := false
deriving DecidableEq, Repr

structure RebalanceClusterSnapshot where
  snapshotTime : ℤ := 0
  catalogGeneration : ℕ
  policyVersion : ℕ
  controllerEpoch : ℕ
  nodes : List RebalanceNodeMetric
  ranges : List RebalanceRangeMetric
deriving DecidableEq, Repr

/-- `RebalanceCooldowns`; the maps are lists with one entry per key. -/
structure RebalanceCooldowns where
  ranges : List (ℕ × ℤ) := []
  nodes : List (Raft.NodeID × ℤ) := []

/-- The first entry of a sorted list whose key repeats that of the entry before it. -/
def repeated {α β : Type} [DecidableEq β] (key : α → β) : List α → Option α
  | a :: b :: rest => if key a = key b then some b else repeated key (b :: rest)
  | _ => none

namespace RebalanceRangeMetric

/-- The order of replicas in a canonical snapshot. -/
def replicaLE (left right : RebalanceReplicaMetric) : Prop :=
  left.replicaID < right.replicaID ∨
    (left.replicaID = right.replicaID ∧ left.nodeID ≤ right.nodeID)

instance : DecidableRel replicaLE := fun _ _ =>
  inferInstanceAs (Decidable (_ ∨ _))

/-- `cloneAndSortKeys`. -/
def sortKeys (keys : List Bytes) : List Bytes := keys.insertionSort fun left right => ¬ right < left

/-- The metric with its keys and replicas in order. -/
def canonical (m : RebalanceRangeMetric) : RebalanceRangeMetric :=
  { m with
    userKeys := sortKeys m.userKeys
    replicas := m.replicas.insertionSort replicaLE }

end RebalanceRangeMetric

/-- The loop of `CanonicalizeRebalanceSnapshot` over the ranges. -/
def canonicalizeRanges : List RebalanceRangeMetric →
    Except RebalanceError (List RebalanceRangeMetric)
  | [] => .ok []
  | m :: rest =>
    if (repeated RebalanceReplicaMetric.replicaID m.canonical.replicas).isSome then
      .error (.wrap "duplicate replica identity" .invalidTelemetry)
    else (canonicalizeRanges rest).map (m.canonical :: ·)

/-- `CanonicalizeRebalanceSnapshot`. -/
def canonicalizeRebalanceSnapshot (source : RebalanceClusterSnapshot) :
    Except RebalanceError RebalanceClusterSnapshot :=
  let nodes := source.nodes.insertionSort fun left right => left.nodeID ≤ right.nodeID
  match repeated RebalanceNodeMetric.nodeID nodes with
  | some node => .error (.wrap s!"duplicate node {node.nodeID}" .invalidTelemetry)
  | none =>
    match canonicalizeRanges source.ranges with
    | .error err => .error err
    | .ok metrics =>
      let ranges := metrics.insertionSort fun left right => left.rangeID ≤ right.rangeID
      match repeated RebalanceRangeMetric.rangeID ranges with
      | some metric => .error (.wrap s!"duplicate range {metric.rangeID}" .invalidTelemetry)
      | none => .ok { source with nodes := nodes, ranges := ranges }

/-! ### Lookups -/

/-- `replicaOn`. -/
def RebalanceRangeMetric.replicaOn (metric : RebalanceRangeMetric) (nodeID : Raft.NodeID) :
    Option RebalanceReplicaMetric :=
  metric.replicas.find? (·.nodeID = nodeID)

/-- `findNode`. -/
def findNode (nodes : List RebalanceNodeMetric) (id : Raft.NodeID) : Option RebalanceNodeMetric :=
  nodes.find? (·.nodeID = id)

/-- `cooldownExpired`. -/
def cooldownExpired (snapshot : RebalanceClusterSnapshot) (cooldowns : RebalanceCooldowns)
    (rangeID : ℕ) (nodeID : Raft.NodeID) : Bool :=
  !((cooldowns.ranges.lookup rangeID).any (snapshot.snapshotTime < ·)) &&
    !((cooldowns.nodes.lookup nodeID).any (snapshot.snapshotTime < ·))

namespace RebalanceClusterSnapshot

/-- `activeMigrationCount`. -/
def activeMigrationCount (snapshot : RebalanceClusterSnapshot) : ℕ :=
  snapshot.nodes.foldl (fun count node => saturatingAdd count node.migrationsIn) 0

/-- `activeSplitCount`. -/
def activeSplitCount (snapshot : RebalanceClusterSnapshot) : ℕ :=
  snapshot.ranges.countP (·.splitting)

end RebalanceClusterSnapshot

/-! ### Scores -/

structure PlacementTotals where
  bytes : ℕ := 0
  writes : ℕ := 0
  reads : ℕ := 0
  leaders : ℕ := 0
  backlog : ℕ := 0
  replicas : ℕ := 0

/-- One round of the loops that sum up the nodes. -/
def PlacementTotals.add (totals : PlacementTotals) (node : RebalanceNodeMetric) :
    PlacementTotals where
  bytes := saturatingAdd totals.bytes node.logicalBytes
  writes := saturatingAdd totals.writes node.writeRate
  reads := saturatingAdd totals.reads node.readRate
  leaders := saturatingAdd totals.leaders node.leaders
  backlog := saturatingAdd totals.backlog node.applyBacklog
  replicas := saturatingAdd totals.replicas node.hostedReplicas

def weightedRatio (value total count weight : ℕ) : ℕ :=
  if value = 0 ∨ total = 0 ∨ weight = 0 then 0
  else mulDivSaturating (mulDivSaturating value (saturatingMul count rateScale) total) weight 1

/-- `placementScore`, which is also the body of the loop of `scoreNodes`. -/
def placementScore (node : RebalanceNodeMetric) (totals : PlacementTotals) (count : ℕ)
    (policy : RebalancePolicy) : ℕ :=
  [weightedRatio node.logicalBytes totals.bytes count policy.bytesWeight,
    weightedRatio node.writeRate totals.writes count policy.writeWeight,
    weightedRatio node.readRate totals.reads count policy.readWeight,
    weightedRatio node.leaders totals.leaders count policy.leaderWeight,
    weightedRatio node.applyBacklog totals.backlog count policy.backlogWeight,
    weightedRatio node.hostedReplicas totals.replicas count policy.replicaWeight].foldl
      saturatingAdd 0

/-- `scoreNodes`; of nodes with the same ID the last one counts. -/
def scoreNodes (nodes : List RebalanceNodeMetric) (policy : RebalancePolicy) :
    Dict Raft.NodeID ℕ :=
  let totals := nodes.foldl PlacementTotals.add {}
  nodes.foldl (fun result node =>
    result.set node.nodeID (placementScore node totals nodes.length policy)) ∅

def scoreOf (scores : Dict Raft.NodeID ℕ) (id : Raft.NodeID) : ℕ := (scores.get id).getD 0

/-- The square of the distance of a score from the mean. -/
def deviation (mean score : ℕ) : ℕ :=
  let difference := if score < mean then mean - score else score - min score mean
  saturatingMul difference difference

/-- The loops of `loadPotential`, over the scores in some order. -/
def potential (scores : List ℕ) : ℕ :=
  if scores = [] then 0
  else
    let mean := scores.foldl saturatingAdd 0 / scores.length
    scores.foldl (fun sum score => saturatingAdd sum (deviation mean score)) 0

/-- `loadPotential`. -/
def loadPotential (scores : Dict Raft.NodeID ℕ) : ℕ := potential scores.values

/-- `projectedNode`. -/
def projectedNode (node : RebalanceNodeMetric) (metric : RebalanceRangeMetric)
    (sourceID targetID : Raft.NodeID) (leaderOnly : Bool) : RebalanceNodeMetric :=
  if node.nodeID = sourceID then
    if leaderOnly then { node with leaders := subtractClamp node.leaders 1 }
    else { node with
      hostedReplicas := subtractClamp node.hostedReplicas 1
      logicalBytes := subtractClamp node.logicalBytes metric.logicalBytes
      readRate := subtractClamp node.readRate metric.readRate
      writeRate := subtractClamp node.writeRate metric.writeRate
      requestRate := subtractClamp node.requestRate metric.requestRate
      applyBacklog := subtractClamp node.applyBacklog metric.applyBacklog
      leaders := if metric.leader = sourceID then subtractClamp node.leaders 1 else node.leaders }
  else if node.nodeID = targetID then
    if leaderOnly then { node with leaders := saturatingAdd node.leaders 1 }
    else { node with
      hostedReplicas := saturatingAdd node.hostedReplicas 1
      logicalBytes := saturatingAdd node.logicalBytes metric.logicalBytes
      readRate := saturatingAdd node.readRate metric.readRate
      writeRate := saturatingAdd node.writeRate metric.writeRate
      requestRate := saturatingAdd node.requestRate metric.requestRate
      applyBacklog := saturatingAdd node.applyBacklog metric.applyBacklog
      leaders := if metric.leader = sourceID then saturatingAdd node.leaders 1 else node.leaders }
  else node

/-- `projectedLoadPotential`; each loop projects the nodes anew. -/
def projectedLoadPotential (nodes : List RebalanceNodeMetric) (metric : RebalanceRangeMetric)
    (sourceID targetID : Raft.NodeID) (policy : RebalancePolicy) (leaderOnly : Bool) : ℕ :=
  let project := fun original => projectedNode original metric sourceID targetID leaderOnly
  let totals := nodes.foldl (fun totals original => totals.add (project original)) {}
  let score := fun original => placementScore (project original) totals nodes.length policy
  let scoreTotal := nodes.foldl (fun total original => saturatingAdd total (score original)) 0
  if nodes.length = 0 then 0
  else
    let mean := scoreTotal / nodes.length
    nodes.foldl (fun potential original =>
      saturatingAdd potential (deviation mean (score original))) 0

/-- `projectedPlacementImprovement`. -/
def projectedPlacementImprovement (nodes : List RebalanceNodeMetric)
    (metric : RebalanceRangeMetric) (sourceID targetID : Raft.NodeID) (policy : RebalancePolicy)
    (leaderOnly : Bool) (before : ℕ) : ℕ :=
  subtractClamp before (projectedLoadPotential nodes metric sourceID targetID policy leaderOnly)

/-- `rangeLoad`. -/
def rangeLoad (metric : RebalanceRangeMetric) (policy : RebalancePolicy) : ℕ :=
  [mulDivSaturating metric.writeRate policy.rangeWriteWeight 1,
    mulDivSaturating metric.readRate policy.rangeReadWeight 1,
    mulDivSaturating metric.applyBacklog policy.rangeBacklogWeight 1].foldl saturatingAdd
      (mulDivSaturating metric.logicalBytes policy.rangeBytesWeight 1)

/-! ### Plans -/

inductive RebalanceReason where
  | nodeOverloaded
  | rangeTooLarge
  | rangeTooHot
  | leaderSkew
  | balanced
  | cooldown
  | noEligibleTarget
  | operationInProgress
  | insufficientSamples
  | hotUnsplittableKeyspace
deriving DecidableEq, Repr

def RebalanceReason.text : RebalanceReason → String
  | .nodeOverloaded => "NODE_OVERLOADED"
  | .rangeTooLarge => "RANGE_TOO_LARGE"
  | .rangeTooHot => "RANGE_TOO_HOT"
  | .leaderSkew => "LEADER_SKEW"
  | .balanced => "BALANCED"
  | .cooldown => "COOLDOWN"
  | .noEligibleTarget => "NO_ELIGIBLE_TARGET"
  | .operationInProgress => "OPERATION_IN_PROGRESS"
  | .insufficientSamples => "INSUFFICIENT_SAMPLES"
  | .hotUnsplittableKeyspace => "HOT_UNSPLITTABLE_KEYSPACE"

/-- A text as an action record stores it. -/
def textBytes (text : String) : Bytes := text.toUTF8.data.toList

/-- `RebalancePlan`; a plan with actions has no reason. -/
structure RebalancePlan where
  snapshotGeneration : ℕ
  policyVersion : ℕ
  controllerEpoch : ℕ
  actions : List RebalanceAction := []
  noopReason : Option RebalanceReason := none
deriving DecidableEq, Repr

/-- `rebalanceCandidate`. -/
structure RebalanceCandidate where
  order : ℕ
  action : RebalanceAction

/-! ### Splits -/

/-- `splitNodesHaveCapacity`. -/
def splitNodesHaveCapacity (nodes : List RebalanceNodeMetric) (metric : RebalanceRangeMetric)
    (policy : RebalancePolicy) : Bool :=
  metric.replicas.all fun replica =>
    (findNode nodes replica.nodeID).any fun node =>
      node.healthy && node.available && decide (node.splitsInFlight < policy.maxSplitsPerNode)

/-- `splitWarranted`. -/
def splitWarranted (metric : RebalanceRangeMetric) (policy : RebalancePolicy)
    (rateReady : Bool) : Bool :=
  decide (metric.logicalBytes ≥ policy.rangeSplitBytes) ||
    (decide (metric.logicalBytes ≥ policy.minRangeBytes) && rateReady &&
      (decide (metric.readRate ≥ policy.rangeHotReadRate) ||
        decide (metric.writeRate ≥ policy.rangeHotWriteRate)))

/-- `splitReason`. -/
def splitReason (metric : RebalanceRangeMetric) (policy : RebalancePolicy) : RebalanceReason :=
  if metric.logicalBytes ≥ policy.rangeSplitBytes then .rangeTooLarge else .rangeTooHot

/-- The loop of `medianSplitKey`: a key is kept when it differs from the one kept last. -/
def uniqueKeys : Option Bytes → List Bytes → List Bytes
  | _, [] => []
  | last, key :: rest =>
    if last = some key then uniqueKeys last rest else key :: uniqueKeys (some key) rest

/-- `medianSplitKey`. -/
def medianSplitKey (metric : RebalanceRangeMetric) : Option Bytes :=
  let unique := uniqueKeys none metric.userKeys
  if metric.userKeys.length < 2 ∨ unique.length < 2 then none
  else
    let key := unique.getD (unique.length / 2) []
    if (!metric.startUnbounded ∧ ¬ metric.startKey < key) ∨
        (!metric.endUnbounded ∧ ¬ key < metric.endKey) then none
    else some key

/-- The action that splits a range at `key`. -/
def splitAction (snapshot : RebalanceClusterSnapshot) (policy : RebalancePolicy)
    (metric : RebalanceRangeMetric) (key : Bytes) : RebalanceAction where
  actionID := 0
  type := .splitRange
  reason := textBytes (splitReason metric policy).text
  rangeID := metric.rangeID
  rangeGeneration := metric.generation
  catalogGeneration := snapshot.catalogGeneration
  sourceReplicaID := 0
  sourceNodeID := 0
  targetNodeID := 0
  splitKey := key
  sourceScore := 0
  targetScore := 0
  estimatedCost := max 1 metric.logicalBytes
  expectedImprovement := rangeLoad metric policy
  constraints := ["interior user-key median", "range operation exclusion",
    "split concurrency"].map textBytes
  emergency := false

/-- What the loop of `PlanRebalance` over the ranges collects. -/
structure Survey where
  candidates : List RebalanceCandidate := []
  insufficient : Bool := false
  unsplittable : Bool := false
  inProgress : Bool := false
  cooled : Bool := false

/-- One round of that loop. -/
def surveyRange (snapshot : RebalanceClusterSnapshot) (policy : RebalancePolicy)
    (cooldowns : RebalanceCooldowns) (s : Survey) (metric : RebalanceRangeMetric) : Survey :=
  if !metric.active then s
  else
    let rateReady : Bool := metric.samples ≥ policy.minSamples
    let s := { s with insufficient := s.insufficient || !rateReady }
    if metric.splitting || metric.migrating then { s with inProgress := true }
    else if !cooldownExpired snapshot cooldowns metric.rangeID 0 then { s with cooled := true }
    else if policy.splits ∧ snapshot.activeSplitCount < policy.maxConcurrentSplitsCluster ∧
        splitNodesHaveCapacity snapshot.nodes metric policy ∧
        splitWarranted metric policy rateReady ∧ snapshot.ranges.length < policy.maxRanges then
      match medianSplitKey metric with
      | some key =>
        { s with candidates := s.candidates ++
            [{ order := 0, action := splitAction snapshot policy metric key }] }
      | none => { s with unsplittable := true }
    else s

/-! ### Leader transfers -/

/-- Whether a replica may take over the leadership of its range. -/
def transferable (metric : RebalanceRangeMetric) (replica : RebalanceReplicaMetric) : Bool :=
  replica.healthy && decide (replica.role = .voter) && decide (replica.lag = 0) &&
    decide (metric.commitIndex ≤ replica.lastApplied)

/-- The action that transfers a leadership. -/
def transferAction (snapshot : RebalanceClusterSnapshot) (scores : Dict Raft.NodeID ℕ)
    (metric : RebalanceRangeMetric) (source target : Raft.NodeID) (improvement : ℕ) :
    RebalanceAction where
  actionID := 0
  type := .transferLeader
  reason := textBytes RebalanceReason.leaderSkew.text
  rangeID := metric.rangeID
  rangeGeneration := metric.generation
  catalogGeneration := snapshot.catalogGeneration
  sourceReplicaID := 0
  sourceNodeID := source
  targetNodeID := target
  splitKey := []
  sourceScore := scoreOf scores source
  targetScore := scoreOf scores target
  estimatedCost := 1
  expectedImprovement := improvement
  constraints := ["existing healthy voter", "caught up through commit index",
    "range operation exclusion"].map textBytes
  emergency := false

/-- The inner loop of `leaderCandidate`: one replica of a range that `source` leads. -/
def transferTo (snapshot : RebalanceClusterSnapshot) (policy : RebalancePolicy)
    (scores : Dict Raft.NodeID ℕ) (before : ℕ) (source : RebalanceNodeMetric)
    (metric : RebalanceRangeMetric) (replica : RebalanceReplicaMetric) :
    Option RebalanceAction :=
  if replica.nodeID = source.nodeID ∨ !transferable metric replica then none
  else
    match findNode snapshot.nodes replica.nodeID with
    | none => none
    | some target =>
      if !target.healthy ∨ !target.available ∨ target.leaders ≥ source.leaders then none
      else
        let improvement := projectedPlacementImprovement snapshot.nodes metric source.nodeID
          target.nodeID policy true before
        if improvement = 0 then none
        else some (transferAction snapshot scores metric source.nodeID target.nodeID improvement)

/-- The order of `leaderCandidate`: most leaders first. -/
def leaderLE (left right : RebalanceNodeMetric) : Prop :=
  left.leaders > right.leaders ∨ (left.leaders = right.leaders ∧ left.nodeID ≤ right.nodeID)

instance : DecidableRel leaderLE := fun _ _ =>
  inferInstanceAs (Decidable (_ ∨ _))

/-- `leaderCandidate`. -/
def leaderCandidate (snapshot : RebalanceClusterSnapshot) (policy : RebalancePolicy)
    (scores : Dict Raft.NodeID ℕ) (before : ℕ) (cooldowns : RebalanceCooldowns) :
    Option RebalanceAction :=
  let nodes := snapshot.nodes.insertionSort leaderLE
  match nodes.head?, nodes.getLast? with
  | some source, some last =>
    if nodes.length < 2 ∨ source.leaders ≤ wrap64 (last.leaders + 1) then none
    else snapshot.ranges.findSome? fun metric =>
      if metric.leader ≠ source.nodeID ∨ metric.splitting ∨ metric.migrating ∨
          !cooldownExpired snapshot cooldowns metric.rangeID source.nodeID then none
      else metric.replicas.findSome? (transferTo snapshot policy scores before source metric)
  | _, _ => none

/-! ### Moves -/

/-- `eligibleMoveTarget`. -/
def eligibleMoveTarget (metric : RebalanceRangeMetric) (source target : RebalanceNodeMetric)
    (policy : RebalancePolicy) : Bool :=
  if source.nodeID = target.nodeID ∨ !source.healthy ∨ !target.healthy ∨ !target.available ∨
      target.warming ∨ target.migrationsIn ≥ policy.maxIncomingMigrationsPerNode ∨
      source.migrationsOut ≥ policy.maxOutgoingMigrationsPerNode then false
  else if policy.maxReplicaCountPerNode ≠ 0 ∧
      target.hostedReplicas ≥ policy.maxReplicaCountPerNode then false
  else if policy.maxLogicalBytesPerNode ≠ 0 ∧ target.logicalBytes >
      policy.maxLogicalBytesPerNode - maybeClamp metric.logicalBytes policy.maxLogicalBytesPerNode
    then false
  else if policy.maxWriteRatePerNode ≠ 0 ∧ target.writeRate >
      policy.maxWriteRatePerNode - maybeClamp metric.writeRate policy.maxWriteRatePerNode
    then false
  else if policy.maxLeaderCountPerNode ≠ 0 ∧ target.leaders ≥ policy.maxLeaderCountPerNode ∧
      metric.leader = source.nodeID then false
  else (metric.replicaOn target.nodeID).isNone

/-- The order of `moveCandidates` and `moveOverloaded`: the highest score first. -/
def scoreLE (scores : Dict Raft.NodeID ℕ) (left right : RebalanceNodeMetric) : Prop :=
  scoreOf scores left.nodeID > scoreOf scores right.nodeID ∨
    (scoreOf scores left.nodeID = scoreOf scores right.nodeID ∧ left.nodeID ≤ right.nodeID)

instance (scores : Dict Raft.NodeID ℕ) : DecidableRel (scoreLE scores) := fun _ _ =>
  inferInstanceAs (Decidable (_ ∨ _))

/-- `moveOverloaded`. -/
def moveOverloaded (nodes : List RebalanceNodeMetric) (policy : RebalancePolicy)
    (scores : Dict Raft.NodeID ℕ) (cooldowns : RebalanceCooldowns) : Bool :=
  let ordered := nodes.insertionSort (scoreLE scores)
  match ordered.head? with
  | none => false
  | some first =>
    if nodes.length < 2 then false
    else
      let thresholdPPM :=
        if (cooldowns.nodes.lookup first.nodeID).isSome then policy.nodeImbalanceRecoveryPPM
        else policy.nodeImbalanceStartPPM
      let threshold := mulDivSaturating (wrap64 (policy.weights * rateScale))
        (wrap64 (rateScale + thresholdPPM)) rateScale
      decide (scoreOf scores first.nodeID > threshold)

/-- `moveRateWarmupRequired`. -/
def moveRateWarmupRequired (metric : RebalanceRangeMetric) (policy : RebalancePolicy) : Bool :=
  decide (metric.samples < policy.minSamples) &&
    (decide (policy.writeWeight ≠ 0) || decide (policy.readWeight ≠ 0))

/-- The action that moves a replica. -/
def moveAction (snapshot : RebalanceClusterSnapshot) (scores : Dict Raft.NodeID ℕ)
    (metric : RebalanceRangeMetric) (replica : RebalanceReplicaMetric)
    (source target : Raft.NodeID) (improvement : ℕ) : RebalanceAction where
  actionID := 0
  type := .moveReplica
  reason := textBytes RebalanceReason.nodeOverloaded.text
  rangeID := metric.rangeID
  rangeGeneration := metric.generation
  catalogGeneration := snapshot.catalogGeneration
  sourceReplicaID := replica.replicaID
  sourceNodeID := source
  targetNodeID := target
  splitKey := []
  sourceScore := scoreOf scores source
  targetScore := scoreOf scores target
  estimatedCost := max 1 metric.physicalBytes
  expectedImprovement := improvement
  constraints := ["no duplicate node placement", "healthy available target",
    "capacity and operation limits"].map textBytes
  emergency := false

/-- The moves of one range away from one node. -/
def movesOf (snapshot : RebalanceClusterSnapshot) (policy : RebalancePolicy)
    (scores : Dict Raft.NodeID ℕ) (before : ℕ) (cooldowns : RebalanceCooldowns)
    (nodes : List RebalanceNodeMetric) (source : RebalanceNodeMetric)
    (metric : RebalanceRangeMetric) : List RebalanceCandidate :=
  if metric.splitting ∨ metric.migrating ∨ !metric.active ∨ moveRateWarmupRequired metric policy ∨
      !cooldownExpired snapshot cooldowns metric.rangeID source.nodeID then []
  else
    match metric.replicaOn source.nodeID with
    | none => []
    | some replica =>
      if !replica.healthy ∨ replica.role ≠ .voter then []
      else (nodes.reverse.filter fun target => eligibleMoveTarget metric source target policy).map
        fun target => {
          order := 2
          action := moveAction snapshot scores metric replica source.nodeID target.nodeID
            (projectedPlacementImprovement snapshot.nodes metric source.nodeID target.nodeID policy
              false before) }

/-- `moveCandidates`. -/
def moveCandidates (snapshot : RebalanceClusterSnapshot) (policy : RebalancePolicy)
    (scores : Dict Raft.NodeID ℕ) (before : ℕ) (cooldowns : RebalanceCooldowns) :
    List RebalanceCandidate :=
  let nodes := snapshot.nodes.insertionSort (scoreLE scores)
  if nodes.length < 2 ∨ !moveOverloaded nodes policy scores cooldowns then []
  else nodes.flatMap fun source =>
    snapshot.ranges.flatMap (movesOf snapshot policy scores before cooldowns nodes source)

/-! ### Selection -/

/-- `candidateLess`. -/
def candidateLess (left right : RebalanceCandidate) : Bool :=
  let leftGain := left.action.expectedImprovement * max 1 right.action.estimatedCost
  let rightGain := right.action.expectedImprovement * max 1 left.action.estimatedCost
  if leftGain ≠ rightGain then decide (leftGain > rightGain)
  else if left.order ≠ right.order then decide (left.order < right.order)
  else if left.action.rangeID ≠ right.action.rangeID then
    decide (left.action.rangeID < right.action.rangeID)
  else if left.action.sourceNodeID ≠ right.action.sourceNodeID then
    decide (left.action.sourceNodeID < right.action.sourceNodeID)
  else if left.action.targetNodeID ≠ right.action.targetNodeID then
    decide (left.action.targetNodeID < right.action.targetNodeID)
  else decide (left.action.splitKey < right.action.splitKey)

/-- The actions taken so far, with the ranges and nodes they use. -/
structure Selection where
  actions : List RebalanceAction := []
  usedRanges : List ℕ := []
  usedNodes : List Raft.NodeID := []

namespace Selection

/-- Whether the loop of `PlanRebalance` passes over a candidate. -/
def skips (s : Selection) (policy : RebalancePolicy) (a : RebalanceAction) : Bool :=
  decide (a.expectedImprovement < policy.minExpectedImprovement) ||
    decide (a.rangeID ∈ s.usedRanges) ||
    (decide (a.sourceNodeID ∈ s.usedNodes) && decide (a.sourceNodeID ≠ 0)) ||
    (decide (a.targetNodeID ∈ s.usedNodes) && decide (a.targetNodeID ≠ 0))

def take (s : Selection) (a : RebalanceAction) : Selection where
  actions := s.actions ++ [a]
  usedRanges := a.rangeID :: s.usedRanges
  usedNodes := [a.sourceNodeID, a.targetNodeID].filter (· ≠ 0) ++ s.usedNodes

/-- The loop of `PlanRebalance` over the ranked candidates. -/
def run (policy : RebalancePolicy) : Selection → List RebalanceCandidate → Selection
  | s, [] => s
  | s, candidate :: rest =>
    if s.actions.length = policy.maxActionsPerCycle then s
    else if s.skips policy candidate.action then run policy s rest
    else run policy (s.take candidate.action) rest

end Selection

/-- The candidates of a canonical snapshot, in the order they are collected. -/
def candidates (snapshot : RebalanceClusterSnapshot) (policy : RebalancePolicy)
    (cooldowns : RebalanceCooldowns) : List RebalanceCandidate :=
  let scores := scoreNodes snapshot.nodes policy
  let before := loadPotential scores
  (snapshot.ranges.foldl (surveyRange snapshot policy cooldowns) {}).candidates ++
    (if policy.leaders then
      ((leaderCandidate snapshot policy scores before cooldowns).map
        fun action => ({ order := 1, action := action } : RebalanceCandidate)).toList
    else []) ++
    (if policy.moves ∧ snapshot.activeMigrationCount < policy.maxConcurrentMigrationsCluster then
      moveCandidates snapshot policy scores before cooldowns
    else [])

/-- `noEligibleTarget` of `PlanRebalance`. -/
def noEligibleTarget (snapshot : RebalanceClusterSnapshot) (policy : RebalancePolicy)
    (cooldowns : RebalanceCooldowns) : Bool :=
  let scores := scoreNodes snapshot.nodes policy
  policy.moves && decide (snapshot.activeMigrationCount < policy.maxConcurrentMigrationsCluster) &&
    (moveCandidates snapshot policy scores (loadPotential scores) cooldowns).isEmpty &&
    moveOverloaded snapshot.nodes policy scores cooldowns

/-- The reason of a plan without actions. -/
def noopReason (snapshot : RebalanceClusterSnapshot) (policy : RebalancePolicy)
    (cooldowns : RebalanceCooldowns) : RebalanceReason :=
  let survey := snapshot.ranges.foldl (surveyRange snapshot policy cooldowns) {}
  if survey.inProgress then .operationInProgress
  else if survey.insufficient then .insufficientSamples
  else if survey.unsplittable then .hotUnsplittableKeyspace
  else if survey.cooled then .cooldown
  else if noEligibleTarget snapshot policy cooldowns then .noEligibleTarget
  else .balanced

/-- The actions that `PlanRebalance` selects from a canonical snapshot. -/
def chosen (snapshot : RebalanceClusterSnapshot) (policy : RebalancePolicy)
    (cooldowns : RebalanceCooldowns) : List RebalanceAction :=
  (Selection.run policy {} ((candidates snapshot policy cooldowns).insertionSort
    fun left right => candidateLess right left = false)).actions

/-- `PlanRebalance`. -/
def planRebalance (observed : RebalanceClusterSnapshot) (policy : RebalancePolicy)
    (cooldowns : RebalanceCooldowns) : Except RebalanceError RebalancePlan := do
  policy.validate
  let snapshot ← canonicalizeRebalanceSnapshot observed
  let plan : RebalancePlan := {
    snapshotGeneration := snapshot.catalogGeneration
    policyVersion := policy.version
    controllerEpoch := snapshot.controllerEpoch }
  if !policy.enabled then .ok { plan with noopReason := some .balanced }
  else if snapshot.policyVersion ≠ policy.version ∨ snapshot.nodes = [] then
    .error .staleRebalancePlan
  else if chosen snapshot policy cooldowns = [] then
    .ok { plan with noopReason := some (noopReason snapshot policy cooldowns) }
  else .ok { plan with actions := chosen snapshot policy cooldowns }

/-! ### Validation -/

/-- The range an action is validated against. -/
def RebalanceClusterSnapshot.range? (fresh : RebalanceClusterSnapshot) (rangeID : ℕ) :
    Option RebalanceRangeMetric :=
  fresh.ranges.reverse.find? (·.rangeID = rangeID)

/-- The constraints of a move. -/
def moveHolds (fresh : RebalanceClusterSnapshot) (policy : RebalancePolicy)
    (metric : RebalanceRangeMetric) (action : RebalanceAction) : Bool :=
  match findNode fresh.nodes action.sourceNodeID, findNode fresh.nodes action.targetNodeID,
      metric.replicaOn action.sourceNodeID with
  | some source, some target, some replica =>
    decide (replica.replicaID = action.sourceReplicaID) && replica.healthy &&
      decide (replica.role = .voter) && eligibleMoveTarget metric source target policy
  | _, _, _ => false

/-- The constraints of a split. -/
def splitHolds (fresh : RebalanceClusterSnapshot) (policy : RebalancePolicy)
    (metric : RebalanceRangeMetric) (action : RebalanceAction) : Bool :=
  decide (medianSplitKey metric = some action.splitKey) &&
    splitNodesHaveCapacity fresh.nodes metric policy &&
    decide (fresh.activeSplitCount < policy.maxConcurrentSplitsCluster) &&
    decide (fresh.ranges.length < policy.maxRanges)

/-- The constraints of a leader transfer. -/
def transferHolds (fresh : RebalanceClusterSnapshot) (policy : RebalancePolicy)
    (metric : RebalanceRangeMetric) (action : RebalanceAction) : Bool :=
  match findNode fresh.nodes action.targetNodeID, metric.replicaOn action.targetNodeID with
  | some target, some replica =>
    decide (metric.leader = action.sourceNodeID) && target.healthy && target.available &&
      transferable metric replica &&
      (decide (policy.maxLeaderCountPerNode = 0) ||
        decide (target.leaders < policy.maxLeaderCountPerNode))
  | _, _ => false

/-- The loop of `ValidateRebalancePlan`: one action. -/
def validateAction (fresh : RebalanceClusterSnapshot) (policy : RebalancePolicy)
    (action : RebalanceAction) : Except RebalanceError Unit :=
  match fresh.range? action.rangeID with
  | none => .error (.wrap s!"range {action.rangeID} changed" .staleRebalancePlan)
  | some metric =>
    if metric.generation ≠ action.rangeGeneration ∨ metric.migrating ∨ metric.splitting ∨
        !metric.active then
      .error (.wrap s!"range {action.rangeID} changed" .staleRebalancePlan)
    else
      match action.type with
      | .moveReplica =>
        if !moveHolds fresh policy metric action then
          .error (.wrap s!"move constraints changed for range {action.rangeID}" .staleRebalancePlan)
        else if fresh.activeMigrationCount ≥ policy.maxConcurrentMigrationsCluster then
          .error (.wrap "migration capacity changed" .staleRebalancePlan)
        else .ok ()
      | .splitRange =>
        if !splitHolds fresh policy metric action then
          .error (.wrap s!"split constraints changed for range {action.rangeID}"
            .staleRebalancePlan)
        else .ok ()
      | .transferLeader =>
        if !transferHolds fresh policy metric action then
          .error (.wrap s!"leadership constraints changed for range {action.rangeID}"
            .staleRebalancePlan)
        else .ok ()
      | .noop => .error (.wrap "unknown action type" .staleRebalancePlan)

/-- `ValidateRebalancePlan`. -/
def validateRebalancePlan (plan : RebalancePlan) (fresh : RebalanceClusterSnapshot)
    (policy : RebalancePolicy) : Except RebalanceError Unit :=
  if plan.snapshotGeneration ≠ fresh.catalogGeneration ∨
      plan.policyVersion ≠ fresh.policyVersion ∨ plan.policyVersion ≠ policy.version ∨
      plan.controllerEpoch ≠ fresh.controllerEpoch then
    .error .staleRebalancePlan
  else plan.actions.forM (validateAction fresh policy)

end RivetDB.Multiraft
