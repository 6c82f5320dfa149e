import RivetDB.Multiraft.Decode
import RivetDB.Multiraft.Node

/-!
# The replicated state machine of the metadata

`metarange.go`.  A method of `MetaRange` changes a clone of the state, encodes it and
proposes the bytes; the state machine decodes what was committed, compares it with the state
it holds and takes it over or stops for good.  The group of replicas is seen here through the
one state they all apply their log to, and a call is followed until its own entry has been
applied.
-/

namespace RivetDB.Multiraft

/-! ### The methods on the rebalance control -/

/-- The instant `time.Time{}`, in nanoseconds since 1970. -/
def zeroTime : ℤ := -62135596800 * 10 ^ 9

/-- `legalRebalanceActionTransition`. -/
def legalRebalanceActionTransition (before after : RebalanceActionState) : Bool :=
  (before = .planned && (after = .executing || after = .failed)) ||
    (before = .executing && (after = .succeeded || after = .failed))

/-- Whether an action is over. -/
def RebalanceActionState.terminal (s : RebalanceActionState) : Bool := s = .succeeded || s = .failed

/-- What a caller of `AdvanceRebalanceAction` knows about its action. -/
structure ActionEvidence where
  migrationID : ℕ := 0
  splitID : ℕ := 0
  lastError : Bytes := []
  time : ℤ
  rangeUntil : ℤ := zeroTime
  sourceUntil : ℤ := zeroTime
  targetUntil : ℤ := zeroTime
deriving DecidableEq, Repr

/-- The record of a state that is reported again: what is known is added to it. -/
def RebalanceActionRecord.refreshed (r : RebalanceActionRecord) (e : ActionEvidence) :
    RebalanceActionRecord :=
  { r with
    migrationID := if e.migrationID ≠ 0 then e.migrationID else r.migrationID
    splitID := if e.splitID ≠ 0 then e.splitID else r.splitID
    lastError := if e.lastError ≠ [] then e.lastError else r.lastError
    updatedAt := if e.time ≥ r.updatedAt then e.time else r.updatedAt }

/-- The record of a new state. -/
def RebalanceActionRecord.advanced (r : RebalanceActionRecord) (state : RebalanceActionState)
    (e : ActionEvidence) : RebalanceActionRecord :=
  { r with
    state := state
    migrationID := e.migrationID
    splitID := e.splitID
    lastError := e.lastError
    updatedAt := e.time }

/-- Set a deadline, unless the time is the zero time. -/
def assignUnlessZero {κ : Type} [DecidableEq κ] (m : List (κ × ℤ)) (key : κ) (time : ℤ) :
    List (κ × ℤ) :=
  if time = zeroTime then m else assign m key time

/-- The same for a node; the identity zero stands for no node. -/
def assignNode (m : List (Raft.NodeID × ℤ)) (node : Raft.NodeID) (time : ℤ) :
    List (Raft.NodeID × ℤ) :=
  if node = 0 then m else assignUnlessZero m node time

namespace RebalanceControl

/-- `SetRebalancePolicy`. -/
def setPolicy (c : RebalanceControl) (policy : RebalancePolicy) :
    Except Error RebalanceControl :=
  match policy.validate with
  | .error _ => .error .invalidRebalancePolicy
  | .ok () =>
    if policy.version < c.policyVersion then .error .staleRebalancePlan
    else if policy.version = c.policyVersion ∧ policy ≠ c.policy then
      .error .staleRebalancePlan
    else .ok { c with policy := policy, policyVersion := policy.version }

/-- `TakeoverRebalanceController`. -/
def takeover (c : RebalanceControl) : Except Error RebalanceControl :=
  if c.controllerEpoch = Raft.maxUint64 then .error .resourceLimit
  else .ok { c with controllerEpoch := c.controllerEpoch + 1 }

/-- The record `BeginRebalanceActionWithLimit` stores. -/
def planned (c : RebalanceControl) (action : RebalanceAction) (time : ℤ) :
    RebalanceActionRecord where
  action := { action with actionID := c.nextActionID }
  controllerEpoch := c.controllerEpoch
  policyVersion := c.policyVersion
  state := .planned
  plannedAt := time
  updatedAt := time
  migrationID := 0
  splitID := 0
  lastError := []

/-- The history without its oldest record, when it has reached the limit; that record has to
be over. -/
def makeRoom (history : List RebalanceActionRecord) (limit : ℕ) :
    Except Error (List RebalanceActionRecord) :=
  if history.length < limit then .ok history
  else
    match history with
    | [] => .ok []
    | oldest :: rest => if !oldest.state.terminal then .error .resourceLimit else .ok rest

/-- `BeginRebalanceActionWithLimit`; `BeginRebalanceAction` has the limit
`MaxRebalanceActionRecords`. -/
def beginAction (c : RebalanceControl) (action : RebalanceAction) (time : ℤ)
    (historyLimit : ℕ) : Except Error RebalanceControl :=
  if c.policyVersion = 0 ∨ c.controllerEpoch = 0 ∨ c.nextActionID = 0 ∨ action.rangeID = 0 ∨
      action.type = .noop ∨ historyLimit = 0 ∨ historyLimit > maxRebalanceActionRecords then
    .error .resourceLimit
  else
    match makeRoom c.history historyLimit with
    | .error err => .error err
    | .ok history => .ok { c with
        history := history ++ [c.planned action time]
        nextActionID := wrap64 (c.nextActionID + 1) }

/-- The last record of the history replaced. -/
def setLast (c : RebalanceControl) (r : RebalanceActionRecord) : RebalanceControl :=
  { c with history := c.history.dropLast ++ [r] }

/-- The cooldowns that follow an action which is over. -/
def cooledDown (c : RebalanceControl) (action : RebalanceAction) (e : ActionEvidence) :
    RebalanceControl :=
  { c with
    rangeCooldowns := assignUnlessZero c.rangeCooldowns action.rangeID e.rangeUntil
    nodeCooldowns :=
      assignNode (assignNode c.nodeCooldowns action.sourceNodeID e.sourceUntil)
        action.targetNodeID e.targetUntil }

/-- `AdvanceRebalanceAction`. -/
def advanceAction (c : RebalanceControl) (actionID : ℕ) (state : RebalanceActionState)
    (e : ActionEvidence) : Except Error RebalanceControl :=
  match c.history.getLast? with
  | none => .error .rangeNotFound
  | some r =>
    if r.action.actionID ≠ actionID then .error .staleRebalancePlan
    else if r.state = state then .ok (c.setLast (r.refreshed e))
    else if !legalRebalanceActionTransition r.state state then .error .staleRebalancePlan
    else
      let c := c.setLast (r.advanced state e)
      .ok (if state.terminal then c.cooledDown r.action e else c)

end RebalanceControl

/-! ### Calls -/

/-- A call of one of the methods that change the metadata.  `AbortSplit` is `AdvanceSplit`
with the state `ABORTED`, `SetRebalancePolicyVersion` is `SetRebalancePolicy` with a default
policy. -/
inductive MetaCall where
  | metadata (call : MetadataCall)
  | setRebalancePolicy (policy : RebalancePolicy)
  | takeoverRebalanceController
  | beginRebalanceAction (action : RebalanceAction) (time : ℤ) (historyLimit : ℕ)
  | advanceRebalanceAction (actionID : ℕ) (state : RebalanceActionState) (e : ActionEvidence)

/-- The change a call makes to the clone of the state. -/
def Metadata.change (m : Metadata) : MetaCall → Except Error Metadata
  | .metadata call => (m.state.result call).map fun state => { m with state := state }
  | .setRebalancePolicy policy =>
    (m.control.setPolicy policy).map fun control => { m with control := control }
  | .takeoverRebalanceController =>
    m.control.takeover.map fun control => { m with control := control }
  | .beginRebalanceAction action time limit =>
    (m.control.beginAction action time limit).map fun control => { m with control := control }
  | .advanceRebalanceAction actionID state e =>
    (m.control.advanceAction actionID state e).map fun control => { m with control := control }

/-- `encodeMetadata`. -/
def Metadata.encode (crc32 : Bytes → ℕ) (m : Metadata) : Except Error Bytes :=
  encodeMetadata crc32 m.state m.control

/-! ### The check of a committed entry -/

/-- Two maps are equal: of one size, and every entry of the first is one of the second. -/
def sameMap {κ ν : Type} [DecidableEq κ] [DecidableEq ν] (left right : List (κ × ν)) : Bool :=
  left.length = right.length && left.all (· ∈ right)

/-- `sameRebalanceControl`. -/
def sameRebalanceControl (left right : RebalanceControl) : Bool :=
  left.policy = right.policy && left.policyVersion = right.policyVersion &&
    left.controllerEpoch = right.controllerEpoch && left.nextActionID = right.nextActionID &&
    left.history = right.history && sameMap left.rangeCooldowns right.rangeCooldowns &&
    sameMap left.nodeCooldowns right.nodeCooldowns

/-- `cooldownsDoNotRegress`, for one of the two maps. -/
def doNotRegress {κ : Type} [DecidableEq κ] (old next : List (κ × ℤ)) : Bool :=
  old.all fun p => next.any fun q => q.1 = p.1 && p.2 ≤ q.2

def cooldownsDoNotRegress (old next : RebalanceControl) : Bool :=
  doNotRegress old.rangeCooldowns next.rangeCooldowns &&
    doNotRegress old.nodeCooldowns next.nodeCooldowns

/-- `legalRebalanceRecordUpdate`. -/
def legalRebalanceRecordUpdate (before after : RebalanceActionRecord) : Bool :=
  legalRebalanceActionTransition before.state after.state ||
    (before.state = .executing && after.state = .executing &&
      (before.migrationID = 0 || before.migrationID = after.migrationID) &&
      (before.splitID = 0 || before.splitID = after.splitID))

/-- A record that was added to the history. -/
def freshRecord (old next : RebalanceControl) (r : RebalanceActionRecord) : Bool :=
  r.action.actionID = old.nextActionID && r.state = .planned &&
    r.controllerEpoch = next.controllerEpoch && r.policyVersion = next.policyVersion

/-- The last record of a history of the same length. -/
def updatedRecord (before after : RebalanceActionRecord) : Bool :=
  before = after ||
    (before.action = after.action && before.controllerEpoch = after.controllerEpoch &&
      before.policyVersion = after.policyVersion && legalRebalanceRecordUpdate before after &&
      before.updatedAt ≤ after.updatedAt)

/-- The checks of `validRebalanceControlTransition` on the versions and counters. -/
def countersAdvance (old next : RebalanceControl) : Bool :=
  next.policyVersion = next.policy.version && old.policyVersion ≤ next.policyVersion &&
    old.controllerEpoch ≤ next.controllerEpoch &&
    next.controllerEpoch ≤ wrap64 (old.controllerEpoch + 1) &&
    old.nextActionID ≤ next.nextActionID && next.nextActionID ≤ wrap64 (old.nextActionID + 1) &&
    next.history.length ≤ maxRebalanceActionRecords &&
    (next.policy = old.policy || old.policyVersion < next.policyVersion) &&
    !(next.controllerEpoch = wrap64 (old.controllerEpoch + 1) &&
      (next.policyVersion ≠ old.policyVersion || next.nextActionID ≠ old.nextActionID ||
        next.history.length ≠ old.history.length))

/-- The checks of `validRebalanceControlTransition` on the history: its oldest record gave
way to a new one, a record was added, or the last one was updated. -/
def historyAdvances (old next : RebalanceControl) : Bool :=
  if old.history ≠ [] ∧ next.history.length = old.history.length ∧
      next.nextActionID = wrap64 (old.nextActionID + 1) then
    old.history.tail = next.history.dropLast && next.history.getLast?.all (freshRecord old next)
  else if next.history.length = old.history.length + 1 then
    old.history = next.history.dropLast && next.nextActionID = wrap64 (old.nextActionID + 1) &&
      next.history.getLast?.all (freshRecord old next)
  else
    next.history.length = old.history.length && old.history.dropLast = next.history.dropLast &&
      old.history.getLast?.all fun before => next.history.getLast?.all (updatedRecord before)

/-- `validRebalanceControlTransition`. -/
def validRebalanceControlTransition (old next : RebalanceControl) : Bool :=
  countersAdvance old next && historyAdvances old next && cooldownsDoNotRegress old next

/-- Each entry of a table is in the next one as it is, or in a way that `legal` allows. -/
def tableAdvances {α : Type} [DecidableEq α] (find : α → Option α) (legal : α → α → Bool)
    (old : List α) : Bool :=
  old.all fun before => (find before).any fun after => after = before || legal before after

/-- The entries of a table that are not in the next one as they are. -/
def changedEntries {α : Type} [DecidableEq α] (find : α → Option α) (old : List α) : ℕ :=
  old.countP fun before => find before ≠ some before

def splitMayBecome (before after : SplitRecord) : Bool :=
  (after.epoch = wrap64 (before.epoch + 1) && after.state = before.state) ||
    (after.epoch = before.epoch && legalSplitTransition before.state after.state)

def migrationMayBecome (before after : MigrationRecord) : Bool :=
  (after.epoch = wrap64 (before.epoch + 1) && after.state = before.state) ||
    (after.epoch = before.epoch && legalMigrationTransition before.state after.state)

namespace MetadataState

/-- The counters and tables do not shrink. -/
def notSmaller (old next : MetadataState) : Bool :=
  old.nextRangeID ≤ next.nextRangeID && old.nextSplitID ≤ next.nextSplitID &&
    old.nextReplicaID ≤ next.nextReplicaID && old.nextMigrationID ≤ next.nextMigrationID &&
    old.splits.length ≤ next.splits.length && old.migrations.length ≤ next.migrations.length &&
    old.lineage.length ≤ next.lineage.length

/-- `sameMetadataCore`. -/
def sameCore (H : Hashes) (left right : MetadataState) : Bool :=
  left.nextRangeID = right.nextRangeID && left.nextSplitID = right.nextSplitID &&
    left.nextReplicaID = right.nextReplicaID && left.nextMigrationID = right.nextMigrationID &&
    left.catalog.fingerprint H = right.catalog.fingerprint H &&
    left.splits.length = right.splits.length &&
    left.migrations.length = right.migrations.length &&
    left.lineage.length = right.lineage.length &&
    left.splits.all (fun r => right.split? r.splitID = some r) &&
    left.migrations.all (fun r => right.migration? r.migrationID = some r) &&
    left.lineage.all fun e => right.edge? e.parent = some e

/-- What the validator asks of the counters and the catalog when a record was added or
changed. -/
def countersFollow (H : Hashes) (old next : MetadataState)
    (addedSplits addedMigrations : ℕ) : Bool :=
  if addedSplits = 1 then
    next.nextRangeID = wrap64 (old.nextRangeID + 2) &&
      next.nextSplitID = wrap64 (old.nextSplitID + 1) &&
      next.nextReplicaID = old.nextReplicaID && next.nextMigrationID = old.nextMigrationID &&
      next.catalog.generation = old.catalog.generation &&
      next.lineage.length = old.lineage.length
  else if addedMigrations = 1 then
    next.nextReplicaID = wrap64 (old.nextReplicaID + 1) &&
      next.nextMigrationID = wrap64 (old.nextMigrationID + 1) &&
      next.nextRangeID = old.nextRangeID && next.nextSplitID = old.nextSplitID &&
      next.catalog.generation = old.catalog.generation
  else
    next.nextRangeID = old.nextRangeID && next.nextSplitID = old.nextSplitID &&
      next.nextReplicaID = old.nextReplicaID && next.nextMigrationID = old.nextMigrationID &&
      if next.catalog.generation = wrap64 (old.catalog.generation + 1) then
        next.lineage.length = old.lineage.length + 1 || next.lineage.length = old.lineage.length
      else
        next.catalog.fingerprint H = old.catalog.fingerprint H &&
          next.lineage.length = old.lineage.length

/-- The checks of `validateMetadataTransition` on the tables. -/
def tablesAdvance (old next : MetadataState) : Bool :=
  old.lineage.all (fun e => next.edge? e.parent = some e) &&
    tableAdvances (fun r => next.split? r.splitID) splitMayBecome old.splits &&
    tableAdvances (fun r => next.migration? r.migrationID) migrationMayBecome old.migrations

/-- The records that are new or changed. -/
def changed (old next : MetadataState) : ℕ :=
  changedEntries (fun r => next.split? r.splitID) old.splits +
    changedEntries (fun r => next.migration? r.migrationID) old.migrations +
    (next.splits.length - old.splits.length) + (next.migrations.length - old.migrations.length)

end MetadataState

/-- `validateMetadataTransition`. -/
def validateMetadataTransition (H : Hashes) (old next : Metadata) : Except Error Unit :=
  let addedSplits := next.state.splits.length - old.state.splits.length
  let addedMigrations := next.state.migrations.length - old.state.migrations.length
  if !old.state.notSmaller next.state then .error .corruptMetadata
  else if !sameRebalanceControl old.control next.control then
    if !old.state.sameCore H next.state ||
        !validRebalanceControlTransition old.control next.control then
      .error .corruptMetadata
    else .ok ()
  else if !old.state.tablesAdvance next.state then .error .corruptMetadata
  else if addedSplits + addedMigrations > 1 ∨ old.state.changed next.state ≠ 1 then
    .error .corruptMetadata
  else if !old.state.countersFollow H next.state addedSplits addedMigrations then
    .error .corruptMetadata
  else if addedSplits = 1 ∨ addedMigrations = 1 then .ok ()
  else next.state.validateLineage

/-! ### The group -/

/-- The group: the state its replicas have applied, and whether applying an entry failed,
which stops every replica for good. -/
structure MetaRange where
  metadata : Metadata
  fatal : Bool := false
deriving DecidableEq

namespace MetaRange

variable (H : Hashes)

/-- `Apply`, for the command of a committed entry. -/
def apply (m : MetaRange) (command : Bytes) : MetaRange :=
  match decodeMetadata H.crc32 command with
  | .error _ => { m with fatal := true }
  | .ok next =>
    match validateMetadataTransition H m.metadata next with
    | .error _ => { m with fatal := true }
    | .ok () => { m with metadata := next }

/-- `mutate`. -/
def call (m : MetaRange) (c : MetaCall) : MetaRange :=
  if m.fatal then m
  else
    match m.metadata.change c with
    | .error _ => m
    | .ok next =>
      match next.encode H.crc32, m.metadata.encode H.crc32 with
      | .ok encoded, .ok current =>
        if current = encoded then m else m.apply H encoded
      | _, _ => m

/-- A sequence of calls. -/
def run (m : MetaRange) (calls : List MetaCall) : MetaRange := calls.foldl (fun m c => m.call H c) m

end MetaRange

/-- `OpenMetaRange` on empty stores: every replica starts from the metadata of the catalog. -/
def openMetaRange (c₀ : Catalog) : Except Error MetaRange :=
  (newMetadataState c₀).map fun s => { metadata := { state := s } }

end RivetDB.Multiraft
