import RivetDB.Program.Dict
import RivetDB.Range.Command
import Mathlib.Logic.Function.Basic

/-!
# The state machine of a replicated range

`state_machine.go`: what a range does with a committed command.  Besides the storage
engine the machine keeps the transaction records it is home to, what it knows as a
participant, and the fields of a running split.

A command at or below the durable frontier of the engine is a replay: its effects on
the engine are skipped, its effects on the maps are rebuilt.  The maps that a snapshot
walks over are finite maps, the others functions into `Option`.  The lifecycle of an opened replica
is always set, so the zero value that `Apply` turns into `LifecycleActive` does not occur.
-/

namespace RivetDB.Range

/-- `Lifecycle`. -/
inductive Lifecycle where
  | active
  | shadow
  | retired
  | learner
deriving DecidableEq, Repr

/-- `stateMachine`. -/
structure Machine where
  engine : Storage.Engine
  containsKey : Bytes → Bool := fun _ => true
  mvcc : Bool := true
  maxApplied : ℕ := 0
  safeRead : ℕ := 0
  clock : Mvcc.Clock := {}
  rangeID : ℕ
  generation : ℕ
  records : Dict Txn.ID Txn.Record := ∅
  participants : Dict Txn.ID Txn.ParticipantRecord := ∅
  lifecycle : Lifecycle := .active
  splitID : ℕ := 0
  splitEpoch : ℕ := 0
  txnFence : Bool := false
  userFence : Bool := false
  bootstrapIndex : ℕ := 0
  bootstrapSplitID : ℕ := 0
  bootstrapParentID : ℕ := 0
  bootstrapParentGen : ℕ := 0
  bootstrapImage : Digest := .zero
  fenceIndex : ℕ := 0
  parentReplayThrough : ℕ := 0
  provenance : ℕ → Option Digest := fun _ => none
  bootstrapSeen : Digest → Bool := fun _ => false

/-- A method of the state machine. -/
abbrev MachineM := Prog Machine Error

namespace Machine

def setRecord (m : Machine) (id : Txn.ID) (record : Txn.Record) : Machine :=
  { m with records := m.records.set id record }

def setParticipant (m : Machine) (id : Txn.ID) (participant : Txn.ParticipantRecord) :
    Machine :=
  { m with participants := m.participants.set id participant }

/-- An engine call whose `ErrAlreadyApplied` counts as success; any other error is
wrapped with `text`. -/
def write (text : String) (call : Storage.Engine → Except Storage.Error Storage.Engine) :
    MachineM Unit := do
  let m ← get
  match call m.engine with
  | .ok engine => set { m with engine := engine }
  | .error err =>
    if err = .alreadyApplied then pure () else throw (.wrap text (.engine err))

/-- `advanceMetadata`. -/
def advanceMetadata (index : ℕ) (alreadyDurable : Bool) : MachineM Unit :=
  if alreadyDurable then pure ()
  else do
    let m ← get
    match m.engine.advanceApplied index with
    | .error err => throw (.wrap "advance transaction metadata apply" (.engine err))
    | .ok engine => set { m with engine := engine }

/-! ### Transactions -/

/-- The record `applyCreate` wants to see or to store. -/
def created (operation : Txn.Operation) : Txn.Record where
  id := operation.id
  status := .pending
  readTime := operation.readTime
  commitTime := operation.commitTime
  epoch := operation.epoch
  home := operation.home
  participants := operation.participants

/-- `applyCreate`. -/
def applyCreate (operation : Txn.Operation) : MachineM Unit := do
  let m ← get
  if operation.home.rangeID ≠ m.rangeID ∨ operation.home.generation > m.generation then
    throw .keyOutOfRange
  else
    match m.records.get operation.id with
    | some existing =>
      if existing = created operation then pure () else throw (.txn .protocolConflict)
    | none => set (m.setRecord operation.id (created operation))

/-- The identity of a record that `applyDecision` and `applyTakeover` compare. -/
def matchesRecord (record : Txn.Record) (operation : Txn.Operation) : Bool :=
  record.home = operation.home && record.readTime = operation.readTime &&
    record.commitTime = operation.commitTime

/-- `applyDecision`. -/
def applyDecision (operation : Txn.Operation) (status : Txn.Status) : MachineM Unit := do
  let m ← get
  match m.records.get operation.id with
  | none => throw (.txn .protocolConflict)
  | some record =>
    if !matchesRecord record operation then throw (.txn .protocolConflict)
    else if operation.epoch < record.epoch then pure ()
    else if operation.epoch ≠ record.epoch then throw (.txn .protocolConflict)
    else if record.status = status then pure ()
    else if record.status.terminal then throw (.txn .protocolConflict)
    else set (m.setRecord operation.id { record with status := status })

/-- `applyTakeover`. -/
def applyTakeover (operation : Txn.Operation) : MachineM Unit := do
  let m ← get
  match m.records.get operation.id with
  | none => throw (.txn .protocolConflict)
  | some record =>
    if record.status ≠ .pending ∨ !matchesRecord record operation then
      throw (.txn .protocolConflict)
    else if operation.epoch = record.epoch then pure ()
    else if operation.epoch ≠ record.epoch + 1 then pure ()
    else set (m.setRecord operation.id { record with epoch := operation.epoch })

/-- The participant record a prepare stores. -/
def prepared (operation : Txn.Operation) : Txn.ParticipantRecord where
  id := operation.id
  status := .prepared
  readTime := operation.readTime
  commitTime := operation.commitTime
  epoch := operation.epoch
  home := operation.home
  writes := operation.writes

/-- `same` of `applyPrepare`. -/
def samePrepare (existing : Txn.ParticipantRecord) (operation : Txn.Operation) : Bool :=
  existing.readTime = operation.readTime && existing.commitTime = operation.commitTime &&
    existing.epoch = operation.epoch && existing.home = operation.home &&
    existing.writes = operation.writes

/-- The first loop of `applyPrepare` over the writes: whether one of them conflicts. -/
def conflicts (engine : Storage.Engine) (readTime : ℕ) : List Txn.Write → Except Error Bool
  | [] => .ok false
  | write :: rest =>
    match engine.getMVCCAt write.key Raft.maxUint64 with
    | .ok selected =>
      if selected.kind = .intent ∨ selected.seq > readTime then .ok true
      else conflicts engine readTime rest
    | .error err =>
      if err = .notFound then conflicts engine readTime rest
      else .error (.wrap "inspect prepare conflict" (.engine err))

/-- The intent of one write. -/
def intentOf (operation : Txn.Operation) (write : Txn.Write) : Txn.Intent where
  id := operation.id
  readTime := operation.readTime
  commitTime := operation.commitTime
  epoch := operation.epoch
  home := operation.home
  delete := write.delete
  value := write.value

/-- The second loop of `applyPrepare`: the intents as mutations. -/
def intents (operation : Txn.Operation) : List Txn.Write → Except Error (List Storage.Mutation)
  | [] => .ok []
  | write :: rest =>
    match (intentOf operation write).encode with
    | .error err => .error (.wrap "encode committed intent" (.txn err))
    | .ok value =>
      (intents operation rest).map ({ key := write.key, value := value, kind := .intent } :: ·)

/-- The reason that `applyPrepare` gives when it rejects. -/
def rejection : Bytes := "newer committed write or foreign intent".toUTF8.data.toList

/-- The part of `applyPrepare` for a transaction it has not seen. -/
def installPrepare (entry : Raft.Entry) (operation : Txn.Operation) : MachineM Unit := do
  let m ← get
  match conflicts m.engine operation.readTime operation.writes with
  | .error err => throw err
  | .ok true => do
      set (m.setParticipant operation.id
        { prepared operation with
          status := .rejected
          reason := rejection })
      advanceMetadata entry.index false
  | .ok false => do
      let mutations ← Prog.lift (intents operation operation.writes)
      write "materialize prepared intents" fun engine =>
        engine.applyPreparedMVCCBatch entry.index entry.term operation.commitTime entry.command
          mutations
      modify fun m =>
        { m with maxApplied := max m.maxApplied operation.commitTime }.setParticipant
          operation.id (prepared operation)

/-- `applyPrepare`. -/
def applyPrepare (entry : Raft.Entry) (operation : Txn.Operation) (alreadyDurable : Bool) :
    MachineM Unit := do
  let m ← get
  if operation.writes.any fun write => !m.containsKey write.key then throw .keyOutOfRange
  else
    match m.participants.get operation.id with
    | some existing =>
      if (existing.status = .committed ∨ existing.status = .aborted) ∧
          operation.epoch ≤ existing.epoch then
        advanceMetadata entry.index alreadyDurable
      else if samePrepare existing operation then
        advanceMetadata entry.index alreadyDurable
      else throw (.txn .protocolConflict)
    | none =>
      if alreadyDurable then set (m.setParticipant operation.id (prepared operation))
      else installPrepare entry operation

/-- The mutation that resolves one write of a prepared participant. -/
def resolution (status : Txn.ParticipantStatus) (write : Txn.Write) : Storage.Mutation :=
  if status = .committed then
    if write.delete then { key := write.key, kind := .delete }
    else { key := write.key, value := write.value, kind := .value }
  else { key := write.key, kind := .txnAbort }

/-- The participant record of a resolution that arrives before its prepare. -/
def resolved (operation : Txn.Operation) (status : Txn.ParticipantStatus) :
    Txn.ParticipantRecord where
  id := operation.id
  status := status
  readTime := operation.readTime
  commitTime := operation.commitTime
  epoch := operation.epoch
  home := operation.home

/-- The part of `applyResolution` for a participant that holds intents. -/
def resolveIntents (entry : Raft.Entry) (operation : Txn.Operation)
    (status : Txn.ParticipantStatus) (participant : Txn.ParticipantRecord)
    (alreadyDurable : Bool) : MachineM Unit := do
  if !alreadyDurable then
    write "materialize transaction resolution" fun engine =>
      engine.resolveCommittedMVCCBatch entry.index entry.term participant.commitTime
        entry.command (participant.writes.map (resolution status))
  modify fun m =>
    m.setParticipant operation.id { participant with status := status, epoch := operation.epoch }

/-- `applyResolution`. -/
def applyResolution (entry : Raft.Entry) (operation : Txn.Operation)
    (status : Txn.ParticipantStatus) (alreadyDurable : Bool) : MachineM Unit := do
  let m ← get
  match m.participants.get operation.id with
  | none => do
      set (m.setParticipant operation.id (resolved operation status))
      advanceMetadata entry.index alreadyDurable
  | some participant =>
    if participant.readTime ≠ operation.readTime ∨
        participant.commitTime ≠ operation.commitTime ∨ participant.home ≠ operation.home then
      throw (.txn .protocolConflict)
    else if operation.epoch < participant.epoch then
      advanceMetadata entry.index alreadyDurable
    else if participant.status = status then advanceMetadata entry.index alreadyDurable
    else if participant.status = .committed ∨ participant.status = .aborted then
      throw (.txn .protocolConflict)
    else if participant.status = .rejected then do
      set (m.setParticipant operation.id
        { participant with status := status, epoch := operation.epoch })
      advanceMetadata entry.index alreadyDurable
    else resolveIntents entry operation status participant alreadyDurable

/-- The switch of `applyTransaction`. -/
def applyOperation (entry : Raft.Entry) (command : Command) (operation : Txn.Operation)
    (alreadyDurable : Bool) : MachineM Unit :=
  match command.type with
  | .txnCreate => do
      applyCreate operation
      advanceMetadata entry.index alreadyDurable
  | .txnPrepare => applyPrepare entry operation alreadyDurable
  | .txnCommit => do
      applyDecision operation .committed
      advanceMetadata entry.index alreadyDurable
  | .txnAbort => do
      applyDecision operation .aborted
      advanceMetadata entry.index alreadyDurable
  | .txnTakeover => do
      applyTakeover operation
      advanceMetadata entry.index alreadyDurable
  | .txnResolveCommit => applyResolution entry operation .committed alreadyDurable
  | .txnResolveAbort => applyResolution entry operation .aborted alreadyDurable
  | _ => throw .invalidCommand

/-- `applyTransaction`. -/
def applyTransaction (entry : Raft.Entry) (command : Command) (alreadyDurable : Bool) :
    MachineM Unit := do
  modify fun m => { m with clock := m.clock.observe command.timestamp }
  if command.type = .txnBarrier then do
    modify fun m => { m with safeRead := max m.safeRead command.timestamp }
    advanceMetadata entry.index alreadyDurable
  else
    match Txn.Operation.decode command.value with
    | .error err => throw (.wrap "decode committed transaction operation" (.txn err))
    | .ok operation => applyOperation entry command operation alreadyDurable

/-! ### Splits -/

/-- A shadow adopts the parent its first bootstrap barrier names. -/
def adoptParent (m : Machine) (op : SplitOperation) : Machine :=
  { m with
    bootstrapSplitID := op.splitID
    bootstrapParentID := op.parentRangeID
    bootstrapParentGen := op.parentGeneration
    bootstrapImage := op.imageDigest }

/-- What a bootstrap barrier does to a shadow that has its parent. -/
def enterBarrier (m : Machine) (op : SplitOperation) : Machine :=
  { m with
    splitID := op.splitID
    bootstrapIndex := op.parentIndex
    parentReplayThrough := max m.parentReplayThrough op.parentIndex
    safeRead := max m.safeRead op.timestamp
    clock := m.clock.observe op.timestamp }

/-- `SplitOpBootstrapBarrier`. -/
def applyBootstrapBarrier (entry : Raft.Entry) (op : SplitOperation) : MachineM Unit := do
  let m ← get
  match m.lifecycle with
  | .active =>
    if !m.txnFence then throw .splitFenced
    else set { m with
      bootstrapIndex := entry.index
      clock := m.clock.observe op.timestamp }
  | .shadow =>
    if m.bootstrapSplitID = 0 then
      if op.parentIndex = 0 ∨ op.timestamp = 0 ∨ op.imageDigest = .zero then
        throw .invalidCommand
      else set ((m.adoptParent op).enterBarrier op)
    else if m.bootstrapIndex ≠ op.parentIndex ∨
        (op.imageDigest ≠ .zero ∧ m.bootstrapImage ≠ op.imageDigest) then
      throw .splitFenced
    else set (m.enterBarrier op)
  | _ => throw .rangeNotServing

/-- The common end of `SplitOpBootstrapVersion` and `SplitOpReplayVersion`: the version
goes into the engine. -/
def installVersion (entry : Raft.Entry) (command : Command) (op : SplitOperation)
    (alreadyDurable : Bool) : MachineM Unit :=
  if alreadyDurable then pure ()
  else do
    write "apply split MVCC version" fun engine =>
      engine.applyPreparedMVCCBatch entry.index entry.term op.timestamp entry.command
        [{ key := command.key, value := op.value, kind := op.kind }]
    modify fun m =>
      { m with
        maxApplied := max m.maxApplied op.timestamp
        clock := m.clock.observe op.timestamp }

/-- `SplitOpBootstrapVersion`. -/
def applyBootstrapVersion (entry : Raft.Entry) (command : Command) (op : SplitOperation)
    (alreadyDurable : Bool) : MachineM Unit := do
  let m ← get
  if m.lifecycle ≠ .shadow ∨ op.kind = .intent then throw .splitFenced
  else if op.imageDigest ≠ m.bootstrapImage then throw .splitFenced
  else
    let digest := m.engine.sha256 entry.command
    if m.bootstrapSeen digest then advanceMetadata entry.index alreadyDurable
    else do
      set { m with bootstrapSeen := Function.update m.bootstrapSeen digest true }
      installVersion entry command op alreadyDurable

/-- `SplitOpReplayVersion`. -/
def applyReplayVersion (entry : Raft.Entry) (command : Command) (op : SplitOperation)
    (alreadyDurable : Bool) : MachineM Unit := do
  let m ← get
  if m.lifecycle ≠ .shadow ∨ op.kind = .intent then throw .splitFenced
  else if op.parentIndex ≠ (m.parentReplayThrough + 1) % 2 ^ 64 then
    if m.provenance op.parentIndex = some op.commandDigest then
      advanceMetadata entry.index alreadyDurable
    else throw .splitReplayOrder
  else do
    set { m with
      provenance := Function.update m.provenance op.parentIndex (some op.commandDigest)
      parentReplayThrough := op.parentIndex }
    installVersion entry command op alreadyDurable

/-- The operations of `applySplit` that only change its own fields. -/
def splitFields (m : Machine) (entry : Raft.Entry) (op : SplitOperation) :
    Except Error Machine :=
  match op.type with
  | .begin =>
    if m.lifecycle ≠ .active ∨ (m.userFence ∧ m.splitID ≠ op.splitID) then
      .error .rangeNotServing
    else .ok { m with splitID := op.splitID, txnFence := true }
  | .replayAdvance =>
    if m.lifecycle ≠ .shadow ∨ op.parentIndex ≠ (m.parentReplayThrough + 1) % 2 ^ 64 then
      .error .splitReplayOrder
    else .ok { m with
      parentReplayThrough := op.parentIndex
      clock := m.clock.observe op.timestamp
      safeRead := max m.safeRead op.timestamp }
  | .finalFence =>
    if m.lifecycle ≠ .active ∨ !m.txnFence then .error .splitFenced
    else .ok { m with userFence := true, fenceIndex := entry.index }
  | .activate =>
    if m.lifecycle = .active ∧ m.splitID = 0 then .ok m
    else if m.lifecycle ≠ .shadow ∨ m.parentReplayThrough = 0 then .error .splitFenced
    else .ok { m with lifecycle := .active, splitID := 0, splitEpoch := 0 }
  | .retire =>
    if m.lifecycle = .retired then .ok m
    else if m.lifecycle ≠ .active ∨ !m.userFence then .error .splitFenced
    else .ok { m with lifecycle := .retired }
  | .abort =>
    if m.userFence ∨ m.lifecycle ≠ .active then .error .splitFenced
    else .ok { m with splitID := 0, splitEpoch := 0, bootstrapIndex := 0, txnFence := false }
  | _ => .error .invalidCommand

/-- The switch of `applySplit`. -/
def applySplitOperation (entry : Raft.Entry) (command : Command) (op : SplitOperation)
    (alreadyDurable : Bool) : MachineM Unit :=
  match op.type with
  | .bootstrapBarrier => do
      applyBootstrapBarrier entry op
      advanceMetadata entry.index alreadyDurable
  | .bootstrapVersion => applyBootstrapVersion entry command op alreadyDurable
  | .replayVersion => applyReplayVersion entry command op alreadyDurable
  | _ => do
      let m ← get
      match m.splitFields entry op with
      | .error err => throw err
      | .ok m' => set m'
      advanceMetadata entry.index alreadyDurable

/-- Whether the split in progress, or the parent a shadow follows, forbids `op`. -/
def fencesSplit (m : Machine) (op : SplitOperation) : Bool :=
  (m.splitID ≠ 0 && (m.splitID ≠ op.splitID || op.epoch < m.splitEpoch)) ||
    (m.lifecycle = .shadow && m.bootstrapSplitID ≠ 0 &&
      (m.bootstrapSplitID ≠ op.splitID || m.bootstrapParentID ≠ op.parentRangeID ||
        m.bootstrapParentGen ≠ op.parentGeneration))

/-- `applySplit`. -/
def applySplit (entry : Raft.Entry) (command : Command) (alreadyDurable : Bool) :
    MachineM Unit :=
  match SplitOperation.decode command.value with
  | .error err => throw err
  | .ok op => do
      let m ← get
      if m.fencesSplit op then throw .splitFenced
      else do
        set { m with splitEpoch := max m.splitEpoch op.epoch }
        applySplitOperation entry command op alreadyDurable

/-! ### Ordinary writes and the whole command -/

/-- The mutation of a `Put` or a `Delete`. -/
def mutationOf (command : Command) : Storage.Mutation where
  key := command.key
  value := command.value
  kind := if command.type = .put then .value else .delete

/-- The end of `Apply` for a `Put` or a `Delete`. -/
def applyWrite (entry : Raft.Entry) (command : Command) (alreadyDurable : Bool) :
    MachineM Unit := do
  let m ← get
  if m.mvcc ∧ !alreadyDurable ∧ command.timestamp ≤ m.maxApplied then throw .mvccRegression
  else do
    write "apply committed command to LSM" fun engine =>
      if m.mvcc then
        engine.applyCommittedMVCC entry.index entry.term command.timestamp entry.command
          (mutationOf command)
      else engine.applyCommitted entry.index entry.term entry.command (mutationOf command)
    if m.mvcc ∧ !alreadyDurable then
      modify fun m =>
        { m with
          maxApplied := command.timestamp
          clock := m.clock.observe command.timestamp }

/-- `Apply` behind the decoding of the command. -/
def applyCommand (entry : Raft.Entry) (command : Command) : MachineM Unit := do
  let m ← get
  let alreadyDurable : Bool := entry.index ≤ m.engine.durable
  if !m.containsKey command.key then throw .keyOutOfRange
  else if command.type ≠ .split ∧ m.mvcc ≠ decide (command.timestamp ≠ 0) then
    throw .invalidCommand
  else if command.type = .split then applySplit entry command alreadyDurable
  else if (m.lifecycle ≠ .active ∧ m.lifecycle ≠ .learner) ∨ m.userFence then
    throw .rangeNotServing
  else if command.type.transactional then
    if m.txnFence ∧ (command.type = .txnCreate ∨ command.type = .txnPrepare) then
      throw .splitFenced
    else applyTransaction entry command alreadyDurable
  else applyWrite entry command alreadyDurable

/-- `Apply`. -/
def apply (entry : Raft.Entry) : MachineM Unit :=
  match Command.decode entry.command with
  | .error err => throw (.wrap "decode committed command" err)
  | .ok command => applyCommand entry command

end Machine

end RivetDB.Range
