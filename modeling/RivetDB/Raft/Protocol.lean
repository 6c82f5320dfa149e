import RivetDB.Raft.Node

/-!
# The Raft protocol of a node

The handlers of `node.go`: elections, log replication, commitment and ordered
application, snapshots, and the proposals a leader admits.  Loops of the source
are recursive functions of their own (`applyLoop`, `advanceLoop`, `appendLoop`);
each keeps the source's order of tests, because the order decides what a node
has already changed when it fails.
-/

namespace RivetDB.Raft

open Prog

variable {σ : Type}

namespace Node

variable (M : StateMachine σ)

/-! ### Commitment and application -/

/-- The switch of `applyCommitted` on the type of the entry at `index`. -/
def applyEntry (index : ℕ) (entry : Entry) : NodeM σ Unit := do
  let n ← get
  match entry.kind with
  | .command =>
    let (err, machine) := M.apply n.stateMachine entry
    modify fun n => { n with stateMachine := machine }
    match err with
    | some err => fail (.wrap s!"apply index {index}" (.join .apply err))
    | none => pure ()
  | .config =>
    match Configuration.decode entry.command with
    | .error err => fail (.join .apply (.join .configTransition err))
    | .ok next =>
      if next.version > n.configuration.version then
        if !(n.configuration.validateTransition next).isOk then
          fail (.join .apply .configTransition)
        modify fun n => n.installConfiguration next
        modify fun n => { n with
          persistent := { n.persistent with config := next } }
        persist
  | .noOp => pure ()

/-- The loop of `applyCommitted`; the first argument bounds its iterations. -/
def applyLoop : ℕ → NodeM σ Unit
  | 0 => pure ()
  | fuel + 1 => do
      let n ← get
      if n.lastApplied < n.commitIndex then
        let index := n.lastApplied + 1
        match n.entryAt index with
        | .error err => fail (.join .apply err)
        | .ok entry =>
          applyEntry M index entry
          modify fun n => { n with lastApplied := index, applied := n.applied ++ [entry] }
          applyLoop fuel

/-- `applyCommitted`. -/
def applyCommitted : NodeM σ Unit := do
  let n ← get
  applyLoop M (n.commitIndex - n.lastApplied)
  let n ← get
  assert (n.lastApplied ≤ n.commitIndex) "RAFT-7"

/-- The loop of `advanceCommit`, from `index` down to the commit index. -/
def advanceLoop : ℕ → NodeM σ Unit
  | 0 => pure ()
  | index + 1 => do
      let n ← get
      if index + 1 > n.commitIndex then
        let term ← lift (n.termAt (index + 1))
        if term ≠ n.term then
          advanceLoop index
        else if n.configuration.quorum fun peer => (n.matchIndex peer).getD 0 ≥ index + 1 then
          modify fun n => { n with commitIndex := index + 1 }
          applyCommitted M
        else
          advanceLoop index

/-- `advanceCommit`. -/
def advanceCommit : NodeM σ Unit := do
  let n ← get
  if n.role = .leader then
    advanceLoop M n.lastIndex

/-! ### Replication -/

/-- `replicationMessage`: the snapshot when the peer's next entry is compacted,
the whole remaining suffix otherwise. -/
def replicationMessage (peer : NodeID) : NodeM σ Message := do
  let n ← get
  let next := (n.nextIndex peer).getD 0
  if next ≤ n.persistent.snapshot.index then
    return { kind := .installSnapshot, fromID := n.id, toID := peer, term := n.term,
             snapshot := n.persistent.snapshot, leaderCommit := n.commitIndex }
  match n.termAt (next - 1), n.entriesFrom next with
  | .ok previousTerm, .ok entries =>
    return { kind := .appendEntries, fromID := n.id, toID := peer, term := n.term,
             prevLogIndex := next - 1, prevLogTerm := previousTerm,
             entries := entries, leaderCommit := n.commitIndex }
  | _, _ => fail (.violation "RAFT-3")

/-- The loop of `replicationMessages` over the peers. -/
def replicateTo : List NodeID → NodeM σ (List Message)
  | [] => pure []
  | peer :: peers => do
      let n ← get
      if peer ≠ n.id then
        let message ← replicationMessage peer
        return message :: (← replicateTo peers)
      else replicateTo peers

/-- `replicationMessages`. -/
def replicationMessages : NodeM σ (List Message) := do
  let n ← get
  replicateTo n.peers

/-- What `Propose`, `ProposeNoOp` and `ProposeConfiguration` do once a command
is admitted: append the entry, save, count the leader itself, try to commit. -/
def appendEntry (entry : Entry) : NodeM σ (ℕ × List Message) := do
  modify fun n => { n with
    persistent := { n.persistent with entries := n.persistent.entries ++ [entry] } }
  persist
  modify fun n => { n with
    matchIndex := Function.update n.matchIndex n.id (some entry.index)
    nextIndex := Function.update n.nextIndex n.id (some (entry.index + 1)) }
  advanceCommit M
  return (entry.index, ← replicationMessages)

/-! ### Elections -/

/-- `becomeLeader`. -/
def becomeLeader : NodeM σ (List Message) := do
  let n ← get
  if n.lastIndex = maxUint64 then
    fail .resourceLimit
  let next := n.lastIndex + 1
  modify fun n => { n with
    role := .leader
    leaderID := n.id
    votes := fun _ => false
    heartbeatElapsed := 0
    nextIndex := fun peer => if peer ∈ n.peers then some next else none
    matchIndex := fun peer =>
      if peer ∈ n.peers then some n.persistent.snapshot.index else none }
  let (_, messages) ← appendEntry M { index := next, term := n.term, kind := .noOp }
  return messages

/-- `startElection`. -/
def startElection : NodeM σ (List Message) := do
  let n ← get
  if !n.configuration.voter n.id then
    return []
  modify fun n => { n with role := .candidate, leaderID := 0 }
  if n.term = maxUint64 then
    fail .resourceLimit
  modify fun n => resetElectionTimer { n with
    persistent := { n.persistent with
      hardState := { term := n.term + 1, votedFor := n.id } }
    votes := fun id => id = n.id
    nextIndex := fun _ => none
    matchIndex := fun _ => none }
  persist
  let n ← get
  if n.configuration.quorum fun id => id = n.id then
    becomeLeader M
  else
    return (n.configuration.members.filter fun peer =>
        peer ≠ n.id && n.configuration.voter peer).map fun peer =>
      { kind := .requestVote, fromID := n.id, toID := peer, term := n.term,
        candidateLastIndex := n.lastIndex, candidateLastTerm := n.lastTerm }

/-- `advanceTerm`. -/
def advanceTerm (term : ℕ) : NodeM σ Unit := do
  let n ← get
  assert (term > n.term) "RAFT-6"
  modify fun n => becomeFollower { n with
    persistent := { n.persistent with hardState := { term := term, votedFor := 0 } } } 0
  persist

/-- `handleRequestVote`. -/
def handleRequestVote (message : Message) : NodeM σ (List Message) := do
  if message.candidateLastTerm > message.term then
    throw .invalidMessage
  let n ← get
  let granted := n.configuration.voter n.id && n.configuration.voter message.fromID &&
    message.term = n.term &&
    n.logUpToDate message.candidateLastIndex message.candidateLastTerm &&
    (n.persistent.hardState.votedFor = 0 || n.persistent.hardState.votedFor = message.fromID)
  if granted then
    if n.persistent.hardState.votedFor ≠ message.fromID then
      modify fun n => { n with
        persistent := { n.persistent with
          hardState := { n.persistent.hardState with votedFor := message.fromID } } }
      persist
    modify resetElectionTimer
  return [{ kind := .requestVoteResponse, fromID := n.id, toID := message.fromID,
            term := n.term, voteGranted := granted }]

/-- `handleVoteResponse`. -/
def handleVoteResponse (message : Message) : NodeM σ (List Message) := do
  let n ← get
  if message.term < n.term ∨ n.role ≠ .candidate ∨ message.term ≠ n.term then
    return []
  if message.voteGranted then
    modify fun n => { n with votes := Function.update n.votes message.fromID true }
  let n ← get
  if n.configuration.quorum n.votes then
    becomeLeader M
  else
    return []

/-- `handleTimeoutNow`. -/
def handleTimeoutNow (message : Message) : NodeM σ (List Message) := do
  let n ← get
  if message.term ≠ n.term ∨ n.role ≠ .follower ∨ n.leaderID ≠ message.fromID ∨
      !n.configuration.voter n.id then
    return []
  startElection M

/-! ### Log replication -/

/-- The loop of `validateAppend`. -/
def validateAppendLoop (messageTerm : ℕ) : ℕ → ℕ → List Entry → Except Error Unit
  | _, _, [] => .ok ()
  | want, previousTerm, entry :: rest =>
    if entry.index ≠ want ∨ entry.term = 0 ∨ entry.term < previousTerm ∨
        entry.term > messageTerm ∨ entry.command.length > maxCommandBytes ∨
        entry.kind = .noOp ∧ entry.command ≠ [] then
      .error .invalidMessage
    else validateAppendLoop messageTerm (want + 1) entry.term rest

/-- `validateAppend`. -/
def validateAppend (message : Message) : Except Error Unit :=
  if message.entries.length > maxUint64 - message.prevLogIndex then
    .error .invalidMessage
  else
    validateAppendLoop message.term (message.prevLogIndex + 1) message.prevLogTerm message.entries

/-- `appendResponse`. -/
def appendResponse (n : Node σ) (peer : NodeID) (success : Bool)
    (matchIndex rejectHint : ℕ) : Message :=
  { kind := .appendEntriesResponse, fromID := n.id, toID := peer, term := n.term,
    success := success, matchIndex := matchIndex, rejectHint := rejectHint }

/-- `truncateSuffix`. -/
def truncateSuffix (index : ℕ) : NodeM σ Unit := do
  let n ← get
  assert (index > n.commitIndex) "RAFT-4"
  modify fun n => { n with
    persistent := { n.persistent with
      entries := n.persistent.entries.take (index - n.persistent.snapshot.index - 1) } }

/-- Append the rest of a message to the log. -/
def extendLog (entries : List Entry) : NodeM σ Unit :=
  modify fun n => { n with
    persistent := { n.persistent with entries := n.persistent.entries ++ entries } }

/-- The loop of `handleAppendEntries` over the message's entries: skip what the
log already holds, replace the suffix at the first conflict, append beyond the
end.  Returns whether the log changed. -/
def appendLoop : List Entry → NodeM σ Bool
  | [] => pure false
  | incoming :: rest => do
      let n ← get
      match n.entryAt incoming.index with
      | .ok held =>
        if held.term = incoming.term then
          assert (held.kind = incoming.kind && held.command = incoming.command) "RAFT-3"
          appendLoop rest
        else
          if incoming.index ≤ n.commitIndex then
            fail (.violation "RAFT-4")
          truncateSuffix incoming.index
          extendLog (incoming :: rest)
          return true
      | .error err =>
        if !err.is .unavailable then
          throw err
        extendLog (incoming :: rest)
        return true

/-- The end of `handleAppendEntries`: take over the leader's commit index, apply,
and report how far the log is covered. -/
def followCommit (message : Message) (lastCovered : ℕ) : NodeM σ (List Message) := do
  let n ← get
  if message.leaderCommit > n.commitIndex then
    modify fun n => { n with commitIndex := min message.leaderCommit lastCovered }
    ExceptT.adapt (.wrap "apply after AppendEntries") (applyCommitted M)
  let n ← get
  return [n.appendResponse message.fromID true lastCovered 0]

/-- `handleAppendEntries`, once the sender is known to lead the current term. -/
def followLeader (message : Message) : NodeM σ (List Message) := do
  lift (validateAppend message)
  let n ← get
  if message.prevLogIndex < n.persistent.snapshot.index then
    let hint := if n.persistent.snapshot.index < maxUint64
      then n.persistent.snapshot.index + 1 else n.persistent.snapshot.index
    return [n.appendResponse message.fromID false 0 hint]
  match n.termAt message.prevLogIndex with
  | .error err =>
    if err.is .unavailable then
      return [n.appendResponse message.fromID false 0 (addOne n.lastIndex)]
    throw err
  | .ok previousTerm =>
    if previousTerm ≠ message.prevLogTerm then
      return [n.appendResponse message.fromID false 0
        (n.firstIndexOfTerm previousTerm message.prevLogIndex)]
    if ← appendLoop message.entries then
      persist
    followCommit M message (message.prevLogIndex + message.entries.length)

/-- `handleAppendEntries`. -/
def handleAppendEntries (message : Message) : NodeM σ (List Message) := do
  let n ← get
  if message.term < n.term then
    return [n.appendResponse message.fromID false 0 (addOne n.lastIndex)]
  if n.role = .leader ∧ message.fromID ≠ n.id then
    fail (.violation "RAFT-1")
  if n.role ≠ .follower ∨ n.leaderID ≠ message.fromID then
    modify fun n => n.becomeFollower message.fromID
  else
    modify resetElectionTimer
  followLeader M message

/-- `handleAppendResponse`. -/
def handleAppendResponse (message : Message) : NodeM σ (List Message) := do
  let n ← get
  if message.term < n.term ∨ n.role ≠ .leader ∨ message.term ≠ n.term then
    return []
  if message.success then
    if message.matchIndex > n.lastIndex then
      throw .invalidMessage
    if message.matchIndex > (n.matchIndex message.fromID).getD 0 then
      modify fun n => { n with
        matchIndex := Function.update n.matchIndex message.fromID (some message.matchIndex)
        nextIndex := Function.update n.nextIndex message.fromID (some (addOne message.matchIndex)) }
    let before := n.commitIndex
    advanceCommit M
    let n ← get
    if n.commitIndex ≠ before then
      replicationMessages
    else
      return []
  else
    let current := (n.nextIndex message.fromID).getD 0
    let maximumNext := if n.lastIndex < maxUint64 then n.lastIndex + 1 else n.lastIndex
    let hint := message.rejectHint
    let next :=
      if hint > current ∧ hint ≤ maximumNext then hint
      else if hint = 0 ∨ hint ≥ current then (if current > 1 then current - 1 else 1)
      else hint
    modify fun n => { n with
      nextIndex := Function.update n.nextIndex message.fromID (some next) }
    return [← replicationMessage message.fromID]

/-! ### Snapshots -/

/-- The entries behind a snapshot that `handleInstallSnapshot` keeps: those the
node holds, if its log agrees with the snapshot's last term. -/
def retainedSuffix (snapshot : Snapshot) : NodeM σ (List Entry) := do
  let n ← get
  match n.termAt snapshot.index with
  | .ok term =>
    if term = snapshot.term then
      lift (n.entriesFrom (snapshot.index + 1))
    else return []
  | .error _ => return []

/-- The end of `handleInstallSnapshot`: save the state behind the snapshot,
restore the state machine, and continue from there.  A retained suffix stays
unverified until the leader sends `AppendEntries`. -/
def installSnapshot (message : Message) (candidate : PersistentState) :
    NodeM σ (List Message) := do
  let n ← get
  save candidate
  let (err, machine) := M.restore n.stateMachine message.snapshot.data
  modify fun n => { n with stateMachine := machine }
  if let some err := err then
    fail (.wrap "restore installed snapshot" (.join .apply err))
  modify fun n => { n with persistent := candidate }
  modify fun n =>
    if candidate.config.version > n.configuration.version
    then n.installConfiguration candidate.config else n
  modify fun n => { n with
    commitIndex := max n.commitIndex message.snapshot.index
    lastApplied := message.snapshot.index }
  let n ← get
  return [{ kind := .installSnapshotResponse, fromID := n.id, toID := message.fromID,
            term := n.term, success := true, matchIndex := message.snapshot.index }]

/-- `handleInstallSnapshot`. -/
def handleInstallSnapshot (message : Message) : NodeM σ (List Message) := do
  let n ← get
  if message.term < n.term then
    return [{ kind := .installSnapshotResponse, fromID := n.id, toID := message.fromID,
              term := n.term, success := false,
              matchIndex := n.persistent.snapshot.index }]
  if message.snapshot.index = 0 ∨ message.snapshot.term = 0 ∨
      message.snapshot.term > message.term ∨
      message.snapshot.data.length > maxCommandBytes ∨
      message.snapshot.config.version ≠ 0 ∧ ¬ message.snapshot.config.validate.isOk then
    throw .invalidMessage
  if n.role = .leader ∧ message.fromID ≠ n.id then
    fail (.violation "RAFT-1")
  modify fun n => n.becomeFollower message.fromID
  let n ← get
  if message.snapshot.index ≤ n.persistent.snapshot.index ∨
      message.snapshot.index ≤ n.commitIndex then
    let covered := max message.snapshot.index n.persistent.snapshot.index
    return [{ kind := .installSnapshotResponse, fromID := n.id, toID := message.fromID,
              term := n.term, success := true, matchIndex := min covered n.lastIndex }]
  let suffix ← retainedSuffix message.snapshot
  installSnapshot M message { n.persistent with
    snapshot := message.snapshot
    entries := suffix
    config := if message.snapshot.config.version > n.persistent.config.version
      then message.snapshot.config else n.persistent.config }

/-- `handleSnapshotResponse`. -/
def handleSnapshotResponse (message : Message) : NodeM σ (List Message) := do
  let n ← get
  if message.term < n.term ∨ n.role ≠ .leader ∨ message.term ≠ n.term then
    return []
  if !message.success then
    return []
  if message.matchIndex > n.lastIndex then
    throw .invalidMessage
  let matched := max ((n.matchIndex message.fromID).getD 0) message.matchIndex
  modify fun n => { n with
    matchIndex := Function.update n.matchIndex message.fromID (some matched)
    nextIndex := Function.update n.nextIndex message.fromID (some (addOne matched)) }
  return [← replicationMessage message.fromID]

/-- `CreateSnapshot`. -/
def createSnapshot : NodeM σ Snapshot := do
  let n ← get
  lift n.usable
  if n.lastApplied = 0 ∨ n.lastApplied ≤ n.persistent.snapshot.index then
    throw .unavailable
  let term ← lift (n.termAt n.lastApplied)
  let (data, machine) := M.snapshot n.stateMachine
  modify fun n => { n with stateMachine := machine }
  match data with
  | .error err => throw (.wrap "snapshot state machine" (.join .apply err))
  | .ok data =>
    let snapshot : Snapshot :=
      { index := n.lastApplied, term := term, data := data, config := n.configuration }
    let remaining ← lift (n.entriesFrom (snapshot.index + 1))
    let candidate := { n.persistent with snapshot := snapshot, entries := remaining }
    save candidate
    modify fun n => { n with persistent := candidate }
    return snapshot

/-! ### The exported calls -/

/-- `Tick`. -/
def tick : NodeM σ (List Message) := do
  let n ← get
  lift n.usable
  if n.role = .leader then
    if n.transferring then
      if n.transferElapsed + 1 ≥ n.electionTimeout then
        modify fun n => { n with transferring := false, transferElapsed := 0 }
      else
        modify fun n => { n with transferElapsed := n.transferElapsed + 1 }
    if n.heartbeatElapsed + 1 < n.heartbeatInterval then
      modify fun n => { n with heartbeatElapsed := n.heartbeatElapsed + 1 }
      return []
    modify fun n => { n with heartbeatElapsed := 0 }
    replicationMessages
  else if !n.configuration.voter n.id then
    modify fun n => { n with electionElapsed := 0 }
    return []
  else
    modify fun n => { n with electionElapsed := n.electionElapsed + 1 }
    if n.electionElapsed + 1 < n.electionTimeout then
      return []
    startElection M

/-- The common guard of the three proposals. -/
def mayPropose : NodeM σ Unit := do
  let n ← get
  lift n.usable
  if n.role ≠ .leader then
    throw .notLeader
  if n.transferring then
    throw .leadershipTransfer

/-- `Propose`. -/
def propose (command : Bytes) : NodeM σ (ℕ × List Message) := do
  mayPropose
  if command.length > maxCommandBytes then
    throw .resourceLimit
  let n ← get
  if n.lastIndex = maxUint64 then
    throw .resourceLimit
  appendEntry M { index := n.lastIndex + 1, term := n.term, kind := .command, command := command }

/-- `ProposeNoOp`. -/
def proposeNoOp : NodeM σ (ℕ × List Message) := do
  mayPropose
  let n ← get
  if n.lastIndex = maxUint64 then
    throw .resourceLimit
  appendEntry M { index := n.lastIndex + 1, term := n.term, kind := .noOp }

/-- `ProposeConfiguration`. -/
def proposeConfiguration (next : Configuration) : NodeM σ (ℕ × List Message) := do
  mayPropose
  let n ← get
  lift (n.configuration.validateTransition next)
  if n.persistent.entries.any fun entry => entry.index > n.commitIndex && entry.kind = .config then
    throw .configTransition
  let encoded ← lift next.encode
  appendEntry M { index := addOne n.lastIndex, term := n.term, kind := .config, command := encoded }

/-- `TransferLeadership`. -/
def transferLeadership (target : NodeID) : NodeM σ (List Message) := do
  let n ← get
  lift n.usable
  if n.role ≠ .leader ∨ target = n.id ∨ !n.configuration.voter target ∨
      (n.matchIndex target).getD 0 < n.lastIndex then
    throw .leadershipTransfer
  modify fun n => { n with transferring := true, transferElapsed := 0 }
  return [{ kind := .timeoutNow, fromID := n.id, toID := target, term := n.term }]

/-- The dispatch of `Step` on the message type. -/
def dispatch (message : Message) : NodeM σ (List Message) :=
  match message.kind with
  | .requestVote => handleRequestVote message
  | .requestVoteResponse => handleVoteResponse M message
  | .appendEntries => handleAppendEntries M message
  | .appendEntriesResponse => handleAppendResponse M message
  | .installSnapshot => handleInstallSnapshot M message
  | .installSnapshotResponse => handleSnapshotResponse message
  | .timeoutNow => handleTimeoutNow M message

/-- `Step`. -/
def step (message : Message) : NodeM σ (List Message) := do
  let n ← get
  lift n.usable
  if message.toID ≠ n.id ∨ message.fromID = 0 ∨ message.fromID ∉ n.peers then
    throw .invalidMessage
  if message.term > n.term then
    advanceTerm message.term
  dispatch M message

end Node

/-- The configuration a node is built with when its store holds none. -/
def Config.initial (config : Config σ) : Configuration :=
  if config.initialConfig.version = 0 then
    { version := 1, oldVoters := config.peers }
  else config.initialConfig

/-- The configuration a node starts with: the stored one if there is any. -/
def Config.effective (config : Config σ) : Configuration :=
  (if config.store.state.config.version ≠ 0 then config.store.state.config
    else config.initial).normalize

/-- The state machine a node starts with: restored when a snapshot is stored. -/
def Config.restore (M : StateMachine σ) (config : Config σ) : Except Error σ :=
  if config.store.state.snapshot.index ≠ 0 then
    match M.restore config.stateMachine config.store.state.snapshot.data with
    | (none, machine) => .ok machine
    | (some err, _) => .error (.wrap "restore Raft snapshot" (.join .apply err))
  else .ok config.stateMachine

/-- The node `NewNode` builds, before its election timer is set. -/
def Config.build (config : Config σ) (machine : σ) : Node σ :=
  { id := config.id
    peers := config.effective.members
    configuration := config.effective
    electionMin := config.electionTimeoutMin
    electionMax := config.electionTimeoutMax
    heartbeatInterval := config.heartbeatInterval
    random := config.random
    store := config.store
    stateMachine := machine
    persistent := { config.store.state with config := config.effective }
    commitIndex := config.store.state.snapshot.index
    lastApplied := config.store.state.snapshot.index }

/-- `NewNode`: build a node on what its store holds. -/
def newNode (M : StateMachine σ) (config : Config σ) : Except Error (Node σ) := do
  validateConfig config
  let state := config.store.state
  validatePersistent state
  if ¬ config.effective.validate.isOk ∨ !config.bootstrapLearner ∧
      !config.effective.voter config.id ∧ !config.effective.learner config.id then
    throw .invalidConfig
  if state.hardState.votedFor ≠ 0 ∧ !config.effective.voter state.hardState.votedFor then
    throw .invalidState
  let machine ← config.restore M
  return (config.build machine).resetElectionTimer

end RivetDB.Raft
