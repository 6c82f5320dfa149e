import RivetDB.Range.Machine
import RivetDB.Raft.Protocol

/-!
# The replica of a range

`replica.go`: one Raft node, the state machine it drives and the proposals that wait for
their entry to be applied.  A replica owns no timer and no transport; its node calls `Tick`
and `Step`.

The replica is written over any state machine; of the machine it asks one thing besides the
calls of Raft, `syncAppliedLocked`.  A waiter is a channel in the code.  Here it is the entry
whose admission created it, and `results` lists what the channels have received.

`openReplica` works on the two directories of a replica, which stay as they are when it fails half
way.  Each remembers the replica it was created for.
-/

namespace RivetDB.Range

/-- What a replica drives: the machine that Raft applies entries to, and the engine calls of
`syncAppliedLocked` when Raft has applied up to an index. -/
structure Driver (σ : Type) where
  machine : Raft.StateMachine σ
  syncApplied : ℕ → Prog σ Error Unit

/-- `Replica`. -/
structure Replica (σ : Type) where
  rangeID : ℕ
  replicaID : ℕ
  generation : ℕ
  node : Raft.Node σ
  waiters : Dict ℕ Raft.Entry := ∅
  maxWaiters : ℕ
  stopped : Bool := false
  results : List (Raft.Entry × Option Error) := []

/-- A method of the replica. -/
abbrev ReplicaM (σ α : Type) := Prog (Replica σ) Error α

namespace Replica

variable {σ α : Type} (D : Driver σ)

/-! ### Waiters -/

/-- `failWaitersLocked`. -/
def failWaiters (err : Error) (r : Replica σ) : Replica σ :=
  { r with
    waiters := ∅
    results := r.results ++ r.waiters.values.map fun entry => (entry, some err) }

/-- The loop of `afterRaftLocked`: whoever waits for an index that is applied succeeds. -/
def resolveWaiters (lastApplied : ℕ) (r : Replica σ) : Replica σ :=
  { r with
    waiters := r.waiters.filter fun index => lastApplied < index
    results := r.results ++ (r.waiters.filter fun index => index ≤ lastApplied).values.map
      fun entry => (entry, none) }

/-- The replica with another state of its machine. -/
def withMachine (r : Replica σ) (machine : σ) : Replica σ :=
  { r with node := { r.node with stateMachine := machine } }

/-- `syncAppliedLocked`. -/
def syncApplied (r : Replica σ) : Option Error × Replica σ :=
  let (result, machine) := (D.syncApplied r.node.lastApplied).exec r.node.stateMachine
  (match result with
    | .ok () => none
    | .error err => some err, r.withMachine machine)

/-- The error `afterRaftLocked` goes on with: that of the call, or else that of
`syncAppliedLocked`. -/
def settle (operationErr : Option Error) (r : Replica σ) : Option Error × Replica σ :=
  match operationErr with
  | some err => (some err, r)
  | none => r.syncApplied D

/-- `afterRaftLocked`, after a call on a node whose role was `before`. -/
def afterRaft (before : Raft.Role) (operationErr : Option Error) (r : Replica σ) : Replica σ :=
  let (failure, settled) := r.settle D operationErr
  match failure.or (r.node.fatal.map .raft) with
  | some err => settled.failWaiters err
  | none =>
    if before = .leader ∧ r.node.role ≠ .leader then
      (settled.resolveWaiters r.node.lastApplied).failWaiters .leadershipLost
    else settled.resolveWaiters r.node.lastApplied

/-! ### Calls -/

/-- A call on the Raft node. -/
def onNode (call : Raft.NodeM σ α) : ReplicaM σ (Except Raft.Error α) := do
  let r ← get
  let (result, node) := call.exec r.node
  set { r with node := node }
  return result

/-- `Tick` and `Step`: a call that sends messages and lets proposals finish. -/
def drive (text : String) (call : Raft.NodeM σ (List Raft.Message)) :
    ReplicaM σ (List Raft.Message) := do
  let r ← get
  if r.stopped then
    throw .stopped
  match ← onNode call with
  | .error err =>
    modify (afterRaft D r.node.role (some (.raft err)))
    throw (.wrap text (.raft err))
  | .ok messages =>
    modify (afterRaft D r.node.role none)
    return messages

/-- `Tick`. -/
def tick : ReplicaM σ (List Raft.Message) :=
  drive D "tick range Raft node" (Raft.Node.tick D.machine)

/-- `Step`. -/
def step (message : Raft.Message) : ReplicaM σ (List Raft.Message) :=
  drive D "step range Raft node" (Raft.Node.step D.machine message)

/-- The common part of the proposals: admit an entry to the log and wait for it.  `limited`
says whether the number of waiters is checked. -/
def enqueue (limited : Bool) (text : String) (kind : Raft.EntryType) (command : Bytes)
    (call : Raft.NodeM σ (ℕ × List Raft.Message)) : ReplicaM σ (ℕ × List Raft.Message) := do
  let r ← get
  if r.stopped then
    throw .stopped
  if limited ∧ r.waiters.entries.length ≥ r.maxWaiters then
    throw .tooManyWaiters
  match ← onNode call with
  | .error err =>
    modify (afterRaft D r.node.role (some (.raft err)))
    throw (.wrap text (.raft err))
  | .ok (index, messages) =>
    modify fun s => { s with
      waiters := s.waiters.set index
        { index := index, term := r.node.term, kind := kind, command := command } }
    modify (afterRaft D r.node.role none)
    return (index, messages)

/-- `proposeLocked`. -/
def proposeLocked (encoded : Bytes) : ReplicaM σ (ℕ × List Raft.Message) :=
  enqueue D true "admit range proposal" .command encoded (Raft.Node.propose D.machine encoded)

/-- `ProposeConfiguration`. -/
def proposeConfiguration (next : Raft.Configuration) : ReplicaM σ (ℕ × List Raft.Message) :=
  enqueue D true "propose Raft configuration" .config (next.encode.toOption.getD [])
    (Raft.Node.proposeConfiguration D.machine next)

/-- `ProposeBarrier`. -/
def proposeBarrier : ReplicaM σ (ℕ × List Raft.Message) :=
  enqueue D false "propose Raft barrier" .noOp [] (Raft.Node.proposeNoOp D.machine)

/-- `TransferLeadership`. -/
def transferLeadership (target : Raft.NodeID) : ReplicaM σ (List Raft.Message) := do
  let r ← get
  if r.stopped then
    throw .stopped
  match ← onNode (Raft.Node.transferLeadership target) with
  | .error err => throw (.wrap "transfer Raft leadership" (.raft err))
  | .ok messages => return messages

/-- `CreateRaftSnapshot`. -/
def createRaftSnapshot : ReplicaM σ Raft.Snapshot := do
  let r ← get
  if r.stopped then
    throw .stopped
  match ← onNode (Raft.Node.createSnapshot D.machine) with
  | .error err => throw (.wrap "create Raft snapshot" (.raft err))
  | .ok snapshot => return snapshot

end Replica

/-! ### Opening -/

/-- The directories `data` and `raft` of a replica, where they exist.  The number is the
replica whose `Open` created the directory; the Raft directory also has the saved state. -/
structure Directories where
  data : Option ℕ := none
  raft : Option (ℕ × Raft.PersistentState) := none
deriving DecidableEq

namespace Directories

/-- `rangeRootDirectoriesExist`. -/
def complete (s : Directories) : Bool := s.raft.isSome && s.data.isSome

/-- Both directories exist and were created for the replica. -/
def createdFor (s : Directories) (replicaID : ℕ) : Bool :=
  s.data = some replicaID && s.raft.map Prod.fst = some replicaID

end Directories

/-- The places of `Open` where its environment can fail. -/
inductive OpenStep where
  | dataDirectory
  | engine
  | raftDirectory
  | timestamps
  | clock
deriving DecidableEq, Repr

/-- The environment of one call of `Open`: the machine over the engine it recovers, the draws
of its random source, and the failures. -/
structure Opening (σ : Type) where
  machine : Lifecycle → σ
  random : ℕ → ℕ := fun _ => 0
  fault : OpenStep → Option Error := fun _ => none
  saveErr : ℕ → Option Raft.Error := fun _ => none

/-- `Options`. -/
structure Options where
  rangeID : ℕ
  generation : ℕ
  nodeID : Raft.NodeID
  replicaID : ℕ
  peers : List Raft.NodeID
  initialConfig : Raft.Configuration := {}
  bootstrapLearner : Bool := false
  electionTimeoutMin : ℕ
  electionTimeoutMax : ℕ
  heartbeatInterval : ℕ
  maxProposalWaiters : ℤ := 0
  lifecycle : Lifecycle := .active

/-- What `Open` refuses before it touches the disk. -/
def Options.invalid (options : Options) : Prop :=
  options.rangeID = 0 ∨ options.nodeID = 0 ∨ options.replicaID = 0 ∨ options.peers = [] ∨
    options.electionTimeoutMin = 0 ∨
    options.electionTimeoutMax < options.electionTimeoutMin ∨ options.heartbeatInterval = 0 ∨
    options.maxProposalWaiters < 0

instance (options : Options) : Decidable options.invalid := inferInstanceAs (Decidable (_ ∨ _))

namespace Replica

variable {σ : Type} (D : Driver σ)

/-- A step of `Open` that the environment may fail. -/
def attempt (env : Opening σ) (text : String) (place : OpenStep) : Prog Directories Error Unit :=
  match env.fault place with
  | some err => throw (.wrap text err)
  | none => pure ()

/-- The steps of `Open` before it creates the Raft node: open the engine, then the Raft store.
Each creates its directory when that is missing. -/
def openStorage (env : Opening σ) (replicaID : ℕ) : Prog Directories Error Unit := do
  attempt env "create engine directory" .dataDirectory
  modify fun s => { s with data := s.data.or (some replicaID) }
  attempt env "open range LSM" .engine
  attempt env "open range Raft store" .raftDirectory
  modify fun s => { s with raft := s.raft.or (some (replicaID, {})) }
  attempt env "load Raft timestamp history" .timestamps
  attempt env "create range HLC" .clock

/-- The configuration of the Raft node. -/
def nodeConfig (env : Opening σ) (options : Options) (state : Raft.PersistentState) :
    Raft.Config σ where
  id := options.nodeID
  peers := options.peers
  electionTimeoutMin := options.electionTimeoutMin
  electionTimeoutMax := options.electionTimeoutMax
  heartbeatInterval := options.heartbeatInterval
  random := env.random
  store := { state := state, saveErr := env.saveErr }
  stateMachine := env.machine options.lifecycle
  initialConfig := options.initialConfig
  bootstrapLearner := options.bootstrapLearner

/-- The replica `Open` builds around its Raft node. -/
def around (options : Options) (node : Raft.Node σ) : Replica σ where
  rangeID := options.rangeID
  replicaID := options.replicaID
  generation := if options.generation = 0 then 1 else options.generation
  node := node
  maxWaiters :=
    if options.maxProposalWaiters = 0 then 1024 else options.maxProposalWaiters.toNat

/-- The rest of `Open`, over what the Raft store holds. -/
def startNode (env : Opening σ) (options : Options) (state : Raft.PersistentState) :
    Except Error (Replica σ) :=
  match Raft.newNode D.machine (nodeConfig env options state) with
  | .error err => .error (.wrap "open range Raft node" (.raft err))
  | .ok node =>
    match (around options node).syncApplied D with
    | (some err, _) => .error err
    | (none, r) => .ok r

/-- `Open`. -/
def openReplica (env : Opening σ) (options : Options) : Prog Directories Error (Replica σ) := do
  if options.invalid then
    throw .invalidOptions
  openStorage env options.replicaID
  let s ← get
  Prog.lift (startNode D env options ((s.raft.map Prod.snd).getD {}))

end Replica

end RivetDB.Range
