import RivetDB.Program.Prog
import RivetDB.Raft.Membership

/-!
# The Raft node

`node.go`, with the state validation of `types.go` and the contract that the stores of
`memory_store.go` and `file_store.go` keep: one node of one Raft group as a deterministic state
machine. Every exported method of the Go type is a program over the node that returns the
messages to send.

Three things that the Go code leaves to its environment are explicit here.

* The store decides for every save whether its medium fails (`Store.saveErr`); a
  failed save leaves the stored state as it was.
* The random source is a stream of draws (`Node.random`).
* A violated assertion panics in Go.  The node then never acts again, so it is
  recorded like a fatal error.
-/

namespace RivetDB.Raft

/-! ### Durable state -/

/-- The loop of `validatePersistent` over the entries; returns the last term. -/
def validateEntries (hardTerm : ℕ) : ℕ → ℕ → ℕ → List Entry → Except Error ℕ
  | _, _, lastTerm, [] => .ok lastTerm
  | offset, want, lastTerm, entry :: rest =>
    if entry.index ≠ want ∨ entry.term = 0 ∨ entry.term < lastTerm ∨
        entry.term > hardTerm ∨ entry.command.length > maxCommandBytes then
      .error (.wrap s!"entry offset {offset}" .invalidState)
    else if entry.kind = .noOp ∧ entry.command ≠ [] ∨
        entry.kind = .config ∧ ¬ (Configuration.decode entry.command).isOk then
      .error (.wrap s!"no-op {want} has command bytes" .invalidState)
    else validateEntries hardTerm (offset + 1) (want + 1) entry.term rest

/-- `validatePersistent`. -/
def validatePersistent (state : PersistentState) : Except Error Unit := do
  if state.config.version ≠ 0 ∧ ¬ state.config.validate.isOk then
    throw (.wrap "invalid committed configuration" .invalidState)
  if state.hardState.term = 0 ∧ state.hardState.votedFor ≠ 0 then
    throw (.wrap "vote in term zero" .invalidState)
  if state.snapshot.index = 0 ∧ state.snapshot.term ≠ 0 ∨
      state.snapshot.index ≠ 0 ∧ state.snapshot.term = 0 then
    throw (.wrap "invalid snapshot boundary" .invalidState)
  if state.snapshot.data.length > maxCommandBytes then
    throw (.wrap "snapshot exceeds resource limit" .invalidState)
  if state.snapshot.config.version ≠ 0 ∧ ¬ state.snapshot.config.validate.isOk then
    throw (.wrap "invalid snapshot configuration" .invalidState)
  if state.snapshot.index > maxUint64 - state.entries.length then
    throw (.wrap "log index overflow" .invalidState)
  let lastTerm ← validateEntries state.hardState.term 0 (state.snapshot.index + 1)
    state.snapshot.term state.entries
  if state.hardState.term < lastTerm ∨ state.hardState.term < state.snapshot.term then
    throw (.wrap "hard term behind log term" .invalidState)

/-- A restartable store: the state last saved, for the coming saves whether the medium fails,
and which states the store does not take.  `offered` are the states it was given to save; the
code does not keep them. -/
structure Store where
  state : PersistentState := {}
  saveErr : ℕ → Option Error := fun _ => none
  saves : ℕ := 0
  refuse : PersistentState → Option Error := fun _ => none
  offered : List PersistentState := []

/-- `Save`: validates the state and replaces the stored one as a whole. -/
def Store.save (s : Store) (state : PersistentState) : Option Error × Store :=
  let s := { s with offered := s.offered ++ [state] }
  match validatePersistent state with
  | .error err => (some err, s)
  | .ok () =>
    match s.refuse state with
    | some err => (some err, s)
    | none =>
      match s.saveErr s.saves with
      | some err => (some (.wrap "memory store save" err), { s with saves := s.saves + 1 })
      | none => (none, { s with state := state, saves := s.saves + 1 })

/-! ### The node -/

/-- The construction parameters of a node. -/
structure Config (σ : Type) where
  id : NodeID
  peers : List NodeID
  electionTimeoutMin : ℕ
  electionTimeoutMax : ℕ
  heartbeatInterval : ℕ
  random : ℕ → ℕ
  store : Store
  stateMachine : σ
  initialConfig : Configuration := {}
  bootstrapLearner : Bool := false

/-- The adjacent comparison of `validateConfig` over the sorted peers. -/
def distinctNeighbours : List NodeID → Bool
  | id :: id' :: ids => id ≠ id' && distinctNeighbours (id' :: ids)
  | _ => true

variable {σ : Type}

/-- `validateConfig`. -/
def validateConfig (config : Config σ) : Except Error Unit := do
  if config.id = 0 ∨ config.electionTimeoutMin = 0 ∨
      config.electionTimeoutMax < config.electionTimeoutMin ∨
      config.heartbeatInterval = 0 ∨
      config.heartbeatInterval ≥ config.electionTimeoutMin ∨ config.peers = [] then
    throw .invalidConfig
  let peers := config.peers.insertionSort (· ≤ ·)
  if peers.head? = some 0 ∨ config.id ∉ peers then
    throw .invalidConfig
  if !distinctNeighbours peers then
    throw .invalidConfig

/-- One Raft node.  `random` is the stream of draws of the random source and
`draws` how many were taken; the three maps of the Go type are total functions
with the map's zero value (`votes`) or `none` (`nextIndex`, `matchIndex`) for an
absent key.  `applied` records the entries this node has run through its apply
loop since it was built, in order; the code does not keep it. -/
structure Node (σ : Type) where
  id : NodeID
  peers : List NodeID
  configuration : Configuration
  electionMin : ℕ
  electionMax : ℕ
  heartbeatInterval : ℕ
  random : ℕ → ℕ
  draws : ℕ := 0
  store : Store
  stateMachine : σ
  persistent : PersistentState
  role : Role := .follower
  leaderID : NodeID := 0
  commitIndex : ℕ
  lastApplied : ℕ
  electionElapsed : ℕ := 0
  electionTimeout : ℕ := 0
  heartbeatElapsed : ℕ := 0
  transferElapsed : ℕ := 0
  transferring : Bool := false
  votes : NodeID → Bool := fun _ => false
  nextIndex : NodeID → Option ℕ := fun _ => none
  matchIndex : NodeID → Option ℕ := fun _ => none
  stopped : Bool := false
  fatal : Option Error := none
  applied : List Entry := []

namespace Node

def term (n : Node σ) : ℕ := n.persistent.hardState.term

def lastIndex (n : Node σ) : ℕ :=
  match n.persistent.entries.getLast? with
  | none => n.persistent.snapshot.index
  | some entry => entry.index

def lastTerm (n : Node σ) : ℕ :=
  match n.persistent.entries.getLast? with
  | none => n.persistent.snapshot.term
  | some entry => entry.term

/-- The slice access of `termAt` and `entryAt`; Go panics out of range. -/
def entryOffset (n : Node σ) (index : ℕ) : Except Error Entry :=
  match n.persistent.entries[index - n.persistent.snapshot.index - 1]? with
  | some entry => .ok entry
  | none => .error (.violation "index out of range")

def termAt (n : Node σ) (index : ℕ) : Except Error ℕ :=
  if index = n.persistent.snapshot.index then .ok n.persistent.snapshot.term
  else if index < n.persistent.snapshot.index then .error .compacted
  else if index > n.lastIndex then .error .unavailable
  else (n.entryOffset index).map Entry.term

def entryAt (n : Node σ) (index : ℕ) : Except Error Entry :=
  if index ≤ n.persistent.snapshot.index then .error .compacted
  else if index > n.lastIndex then .error .unavailable
  else n.entryOffset index

def entriesFrom (n : Node σ) (index : ℕ) : Except Error (List Entry) :=
  if index ≤ n.persistent.snapshot.index then .error .compacted
  else if index > n.lastIndex + 1 then .error .unavailable
  else if index = n.lastIndex + 1 then .ok []
  else .ok (n.persistent.entries.drop (index - n.persistent.snapshot.index - 1))

/-- `firstIndexOfTerm`: walk back while the preceding entry has the same term. -/
def firstIndexOfTerm (n : Node σ) (term : ℕ) : ℕ → ℕ
  | 0 => 0
  | index + 1 =>
    if index + 1 > n.persistent.snapshot.index then
      match n.termAt index with
      | .ok previous => if previous ≠ term then index + 1 else n.firstIndexOfTerm term index
      | .error _ => index + 1
    else index + 1

def logUpToDate (n : Node σ) (index term : ℕ) : Bool :=
  term > n.lastTerm || term = n.lastTerm && index ≥ n.lastIndex

def resetElectionTimer (n : Node σ) : Node σ :=
  let span := n.electionMax - n.electionMin + 1
  if span > 1 then
    { n with
      electionElapsed := 0
      electionTimeout := n.electionMin + n.random n.draws % span
      draws := n.draws + 1 }
  else { n with electionElapsed := 0, electionTimeout := n.electionMin }

def becomeFollower (n : Node σ) (leader : NodeID) : Node σ :=
  resetElectionTimer
    { n with
      role := .follower
      leaderID := leader
      votes := fun _ => false
      nextIndex := fun _ => none
      matchIndex := fun _ => none
      heartbeatElapsed := 0
      transferring := false
      transferElapsed := 0 }

/-- The `uint64` increment, where the source does not guard it. -/
def addOne (index : ℕ) : ℕ := (index + 1) % 2 ^ 64

/-- The two map loops of `installConfiguration`: members that are new to a leader
start at its own snapshot, members that left are forgotten. -/
def trackPeers (n : Node σ) : Node σ :=
  if n.role = .leader then
    { n with
      nextIndex := fun peer =>
        if peer ∈ n.peers then some ((n.nextIndex peer).getD (addOne n.lastIndex)) else none
      matchIndex := fun peer =>
        if peer ∈ n.peers then
          if (n.nextIndex peer).isSome then n.matchIndex peer
          else some n.persistent.snapshot.index
        else none }
  else n

/-- `installConfiguration`: a node that is no longer a voter steps down. -/
def installConfiguration (n : Node σ) (next : Configuration) : Node σ :=
  let n := trackPeers { n with
    configuration := next.normalize
    peers := next.normalize.members }
  if !n.configuration.voter n.id ∧ n.role ≠ .follower then n.becomeFollower 0 else n

end Node

/-- A method of the node. -/
abbrev NodeM (σ α : Type) := Prog (Node σ) Error α

namespace Node

/-- `fail`: the node records a fatal error and stops. -/
def fail {α : Type} (err : Error) : NodeM σ α := do
  modify fun n => { n with fatal := some err, stopped := true }
  throw err

/-- `invariant.Assert`. -/
def assert (condition : Bool) (name : String) : NodeM σ Unit :=
  if condition then pure () else fail (.violation name)

def usable (n : Node σ) : Except Error Unit :=
  match n.fatal with
  | some err => .error (.join .stopped err)
  | none => if n.stopped then .error .stopped else .ok ()

/-- `save`: a store that refuses the state stops the node. -/
def save (state : PersistentState) : NodeM σ Unit := do
  let n ← get
  let (err, store) := n.store.save state
  set { n with store := store }
  match err with
  | some err => fail (.wrap "save Raft state" (.join .persistence err))
  | none => pure ()

def persist : NodeM σ Unit := do
  let n ← get
  save n.persistent

/-- `stop`. -/
def stop (n : Node σ) : Node σ := { n with stopped := true }

end Node

end RivetDB.Raft
