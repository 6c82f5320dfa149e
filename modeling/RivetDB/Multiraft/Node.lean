import RivetDB.Multiraft.Catalog
import RivetDB.Range.Replica

/-!
# A node that hosts many ranges

`multiraft/node.go`, with `registry.go`, the loading half of `catalog_store.go` and the
envelope of `transport.go`: how a node opens the replicas a catalog assigns to it, and how it
carries their Raft messages.

Two things decide what a node does after a restart and are kept apart in the code: the disk,
with one directory for each replica incarnation and the marker of a finished bootstrap, and
the memory of the process, with the descriptors that migrations and splits have installed
since.  A node that runs is a `Site`, the disk together with that memory.  What a replica has
saved is on the disk when its call returns, so a crash forgets the memory and nothing else.
-/

namespace RivetDB.Multiraft

open Range (Replica ReplicaM Directories Opening Lifecycle Driver)
open Codec (putLE getLE)

/-- The errors of a node.  `catalog` and `replica` are the errors of the packages below it,
`foreign` those of the file system and of hooks. -/
inductive NodeError where
  | invalidDescriptor
  | invalidCatalog
  | catalogMissing
  | catalogMismatch
  | corruptCatalog
  | staleRange
  | resourceLimit
  | missingRange
  | bootstrapIncomplete
  | unknownRange
  | duplicateRange
  | wrongRangeMessage
  | wrongRangeKey
  | rangeSplit
  | nodeStopped
  | replicaRemoved
  | migrationConflict
  | catalog (cause : Error)
  | replica (cause : Range.Error)
  | foreign (text : String)
  | wrap (text : String) (cause : NodeError)
  | join (left right : NodeError)
deriving DecidableEq, Repr

/-- The hash functions a node uses. -/
structure Hashes where
  sha256 : Bytes → Digest
  crc32 : Bytes → ℕ

/-! ### Descriptors and catalogs -/

/-- `ReplicaOn`. -/
def RangeDescriptor.replicaOn (d : RangeDescriptor) (nodeID : Raft.NodeID) :
    Option ReplicaDescriptor :=
  d.replicas.find? (·.nodeID = nodeID)

/-- One endpoint in `descriptorFingerprint`. -/
def KeyBound.hashed (b : KeyBound) : Bytes :=
  (if b.unbounded then 1 else 0) :: (putLE 8 b.key.length ++ b.key)

/-- `descriptorFingerprint`. -/
def descriptorFingerprint (H : Hashes) (d : RangeDescriptor) : Digest :=
  H.sha256 (putLE 8 d.rangeID ++ putLE 8 d.generation ++ d.startKey.hashed ++ d.endKey.hashed ++
    d.replicas.flatMap ReplicaDescriptor.encode)

namespace Catalog

/-- `Assigned`. -/
def assigned (c : Catalog) (nodeID : Raft.NodeID) : List RangeDescriptor :=
  c.ranges.filter fun d => (d.replicaOn nodeID).isSome

/-- `Fingerprint`. -/
def fingerprint (H : Hashes) (c : Catalog) : Digest := H.sha256 (c.body ++ putLE 4 (H.crc32 c.body))

end Catalog

/-- A `*Catalog`: only `NewCatalog` makes them. -/
structure BuiltCatalog extends Catalog where
  built : ∃ b, newCatalog b = .ok toCatalog

/-- `NewCatalog`, with the proof that it was called. -/
def BuiltCatalog.new (b : Bootstrap) : Except Error BuiltCatalog :=
  match h : newCatalog b with
  | .ok c => .ok ⟨c, b, h⟩
  | .error err => .error err

/-! ### The disk of a node -/

/-- A directory below that of a range: the range's own, where replicas lived before they had
incarnations, or `replica-%d`. -/
inductive Root where
  | legacy
  | incarnation (replicaID : ℕ)
deriving DecidableEq, Repr

/-- The disk of a node: what reading `range-metadata` gives, the bytes of
`bootstrap-complete`, the replica directories of each range, and the tombstones. -/
structure Disk where
  catalog : Option (Except Error BuiltCatalog) := none
  marker : Option Bytes := none
  roots : Dict (ℕ × Root) Directories := ∅
  tombstones : List (ℕ × ℕ) := []

namespace Disk

/-- The replica directories below a root. -/
def directories (disk : Disk) (rangeID : ℕ) (root : Root) : Directories :=
  (disk.roots.get (rangeID, root)).getD {}

def setDirectories (disk : Disk) (rangeID : ℕ) (root : Root) (s : Directories) : Disk :=
  { disk with roots := disk.roots.set (rangeID, root) s }

/-- The saves of a replica reach its Raft directory. -/
def save (disk : Disk) (rangeID : ℕ) (root : Root) (state : Raft.PersistentState) : Disk :=
  let s := disk.directories rangeID root
  disk.setDirectories rangeID root { s with raft := s.raft.map fun r => (r.1, state) }

/-- `rangeReplicaDirectoriesExist`. -/
def replicaDirectoriesExist (disk : Disk) (rangeID replicaID : ℕ) : Bool :=
  (disk.directories rangeID .legacy).complete ||
    (disk.directories rangeID (.incarnation replicaID)).complete

/-- The root that `openReplicaLifecycle` opens. -/
def chosenRoot (disk : Disk) (rangeID replicaID : ℕ) : Root :=
  if (disk.directories rangeID (.incarnation replicaID)).complete then .incarnation replicaID
  else .legacy

/-- `bootstrapComplete`. -/
def bootstrapComplete (disk : Disk) (H : Hashes) (c : Catalog) : Except NodeError Bool :=
  match disk.marker with
  | none => .ok false
  | some encoded =>
    if encoded.length ≠ 40 then
      .error (.wrap "malformed bootstrap completion marker" .corruptCatalog)
    else if getLE (encoded.take 8) < c.generation then .ok false
    else if getLE (encoded.take 8) ≠ c.generation ∨
        encoded.drop 8 ≠ (c.fingerprint H).bytes then
      .error (.wrap "bootstrap marker/catalog mismatch" .corruptCatalog)
    else .ok true

end Disk

/-- A call that works on the disk. -/
abbrev DiskM (α : Type) := Prog Disk NodeError α

/-- How the file system takes one atomic publication: it may fail before the rename, or after
it. -/
inductive Publication where
  | done
  | lost (err : NodeError)
  | uncertain (err : NodeError)

/-- A file that is replaced as a whole (`publishCatalog`, `publishSmallFile`). -/
def publish (how : Publication) (write : Disk → Disk) : DiskM Unit :=
  match how with
  | .done => modify write
  | .lost err => throw err
  | .uncertain err => do
      modify write
      throw err

/-- `LoadOrBootstrapCatalog`. -/
def loadOrBootstrapCatalog (H : Hashes) (bootstrap : Option Bootstrap) (how : Publication) :
    DiskM BuiltCatalog := do
  let disk ← get
  match disk.catalog, bootstrap with
  | some (.error err), _ => throw (.wrap "decode authoritative catalog" (.catalog err))
  | some (.ok c), none => return c
  | some (.ok c), some b =>
    match BuiltCatalog.new b with
    | .error err => throw (.catalog err)
    | .ok configured =>
      if c.fingerprint H ≠ configured.fingerprint H then
        throw .catalogMismatch
      return c
  | none, none => throw .catalogMissing
  | none, some b =>
    match BuiltCatalog.new b with
    | .error err => throw (.catalog err)
    | .ok c =>
      publish how fun disk => { disk with catalog := some (.ok c) }
      return c

/-- `publishBootstrapComplete`. -/
def publishBootstrapComplete (H : Hashes) (c : Catalog) (how : Publication) : DiskM Unit :=
  publish how fun disk =>
    { disk with marker := some (putLE 8 c.generation ++ (c.fingerprint H).bytes) }

/-! ### Opening replicas -/

variable {σ α : Type}

/-- A replica in the registry, and the directory it was opened in. -/
structure Hosted (σ : Type) where
  replica : Replica σ
  root : Root

/-- The options that `openReplicaLifecycle` and `AddLearnerRange` have in common. -/
def replicaOptions (nodeID : Raft.NodeID) (d : RangeDescriptor) (replicaID : ℕ)
    (peers : List Raft.NodeID) (maxProposalWaiters : ℤ) (lifecycle : Lifecycle) :
    Range.Options where
  rangeID := d.rangeID
  generation := d.generation
  nodeID := nodeID
  replicaID := replicaID
  peers := peers
  electionTimeoutMin := 5 + nodeID.toNat % 3 + d.rangeID % 3
  electionTimeoutMax := 5 + nodeID.toNat % 3 + d.rangeID % 3
  heartbeatInterval := 1
  maxProposalWaiters := maxProposalWaiters
  lifecycle := lifecycle

/-- `replicatedrange.Open` below a root. -/
def openAt (D : Driver σ) (env : Opening σ) (options : Range.Options) (root : Root)
    (text : String) : DiskM (Hosted σ) := do
  let disk ← get
  let (result, s) :=
    (Replica.openReplica D env options).exec (disk.directories options.rangeID root)
  set (disk.setDirectories options.rangeID root s)
  match result with
  | .error err => throw (.wrap text (.replica err))
  | .ok replica => return { replica := replica, root := root }

/-- `openReplicaLifecycle`. -/
def openReplicaLifecycle (D : Driver σ) (nodeID : Raft.NodeID) (maxProposalWaiters : ℤ)
    (d : RangeDescriptor) (lifecycle : Lifecycle) (env : Opening σ) : DiskM (Hosted σ) := do
  match d.replicaOn nodeID with
  | none => throw .unknownRange
  | some r =>
    let peers := (d.replicas.map ReplicaDescriptor.nodeID).insertionSort (· ≤ ·)
    let disk ← get
    openAt D env (replicaOptions nodeID d r.replicaID peers maxProposalWaiters lifecycle)
      (disk.chosenRoot d.rangeID r.replicaID) s!"open replicated range {d.rangeID}"

/-! ### The node -/

/-- `NodeOptions`, without the directory. -/
structure NodeOptions where
  nodeID : Raft.NodeID
  bootstrap : Option Bootstrap := none
  maxHostedRanges : ℤ := 0
  maxProposalWaiters : ℤ := 0
  bootstrapRangeHook : ℕ → Option NodeError := fun _ => none
  authoritativeCatalog : Option BuiltCatalog := none
  shadowRanges : List RangeDescriptor := []
  retiredRanges : List RangeDescriptor := []

/-- The memory of a node.  The keys of `registry`, `failures`, `dynamic` and `retired` are
ranges. -/
structure Host (σ : Type) where
  id : Raft.NodeID
  catalog : BuiltCatalog
  registry : Dict ℕ (Hosted σ) := ∅
  maxHostedRanges : ℤ
  maxProposalWaiters : ℤ
  failures : Dict ℕ NodeError := ∅
  dynamic : Dict ℕ RangeDescriptor := ∅
  retired : Dict ℕ (List RangeDescriptor) := ∅
  stopped : Bool := false

namespace Host

/-- `Register`. -/
def register (h : Host σ) (rangeID : ℕ) (hosted : Hosted σ) : Except NodeError (Host σ) :=
  if rangeID = 0 then .error .invalidDescriptor
  else if (h.registry.get rangeID).isSome then .error .duplicateRange
  else .ok { h with registry := h.registry.set rangeID hosted }

def fail (h : Host σ) (rangeID : ℕ) (err : NodeError) : Host σ :=
  { h with failures := h.failures.set rangeID err }

/-- `descriptorFor`. -/
def descriptorFor (h : Host σ) (rangeID : ℕ) : Except NodeError RangeDescriptor :=
  match h.dynamic.get rangeID with
  | some d => .ok d
  | none => (h.catalog.lookupByID rangeID).mapError .catalog

/-- `InstallTransitionDescriptor`. -/
def installTransitionDescriptor (h : Host σ) (d : RangeDescriptor) : Host σ :=
  { h with dynamic := h.dynamic.set d.rangeID d }

/-- `InstallDynamicCatalog`. -/
def installDynamicCatalog (h : Host σ) (c : BuiltCatalog) : Except NodeError (Host σ) :=
  if c.generation < h.catalog.generation then .error .staleRange
  else
    let old := h.catalog.ranges.foldl installTransitionDescriptor h
    .ok (c.ranges.foldl installTransitionDescriptor { old with catalog := c })

/-- `InstallRetiredRedirect`. -/
def installRetiredRedirect (h : Host σ) (parent : ℕ) (children : List RangeDescriptor) :
    Host σ :=
  { h with retired := h.retired.set parent children }

/-- `activeDescriptor`. -/
def activeDescriptor (h : Host σ) (rangeID : ℕ) : Except NodeError RangeDescriptor :=
  match h.catalog.lookupByID rangeID with
  | .ok d => .ok d
  | .error err =>
    match h.retired.get rangeID with
    | some (_ :: _) => .error .rangeSplit
    | _ => .error (.catalog err)

/-- `Close`. -/
def close (h : Host σ) : Host σ :=
  if h.stopped then h else { h with stopped := true, registry := ∅ }

end Host

/-- What `OpenNode` finds around it: how the two publications end, and the environment of each
replica it opens, in order. -/
structure Start (σ : Type) where
  catalog : Publication := .done
  marker : Publication := .done
  opening : ℕ → Opening σ

/-- Register a replica, or note why it could not be opened.  `onSuccess` is what the two loops
of `OpenNode` do behind the registration. -/
def Host.note (h : Host σ) (rangeID : ℕ) (onSuccess : Host σ → Host σ) :
    Except NodeError (Hosted σ) → Host σ
  | .error err => h.fail rangeID err
  | .ok hosted =>
    match h.register rangeID hosted with
    | .error err => h.fail rangeID err
    | .ok registered => onSuccess registered

/-- Open one replica of the loops of `OpenNode`. -/
def hostRange (D : Driver σ) (d : RangeDescriptor) (lifecycle : Lifecycle) (env : Opening σ)
    (onSuccess : Host σ → Host σ) (h : Host σ) : DiskM (Host σ) := do
  let disk ← get
  let (result, disk) :=
    (openReplicaLifecycle D h.id h.maxProposalWaiters d lifecycle env).exec disk
  set disk
  return h.note d.rangeID onSuccess result

/-- What is behind the registration of an assigned range, while bootstrap is incomplete. -/
def callHook (hook : ℕ → Option NodeError) (complete : Bool) (rangeID : ℕ) (h : Host σ) :
    Host σ :=
  match complete, hook rangeID with
  | false, some err => h.fail rangeID err
  | _, _ => h

/-- One round of the loop of `OpenNode` over the assigned ranges.  A range that the stored
catalog does not know is opened as a shadow. -/
def openAssignedRange (D : Driver σ) (options : NodeOptions) (base : Catalog) (complete : Bool)
    (env : Opening σ) (d : RangeDescriptor) (h : Host σ) : DiskM (Host σ) := do
  let disk ← get
  let replicaID := ((d.replicaOn h.id).map ReplicaDescriptor.replicaID).getD 0
  if complete ∧ disk.replicaDirectoriesExist d.rangeID replicaID = false then
    return h.fail d.rangeID .missingRange
  let lifecycle := if (base.lookupByID d.rangeID).isOk then .active else .shadow
  hostRange D d lifecycle env (callHook options.bootstrapRangeHook complete d.rangeID) h

/-- The loop of `OpenNode` over the assigned ranges. -/
def openAssigned (D : Driver σ) (options : NodeOptions) (base : Catalog) (complete : Bool)
    (opening : ℕ → Opening σ) : ℕ → List RangeDescriptor → Host σ → DiskM (Host σ)
  | _, [], h => return h
  | i, d :: rest, h => do
      let h ← openAssignedRange D options base complete (opening i) d h
      openAssigned D options base complete opening (i + 1) rest h

/-- One round of the loop of `OpenNode` over the shadow and the retired ranges. -/
def openOtherRange (D : Driver σ) (retired : List RangeDescriptor) (env : Opening σ)
    (d : RangeDescriptor) (h : Host σ) : DiskM (Host σ) :=
  if (d.replicaOn h.id).isNone ∨ (h.registry.get d.rangeID).isSome then return h
  else
    hostRange D d (if retired.any (·.rangeID = d.rangeID) then .active else .shadow) env
      (·.installTransitionDescriptor d) h

/-- The loop of `OpenNode` over the shadow and the retired ranges. -/
def openOthers (D : Driver σ) (retired : List RangeDescriptor) (opening : ℕ → Opening σ) :
    ℕ → List RangeDescriptor → Host σ → DiskM (Host σ)
  | _, [], h => return h
  | i, d :: rest, h => do
      let h ← openOtherRange D retired (opening i) d h
      openOthers D retired opening (i + 1) rest h

/-- `failuresError`, behind `ErrBootstrapIncomplete`. -/
def failuresError (failures : Dict ℕ NodeError) : NodeError :=
  failures.entries.foldl (fun err e => .join err (.wrap s!"range {e.1}" e.2)) .bootstrapIncomplete

/-- The catalog `OpenNode` goes by: the authoritative one, unless it is older. -/
def NodeOptions.catalogOver (options : NodeOptions) (base : BuiltCatalog) :
    Except NodeError BuiltCatalog :=
  match options.authoritativeCatalog with
  | none => .ok base
  | some c => if c.generation < base.generation then .error .staleRange else .ok c

/-- `MaxHostedRanges` with its default. -/
def NodeOptions.hostedLimit (options : NodeOptions) : ℤ :=
  if options.maxHostedRanges = 0 then 1024 else options.maxHostedRanges

/-- The node that `OpenNode` fills. -/
def NodeOptions.host (options : NodeOptions) (c : BuiltCatalog) : Host σ where
  id := options.nodeID
  catalog := c
  maxHostedRanges := options.hostedLimit
  maxProposalWaiters := options.maxProposalWaiters

/-- `OpenNode`. -/
def openNode (H : Hashes) (D : Driver σ) (options : NodeOptions) (start : Start σ) :
    DiskM (Host σ) := do
  if options.nodeID = 0 then
    throw .invalidCatalog
  if options.hostedLimit < 1 then
    throw .resourceLimit
  let base ← loadOrBootstrapCatalog H options.bootstrap start.catalog
  let c ← Prog.lift (options.catalogOver base)
  let assigned := c.assigned options.nodeID
  if (assigned.length : ℤ) > options.hostedLimit then
    throw .resourceLimit
  let disk ← get
  let complete ← Prog.lift (disk.bootstrapComplete H c.toCatalog)
  let h ← openAssigned D options base.toCatalog complete start.opening 0 assigned (options.host c)
  let h ← openOthers D options.retiredRanges start.opening assigned.length
    (options.shadowRanges ++ options.retiredRanges) h
  if complete then
    return h
  if h.failures.entries ≠ [] then
    throw (failuresError h.failures)
  publishBootstrapComplete H c.toCatalog start.marker
  return h

/-! ### Messages -/

/-- `Envelope`. -/
structure Envelope where
  rangeID : ℕ
  messageRangeID : ℕ
  generation : ℕ
  descriptorFingerprint : Digest
  fromReplica : ℕ
  toReplica : ℕ
  message : Raft.Message
deriving DecidableEq

/-- `validateEnvelope`. -/
def validateEnvelope (e : Envelope) : Except NodeError Unit :=
  if e.rangeID = 0 ∨ e.messageRangeID = 0 ∨ e.generation = 0 ∨
      e.descriptorFingerprint = .zero ∨ e.fromReplica = 0 ∨ e.toReplica = 0 then
    .error .wrongRangeMessage
  else if e.rangeID ≠ e.messageRangeID then .error .wrongRangeMessage
  else if e.message.fromID = 0 ∨ e.message.toID = 0 ∨ e.message.fromID = e.message.toID then
    .error (.wrap "invalid Raft endpoints" .wrongRangeMessage)
  else .ok ()

/-- The envelope of one message, when the descriptor lists both ends. -/
def RangeDescriptor.envelope (H : Hashes) (d : RangeDescriptor) (rangeID : ℕ)
    (message : Raft.Message) : Except NodeError Envelope :=
  match d.replicaOn message.fromID, d.replicaOn message.toID with
  | some source, some target =>
    .ok { rangeID := rangeID
          messageRangeID := rangeID
          generation := d.generation
          descriptorFingerprint := Multiraft.descriptorFingerprint H d
          fromReplica := source.replicaID
          toReplica := target.replicaID
          message := message }
  | _, _ => .error .wrongRangeMessage

/-- `wrapMessages`: one message without an envelope drops the whole batch. -/
def Host.wrapMessages (H : Hashes) (h : Host σ) (rangeID : ℕ) (messages : List Raft.Message) :
    Except NodeError (List Envelope) := do
  let d ← h.descriptorFor rangeID
  messages.mapM (d.envelope H rangeID)

/-- What `Step` checks before it hands the message to the replica. -/
def Host.accepts (H : Hashes) (h : Host σ) (e : Envelope) : Except NodeError Unit := do
  validateEnvelope e
  if e.message.toID ≠ h.id then
    throw .wrongRangeMessage
  match h.descriptorFor e.rangeID with
  | .error _ => throw .unknownRange
  | .ok d =>
    if e.generation ≠ d.generation then
      throw .staleRange
    if e.descriptorFingerprint ≠ descriptorFingerprint H d then
      throw .catalogMismatch
    if (d.replicaOn e.message.fromID).map ReplicaDescriptor.replicaID ≠ some e.fromReplica ∨
        (d.replicaOn e.message.toID).map ReplicaDescriptor.replicaID ≠ some e.toReplica ∨
        e.message.fromID = e.message.toID then
      throw .wrongRangeMessage

/-! ### Calls on a node that runs -/

/-- A node that runs: its disk and its memory. -/
structure Site (σ : Type) where
  disk : Disk
  host : Host σ

abbrev SiteM (σ α : Type) := Prog (Site σ) NodeError α

namespace Site

/-- A call of the node that does not touch the disk. -/
def onHost (f : Host σ → Except NodeError (Host σ)) : SiteM σ Unit := do
  let s ← get
  let h ← Prog.lift (f s.host)
  set { s with host := h }

/-- A call on the disk, and how it went. -/
def tryDisk (call : DiskM α) : SiteM σ (Except NodeError α) := do
  let s ← get
  let (result, disk) := call.exec s.disk
  set { s with disk := disk }
  return result

/-- A call on the disk. -/
def onDisk (call : DiskM α) : SiteM σ α := do
  Prog.lift (← tryDisk call)

/-- The replica of a range after a call: what it has saved is on the disk. -/
def update (s : Site σ) (rangeID : ℕ) (hosted : Hosted σ) : Site σ where
  disk := s.disk.save rangeID hosted.root hosted.replica.node.store.state
  host := { s.host with registry := s.host.registry.set rangeID hosted }

/-- `liveReplica` and a call on it. -/
def onReplica (rangeID : ℕ) (call : ReplicaM σ α) : SiteM σ (Except Range.Error α) := do
  let s ← get
  if s.host.stopped then
    throw .nodeStopped
  match s.host.registry.get rangeID with
  | none => throw .unknownRange
  | some hosted =>
    let (result, replica) := call.exec hosted.replica
    set (s.update rangeID { hosted with replica := replica })
    return result

/-- A call on a live replica whose messages are wrapped. -/
def deliver (H : Hashes) (rangeID : ℕ) (text : String) (call : ReplicaM σ (List Raft.Message)) :
    SiteM σ (List Envelope) := do
  match ← onReplica rangeID call with
  | .error err => throw (.wrap text (.replica err))
  | .ok messages => do
      let s ← get
      Prog.lift (s.host.wrapMessages H rangeID messages)

variable (H : Hashes) (D : Driver σ)

/-- `Tick`. -/
def tick (rangeID : ℕ) : SiteM σ (List Envelope) :=
  deliver H rangeID s!"tick range {rangeID}" (Replica.tick D)

/-- `Step`. -/
def step (e : Envelope) : SiteM σ (List Envelope) := do
  let s ← get
  Prog.lift (s.host.accepts H e)
  deliver H e.rangeID s!"step range {e.rangeID}" (Replica.step D e.message)

/-- `Route`. -/
structure Route where
  rangeID : ℕ
  generation : ℕ
  key : Bytes

/-- What the routed proposals check first. -/
def checkRoute (h : Host σ) (route : Route) : Except NodeError Unit := do
  let d ← h.activeDescriptor route.rangeID
  if route.generation ≠ d.generation then
    throw .staleRange
  if !d.contains route.key then
    throw .wrongRangeKey

/-- How `ProposeMVCC`, `ProposeTransaction`, `ProposeSplit` and
`AssignTransactionTimestamp` come to the bytes they propose: from the machine, whose clock
they may advance. -/
abbrev Prepare (σ : Type) := Prog σ Range.Error Bytes

/-- The proposals of a replica: prepare the command, then `proposeLocked`. -/
def proposePrepared (prepare : Prepare σ) : ReplicaM σ (ℕ × List Raft.Message) := do
  let r ← get
  let (result, machine) := prepare.exec r.node.stateMachine
  set (r.withMachine machine)
  let encoded ← Prog.lift result
  Replica.proposeLocked D encoded

/-- `Propose`, `ProposeMVCC`, `ProposeTransaction` and `AssignTransactionTimestamp`. -/
def propose (route : Route) (prepare : Prepare σ) : SiteM σ (List Envelope) := do
  let s ← get
  Prog.lift (checkRoute s.host route)
  deliver H route.rangeID s!"propose to range {route.rangeID}"
    (Prod.snd <$> proposePrepared D prepare)

/-- `ProposeSplit`. -/
def proposeSplit (rangeID : ℕ) (prepare : Prepare σ) : SiteM σ (List Envelope) := do
  let s ← get
  let _ ← Prog.lift (s.host.descriptorFor rangeID)
  deliver H rangeID s!"propose split command to range {rangeID}"
    (Prod.snd <$> proposePrepared D prepare)

/-- `ProposeConfiguration`. -/
def proposeConfiguration (rangeID : ℕ) (next : Raft.Configuration) : SiteM σ (List Envelope) :=
  deliver H rangeID "propose range configuration" (Prod.snd <$> Replica.proposeConfiguration D next)

/-- `ProposeBarrier`. -/
def proposeBarrier (rangeID : ℕ) : SiteM σ (List Envelope) :=
  deliver H rangeID "propose range barrier" (Prod.snd <$> Replica.proposeBarrier D)

/-- `TransferRangeLeadership`. -/
def transferRangeLeadership (rangeID : ℕ) (target : Raft.NodeID) : SiteM σ (List Envelope) :=
  deliver H rangeID "transfer range leadership" (Replica.transferLeadership target)

/-- Work on a replica behind the node's back: a Raft snapshot, or what its engine and its
owner do to the machine. -/
def maintain (rangeID : ℕ) (call : ReplicaM σ α) : SiteM σ Unit := do
  let _ ← onReplica rangeID call

/-- Register a replica that was just opened. -/
def enter (rangeID : ℕ) (hosted : Hosted σ) : SiteM σ Unit :=
  onHost fun h => h.register rangeID hosted

/-- `AddShadowRange`. -/
def addShadowRange (d : RangeDescriptor) (env : Opening σ) : SiteM σ Unit := do
  let s ← get
  if (d.replicaOn s.host.id).isNone then
    throw .unknownRange
  if s.host.stopped ∨ (s.host.registry.entries.length : ℤ) ≥ s.host.maxHostedRanges then
    throw .resourceLimit
  onHost fun h => .ok (h.installTransitionDescriptor d)
  if (s.host.registry.get d.rangeID).isSome then
    return
  let hosted ← onDisk (openReplicaLifecycle D s.host.id s.host.maxProposalWaiters d .shadow env)
  enter d.rangeID hosted

/-- The options with which `AddLearnerRange` opens its replica. -/
def learnerOptions (h : Host σ) (d : RangeDescriptor) (configuration : Raft.Configuration)
    (target : ℕ) : Range.Options :=
  let bootstrapLearner := !configuration.voter h.id && !configuration.learner h.id
  let peers := if bootstrapLearner then configuration.members ++ [h.id]
    else configuration.members
  { replicaOptions h.id d target peers h.maxProposalWaiters .learner with
    initialConfig := configuration
    bootstrapLearner := bootstrapLearner }

/-- `AddLearnerRange`. -/
def addLearnerRange (d : RangeDescriptor) (configuration : Raft.Configuration) (target : ℕ)
    (env : Opening σ) : SiteM σ Unit := do
  let s ← get
  if (d.replicaOn s.host.id).map ReplicaDescriptor.replicaID ≠ some target then
    throw .unknownRange
  onHost fun h => .ok (h.installTransitionDescriptor d)
  if (s.host.registry.get d.rangeID).isSome then
    return
  let hosted ← onDisk (openAt D env (learnerOptions s.host d configuration target)
    (.incarnation target) s!"open learner range {d.rangeID}")
  enter d.rangeID hosted

/-- `RetireRange`. -/
def retireRange (rangeID : ℕ) : SiteM σ Unit :=
  onHost fun h =>
    if (h.registry.get rangeID).isNone then .error .replicaRemoved
    else .ok { h with registry := h.registry.erase rangeID }

/-- `RetireReplica`. -/
def retireReplica (rangeID replicaID : ℕ) (how : Publication) : SiteM σ Unit := do
  let s ← get
  if (s.host.registry.get rangeID).map (·.replica.replicaID) ≠ some replicaID then
    throw .replicaRemoved
  onDisk (publish how fun disk =>
    { disk with tombstones := (rangeID, replicaID) :: disk.tombstones })
  retireRange rangeID

/-- `DeleteRetiredReplica`, when the file system does what it is asked. -/
def deleteRetiredReplica (rangeID replicaID : ℕ) : DiskM Unit := do
  let disk ← get
  if (rangeID, replicaID) ∉ disk.tombstones then
    throw .replicaRemoved
  if (disk.roots.get (rangeID, .incarnation replicaID)).isSome then
    set { disk with roots := disk.roots.erase (rangeID, .incarnation replicaID) }
  else if disk.roots.entries.any fun e => e.1.1 = rangeID && e.1.2 ≠ .legacy then
    -- the legacy root also holds a newer incarnation
    throw .migrationConflict
  else
    set { disk with roots := disk.roots.erase (rangeID, .legacy) }

/-- `RestartRange`. -/
def restartRange (rangeID : ℕ) (env : Opening σ) : SiteM σ Unit := do
  let s ← get
  let d ← Prog.lift (s.host.descriptorFor rangeID)
  if (d.replicaOn s.host.id).isNone then
    throw .unknownRange
  onHost fun h => .ok { h with registry := h.registry.erase rangeID }
  match ← tryDisk
    (openReplicaLifecycle D s.host.id s.host.maxProposalWaiters d .active env) with
  | .error err => do
      onHost fun h => .ok (h.fail rangeID err)
      throw err
  | .ok hosted => do
      enter rangeID hosted
      onHost fun h => .ok { h with failures := h.failures.erase rangeID }

end Site

/-! ### The life of a node -/

/-- Whatever can happen to one node directory.  `lose` is a failure of the medium: one of the
two directories below a root is gone. -/
inductive Event (σ : Type) where
  | openNode (options : NodeOptions) (start : Start σ)
  | crash
  | lose (rangeID : ℕ) (root : Root) (raft : Bool)
  | tick (rangeID : ℕ)
  | step (envelope : Envelope)
  | propose (route : Site.Route) (prepare : Site.Prepare σ)
  | proposeSplit (rangeID : ℕ) (prepare : Site.Prepare σ)
  | proposeConfiguration (rangeID : ℕ) (next : Raft.Configuration)
  | proposeBarrier (rangeID : ℕ)
  | transferRangeLeadership (rangeID : ℕ) (target : Raft.NodeID)
  | createRaftSnapshot (rangeID : ℕ)
  | machineWork (rangeID : ℕ) (work : σ → σ)
  | installTransitionDescriptor (d : RangeDescriptor)
  | addLearnerRange (d : RangeDescriptor) (configuration : Raft.Configuration) (target : ℕ)
      (env : Opening σ)
  | addShadowRange (d : RangeDescriptor) (env : Opening σ)
  | installDynamicCatalog (c : BuiltCatalog)
  | installRetiredRedirect (parent : ℕ) (children : List RangeDescriptor)
  | retireRange (rangeID : ℕ)
  | retireReplica (rangeID replicaID : ℕ) (how : Publication)
  | deleteRetiredReplica (rangeID replicaID : ℕ)
  | restartRange (rangeID : ℕ) (env : Opening σ)
  | close

/-- A node directory, and the memory of the process that has it open. -/
structure World (σ : Type) where
  disk : Disk := {}
  host : Option (Host σ) := none

namespace World

/-- A call on the node that runs, if one does. -/
def call (f : SiteM σ α) (w : World σ) : World σ :=
  match w.host with
  | none => w
  | some h =>
    let s := f.state { disk := w.disk, host := h }
    { disk := s.disk, host := some s.host }

/-- One of the two directories below a root is gone. -/
def lose (rangeID : ℕ) (root : Root) (raft : Bool) (w : World σ) : World σ :=
  let s := w.disk.directories rangeID root
  { w with
    disk := w.disk.setDirectories rangeID root
      (if raft then { s with raft := none } else { s with data := none }) }

variable (H : Hashes) (D : Driver σ)

/-- `OpenNode` on a directory that no process has open. -/
def openNode (options : NodeOptions) (start : Start σ) (w : World σ) : World σ :=
  match w.host with
  | some _ => w
  | none =>
    match (Multiraft.openNode H D options start).exec w.disk with
    | (.ok h, disk) => { disk := disk, host := some h }
    | (.error _, disk) => { disk := disk, host := none }

end World

/-- What an event does. -/
def Event.perform (H : Hashes) (D : Driver σ) : Event σ → World σ → World σ
  | .openNode options start => World.openNode H D options start
  | .crash => fun w => { w with host := none }
  | .lose rangeID root raft => World.lose rangeID root raft
  | .tick rangeID => World.call (Site.tick H D rangeID)
  | .step e => World.call (Site.step H D e)
  | .propose route prepare => World.call (Site.propose H D route prepare)
  | .proposeSplit rangeID prepare => World.call (Site.proposeSplit H D rangeID prepare)
  | .proposeConfiguration rangeID next =>
    World.call (Site.proposeConfiguration H D rangeID next)
  | .proposeBarrier rangeID => World.call (Site.proposeBarrier H D rangeID)
  | .transferRangeLeadership rangeID target =>
    World.call (Site.transferRangeLeadership H rangeID target)
  | .createRaftSnapshot rangeID =>
    World.call (Site.maintain rangeID (Replica.createRaftSnapshot D))
  | .machineWork rangeID work =>
    World.call (Site.maintain rangeID (modify fun r =>
      r.withMachine (work r.node.stateMachine)))
  | .installTransitionDescriptor d =>
    World.call (Site.onHost fun h => .ok (h.installTransitionDescriptor d))
  | .addLearnerRange d configuration target env =>
    World.call (Site.addLearnerRange D d configuration target env)
  | .addShadowRange d env => World.call (Site.addShadowRange D d env)
  | .installDynamicCatalog c => World.call (Site.onHost (·.installDynamicCatalog c))
  | .installRetiredRedirect parent children =>
    World.call (Site.onHost fun h => .ok (h.installRetiredRedirect parent children))
  | .retireRange rangeID => World.call (Site.retireRange rangeID)
  | .retireReplica rangeID replicaID how =>
    World.call (Site.retireReplica rangeID replicaID how)
  | .deleteRetiredReplica rangeID replicaID =>
    World.call (Site.onDisk (Site.deleteRetiredReplica rangeID replicaID))
  | .restartRange rangeID env => World.call (Site.restartRange D rangeID env)
  | .close => World.call (Site.onHost fun h => .ok h.close)

/-- The world after a sequence of events, from an empty directory. -/
def run (H : Hashes) (D : Driver σ) (events : List (Event σ)) : World σ :=
  events.foldl (fun w event => event.perform H D w) {}

variable {P : World σ → Prop}

/-- An invariant of the events is an invariant of the runs. -/
theorem run_invariant {H : Hashes} {D : Driver σ} (hinit : P {})
    (hstep : ∀ (event : Event σ) (w : World σ), P w → P (event.perform H D w))
    (events : List (Event σ)) : P (run H D events) :=
  List.foldlRecOn events _ hinit fun w hw event _ => hstep event w hw

/-- A call keeps what its program keeps. -/
theorem World.call_invariant {call : SiteM σ α}
    (hcall : Prog.Keeps (fun s : Site σ => P { disk := s.disk, host := some s.host }) call)
    {w : World σ} (hw : P w) : P (w.call call) := by
  obtain ⟨disk, - | h⟩ := w
  · exact hw
  · exact hcall.state hw

end RivetDB.Multiraft
