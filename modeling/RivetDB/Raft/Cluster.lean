import RivetDB.Raft.Protocol

/-!
# A group of nodes and its network

Any number of nodes, and every message they ever sent.  A message may be
delivered at any time, any number of times and to any node, or never, which
covers loss, duplication and reordering.  A node that crashes loses everything
but its store; `Action.start` builds it again on the state it saved last.  A
crash in the middle of a call is a failed save followed by a start, because the
store is the only thing that outlives the call.
-/

namespace RivetDB.Raft

variable {σ : Type}

structure Cluster (σ : Type) where
  node : NodeID → Option (Node σ)
  /-- Every message sent so far, in the order of sending. -/
  sent : List Message

/-- No node is built and nothing was sent. -/
def Cluster.init : Cluster σ := { node := fun _ => none, sent := [] }

/-- What can happen next: a call of one of the node's methods, the delivery of
the `k`-th message ever sent, or the (re)construction of a node. -/
inductive Action (σ : Type) where
  | start (config : Config σ)
  | stop (id : NodeID)
  | tick (id : NodeID)
  | deliver (id : NodeID) (k : ℕ)
  | propose (id : NodeID) (command : Bytes)
  | proposeNoOp (id : NodeID)
  | proposeConfiguration (id : NodeID) (next : Configuration)
  | transferLeadership (id target : NodeID)
  | createSnapshot (id : NodeID)

namespace Cluster

/-- Replace one node and send messages. -/
def put (s : Cluster σ) (id : NodeID) (n : Node σ) (messages : List Message) : Cluster σ :=
  { node := Function.update s.node id (some n), sent := s.sent ++ messages }

/-- Call a method of one node; what it returns is sent. -/
def call (s : Cluster σ) (id : NodeID) (x : NodeM σ (List Message)) : Cluster σ :=
  match s.node id with
  | none => s
  | some n =>
    match x.exec n with
    | (.ok messages, n') => s.put id n' messages
    | (.error _, n') => s.put id n' []

/-- The state a node saved last. -/
def stored (s : Cluster σ) (id : NodeID) : PersistentState :=
  match s.node id with
  | none => {}
  | some n => n.store.state

/-- `NewNode` on what the node saved last.  A node that cannot be built stays
down. -/
def start (M : StateMachine σ) (s : Cluster σ) (config : Config σ) : Cluster σ :=
  match newNode M { config with store := { config.store with state := s.stored config.id } } with
  | .ok n => s.put config.id n []
  | .error _ =>
    match s.node config.id with
    | none => s
    | some n => s.put config.id n.stop []

/-- One action. -/
def act (M : StateMachine σ) (s : Cluster σ) : Action σ → Cluster σ
  | .start config => s.start M config
  | .stop id =>
    match s.node id with
    | none => s
    | some n => s.put id n.stop []
  | .tick id => s.call id (Node.tick M)
  | .deliver id k =>
    match s.sent[k]? with
    | none => s
    | some message => s.call id (Node.step M message)
  | .propose id command => s.call id (Prod.snd <$> Node.propose M command)
  | .proposeNoOp id => s.call id (Prod.snd <$> Node.proposeNoOp M)
  | .proposeConfiguration id next => s.call id (Prod.snd <$> Node.proposeConfiguration M next)
  | .transferLeadership id target => s.call id (Node.transferLeadership target)
  | .createSnapshot id => s.call id ((fun _ => []) <$> Node.createSnapshot M)

/-- A run of the group. -/
def run (M : StateMachine σ) (s : Cluster σ) (actions : List (Action σ)) : Cluster σ :=
  actions.foldl (act M) s

theorem run_append (M : StateMachine σ) (s : Cluster σ) (actions actions' : List (Action σ)) :
    s.run M (actions ++ actions') = (s.run M actions).run M actions' :=
  List.foldl_append

end Cluster

end RivetDB.Raft
