import RivetDB.Raft.Log
import RivetDB.Raft.Protocol

/-!
# What one call can do to a node

The properties of a single node that matter to its owner (what it hands to its store, which
configurations it may come to use) have nothing to do with the other nodes: they have to hold
whatever messages arrive and whatever the caller proposes.  This module follows the methods of
`node.go` once, for one node that is called with anything, and writes down what it saw as a
relation.

## The relation

An `Attempt` is a call on a node.  `Attempt.Reaches` lists the changes that a call can make, one
constructor for each place of the code that changes the durable state, the configuration or the
store; everything else is the frame rule `same`.  A constructor carries what the code has checked at
that place, so an invariant of nodes is proved by one induction, with a case for each kind of change
and none for each method.  `Attempt.Leaves` adds how a call can fail.

A call touches its log at most once.  The `Stage` says whether it has: before that, the log, the
snapshot and both configurations are those the call began with (`Reaches.early`), which is what
turns a condition on the node before a call into a bound on what the call saves.

* `Attempt.leaves_run`: whatever a call does is in the relation.
-/

namespace RivetDB.Raft

open List Prog

variable {σ α : Type}

/-! ### Calls -/

/-- A call of one of the exported methods of a node. -/
inductive Call where
  | tick
  | step (message : Message)
  | propose (command : Bytes)
  | proposeNoOp
  | proposeConfiguration (next : Configuration)
  | transferLeadership (target : NodeID)
  | createSnapshot
  | stop

namespace Call

/-- What a call does; its result are the messages to send. -/
def run (M : StateMachine σ) : Call → NodeM σ (List Message)
  | tick => Node.tick M
  | step message => Node.step M message
  | propose command => Prod.snd <$> Node.propose M command
  | proposeNoOp => Prod.snd <$> Node.proposeNoOp M
  | proposeConfiguration next => Prod.snd <$> Node.proposeConfiguration M next
  | transferLeadership target => Node.transferLeadership target
  | createSnapshot => (fun _ => []) <$> Node.createSnapshot M
  | stop => do
      modify Node.stop
      return []

/-- The node a sequence of calls leads to. -/
def runAll (M : StateMachine σ) (n : Node σ) (calls : List Call) : Node σ :=
  calls.foldl (fun n call => (call.run M).state n) n

/-- The calls in which a node may stand for election. -/
def Elects : Call → Prop
  | tick => True
  | step message => message.kind = .timeoutNow
  | _ => False

instance (call : Call) : Decidable call.Elects := by
  cases call <;> unfold Elects <;> infer_instance

/-- The entries that a leader puts into its log itself. -/
inductive Adds (call : Call) (n : Node σ) : Entry → Prop
  | noOp (hroom : n.lastIndex ≠ maxUint64) :
      Adds call n { index := n.lastIndex + 1, term := n.term, kind := .noOp }
  | command {command : Bytes} (hcall : call = .propose command)
      (hsize : command.length ≤ maxCommandBytes) (hroom : n.lastIndex ≠ maxUint64) :
      Adds call n
        { index := n.lastIndex + 1, term := n.term, kind := .command, command := command }
  | config {next : Configuration} {encoded : Bytes} (hcall : call = .proposeConfiguration next)
      (hvalid : n.configuration.validateTransition next = .ok ())
      (hencode : next.encode = .ok encoded) :
      Adds call n
        { index := Node.addOne n.lastIndex, term := n.term, kind := .config, command := encoded }

end Call

/-- The error has the shape of those `save` fails with. -/
def Error.ofSave : Error → Bool
  | .wrap _ (.join .persistence _) => true
  | _ => false

/-- The error a node fails with when its store returns `err`. -/
def saveError (err : Error) : Error := .wrap "save Raft state" (.join .persistence err)

namespace Node

/-- The node that failed with `err`. -/
def failed (n : Node σ) (err : Error) : Node σ := { n with fatal := some err, stopped := true }

/-- The node with other entries behind its snapshot. -/
def withLog (n : Node σ) (log : List Entry) : Node σ :=
  { n with persistent := { n.persistent with entries := log } }

/-- The node in another term, in which it has not voted. -/
def entering (n : Node σ) (term : ℕ) : Node σ :=
  { n with persistent := { n.persistent with hardState := { term := term, votedFor := 0 } } }

/-- The node after an accepted save of `d`. -/
def afterSave (n : Node σ) (d : PersistentState) : Node σ := { n with store := (n.store.save d).2 }

/-- The log that `handleAppendEntries` may leave: what is in front of the first entry that is
missing or in conflict, and behind it the rest of a message that has been validated. -/
def Merges (n : Node σ) (message : Message) (log : List Entry) : Prop :=
  ∃ index previous kept rest, log = kept ++ rest ∧ rest <:+ message.entries ∧
    n.termAt index = .ok previous ∧
    validateAppendLoop message.term (index + 1) previous rest = .ok () ∧
    index + rest.length ≤ maxUint64 ∧
    (kept = n.persistent.entries.take (index - n.persistent.snapshot.index) ∨
      kept = n.persistent.entries ∧ n.lastIndex ≤ index)

/-- The part of a node that most changes leave alone: its identity, its configuration, its store and
the error it failed with. -/
structure Standing where
  id : NodeID
  configuration : Configuration
  store : Store
  fatal : Option Error

def standing (n : Node σ) : Standing where
  id := n.id
  configuration := n.configuration
  store := n.store
  fatal := n.fatal

/-- The two nodes differ at most in their timers, in what a leader and a candidate keep about the
others, in how far they have applied their log, in the state machine and in the role.  A follower
stays one in term 0, which has no leader. -/
structure Same (n n' : Node σ) : Prop where
  standing : n'.standing = n.standing
  persistent : n'.persistent = n.persistent
  role : n'.role ≠ .follower → n.role ≠ .follower ∨ n.term ≠ 0

namespace Same

variable {n n' : Node σ} (h : n.Same n')
include h

theorem id : n'.id = n.id := congrArg Standing.id h.standing

theorem configuration : n'.configuration = n.configuration :=
  congrArg Standing.configuration h.standing

theorem store : n'.store = n.store := congrArg Standing.store h.standing

theorem fatal : n'.fatal = n.fatal := congrArg Standing.fatal h.standing

theorem term : n'.term = n.term := congrArg (·.hardState.term) h.persistent

end Same

/-- Only what does not matter has changed, and not the role. -/
theorem same_of_eq {n n' : Node σ} (hstanding : n'.standing = n.standing)
    (hpersistent : n'.persistent = n.persistent) (hrole : n'.role = n.role) : n.Same n' :=
  ⟨hstanding, hpersistent, fun hne => .inl (hrole ▸ hne)⟩

theorem role_resetElectionTimer (n : Node σ) : n.resetElectionTimer.role = n.role := by
  unfold resetElectionTimer
  dsimp only
  split <;> rfl

theorem same_resetElectionTimer (n : Node σ) : n.Same n.resetElectionTimer := by
  unfold resetElectionTimer
  dsimp only
  split <;> exact same_of_eq rfl rfl rfl

/-- `becomeFollower`, from a node of any role. -/
theorem same_becomeFollower {n n' : Node σ} (leader : NodeID) (hstanding : n'.standing = n.standing)
    (hpersistent : n'.persistent = n.persistent) : n.Same (n'.becomeFollower leader) := by
  have h := same_resetElectionTimer { n' with
    role := .follower
    leaderID := leader
    votes := fun _ => false
    nextIndex := fun _ => none
    matchIndex := fun _ => none
    heartbeatElapsed := 0
    transferring := false
    transferElapsed := 0 }
  refine ⟨h.standing.trans hstanding, h.persistent.trans hpersistent, fun hrole => absurd ?_ hrole⟩
  exact role_resetElectionTimer _

theorem same_trackPeers (n : Node σ) : n.Same n.trackPeers := by
  unfold trackPeers
  split <;> exact same_of_eq rfl rfl rfl

/-- The node under another configuration: the members of the configuration are its peers. -/
def under (n : Node σ) (next : Configuration) : Node σ :=
  { n with configuration := next.normalize, peers := next.normalize.members }

/-- The node under a configuration that is newer than its own. -/
def taking (n : Node σ) (next : Configuration) : Node σ :=
  if next.version > n.configuration.version then n.under next else n

theorem Same.trans {n n' n'' : Node σ} (h : n.Same n') (h' : n'.Same n'') : n.Same n'' :=
  ⟨h'.standing.trans h.standing, h'.persistent.trans h.persistent, fun hrole =>
    (h'.role hrole).elim h.role fun hterm => .inr (h.term ▸ hterm)⟩

/-- A configuration is installed whole. -/
theorem same_installConfiguration (n : Node σ) (next : Configuration) :
    (n.under next).Same (n.installConfiguration next) := by
  have htrack := same_trackPeers (n.under next)
  unfold installConfiguration
  dsimp only
  split
  · exact htrack.trans (same_becomeFollower 0 rfl rfl)
  · exact htrack

variable {n : Node σ} {index : ℕ} {entry : Entry}

theorem mem_of_entryOffset (h : n.entryOffset index = .ok entry) :
    entry ∈ n.persistent.entries := by
  unfold entryOffset at h
  split at h
  · rename_i held hget
    cases h
    exact mem_of_getElem? hget
  · cases h

theorem entryAt_ok (h : n.entryAt index = .ok entry) :
    entry ∈ n.persistent.entries ∧ n.termAt index = .ok entry.term := by
  simp only [entryAt, Fallible.ite_error_eq_ok] at h
  obtain ⟨hsnapshot, hlast, hoffset⟩ := h
  refine ⟨mem_of_entryOffset hoffset, ?_⟩
  rw [termAt, if_neg (by omega), if_neg (by omega), if_neg hlast, hoffset]
  rfl

theorem lastIndex_lt_of_unavailable {err : Error} (h : n.entryAt index = .error err)
    (hunavailable : err.is .unavailable = true) : n.lastIndex < index := by
  unfold entryAt at h
  split_ifs at h with hsnapshot hlast
  · cases h
    cases hunavailable
  · exact hlast
  · unfold entryOffset at h
    split at h
    · cases h
    · cases h
      simp [Error.is] at hunavailable

end Node

/-! ### Attempts -/

/-- A call, on a node. -/
structure Attempt (σ : Type) where
  machine : StateMachine σ
  call : Call
  before : Node σ

/-- Whether a call has touched the log. -/
inductive Stage where
  | early
  | late

namespace Attempt

/-- The state in which a snapshot of the leader takes the place of a part of the log. -/
inductive Installs (A : Attempt σ) (n : Node σ) : PersistentState → Prop
  | mk {message : Message} {suffix : List Entry} (hcall : A.call = .step message)
      (hkind : message.kind = .installSnapshot)
      (hvalid : ¬ (message.snapshot.index = 0 ∨ message.snapshot.term = 0 ∨
        message.snapshot.term > message.term ∨ message.snapshot.data.length > maxCommandBytes ∨
        message.snapshot.config.version ≠ 0 ∧ ¬ message.snapshot.config.validate.isOk))
      (hterm : message.term ≤ n.term)
      (hnewer : n.persistent.snapshot.index < message.snapshot.index)
      (hsuffix : suffix = [] ∨ n.termAt message.snapshot.index = .ok message.snapshot.term ∧
        n.entriesFrom (message.snapshot.index + 1) = .ok suffix) :
      Installs A n { n.persistent with
        snapshot := message.snapshot
        entries := suffix
        config := if message.snapshot.config.version > n.persistent.config.version
          then message.snapshot.config else n.persistent.config }

/-- The state in which a snapshot of the node itself does. -/
inductive Compacts (A : Attempt σ) (n : Node σ) : PersistentState → Prop
  | mk {term : ℕ} {data : Bytes} {remaining : List Entry} {m : σ}
      (hcall : A.call = .createSnapshot) (hnewer : n.persistent.snapshot.index < n.lastApplied)
      (hterm : n.termAt n.lastApplied = .ok term)
      (hdata : (A.machine.snapshot m).1 = .ok data)
      (hremaining : n.entriesFrom (n.lastApplied + 1) = .ok remaining) :
      Compacts A n { n.persistent with
        snapshot :=
          { index := n.lastApplied, term := term, data := data, config := n.configuration }
        entries := remaining }

/-- What a call has made of its node so far. -/
inductive Reaches (A : Attempt σ) : Stage → Node σ → Prop
  | start : Reaches A .early A.before
  | late {n : Node σ} (h : Reaches A .early n) : Reaches A .late n
  /-- Nothing that is kept here has changed. -/
  | same {s : Stage} {n n' : Node σ} (h : Reaches A s n) (hsame : n.Same n') : Reaches A s n'
  /-- The node enters the term of a message. -/
  | term {n : Node σ} {message : Message} (h : Reaches A .early n)
      (hcall : A.call = .step message) (hterm : n.term < message.term) :
      Reaches A .early { n.entering message.term with role := .follower }
  /-- The node stands for election. -/
  | campaign {n : Node σ} (h : Reaches A .early n) (hcall : A.call.Elects)
      (hvoter : n.configuration.voter n.id = true) :
      Reaches A .early { n with
        role := .candidate
        persistent := { n.persistent with
          hardState := { term := n.term + 1, votedFor := n.id } } }
  /-- The node votes for the sender of a message. -/
  | vote {n : Node σ} {message : Message} (h : Reaches A .early n)
      (hcall : A.call = .step message) (hkind : message.kind = .requestVote)
      (hterm : message.term = n.term) (hvoter : n.configuration.voter message.fromID = true) :
      Reaches A .early { n with
        persistent := { n.persistent with
          hardState := { n.persistent.hardState with votedFor := message.fromID } } }
  /-- A leader adds an entry of its own. -/
  | append {n : Node σ} {entry : Entry} (h : Reaches A .early n) (hrole : n.role = .leader)
      (hentry : A.call.Adds n entry) :
      Reaches A .late (n.withLog (n.persistent.entries ++ [entry]))
  /-- The log follows that of a leader. -/
  | merge {n : Node σ} {message : Message} {log : List Entry} (h : Reaches A .early n)
      (hcall : A.call = .step message) (hkind : message.kind = .appendEntries)
      (hterm : message.term ≤ n.term) (hlog : n.Merges message log) :
      Reaches A .late (n.withLog log)
  /-- A committed configuration is applied. -/
  | configure {n : Node σ} {entry : Entry} {next : Configuration} (h : Reaches A .late n)
      (hentry : entry ∈ n.persistent.entries) (hkind : entry.kind = .config)
      (hdecode : Configuration.decode entry.command = .ok next)
      (hvalid : n.configuration.validateTransition next = .ok ()) :
      Reaches A .late (Node.under
        { n with persistent := { n.persistent with config := next } } next)
  /-- A snapshot of the leader is installed, with its configuration if that is newer. -/
  | install {n : Node σ} {d : PersistentState} (h : Reaches A .early n) (hd : A.Installs n d)
      (hsave : (n.store.save d).1 = none) :
      Reaches A .late (Node.taking { n.afterSave d with persistent := d } d.config)
  /-- The log is cut behind a snapshot of the node itself. -/
  | compact {n : Node σ} {d : PersistentState} (h : Reaches A .early n) (hd : A.Compacts n d)
      (hsave : (n.store.save d).1 = none) :
      Reaches A .late { n.afterSave d with persistent := d }
  | save {s : Stage} {n : Node σ} (h : Reaches A s n)
      (hsave : (n.store.save n.persistent).1 = none) : Reaches A s (n.afterSave n.persistent)

/-- The states that a call hands to the store of its node. -/
inductive Offers (A : Attempt σ) (n : Node σ) : PersistentState → Prop
  | own {s : Stage} (h : A.Reaches s n) : Offers A n n.persistent
  | install {d : PersistentState} (h : A.Reaches .early n) (hd : A.Installs n d) : Offers A n d
  | compact {d : PersistentState} (h : A.Reaches .early n) (hd : A.Compacts n d) : Offers A n d

/-- What a call leaves of its node. -/
inductive Leaves (A : Attempt σ) : Node σ → Prop
  | returned {s : Stage} {n : Node σ} (h : A.Reaches s n) : Leaves A n
  | failed {s : Stage} {n : Node σ} {err : Error} (h : A.Reaches s n)
      (herr : err.ofSave = false) : Leaves A (n.failed err)
  /-- The store has refused a state. -/
  | refused {n : Node σ} {d : PersistentState} {err : Error} (hd : A.Offers n d)
      (hsave : (n.store.save d).1 = some err) :
      Leaves A ((n.afterSave d).failed (saveError err))
  /-- The state machine has refused a snapshot that is saved already. -/
  | unrestored {n : Node σ} {d : PersistentState} {m : σ} {err : Error} (hd : A.Offers n d)
      (hsave : (n.store.save d).1 = none) (herr : err.ofSave = false) :
      Leaves A (Node.failed { n.afterSave d with stateMachine := m } err)

variable {A : Attempt σ} {s : Stage} {n n' : Node σ}

/-! ### Programs -/

/-- The program goes on within a stage. -/
def Stays (A : Attempt σ) (s : Stage) (x : NodeM σ α) : Prop :=
  ∀ n, A.Reaches s n → x.wp (fun _ => A.Reaches s) (fun _ => A.Leaves) n

/-- From this node on, the program finishes the call. -/
def Ends (A : Attempt σ) (x : NodeM σ α) (n : Node σ) : Prop :=
  x.wp (fun _ => A.Reaches .late) (fun _ => A.Leaves) n

variable {x : NodeM σ α}

theorem stays_pure (a : α) : A.Stays s (pure a : NodeM σ α) := fun _ h => h

theorem stays_ite {c : Prop} [Decidable c] {y : NodeM σ α} (hx : A.Stays s x) (hy : A.Stays s y) :
    A.Stays s (if c then x else y) := by
  split
  · exact hx
  · exact hy

open Node

theorem stays_fail {err : Error} (hnot : err.ofSave = false) :
    A.Stays s (Node.fail err : NodeM σ α) :=
  fun _ h => .failed h hnot

theorem stays_assert (condition : Bool) (name : String) :
    A.Stays s (Node.assert condition name : NodeM σ Unit) :=
  stays_ite (stays_pure _) (stays_fail rfl)

/-- A change of the memory that leaves alone all that is kept. -/
theorem Reaches.frame (h : A.Reaches s n) (hstanding : n'.standing = n.standing)
    (hpersistent : n'.persistent = n.persistent) (hrole : n'.role = n.role) : A.Reaches s n' :=
  .same h (same_of_eq hstanding hpersistent hrole)

theorem Reaches.reset (h : A.Reaches s n) : A.Reaches s n.resetElectionTimer :=
  .same h (same_resetElectionTimer n)

theorem Reaches.follow (h : A.Reaches s n) (leader : NodeID) :
    A.Reaches s (n.becomeFollower leader) :=
  .same h (same_becomeFollower leader rfl rfl)

theorem wp_save {d : PersistentState} {Q : Unit → Node σ → Prop} (hd : A.Offers n d)
    (hok : (n.store.save d).1 = none → Q () (n.afterSave d)) :
    (Node.save d).wp Q (fun _ => A.Leaves) n := by
  simp only [Node.save, wp_bind, wp_get, wp_set]
  rcases hsave : (n.store.save d).1 with - | err
  · exact hok hsave
  · rw [Node.wp_fail]
    exact .refused hd hsave

/-- A save of the node's own state changes nothing but the store. -/
theorem wp_persist (h : A.Reaches s n) :
    (persist : NodeM σ Unit).wp (fun _ n' => A.Reaches s n' ∧ n' = n.afterSave n.persistent)
      (fun _ => A.Leaves) n := by
  rw [persist, wp_bind, wp_get]
  exact wp_save (.own h) fun hsave => ⟨.save h hsave, rfl⟩

theorem stays_persist : A.Stays s (persist : NodeM σ Unit) :=
  fun _ h => wp_imp (wp_persist h) fun _ _ h' => h'.1

/-! ### Commitment and application -/

variable {M : StateMachine σ}

theorem wp_applyEntry {index : ℕ} {entry : Entry} (h : A.Reaches .late n)
    (hentry : entry ∈ n.persistent.entries) :
    (applyEntry M index entry).wp (fun _ => A.Reaches .late) (fun _ => A.Leaves) n := by
  simp only [applyEntry, wp_bind, wp_get]
  split
  · rw [wp_bind, wp_modify]
    have hmachine : ∀ machine, A.Reaches .late { n with stateMachine := machine } :=
      fun machine => h.frame rfl rfl rfl
    split
    · exact stays_fail rfl _ (hmachine _)
    · exact hmachine _
  · rename_i hkind
    split
    · exact stays_fail rfl n h
    · rename_i next hdecode
      simp only [wp_ite, wp_bind, wp_modify, wp_pure]
      refine ⟨fun _ => ⟨fun _ => .failed h rfl, fun hvalid => ?_⟩, fun _ => h⟩
      have hok : (n.configuration.validateTransition next).isOk = true := by simpa using hvalid
      obtain ⟨_, hok⟩ := Fallible.isOk_iff.mp hok
      have hinstall := same_installConfiguration n next
      refine stays_persist _ ((Reaches.configure h hentry hkind hdecode hok).same ⟨?_, ?_, ?_⟩)
      · exact hinstall.standing
      · exact congrArg (fun d : PersistentState => { d with config := next }) hinstall.persistent
      · exact hinstall.role
  · exact h

theorem stays_applyLoop (fuel : ℕ) : A.Stays .late (applyLoop M fuel) := by
  induction fuel with
  | zero => exact stays_pure _
  | succ fuel ih =>
    intro n h
    simp only [applyLoop, wp_bind, wp_get, wp_ite, wp_pure]
    refine ⟨fun _ => ?_, fun _ => h⟩
    split
    · exact stays_fail rfl n h
    · rename_i entry hentry
      simp only [wp_bind, wp_modify]
      refine wp_imp (wp_applyEntry h (entryAt_ok hentry).1) fun _ n' h' => ih _ ?_
      exact h'.frame rfl rfl rfl

theorem stays_applyCommitted : A.Stays .late (applyCommitted M) := by
  intro n h
  simp only [applyCommitted, wp_bind, wp_get]
  exact wp_imp (stays_applyLoop _ n h) fun _ n' h' => stays_assert _ _ n' h'

theorem stays_advanceLoop (index : ℕ) : A.Stays .late (advanceLoop M index) := by
  induction index with
  | zero => exact stays_pure _
  | succ index ih =>
    intro n h
    simp only [advanceLoop, wp_bind, wp_get, wp_ite, wp_modify, wp_lift, wp_pure]
    refine ⟨fun _ => ⟨fun term _ => ⟨fun _ => ih n h, fun _ => ⟨fun _ => ?_, fun _ => ih n h⟩⟩,
      fun _ _ => .returned h⟩, fun _ => h⟩
    exact stays_applyCommitted _ (h.frame rfl rfl rfl)

theorem stays_advanceCommit : A.Stays .late (advanceCommit M) := by
  intro n h
  simp only [advanceCommit, wp_bind, wp_get, wp_ite, wp_pure]
  exact ⟨fun _ => stays_advanceLoop _ n h, fun _ => h⟩

/-! ### Messages to the peers -/

theorem stays_replicationMessage (peer : NodeID) :
    A.Stays s (replicationMessage peer : NodeM σ Message) := by
  intro n h
  simp only [replicationMessage, wp_bind, wp_get, wp_ite, wp_pure]
  refine ⟨fun _ => h, fun _ => ?_⟩
  split
  · exact h
  · exact .failed h rfl

theorem stays_replicateTo (peers : List NodeID) :
    A.Stays s (replicateTo peers : NodeM σ (List Message)) := by
  induction peers with
  | nil => exact stays_pure _
  | cons peer peers ih =>
    intro n h
    simp only [replicateTo, wp_bind, wp_get, wp_ite, wp_pure]
    exact ⟨fun _ => wp_imp (stays_replicationMessage peer n h) fun _ n' h' => ih n' h',
      fun _ => ih n h⟩

theorem stays_replicationMessages :
    A.Stays s (replicationMessages : NodeM σ (List Message)) :=
  fun n h => stays_replicateTo n.peers n h

theorem ends_appendEntry {entry : Entry} (h : A.Reaches .early n) (hrole : n.role = .leader)
    (hentry : A.call.Adds n entry) : A.Ends (appendEntry M entry) n := by
  simp only [Ends, appendEntry, wp_bind, wp_modify, wp_pure]
  refine wp_imp (stays_persist _ (.append h hrole hentry)) fun _ n₁ h₁ => ?_
  exact wp_imp (stays_advanceCommit _ (h₁.frame rfl rfl rfl))
    fun _ n₂ h₂ => stays_replicationMessages n₂ h₂

/-! ### Elections -/

theorem ends_becomeLeader (h : A.Reaches .early n) (hrole : n.role = .candidate) :
    A.Ends (becomeLeader M) n := by
  simp only [Ends, becomeLeader, wp_bind, wp_get, wp_ite, wp_modify]
  refine ⟨fun _ => .failed h rfl, fun hroom => ?_⟩
  refine ends_appendEntry (.same h ⟨rfl, rfl, fun _ => .inl ?_⟩) rfl (.noOp hroom)
  simp [hrole]

theorem ends_startElection (helects : A.call.Elects) (h : A.Reaches .early n) :
    A.Ends (startElection M) n := by
  simp only [Ends, startElection, wp_bind, wp_get, wp_ite, wp_modify, wp_pure]
  refine ⟨fun _ => .late h, fun hvoter => ⟨fun hmax => ?_, fun _ => ?_⟩⟩
  · refine .failed (h.same ⟨rfl, rfl, fun _ => .inr ?_⟩) rfl
    rw [hmax]
    decide
  have hcampaign := Reaches.campaign h helects (by simpa using hvoter)
  refine wp_imp (wp_persist (s := .early) (Reaches.reset ?_)) ?_
  · exact hcampaign.frame rfl rfl rfl
  rintro _ _ ⟨h₁, rfl⟩
  exact ⟨fun _ => ends_becomeLeader h₁ (role_resetElectionTimer _), fun _ => .late h₁⟩

/-- A node that enters the term of a message is in no older term afterwards. -/
theorem wp_advanceTerm {message : Message} (hcall : A.call = .step message)
    (h : A.Reaches .early n) :
    (advanceTerm message.term : NodeM σ Unit).wp
      (fun _ n' => A.Reaches .early n' ∧ message.term ≤ n'.term) (fun _ => A.Leaves) n := by
  simp only [advanceTerm, wp_bind, wp_get, wp_modify, wp_assert]
  refine ⟨fun hterm => ?_, fun _ => .failed h rfl⟩
  have hentered := Reaches.term h hcall (of_decide_eq_true hterm)
  have hfollow : Same { n.entering message.term with role := .follower }
      ((n.entering message.term).becomeFollower 0) := same_becomeFollower 0 rfl rfl
  refine wp_imp (wp_persist (hentered.same hfollow)) ?_
  rintro _ _ ⟨h₁, rfl⟩
  exact ⟨h₁, (congrArg (·.hardState.term) hfollow.persistent).ge⟩

variable {message : Message}

theorem ends_handleRequestVote (hcall : A.call = .step message)
    (hkind : message.kind = .requestVote) (h : A.Reaches .early n) :
    A.Ends (handleRequestVote message) n := by
  simp only [Ends, handleRequestVote, wp_bind, wp_get, wp_ite, wp_throw, wp_modify, wp_pure]
  refine ⟨fun _ => .returned h, fun _ => ⟨fun hgranted => ⟨fun _ => ?_, fun _ => .late h.reset⟩,
    fun _ => .late h⟩⟩
  simp only [Bool.and_eq_true, decide_eq_true_eq] at hgranted
  exact wp_imp (wp_persist (.vote h hcall hkind hgranted.1.1.2 hgranted.1.1.1.2))
    fun _ _ h₁ => .late h₁.1.reset

theorem ends_handleVoteResponse (message : Message) (h : A.Reaches .early n) :
    A.Ends (handleVoteResponse M message) n := by
  simp only [Ends, handleVoteResponse, wp_bind, wp_get, wp_ite, wp_modify, wp_pure]
  refine ⟨fun _ => .late h, fun hcurrent => ?_⟩
  have hrole : n.role = .candidate := by
    by_contra hrole
    exact hcurrent (.inr (.inl hrole))
  have hvote : A.Reaches .early
      { n with votes := Function.update n.votes message.fromID true } := h.frame rfl rfl rfl
  exact ⟨fun _ => ⟨fun _ => ends_becomeLeader hvote hrole, fun _ => .late hvote⟩,
    fun _ => ⟨fun _ => ends_becomeLeader h hrole, fun _ => .late h⟩⟩

theorem ends_handleTimeoutNow (hcall : A.call = .step message)
    (hkind : message.kind = .timeoutNow) (h : A.Reaches .early n) :
    A.Ends (handleTimeoutNow M message) n := by
  simp only [Ends, handleTimeoutNow, wp_bind, wp_get, wp_ite, wp_pure]
  exact ⟨fun _ => .late h, fun _ => ends_startElection (by rw [hcall]; exact hkind) h⟩

/-! ### Log replication -/

/-- The loop either finds all entries of the message in the log, or it replaces what is behind the
first one that it does not find. -/
theorem wp_appendLoop {entries : List Entry} {index previous : ℕ} (h : A.Reaches .early n)
    (hterm : n.termAt index = .ok previous)
    (hvalid : validateAppendLoop message.term (index + 1) previous entries = .ok ())
    (hsuffix : entries <:+ message.entries)
    (hroom : entries ≠ [] → index + entries.length ≤ maxUint64) :
    (appendLoop entries).wp (fun changed n' =>
        if changed then ∃ log, n.Merges message log ∧ n' = n.withLog log else n' = n)
      (fun _ => A.Leaves) n := by
  induction entries generalizing index previous with
  | nil => exact rfl
  | cons incoming rest ih =>
    have hloop := hvalid
    rw [validateAppendLoop, Fallible.ite_error_eq_ok] at hloop
    obtain ⟨hincoming, hrest⟩ := hloop
    have hindex : incoming.index = index + 1 := by
      by_contra hne
      exact hincoming (.inl hne)
    simp only [appendLoop, wp_bind, wp_get]
    split
    · rename_i held hheld
      simp only [wp_ite, wp_bind, wp_assert, wp_fail]
      refine ⟨fun hsame => ⟨fun _ => ?_, fun _ => .failed h rfl⟩,
        fun _ => ⟨fun _ => .failed h rfl, fun _ => ?_⟩⟩
      · refine @ih (index + 1) incoming.term ?_ ?_ ?_ ?_
        · rw [← hindex, ← hsame]
          exact (entryAt_ok hheld).2
        · exact hrest
        · exact (suffix_cons incoming rest).trans hsuffix
        · have hcons := hroom (cons_ne_nil _ _)
          rw [length_cons] at hcons
          exact fun _ => by omega
      · simp only [truncateSuffix, extendLog, wp_bind, wp_get, wp_assert, wp_modify, wp_pure]
        refine ⟨fun _ => ⟨_, ⟨index, previous, _, incoming :: rest, rfl, hsuffix, hterm, hvalid,
          hroom (cons_ne_nil _ _), .inl ?_⟩, rfl⟩, fun _ => .failed h rfl⟩
        rw [hindex]
        congr 1
        omega
    · rename_i err herr
      simp only [wp_ite, wp_bind, wp_throw, extendLog, wp_modify, wp_pure]
      refine ⟨fun _ => .returned h, fun hunavailable => ⟨_, ⟨index, previous, _, incoming :: rest,
        rfl, hsuffix, hterm, hvalid, hroom (cons_ne_nil _ _), .inr ⟨rfl, ?_⟩⟩, rfl⟩⟩
      have hlast := lastIndex_lt_of_unavailable herr (by simpa using hunavailable)
      omega

theorem stays_followCommit (message : Message) (lastCovered : ℕ) :
    A.Stays .late (followCommit M message lastCovered) := by
  intro n h
  simp only [followCommit, wp_bind, wp_get, wp_ite, wp_modify, wp_pure, wp_adapt]
  exact ⟨fun _ => stays_applyCommitted _ (h.frame rfl rfl rfl), fun _ => h⟩

theorem ends_followLeader (hcall : A.call = .step message)
    (hkind : message.kind = .appendEntries) (h : A.Reaches .early n)
    (hterm : message.term ≤ n.term) : A.Ends (followLeader M message) n := by
  simp only [Ends, followLeader, wp_bind, wp_lift, wp_get, wp_ite, wp_pure]
  refine ⟨fun _ hvalid => ⟨fun _ => .late h, fun _ => ?_⟩, fun _ _ => .returned h⟩
  split
  · simp only [wp_ite, wp_pure, wp_throw]
    exact ⟨fun _ => .late h, fun _ => .returned h⟩
  · rename_i previous hprevious
    simp only [wp_ite, wp_bind, wp_pure]
    refine ⟨fun _ => .late h, fun hmatch => ?_⟩
    obtain ⟨hlength, hentries⟩ := Fallible.ite_error_eq_ok.mp hvalid
    refine wp_imp (wp_appendLoop h hprevious (not_not.mp hmatch ▸ hentries) suffix_rfl ?_) ?_
    · intro hne
      have hpos := length_pos_of_ne_nil hne
      omega
    · intro changed n₁ hn₁
      cases changed with
      | false =>
        obtain rfl : n₁ = n := hn₁
        exact ⟨by simp, fun _ => stays_followCommit message _ _ (.late h)⟩
      | true =>
        obtain ⟨log, hlog, rfl⟩ := hn₁
        refine ⟨fun _ => ?_, by simp⟩
        exact wp_imp (stays_persist _ (.merge h hcall hkind hterm hlog)) fun _ n₂ h₂ =>
          stays_followCommit message _ n₂ h₂

theorem ends_handleAppendEntries (hcall : A.call = .step message)
    (hkind : message.kind = .appendEntries) (h : A.Reaches .early n)
    (hterm : message.term ≤ n.term) : A.Ends (handleAppendEntries M message) n := by
  simp only [Ends, handleAppendEntries, wp_bind, wp_get, wp_ite, wp_modify, wp_pure]
  refine ⟨fun _ => .late h, fun _ => ⟨fun _ => .failed h rfl, fun _ =>
    ⟨fun _ => ends_followLeader hcall hkind (h.follow _) ?_,
      fun _ => ends_followLeader hcall hkind h.reset ?_⟩⟩⟩
  · exact hterm.trans (same_becomeFollower _ rfl rfl).term.ge
  · exact hterm.trans (same_resetElectionTimer n).term.ge

theorem stays_handleAppendResponse (message : Message) :
    A.Stays .late (handleAppendResponse M message) := by
  intro n h
  simp only [handleAppendResponse, wp_bind, wp_get, wp_ite, wp_modify, wp_pure, wp_throw]
  have hadvance : ∀ n₁ : Node σ, A.Reaches .late n₁ → (advanceCommit M).wp (fun _ n₂ =>
      (n₂.commitIndex ≠ n.commitIndex →
        replicationMessages.wp (fun _ => A.Reaches .late) (fun _ => A.Leaves) n₂) ∧
      (¬ n₂.commitIndex ≠ n.commitIndex → A.Reaches .late n₂)) (fun _ => A.Leaves) n₁ :=
    fun n₁ h₁ => wp_imp (stays_advanceCommit n₁ h₁) fun _ n₂ h₂ =>
      ⟨fun _ => stays_replicationMessages n₂ h₂, fun _ => h₂⟩
  exact ⟨fun _ => h, fun _ => ⟨fun _ => ⟨fun _ => .returned h, fun _ =>
    ⟨fun _ => hadvance _ (h.frame rfl rfl rfl), fun _ => hadvance n h⟩⟩,
    fun _ => stays_replicationMessage _ _ (h.frame rfl rfl rfl)⟩⟩

/-! ### Snapshots -/

theorem wp_retainedSuffix (snapshot : Snapshot) (h : A.Reaches s n) :
    (retainedSuffix snapshot).wp (fun suffix n' => n' = n ∧ (suffix = [] ∨
        n.termAt snapshot.index = .ok snapshot.term ∧
        n.entriesFrom (snapshot.index + 1) = .ok suffix)) (fun _ => A.Leaves) n := by
  simp only [retainedSuffix, wp_bind, wp_get]
  split
  · rename_i term hterm
    simp only [wp_ite, wp_lift, wp_pure]
    refine ⟨fun heq => ⟨fun suffix hsuffix => ⟨trivial, .inr ⟨heq ▸ hterm, hsuffix⟩⟩,
      fun _ _ => .returned h⟩, fun _ => ⟨trivial, .inl trivial⟩⟩
  · exact ⟨rfl, .inl rfl⟩

theorem ends_installSnapshot {d : PersistentState} (h : A.Reaches .early n)
    (hd : A.Installs n d) : A.Ends (installSnapshot M message d) n := by
  simp only [Ends, installSnapshot, wp_bind, wp_get]
  refine wp_save (.install h hd) fun hsave => ?_
  split
  · exact .unrestored (.install h hd) hsave rfl
  · simp only [wp_bind, wp_modify, wp_get, wp_pure]
    have hinstalled := Reaches.install h hd hsave
    unfold taking at hinstalled
    split
    · rename_i hversion
      rw [if_pos hversion] at hinstalled
      have hsame := same_installConfiguration { n.afterSave d with
        stateMachine := (M.restore n.stateMachine message.snapshot.data).2
        persistent := d } d.config
      exact hinstalled.same { hsame with }
    · rename_i hversion
      rw [if_neg hversion] at hinstalled
      exact hinstalled.frame rfl rfl rfl

theorem ends_handleInstallSnapshot (hcall : A.call = .step message)
    (hkind : message.kind = .installSnapshot) (h : A.Reaches .early n)
    (hterm : message.term ≤ n.term) : A.Ends (handleInstallSnapshot M message) n := by
  simp only [Ends, handleInstallSnapshot, wp_bind, wp_get, wp_ite, wp_modify, wp_pure, wp_throw]
  have hfollow := h.follow message.fromID
  refine ⟨fun _ => .late h, fun _ => ⟨fun _ => .returned h, fun hvalid =>
    ⟨fun _ => .failed h rfl, fun _ => ⟨fun _ => .late hfollow, fun hnewer => ?_⟩⟩⟩⟩
  refine wp_imp (wp_retainedSuffix _ hfollow) ?_
  rintro suffix _ ⟨rfl, hsuffix⟩
  refine ends_installSnapshot hfollow (.mk hcall hkind hvalid ?_ ?_ hsuffix)
  · exact hterm.trans (same_becomeFollower _ rfl rfl).term.ge
  · exact Nat.lt_of_not_le fun hle => hnewer (.inl hle)

theorem stays_handleSnapshotResponse (message : Message) :
    A.Stays .late (handleSnapshotResponse message : NodeM σ (List Message)) := by
  intro n h
  simp only [handleSnapshotResponse, wp_bind, wp_get, wp_ite, wp_modify, wp_pure, wp_throw]
  exact ⟨fun _ => h, fun _ => ⟨fun _ => h, fun _ => ⟨fun _ => .returned h,
    fun _ => stays_replicationMessage _ _ (h.frame rfl rfl rfl)⟩⟩⟩

theorem ends_dispatch (hcall : A.call = .step message) (h : A.Reaches .early n)
    (hterm : message.term ≤ n.term) : A.Ends (dispatch M message) n := by
  unfold dispatch
  split
  case h_1 hkind => exact ends_handleRequestVote hcall hkind h
  case h_2 => exact ends_handleVoteResponse message h
  case h_3 hkind => exact ends_handleAppendEntries hcall hkind h hterm
  case h_4 => exact stays_handleAppendResponse message n (.late h)
  case h_5 hkind => exact ends_handleInstallSnapshot hcall hkind h hterm
  case h_6 => exact stays_handleSnapshotResponse message n (.late h)
  case h_7 hkind => exact ends_handleTimeoutNow hcall hkind h

theorem ends_createSnapshot (hcall : A.call = .createSnapshot) (h : A.Reaches .early n) :
    A.Ends (createSnapshot A.machine) n := by
  simp only [Ends, createSnapshot, wp_bind, wp_get, wp_ite, wp_throw, wp_modify, wp_lift]
  have hmachine : ∀ machine, A.Reaches .early { n with stateMachine := machine } :=
    fun _ => h.frame rfl rfl rfl
  refine ⟨fun _ _ => ⟨fun _ => .returned h, fun hnewer => ⟨fun term hterm => ?_,
    fun _ _ => .returned h⟩⟩, fun _ _ => .returned h⟩
  split
  · exact .returned (hmachine _)
  · rename_i data hdata
    simp only [wp_bind, wp_lift, wp_modify, wp_pure]
    refine ⟨fun remaining hremaining => ?_, fun _ _ => .returned (hmachine _)⟩
    have hcompacts := Compacts.mk (n := { n with
        stateMachine := (A.machine.snapshot n.stateMachine).2 }) hcall
      (Nat.lt_of_not_le fun hle => hnewer (.inr hle)) hterm hdata hremaining
    exact wp_save (.compact (hmachine _) hcompacts) fun hsave =>
      .compact (hmachine _) hcompacts hsave

/-! ### The exported methods -/

theorem ends_tick (hcall : A.call = .tick) (h : A.Reaches .early n) : A.Ends (tick M) n := by
  simp only [Ends, tick, wp_bind, wp_get, wp_lift, wp_ite, wp_modify, wp_pure]
  have hheartbeat : ∀ n' : Node σ, A.Reaches .early n' →
      (n'.heartbeatElapsed + 1 < n'.heartbeatInterval →
        A.Reaches .late { n' with heartbeatElapsed := n'.heartbeatElapsed + 1 }) ∧
      (¬ n'.heartbeatElapsed + 1 < n'.heartbeatInterval →
        A.Ends replicationMessages { n' with heartbeatElapsed := 0 }) := fun n' h' =>
    ⟨fun _ => .late (h'.frame rfl rfl rfl),
      fun _ => stays_replicationMessages _ (.late (h'.frame rfl rfl rfl))⟩
  refine ⟨fun _ _ => ⟨fun _ => ⟨fun _ => ⟨fun _ => ?_, fun _ => ?_⟩, fun _ => hheartbeat n h⟩,
    fun _ => ⟨fun _ => .late (h.frame rfl rfl rfl),
      fun _ => ⟨fun _ => .late (h.frame rfl rfl rfl), fun _ => ?_⟩⟩⟩,
    fun _ _ => .returned h⟩
  · exact hheartbeat { n with transferring := false, transferElapsed := 0 } (h.frame rfl rfl rfl)
  · exact hheartbeat { n with transferElapsed := n.transferElapsed + 1 } (h.frame rfl rfl rfl)
  · exact ends_startElection (by rw [hcall]; trivial) (h.frame rfl rfl rfl)

theorem ends_step (hcall : A.call = .step message) (h : A.Reaches .early n) :
    A.Ends (step M message) n := by
  simp only [Ends, step, wp_bind, wp_get, wp_lift, wp_ite, wp_throw]
  refine ⟨fun _ _ => ⟨fun _ => .returned h, fun _ => ⟨fun _ => ?_, fun hterm => ?_⟩⟩,
    fun _ _ => .returned h⟩
  · exact wp_imp (wp_advanceTerm hcall h) fun _ n₁ h₁ => ends_dispatch hcall h₁.1 h₁.2
  · exact ends_dispatch hcall h (Nat.le_of_not_lt hterm)

/-- A proposal is the common guard, and then whatever leads to an appended entry. -/
theorem ends_mayPropose (h : A.Reaches .early n) (hx : n.role = .leader → A.Ends x n) :
    A.Ends (do mayPropose; x) n := by
  simp only [Ends, mayPropose, wp_bind, wp_get, wp_lift, wp_ite, wp_throw, wp_pure]
  exact ⟨fun _ _ => ⟨fun _ => .returned h, fun hrole => ⟨fun _ => .returned h,
    fun _ => hx (not_not.mp hrole)⟩⟩, fun _ _ => .returned h⟩

theorem ends_propose {command : Bytes} (hcall : A.call = .propose command)
    (h : A.Reaches .early n) : A.Ends (propose M command) n := by
  refine ends_mayPropose h fun hrole => ?_
  simp only [Ends, wp_bind, wp_get, wp_ite, wp_throw]
  exact ⟨fun _ => .returned h, fun hsize => ⟨fun _ => .returned h, fun hroom =>
    ends_appendEntry h hrole (.command hcall (Nat.le_of_not_lt hsize) hroom)⟩⟩

theorem ends_proposeNoOp (h : A.Reaches .early n) : A.Ends (proposeNoOp M) n := by
  refine ends_mayPropose h fun hrole => ?_
  simp only [Ends, wp_bind, wp_get, wp_ite, wp_throw]
  exact ⟨fun _ => .returned h, fun hroom => ends_appendEntry h hrole (.noOp hroom)⟩

theorem ends_proposeConfiguration {next : Configuration}
    (hcall : A.call = .proposeConfiguration next) (h : A.Reaches .early n) :
    A.Ends (proposeConfiguration M next) n := by
  refine ends_mayPropose h fun hrole => ?_
  simp only [Ends, wp_bind, wp_get, wp_ite, wp_throw, wp_lift]
  exact ⟨fun _ hvalid => ⟨fun _ => .returned h, fun _ => ⟨fun _ hencode =>
    ends_appendEntry h hrole (.config hcall hvalid hencode), fun _ _ => .returned h⟩⟩,
    fun _ _ => .returned h⟩

theorem ends_transferLeadership (target : NodeID) (h : A.Reaches .early n) :
    A.Ends (transferLeadership target) n := by
  simp only [Ends, transferLeadership, wp_bind, wp_get, wp_lift, wp_ite, wp_throw, wp_modify,
    wp_pure]
  exact ⟨fun _ _ => ⟨fun _ => .returned h, fun _ => .late (h.frame rfl rfl rfl)⟩,
    fun _ _ => .returned h⟩

theorem ends_map {β : Type} (f : α → β) (h : A.Ends x n) : A.Ends (f <$> x) n := by
  rw [Ends, wp_map]
  exact h

theorem ends_run (A : Attempt σ) : A.Ends (A.call.run A.machine) A.before := by
  have h := Reaches.start (A := A)
  cases hcall : A.call with
  | tick => exact ends_tick hcall h
  | step message => exact ends_step hcall h
  | propose command => exact ends_map _ (ends_propose hcall h)
  | proposeNoOp => exact ends_map _ (ends_proposeNoOp h)
  | proposeConfiguration next => exact ends_map _ (ends_proposeConfiguration hcall h)
  | transferLeadership target => exact ends_transferLeadership target h
  | createSnapshot => exact ends_map _ (ends_createSnapshot hcall h)
  | stop => exact .late (h.frame rfl rfl rfl)

/-- **The relation covers the code**: all that a call does to its node. -/
theorem leaves_run (A : Attempt σ) : A.Leaves ((A.call.run A.machine).state A.before) :=
  state_of_wp (wp_imp A.ends_run fun _ _ h => .returned h)

end Attempt

end RivetDB.Raft
