import RivetDB.Raft.Cluster
import RivetDB.Raft.Regime

/-!
# The invariant of a Raft group

A group of nodes is explained by a record of the consensus library: the ghost
`g` says who won which term with which log, who voted and acknowledged what, and
which prefixes were committed.  Nothing in the code keeps it; it exists for
every reachable state (`Invariant`) and only ever grows.

* `Holds` relates the durable state of a node to the full log `F` behind it.
  The node itself has only the entries after its snapshot.
* `Running` adds what a live node knows in memory, `Dead` is what remains of a
  stopped one, and `NodeOK` is the state of a node between two calls.
* `MsgOK` is what a message in flight promises.

All of them survive the moves of other nodes (`NodeOK.grow`, `MsgOK.grow`).
-/

namespace RivetDB.Raft

open List Consensus

variable {σ : Type}

/-- The fixed parameters of a run: the state machine, the machines nodes are
built with, and the membership regime. -/
structure Setting (σ : Type) where
  machine : StateMachine σ
  fresh : σ → Prop
  regime : Regime

abbrev Ghost := Record NodeID Entry Ballot

/-- The term of the entry at a one-based index; zero before the first one. -/
def termOf (F : List Entry) (index : ℕ) : ℕ :=
  if index = 0 then 0 else ((F[index - 1]?).map Entry.term).getD 0

/-- Entries are numbered from one. -/
def Indexed (F : List Entry) : Prop := ∀ j e, F[j]? = some e → e.index = j + 1

/-! ### What a state machine has seen -/

/-- The state machine value `m` came about by running the entries `G` in order,
some of them possibly inside a snapshot that was restored. -/
inductive Reflects (Γ : Setting σ) : List Entry → σ → Prop
  | fresh {m : σ} : Γ.fresh m → Reflects Γ [] m
  | apply {G : List Entry} {m : σ} {e : Entry} : Reflects Γ G m → e.kind = .command →
      (Γ.machine.apply m e).1 = none → Reflects Γ (G ++ [e]) (Γ.machine.apply m e).2
  | skip {G : List Entry} {m : σ} {e : Entry} : Reflects Γ G m → e.kind ≠ .command →
      Reflects Γ (G ++ [e]) m
  | snapshot {G : List Entry} {m : σ} : Reflects Γ G m →
      Reflects Γ G (Γ.machine.snapshot m).2
  | restore {G : List Entry} {m : σ} {data : Bytes} (m' : σ) : Reflects Γ G m →
      (Γ.machine.snapshot m).1 = .ok data → (Γ.machine.restore m' data).1 = none →
      Reflects Γ G (Γ.machine.restore m' data).2

/-- The bytes are a snapshot taken after the entries `G`. -/
def Summarises (Γ : Setting σ) (G : List Entry) (data : Bytes) : Prop :=
  ∃ m, Reflects Γ G m ∧ (Γ.machine.snapshot m).1 = .ok data

/-! ### Durable state -/

/-- The prefix `P` was committed in a term up to `t`. -/
def Committed (g : Ghost) (t : ℕ) (P : List Entry) : Prop :=
  P = [] ∨ ∃ k ∈ g.commits, k.term ≤ t ∧ P <+: g.covered k

/-- A configuration a node may act under: it was decided before. -/
structure ConfigOK (ρ : Regime) (g : Ghost) (t : ℕ) (c : Configuration) : Prop where
  valid : c.oldVoters ≠ []
  origin : g.Origin ρ.rules (· ≤ t) (ρ.view c)

/-- A snapshot of the log `F`. -/
structure SnapshotOK (Γ : Setting σ) (g : Ghost) (t : ℕ) (F : List Entry)
    (snapshot : Snapshot) : Prop where
  le : snapshot.index ≤ F.length
  term : snapshot.term = termOf F snapshot.index
  indexed : Indexed (F.take snapshot.index)
  committed : Committed g t (F.take snapshot.index)
  data : snapshot.index ≠ 0 → Summarises Γ (F.take snapshot.index) snapshot.data
  config : snapshot.index ≠ 0 → ConfigOK Γ.regime g t snapshot.config
  config_current : snapshot.index ≠ 0 →
    (Γ.regime.conf (F.take snapshot.index)).version ≤ (Γ.regime.view snapshot.config).version

/-- The durable state `d` of node `i` stands for the full log `F`. -/
structure Holds (Γ : Setting σ) (g : Ghost) (i : NodeID) (d : PersistentState)
    (F : List Entry) : Prop where
  snapshot : SnapshotOK Γ g d.hardState.term F d.snapshot
  entries : d.entries = F.drop d.snapshot.index
  indexed : Indexed F
  rooted : g.Rooted Entry.term F
  terms : ∀ e ∈ F, e.term ≤ d.hardState.term
  retain : g.Retain i d.hardState.term F
  vote : g.vote i d.hardState.term =
    if d.hardState.votedFor = 0 then none else some d.hardState.votedFor
  later : ∀ T, d.hardState.term < T →
    g.vote i T = none ∧ g.cand i T = none ∧ g.ack i T = 0
  config : d.config.version ≠ 0 → ConfigOK Γ.regime g d.hardState.term d.config
  config_behind : d.snapshot.index ≠ 0 → d.config.version ≠ 0 ∧
    (Γ.regime.view d.snapshot.config).version ≤ (Γ.regime.view d.config).version

/-! ### Live nodes -/

/-- What is stored is what is in memory, except that a new node has not stored
the configuration it was built with, or not in its normal form. -/
def Synced (stored persistent : PersistentState) : Prop :=
  ∃ c, stored = { persistent with config := c } ∧
    (c.normalize = persistent.config.normalize ∨
      c.version = 0 ∧ persistent.snapshot.index = 0)

/-- How far a node has come in its log. -/
structure Progress (Γ : Setting σ) (g : Ghost) (t : ℕ) (F : List Entry)
    (snapIndex commitIndex lastApplied : ℕ) (c : Configuration) (m : σ)
    (applied : List Entry) : Prop where
  snap_le : snapIndex ≤ lastApplied
  applied_le : lastApplied ≤ commitIndex
  commit_le : commitIndex ≤ F.length
  committed : Committed g t (F.take commitIndex)
  config : ConfigOK Γ.regime g t c
  config_current : (Γ.regime.conf (F.take lastApplied)).version ≤ (Γ.regime.view c).version
  machine : Reflects Γ (F.take lastApplied) m
  applied : ∀ e ∈ applied, 0 < e.index ∧ e.index ≤ lastApplied ∧ F[e.index - 1]? = some e

/-- Node `i` won term `t`, and its log is the term's log. -/
def Leads (g : Ghost) (i : NodeID) (t : ℕ) (F : List Entry) : Prop :=
  (∃ r, g.elect t = some r ∧ r.leader = i) ∧ g.log t = F

/-- What the role of a node says about the record. -/
def RoleOK (ρ : Regime) (g : Ghost) (i : NodeID) (t : ℕ) (F : List Entry)
    (c : Configuration) (votes : NodeID → Bool) (matchIndex : NodeID → Option ℕ)
    (commitIndex : ℕ) : Role → Prop
  | .follower => True
  | .candidate =>
    g.cand i t = some (F, ρ.view c) ∧ (∀ x, votes x = true → g.vote x t = some i) ∧
      ∀ r, g.elect t = some r → r.leader ≠ i
  | .leader =>
    Leads g i t F ∧ (ρ.conf F).version ≤ (ρ.view c).version + 1 ∧
      ∀ x, (matchIndex x).getD 0 ≤ commitIndex ∨ (matchIndex x).getD 0 ≤ g.ack x t

/-- A live node `i` whose full log is `F`. -/
structure Running (Γ : Setting σ) (g : Ghost) (i : NodeID) (F : List Entry)
    (n : Node σ) : Prop where
  id : n.id = i
  id_ne : i ≠ 0
  alive : n.stopped = false
  holds : Holds Γ g i n.persistent F
  synced : Synced n.store.state n.persistent
  progress : Progress Γ g n.persistent.hardState.term F n.persistent.snapshot.index
    n.commitIndex n.lastApplied n.configuration n.stateMachine n.applied
  config_same : n.persistent.config.version = n.configuration.version ∧
    Γ.regime.view n.persistent.config = Γ.regime.view n.configuration
  config_ne : n.configuration.version ≠ 0
  role : RoleOK Γ.regime g i n.persistent.hardState.term F n.configuration n.votes
    n.matchIndex n.commitIndex n.role

/-- What remains of a stopped node. -/
structure Dead (Γ : Setting σ) (g : Ghost) (i : NodeID) (n : Node σ) : Prop where
  stopped : n.stopped = true
  holds : ∃ F, Holds Γ g i n.store.state F
  led : n.role = .leader → ∃ r, g.elect n.term = some r ∧ r.leader = i
  applied : ∃ t P, Committed g t P ∧ ∀ e ∈ n.applied, 0 < e.index ∧ P[e.index - 1]? = some e

/-- A node between two calls. -/
def NodeOK (Γ : Setting σ) (g : Ghost) (i : NodeID) (n : Node σ) : Prop :=
  Dead Γ g i n ∨ ∃ F, Running Γ g i F n ∧ n.lastApplied = n.commitIndex

/-! ### Messages -/

/-- What a message promises to whoever receives it. -/
def MsgOK (Γ : Setting σ) (g : Ghost) (m : Message) : Prop :=
  match m.kind with
  | .requestVote => ∃ F b, g.cand m.fromID m.term = some (F, b) ∧
      m.candidateLastIndex = F.length ∧ m.candidateLastTerm = lastTerm Entry.term F
  | .requestVoteResponse => m.voteGranted = true → g.vote m.fromID m.term = some m.toID
  | .appendEntries => (∃ r, g.elect m.term = some r ∧ r.leader = m.fromID) ∧
      m.prevLogIndex + m.entries.length ≤ (g.log m.term).length ∧
      m.prevLogTerm = termOf (g.log m.term) m.prevLogIndex ∧
      m.entries = ((g.log m.term).drop m.prevLogIndex).take m.entries.length ∧
      m.leaderCommit ≤ m.prevLogIndex + m.entries.length ∧
      Committed g m.term ((g.log m.term).take m.leaderCommit)
  | .appendEntriesResponse | .installSnapshotResponse =>
    m.success = true → m.matchIndex ≤ g.ack m.fromID m.term
  | .installSnapshot => (∃ r, g.elect m.term = some r ∧ r.leader = m.fromID) ∧
      SnapshotOK Γ g m.term (g.log m.term) m.snapshot
  | .timeoutNow => True

/-- The invariant of a reachable group. -/
structure Invariant (Γ : Setting σ) (g : Ghost) (s : Cluster σ) : Prop where
  sane : Record.Sane Γ.regime.rules g
  nodes : ∀ i n, s.node i = some n → NodeOK Γ g i n
  absent : ∀ i, s.node i = none →
    ∀ T, g.vote i T = none ∧ g.cand i T = none ∧ g.ack i T = 0
  messages : ∀ m ∈ s.sent, MsgOK Γ g m

/-! ### What the moves of a node leave alone -/

section Grow

variable {Γ : Setting σ} {g g' : Ghost} {i j : NodeID} {t t' : ℕ} {F F' P : List Entry} {index : ℕ}

theorem getElem?_of_le (h : F <+: F') {e : Entry}
    (he : F[index]? = some e) : F'[index]? = some e := by
  obtain ⟨tail, rfl⟩ := h
  rw [List.getElem?_append_left (List.getElem?_eq_some_iff.mp he).1, he]

theorem termOf_of_le (h : F <+: F') (hle : index ≤ F.length) :
    termOf F' index = termOf F index := by
  obtain ⟨tail, rfl⟩ := h
  unfold termOf
  split
  · rfl
  · rw [getElem?_append_left (by omega)]

variable {Q : List Entry}

theorem Committed.of_le (h : Committed g t P) (le : Q <+: P) :
    Committed g t Q := by
  rcases h with rfl | ⟨k, mem, hk, hP⟩
  · exact .inl (prefix_nil.mp le)
  · exact .inr ⟨k, mem, hk, le.trans hP⟩

theorem Committed.mono_term (h : Committed g t P) (le : t ≤ t') : Committed g t' P := by
  rcases h with rfl | ⟨k, mem, hk, hP⟩
  · exact .inl rfl
  · exact .inr ⟨k, mem, hk.trans le, hP⟩

variable {R : Rules NodeID Entry Ballot}

theorem Committed.grow (S : Record.Sane R g)
    (G : Record.Grows j g g') (h : Committed g t P) : Committed g' t P := by
  rcases h with rfl | ⟨k, mem, hk, hP⟩
  · exact .inl rfl
  · exact .inr ⟨k, G.commits mem, hk, by rwa [S.covered_eq G mem]⟩

/-- **Agreement.**  Committed prefixes do not diverge. -/
theorem Committed.comparable (S : Record.Sane R g) (hP : Committed g t P) (hQ : Committed g t' Q) :
    P <+: Q ∨ Q <+: P := by
  rcases hP with rfl | ⟨k, mem, -, hP⟩
  · exact .inl nil_prefix
  rcases hQ with rfl | ⟨k', mem', -, hQ⟩
  · exact .inr nil_prefix
  rcases S.sound.committed_comparable mem mem' with h | h
  · exact prefix_or_prefix_of_prefix (hP.trans h) hQ
  · exact prefix_or_prefix_of_prefix hP (hQ.trans h)

variable {r : Election NodeID Entry Ballot}

/-- A committed prefix is in the log of every leader of its term or a later
one. -/
theorem Committed.prefix_log (S : Record.Sane R g) (h : Committed g t P) (hr : g.elect t = some r) :
    P <+: g.log t := by
  rcases h with rfl | ⟨k, mem, hk, hP⟩
  · exact nil_prefix
  · exact hP.trans (S.sound.covered_prefix_of_le hr mem hk)

/-- The configuration at the end of a committed prefix has a known origin. -/
theorem Committed.origin {ρ : Regime} (S : Record.Sane ρ.rules g)
    (h : Committed g t P) : g.Origin ρ.rules (· ≤ t) (ρ.conf P) := by
  rcases h with rfl | ⟨k, mem, hk, hP⟩
  · exact .inl rfl
  · exact (S.sound.origin_of_committed mem hP).mono fun T hT => hT.trans hk

theorem ConfigOK.grow {ρ : Regime} {c : Configuration} (S : Record.Sane ρ.rules g)
    (G : Record.Grows j g g') (h : ConfigOK ρ g t c) : ConfigOK ρ g' t c :=
  ⟨h.valid, S.origin_mono G h.origin⟩

theorem ConfigOK.mono_term {ρ : Regime} {c : Configuration} (h : ConfigOK ρ g t c)
    (le : t ≤ t') : ConfigOK ρ g t' c :=
  ⟨h.valid, h.origin.mono fun _ hT => Nat.le_trans hT le⟩

theorem configOK_normalize {ρ : Regime} {c : Configuration} :
    ConfigOK ρ g t c.normalize ↔ ConfigOK ρ g t c := by
  constructor
  · exact fun h => ⟨fun hnil => h.valid (Configuration.normalize_oldVoters_eq_nil.mpr hnil),
      Regime.view_normalize (ρ := ρ) c ▸ h.origin⟩
  · exact fun h => ⟨fun hnil => h.valid (Configuration.normalize_oldVoters_eq_nil.mp hnil),
      (Regime.view_normalize (ρ := ρ) c).symm ▸ h.origin⟩

namespace SnapshotOK

variable {snapshot : Snapshot}

theorem grow (S : Record.Sane Γ.regime.rules g) (G : Record.Grows j g g')
    (h : SnapshotOK Γ g t F snapshot) : SnapshotOK Γ g' t F snapshot :=
  { h with
    committed := h.committed.grow S G
    config := fun h0 => (h.config h0).grow S G }

theorem mono_term (h : SnapshotOK Γ g t F snapshot) (le : t ≤ t') :
    SnapshotOK Γ g t' F snapshot :=
  { h with
    committed := h.committed.mono_term le
    config := fun h0 => (h.config h0).mono_term le }

/-- A snapshot of one log is a snapshot of every log with the same prefix. -/
theorem of_take_le (h : SnapshotOK Γ g t F snapshot)
    (le : F.take snapshot.index <+: F') : SnapshotOK Γ g t F' snapshot := by
  have hlen : (F.take snapshot.index).length = snapshot.index := by
    rw [length_take, Nat.min_eq_left h.le]
  have htake : F'.take snapshot.index = F.take snapshot.index := by
    obtain ⟨tail, rfl⟩ := le
    rw [take_append_of_le_length (by omega), take_take, Nat.min_self]
  have hterm := termOf_of_le ⟨_, take_append_drop snapshot.index F⟩
    (show snapshot.index ≤ _ by omega)
  refine ⟨by have := le.length_le; omega, ?_, ?_, ?_, ?_, h.config, ?_⟩
  · rw [h.term, hterm, termOf_of_le le (by omega)]
  · rw [htake]
    exact h.indexed
  · rw [htake]
    exact h.committed
  · rw [htake]
    exact h.data
  · rw [htake]
    exact h.config_current

end SnapshotOK

/-- Node `i` has not voted, campaigned or acknowledged in between. -/
def SameOwn (i : NodeID) (g g' : Ghost) : Prop :=
  ∀ T, g'.vote i T = g.vote i T ∧ g'.cand i T = g.cand i T ∧ g'.ack i T = g.ack i T

theorem sameOwn_of_ne (G : Record.Grows j g g') (hne : i ≠ j) : SameOwn i g g' :=
  fun T => ⟨G.vote_eq T hne, G.cand_eq T hne, G.ack_eq T hne⟩

theorem Holds.grow {d : PersistentState} (S : Record.Sane Γ.regime.rules g)
    (G : Record.Grows j g g') (own : SameOwn i g g') (h : Holds Γ g i d F) :
    Holds Γ g' i d F where
  snapshot := h.snapshot.grow S G
  entries := h.entries
  indexed := h.indexed
  rooted := G.rooted h.rooted
  terms := h.terms
  retain := h.retain.grow S G fun T => (own T).2.2
  vote := by rw [(own _).1, h.vote]
  later T hT := by
    rw [(own T).1, (own T).2.1, (own T).2.2]
    exact h.later T hT
  config h0 := (h.config h0).grow S G
  config_behind := h.config_behind

namespace Progress

variable {a b c : ℕ} {config : Configuration} {m : σ} {applied : List Entry}

theorem grow (S : Record.Sane Γ.regime.rules g) (G : Record.Grows j g g')
    (h : Progress Γ g t F a b c config m applied) :
    Progress Γ g' t F a b c config m applied :=
  { h with
    committed := h.committed.grow S G
    config := h.config.grow S G }

theorem mono_term (h : Progress Γ g t F a b c config m applied) (le : t ≤ t') :
    Progress Γ g t' F a b c config m applied :=
  { h with
    committed := h.committed.mono_term le
    config := h.config.mono_term le }

/-- The log may change beyond what is committed. -/
theorem of_le (h : Progress Γ g t F a b c config m applied)
    (le : F.take b <+: F') : Progress Γ g t F' a b c config m applied := by
  have hlen : (F.take b).length = b := by
    rw [length_take, Nat.min_eq_left h.commit_le]
  have htake : ∀ k, k ≤ b → F'.take k = F.take k := by
    intro k hk
    obtain ⟨tail, rfl⟩ := le
    rw [take_append_of_le_length (by omega), take_take, Nat.min_eq_left hk]
  have hc := htake c h.applied_le
  refine ⟨h.snap_le, h.applied_le, by have := le.length_le; omega, ?_, h.config, ?_, ?_, ?_⟩
  · rw [htake b (Nat.le_refl _)]
    exact h.committed
  · rw [hc]
    exact h.config_current
  · rw [hc]
    exact h.machine
  · intro e he
    obtain ⟨hpos, hle, hget⟩ := h.applied e he
    refine ⟨hpos, hle, ?_⟩
    rw [← getElem?_take_of_lt (show e.index - 1 < c by omega), hc,
      getElem?_take_of_lt (by omega), hget]

end Progress

theorem Leads.grow (G : Record.Grows j g g') (hne : i ≠ j) (h : Leads g i t F) :
    Leads g' i t F := by
  obtain ⟨⟨r, hr, hlead⟩, hlog⟩ := h
  exact ⟨⟨r, G.elect hr, hlead⟩, by rw [G.log_eq hr (by rwa [hlead]), hlog]⟩

variable {votes : NodeID → Bool} {matchIndex : NodeID → Option ℕ}

theorem RoleOK.grow {ρ : Regime} {c : Configuration} {commitIndex : ℕ} {role : Role}
    (G : Record.Grows j g g') (hne : i ≠ j)
    (h : RoleOK ρ g i t F c votes matchIndex commitIndex role) :
    RoleOK ρ g' i t F c votes matchIndex commitIndex role := by
  cases role with
  | follower => trivial
  | candidate =>
    obtain ⟨hcand, hvotes, hself⟩ := h
    refine ⟨G.cand hcand, fun x hx => G.vote (hvotes x hx), fun r hr => ?_⟩
    rcases G.elect_new hr with hold | hnew
    · exact hself r hold
    · rw [hnew]
      exact hne.symm
  | leader =>
    obtain ⟨hleads, hcur, hmatch⟩ := h
    exact ⟨hleads.grow G hne, hcur, fun x => (hmatch x).imp_right fun hx =>
      hx.trans (G.ack _ _)⟩

variable {n : Node σ}

section

variable (S : Record.Sane Γ.regime.rules g) (G : Record.Grows j g g')

include S G

theorem Running.grow (hne : i ≠ j) (h : Running Γ g i F n) :
    Running Γ g' i F n :=
  { h with
    holds := h.holds.grow S G (sameOwn_of_ne G hne)
    progress := h.progress.grow S G
    role := h.role.grow G hne }

theorem Dead.grow (own : SameOwn i g g') (h : Dead Γ g i n) :
    Dead Γ g' i n := by
  obtain ⟨hstop, ⟨F, hF⟩, hled, t, P, hP, happ⟩ := h
  refine ⟨hstop, ⟨F, hF.grow S G own⟩, fun hrole => ?_, t, P, hP.grow S G, happ⟩
  obtain ⟨r, hr, hlead⟩ := hled hrole
  exact ⟨r, G.elect hr, hlead⟩

/-- What holds of a node between calls survives the moves of the others. -/
theorem NodeOK.grow (hne : i ≠ j) (h : NodeOK Γ g i n) : NodeOK Γ g' i n := by
  rcases h with hdead | ⟨F, hrun, hdone⟩
  · exact .inl (hdead.grow S G (sameOwn_of_ne G hne))
  · exact .inr ⟨F, hrun.grow S G hne, hdone⟩

/-- What a message promises stays true. -/
theorem MsgOK.grow {m : Message} (h : MsgOK Γ g m) : MsgOK Γ g' m := by
  unfold MsgOK at h ⊢
  split at h
  · obtain ⟨F, b, hcand, hrest⟩ := h
    exact ⟨F, b, G.cand hcand, hrest⟩
  · exact fun hv => G.vote (h hv)
  · obtain ⟨⟨r, hr, hlead⟩, hlen, hterm, hentries, hcommit, hcommitted⟩ := h
    obtain ⟨tail, hlog⟩ := G.log m.term
    refine ⟨⟨r, G.elect hr, hlead⟩, ?_, ?_, ?_, hcommit, ?_⟩
    · exact hlen.trans (G.log _).length_le
    · rw [hterm, termOf_of_le (G.log _) (by omega)]
    · rw [← hlog, drop_append_of_le_length (by omega),
        take_append_of_le_length (by simp; omega), ← hentries]
    · rw [G.take_log (by omega)]
      exact hcommitted.grow S G
  · exact fun hs => (h hs).trans (G.ack _ _)
  · exact fun hs => (h hs).trans (G.ack _ _)
  · obtain ⟨⟨r, hr, hlead⟩, hsnap⟩ := h
    exact ⟨⟨r, G.elect hr, hlead⟩,
      (hsnap.grow S G).of_take_le (.trans ⟨_, take_append_drop _ _⟩ (G.log _))⟩
  · trivial

end

end Grow

end RivetDB.Raft
