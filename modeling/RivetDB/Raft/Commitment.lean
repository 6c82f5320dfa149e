import RivetDB.Raft.Log

/-!
# Applying and committing

The loops of `applyCommitted` and `advanceCommit` keep a node running.  Applying
needs nothing new from the record: a configuration is installed only from a
committed prefix, so its origin is known.  Advancing the commit index is the one
place where a commit decision is recorded.
-/

namespace RivetDB.Raft

open List Prog Consensus

variable {σ : Type} {Γ : Setting σ} {g : Ghost} {i : NodeID} {F : List Entry} {n : Node σ}

/-! ### Updates that the invariant does not see -/

/-- The two nodes agree on everything but timers, roles and bookkeeping. -/
structure Node.SameCore (n n' : Node σ) : Prop where
  id : n'.id = n.id
  store : n'.store = n.store
  persistent : n'.persistent = n.persistent
  commitIndex : n'.commitIndex = n.commitIndex
  lastApplied : n'.lastApplied = n.lastApplied
  stateMachine : n'.stateMachine = n.stateMachine
  applied : n'.applied = n.applied
  stopped : n'.stopped = n.stopped

theorem Node.SameCore.trans {n n' n'' : Node σ} (h : n.SameCore n') (h' : n'.SameCore n'') :
    n.SameCore n'' :=
  ⟨h'.id.trans h.id, h'.store.trans h.store, h'.persistent.trans h.persistent,
    h'.commitIndex.trans h.commitIndex, h'.lastApplied.trans h.lastApplied,
    h'.stateMachine.trans h.stateMachine, h'.applied.trans h.applied,
    h'.stopped.trans h.stopped⟩

theorem Node.exists_resetElectionTimer (n : Node σ) :
    ∃ timeout draws, n.resetElectionTimer =
      { n with electionElapsed := 0, electionTimeout := timeout, draws := draws } := by
  unfold Node.resetElectionTimer
  dsimp only
  split
  · exact ⟨_, _, rfl⟩
  · exact ⟨_, _, rfl⟩

theorem Node.sameCore_becomeFollower (n : Node σ) (leader : NodeID) :
    n.SameCore (n.becomeFollower leader) ∧
      (n.becomeFollower leader).role = .follower ∧
      (n.becomeFollower leader).configuration = n.configuration := by
  unfold Node.becomeFollower
  obtain ⟨timeout, draws, heq⟩ := Node.exists_resetElectionTimer
    { n with
      role := .follower, leaderID := leader, votes := fun _ => false
      nextIndex := fun _ => none, matchIndex := fun _ => none, heartbeatElapsed := 0
      transferring := false, transferElapsed := 0 }
  rw [heq]
  exact ⟨⟨rfl, rfl, rfl, rfl, rfl, rfl, rfl, rfl⟩, rfl, rfl⟩

theorem Node.becomeFollower_leaderID (n : Node σ) (leader : NodeID) :
    (n.becomeFollower leader).leaderID = leader := by
  unfold Node.becomeFollower
  obtain ⟨timeout, draws, heq⟩ := Node.exists_resetElectionTimer
    { n with
      role := .follower, leaderID := leader, votes := fun _ => false
      nextIndex := fun _ => none, matchIndex := fun _ => none, heartbeatElapsed := 0
      transferring := false, transferElapsed := 0 }
  rw [heq]

theorem Node.sameCore_trackPeers (n : Node σ) :
    n.SameCore n.trackPeers ∧ n.trackPeers.role = n.role ∧
      n.trackPeers.configuration = n.configuration ∧
      ∀ x, n.trackPeers.matchIndex x = n.matchIndex x ∨
        (n.trackPeers.matchIndex x).getD 0 ≤ n.persistent.snapshot.index := by
  unfold Node.trackPeers
  split
  · refine ⟨⟨rfl, rfl, rfl, rfl, rfl, rfl, rfl, rfl⟩, rfl, rfl, fun x => ?_⟩
    dsimp only
    split
    · split
      · exact .inl rfl
      · exact .inr (Nat.le_refl _)
    · exact .inr (Nat.zero_le _)
  · exact ⟨⟨rfl, rfl, rfl, rfl, rfl, rfl, rfl, rfl⟩, rfl, rfl, fun x => .inl rfl⟩

/-- What installing a configuration does to a node. -/
theorem Node.installConfiguration_spec (n : Node σ) (next : Configuration) :
    n.SameCore (n.installConfiguration next) ∧
      (n.installConfiguration next).configuration = next.normalize ∧
      ((n.installConfiguration next).role = .follower ∨
        (n.installConfiguration next).role = n.role ∧
          ∀ x, (n.installConfiguration next).matchIndex x = n.matchIndex x ∨
            ((n.installConfiguration next).matchIndex x).getD 0 ≤ n.persistent.snapshot.index) := by
  obtain ⟨hcore, hrole, hconfig, hmatch⟩ := Node.sameCore_trackPeers
    { n with configuration := next.normalize, peers := next.normalize.members }
  have hcore' : n.SameCore (Node.trackPeers
      { n with configuration := next.normalize, peers := next.normalize.members }) :=
    { hcore with }
  unfold Node.installConfiguration
  dsimp only
  split
  · obtain ⟨hf, hfrole, hfconfig⟩ := Node.sameCore_becomeFollower (Node.trackPeers
      { n with configuration := next.normalize, peers := next.normalize.members }) 0
    exact ⟨hcore'.trans hf, hfconfig.trans hconfig, .inl hfrole⟩
  · exact ⟨hcore', hconfig, .inr ⟨hrole, hmatch⟩⟩

theorem Running.resetElectionTimer (h : Running Γ g i F n) :
    Running Γ g i F n.resetElectionTimer := by
  obtain ⟨timeout, draws, heq⟩ := n.exists_resetElectionTimer
  rw [heq]
  exact { h with }

/-- Stepping down is always possible. -/
theorem Running.becomeFollower (h : Running Γ g i F n) (leader : NodeID) :
    Running Γ g i F (n.becomeFollower leader) :=
  Running.resetElectionTimer { h with role := trivial }

/-! ### Stopping -/

theorem Holds.of_synced {stored persistent : PersistentState}
    (hs : Synced stored persistent) (h : Holds Γ g i persistent F) :
    Holds Γ g i stored F := by
  obtain ⟨c, rfl, hc | ⟨hzero, hindex⟩⟩ := hs
  · have hversion : c.version = persistent.config.version := by
      simpa [Configuration.normalize] using congrArg Configuration.version hc
    refine { h with config := fun h0 => ?_, config_behind := fun h0 => ?_ }
    · exact configOK_normalize.mp (hc ▸ configOK_normalize.mpr (h.config (hversion ▸ h0)))
    · obtain ⟨hne, hle⟩ := h.config_behind h0
      refine ⟨hversion ▸ hne, ?_⟩
      rwa [← Regime.view_normalize c, hc, Regime.view_normalize]
  · exact { h with
      config := fun h0 => absurd hzero h0
      config_behind := fun h0 => absurd hindex h0 }

variable {config : Configuration} {applied : List Entry}

theorem Progress.dead_applied {t a b c : ℕ} {m : σ} (h : Progress Γ g t F a b c config m applied) :
    ∃ t P, Committed g t P ∧ ∀ e ∈ applied, 0 < e.index ∧ P[e.index - 1]? = some e := by
  refine ⟨t, F.take b, h.committed, fun e he => ?_⟩
  obtain ⟨hpos, hle, hget⟩ := h.applied e he
  have := h.applied_le
  exact ⟨hpos, by rw [getElem?_take_of_lt (by omega), hget]⟩

/-- A live node that stops leaves its store behind. -/
theorem Running.dead (h : Running Γ g i F n) {n' : Node σ} (hstop : n'.stopped = true)
    (hstore : n'.store.state = n.store.state) (happ : n'.applied = n.applied)
    (hled : n'.role = .leader → ∃ r, g.elect n'.term = some r ∧ r.leader = i) :
    Dead Γ g i n' where
  stopped := hstop
  holds := ⟨F, by rw [hstore]; exact h.holds.of_synced h.synced⟩
  led := hled
  applied := by rw [happ]; exact h.progress.dead_applied

theorem Running.led (h : Running Γ g i F n) (hrole : n.role = .leader) :
    ∃ r, g.elect n.term = some r ∧ r.leader = i := by
  have := h.role
  rw [hrole] at this
  exact this.1.1

/-- A live node that fails on the spot. -/
theorem Running.fail (h : Running Γ g i F n) (err : Option Error) :
    Dead Γ g i { n with fatal := err, stopped := true } :=
  h.dead rfl rfl rfl h.led

/-! ### The apply loop -/

variable {e : Entry}

/-- One more entry of the committed prefix has been run. -/
theorem Progress.advance {t a b c : ℕ} {config config' : Configuration} {m m' : σ}
    (h : Progress Γ g t F a b c config m applied) (hlt : c < b) (he : F[c]? = some e)
    (hindex : e.index = c + 1) (hconfig : ConfigOK Γ.regime g t config')
    (hcurrent : (Γ.regime.conf (F.take c ++ [e])).version ≤ (Γ.regime.view config').version)
    (hm : Reflects Γ (F.take c ++ [e]) m') :
    Progress Γ g t F a b (c + 1) config' m' (applied ++ [e]) := by
  have htake : F.take (c + 1) = F.take c ++ [e] := by
    rw [take_add_one, he]
    rfl
  refine ⟨by have := h.snap_le; omega, hlt, h.commit_le, h.committed, hconfig,
    by rwa [htake], by rwa [htake], fun e' he' => ?_⟩
  rcases mem_append.mp he' with hold | hnew
  · obtain ⟨hpos, hle, hget⟩ := h.applied e' hold
    exact ⟨hpos, by omega, hget⟩
  · rw [mem_singleton.mp hnew, hindex]
    exact ⟨by omega, by omega, by simpa using he⟩

theorem RoleOK.install {ρ : Regime} {t : ℕ} {c c' : Configuration}
    {votes votes' : NodeID → Bool} {matchIndex matchIndex' : NodeID → Option ℕ}
    {commitIndex snapIndex : ℕ} {role role' : Role}
    (h : RoleOK ρ g i t F c votes matchIndex commitIndex role) (hrole : role ≠ .candidate)
    (hver : (ρ.view c).version ≤ (ρ.view c').version) (hsnap : snapIndex ≤ commitIndex)
    (hrole' : role' = .follower ∨ role' = role ∧ ∀ x, matchIndex' x = matchIndex x ∨
      (matchIndex' x).getD 0 ≤ snapIndex) :
    RoleOK ρ g i t F c' votes' matchIndex' commitIndex role' := by
  rcases hrole' with rfl | ⟨rfl, hmatch'⟩
  · trivial
  cases role' with
  | follower => trivial
  | candidate => exact absurd rfl hrole
  | leader =>
    obtain ⟨hleads, hcur, hmatch⟩ := h
    refine ⟨hleads, by omega, fun x => ?_⟩
    rcases hmatch' x with heq | hle
    · rw [heq]
      exact hmatch x
    · exact .inl (hle.trans hsnap)

variable {next : Configuration}

section

variable (S : Record.Sane Γ.regime.rules g) (h : Running Γ g i F n) (hrole : n.role ≠ .candidate)
  (hlt : n.lastApplied < n.commitIndex) (he : F[n.lastApplied]? = some e)

include S h hrole hlt he

/-- Installing the configuration of the next committed entry and saving it. -/
theorem Running.install (hkind : e.kind = .config)
    (hnext : Configuration.decode e.command = .ok next)
    (hnewer : next.version > n.configuration.version) {store : Store}
    (hstore : store.state = { n.persistent with config := next }) :
    Running Γ g i F
      { n.installConfiguration next with
        persistent := { (n.installConfiguration next).persistent with config := next }
        store := store
        lastApplied := n.lastApplied + 1
        applied := (n.installConfiguration next).applied ++ [e] } := by
  obtain ⟨hcore, hconfig, hrole'⟩ := n.installConfiguration_spec next
  have htake : F.take (n.lastApplied + 1) = F.take n.lastApplied ++ [e] := by
    rw [take_add_one, he]
    rfl
  have hconf : Γ.regime.conf (F.take n.lastApplied ++ [e]) = Γ.regime.view next :=
    Regime.conf_concat_of_decode hkind hnext
  have hcommitted : Committed g n.persistent.hardState.term (F.take n.lastApplied ++ [e]) :=
    h.progress.committed.of_le (by
      rw [← htake]
      exact take_prefix_take_left hlt)
  have hok : ConfigOK Γ.regime g n.persistent.hardState.term next :=
    ⟨Configuration.decode_oldVoters hnext, hconf ▸ hcommitted.origin S⟩
  have hver : (Γ.regime.view n.configuration).version ≤ (Γ.regime.view next).version :=
    Regime.view_version_le (by
      rw [gt_iff_lt, UInt64.lt_iff_toNat_lt] at *
      omega)
  have hne : next.version ≠ 0 := by
    intro hzero
    rw [hzero, gt_iff_lt, UInt64.lt_iff_toNat_lt] at hnewer
    simp at hnewer
  have hbehind : n.persistent.snapshot.index ≠ 0 → next.version ≠ 0 ∧
      (Γ.regime.view n.persistent.snapshot.config).version ≤ (Γ.regime.view next).version :=
    fun h0 => ⟨hne, (h.holds.config_behind h0).2.trans (h.config_same.2 ▸ hver)⟩
  have hsnap := h.progress.snap_le.trans h.progress.applied_le
  refine
    { id := hcore.id.trans h.id
      id_ne := h.id_ne
      alive := hcore.stopped.trans h.alive
      holds := ?_
      synced := ⟨next, ?_, .inl rfl⟩
      progress := ?_
      config_same := ?_
      config_ne := ?_
      role := ?_ }
  · dsimp only
    rw [hcore.persistent]
    exact { h.holds with config := fun _ => hok, config_behind := hbehind }
  · dsimp only
    rw [hstore, hcore.persistent]
  · dsimp only
    rw [hcore.persistent, hcore.commitIndex, hcore.stateMachine, hcore.applied, hconfig]
    exact h.progress.advance hlt he (h.holds.indexed _ _ he) (configOK_normalize.mpr hok)
      (by rw [hconf, Regime.view_normalize])
      (Reflects.skip h.progress.machine (by simp [hkind]))
  · dsimp only
    rw [hconfig]
    exact ⟨rfl, (Regime.view_normalize next).symm⟩
  · dsimp only
    rw [hconfig]
    exact hne
  · dsimp only
    rw [hcore.persistent, hcore.commitIndex, hconfig]
    exact h.role.install hrole (by rwa [Regime.view_normalize]) hsnap hrole'

theorem applyEntry_spec (index : ℕ) :
    (Node.applyEntry Γ.machine index e).wp (fun _ n' =>
        Running Γ g i F { n' with lastApplied := n.lastApplied + 1, applied := n'.applied ++ [e] } ∧
        n'.role ≠ .candidate ∧ n'.commitIndex = n.commitIndex ∧ n'.term = n.term)
      (fun _ => Dead Γ g i) n := by
  have hindex := h.holds.indexed _ _ he
  have same : e.kind ≠ .config →
      (Γ.regime.conf (F.take n.lastApplied ++ [e])).version ≤
        (Γ.regime.view n.configuration).version := fun hk => by
    rw [Regime.conf_concat_of_kind hk]
    exact h.progress.config_current
  have skip := fun hcur hk => h.progress.advance hlt he hindex h.progress.config hcur
    (Reflects.skip h.progress.machine hk)
  simp only [Node.applyEntry, wp_bind, wp_get]
  rcases hkind : e.kind with - | - | -
  · exact ⟨{ h with progress := skip (same (by simp [hkind])) (by simp [hkind]) }, hrole, rfl, rfl⟩
  · simp only [wp_bind, wp_modify]
    rcases herr : (Γ.machine.apply n.stateMachine e).1 with - | err
    · have hp := h.progress.advance hlt he hindex h.progress.config
        (same (by simp [hkind])) (Reflects.apply h.progress.machine hkind herr)
      exact ⟨{ h with progress := hp }, hrole, rfl, rfl⟩
    · exact Node.wp_fail.mpr (h.dead rfl rfl rfl h.led)
  · dsimp only
    rcases hnext : Configuration.decode e.command with err | next
    · exact Node.wp_fail.mpr (h.fail _)
    · simp only [wp_ite, wp_bind, wp_modify, Node.wp_fail, wp_pure]
      refine ⟨fun hnewer => ⟨fun _ => h.fail _, fun _ => ?_⟩, fun hold => ?_⟩
      · obtain ⟨hcore, -, hrole'⟩ := n.installConfiguration_spec next
        have hnot : (n.installConfiguration next).role ≠ .candidate := by
          rcases hrole' with hf | ⟨heq, -⟩
          · simp [hf]
          · rwa [heq]
        refine Node.wp_persist (fun _ store hstore => ?_) (fun err store hstore => ?_)
        · dsimp only at hstore
          rw [hcore.persistent] at hstore
          refine ⟨h.install S hrole hlt he hkind hnext hnewer hstore, hnot, hcore.commitIndex, ?_⟩
          simp only [Node.term, hcore.persistent]
        · refine h.dead rfl (by dsimp only at hstore; rw [hstore, hcore.store]) hcore.applied
            fun hlead => ?_
          have hlead' : n.role = .leader := by
            rcases hrole' with hf | ⟨heq, -⟩
            · exact absurd (hlead.symm.trans hf) (by simp)
            · exact heq.symm.trans hlead
          simpa only [Node.term, hcore.persistent] using h.led hlead'
      · have hcur := Regime.view_version_le (ρ := Γ.regime) hold
        rw [← Regime.conf_concat_of_decode (P := F.take n.lastApplied) hkind hnext] at hcur
        exact ⟨{ h with progress := skip hcur (by simp [hkind]) }, hrole, trivial, trivial⟩

end

/-- What applying leaves of a node: it is still running in its term, and nothing
committed is left to apply. -/
def Settled (Γ : Setting σ) (g : Ghost) (i : NodeID) (F : List Entry) (t c : ℕ)
    (n : Node σ) : Prop :=
  Running Γ g i F n ∧ n.lastApplied = n.commitIndex ∧ n.term = t ∧ n.commitIndex = c

theorem applyLoop_spec (S : Record.Sane Γ.regime.rules g) (fuel : ℕ) {t c : ℕ}
    (h : Running Γ g i F n) (hrole : n.role ≠ .candidate) (ht : n.term = t)
    (hc : n.commitIndex = c) (hfuel : n.commitIndex ≤ n.lastApplied + fuel) :
    (Node.applyLoop Γ.machine fuel).wp (fun _ => Settled Γ g i F t c) (fun _ => Dead Γ g i) n := by
  induction fuel generalizing n with
  | zero =>
    have := h.progress.applied_le
    exact ⟨h, by omega, ht, hc⟩
  | succ fuel ih =>
    simp only [Node.applyLoop, wp_bind, wp_get, wp_ite]
    refine ⟨fun hlt => ?_, fun hge => ?_⟩
    swap
    · have := h.progress.applied_le
      exact ⟨h, by omega, ht, hc⟩
    have hlen := h.progress.commit_le
    obtain ⟨e, he⟩ := Views.exists_entry F (show 0 < n.lastApplied + 1 by omega) (by omega)
    rw [h.holds.views.entryAt_eq (by have := h.progress.snap_le; omega) he]
    simp only [wp_bind, wp_modify]
    refine wp_imp (applyEntry_spec S h hrole hlt (by simpa using he) _) ?_
    rintro - n' ⟨hrun, hrole', hcommit, hterm⟩
    exact ih hrun hrole' (hterm.trans ht) (hcommit.trans hc) (by dsimp only; omega)

/-- Applying what is committed. -/
theorem applyCommitted_spec (S : Record.Sane Γ.regime.rules g) (h : Running Γ g i F n)
    (hrole : n.role ≠ .candidate) :
    (Node.applyCommitted Γ.machine).wp
      (fun _ => Settled Γ g i F n.term n.commitIndex) (fun _ => Dead Γ g i) n := by
  simp only [Node.applyCommitted, wp_bind, wp_get, Node.wp_assert]
  refine wp_imp (applyLoop_spec S _ h hrole rfl rfl (by have := h.progress.applied_le; omega)) ?_
  rintro - n' hset
  refine ⟨fun _ => hset, fun hbad => ?_⟩
  have := hset.2.1
  simp only [decide_eq_false_iff_not] at hbad
  omega

/-! ### Advancing the commit index -/

/-- After some moves of node `i`, the record is sane and satisfies `P`. -/
def Outcome (Γ : Setting σ) (g : Ghost) (i : NodeID) (P : Ghost → Prop) : Prop :=
  ∃ g', Record.Grows i g g' ∧ Record.Sane Γ.regime.rules g' ∧ P g'

variable {P : Ghost → Prop}

theorem Outcome.refl (S : Record.Sane Γ.regime.rules g) (h : P g) :
    Outcome Γ g i P :=
  ⟨g, Record.Grows.refl g, S, h⟩

theorem Outcome.trans {g' : Ghost} (G : Record.Grows i g g')
    (h : Outcome Γ g' i P) : Outcome Γ g i P := by
  obtain ⟨g'', G', S, hP⟩ := h
  exact ⟨g'', G.trans G', S, hP⟩

/-- A leader that counts a quorum for an entry of its own term may commit it. -/
theorem Running.commit (S : Record.Sane Γ.regime.rules g) (h : Running Γ g i F n)
    (hrole : n.role = .leader) {index : ℕ} (hgt : n.commitIndex < index + 1)
    (he : F[index]? = some e) (hterm : e.term = n.term)
    (hquorum : n.configuration.quorum (fun peer => (n.matchIndex peer).getD 0 ≥ index + 1) = true) :
    Outcome Γ g i fun g' => Leads g' i n.term F ∧
      Running Γ g' i F { n with commitIndex := index + 1 } := by
  have hlead := h.role
  rw [hrole] at hlead
  obtain ⟨⟨⟨r, hr, hri⟩, hlog⟩, hcur, hmatch⟩ := hlead
  have hlen := (List.getElem?_eq_some_iff.mp he).1
  let k : Commit NodeID Ballot :=
    { index := index + 1
      term := n.term
      config := Γ.regime.view n.configuration
      acks := {x | decide ((n.matchIndex x).getD 0 ≥ index + 1) = true} }
  have hcovered : g.covered k = F.take (index + 1) := by
    exact congrArg (List.take (index + 1)) hlog
  have hack : ∀ x ∈ k.acks, k.index ≤ g.ack x k.term := by
    intro x hx
    have hx' : (n.matchIndex x).getD 0 ≥ index + 1 := of_decide_eq_true hx
    rcases hmatch x with hle | hle
    · omega
    · exact hx'.trans hle
  have D : Record.Decided Γ.regime.rules g k :=
    { elected := ⟨r, hr⟩
      pos := Nat.succ_pos _
      term := ⟨e, by rw [show g.log k.term = F from hlog]; exact he, hterm⟩
      quorum := Regime.quorum_view h.progress.config.valid hquorum
      acked := hack
      origin := h.progress.config.origin
      current := by
        rw [hcovered]
        exact (Γ.regime.rules.version_mono (S.chain_of_rooted h.holds.rooted)
          ⟨_, take_append_drop _ _⟩).trans hcur }
  have G : Record.Grows i g (g.decide k) := Record.decide_grows
  have own : SameOwn i g (g.decide k) := fun _ => ⟨rfl, rfl, rfl⟩
  refine ⟨g.decide k, G, S.decide D, ⟨⟨r, hr, hri⟩, hlog⟩, ?_⟩
  have hp := h.progress.grow S G
  refine
    { h with
      holds := h.holds.grow S G own
      progress :=
        { hp with
          applied_le := hp.applied_le.trans (Nat.le_of_lt hgt)
          commit_le := hlen
          committed := .inr ⟨k, Set.mem_insert _ _, Nat.le_refl _, ?_⟩ }
      role := ?_ }
  · change F.take (index + 1) <+: g.covered k
    rw [hcovered]
  · dsimp only
    rw [hrole]
    refine ⟨⟨⟨r, hr, hri⟩, hlog⟩, hcur, fun x => ?_⟩
    rcases hmatch x with hle | hle
    · exact .inl (by omega)
    · exact .inr hle

/-- What `advanceCommit` leaves of a leader. -/
def Advanced (Γ : Setting σ) (g : Ghost) (i : NodeID) (F : List Entry) (t : ℕ)
    (n : Node σ) : Prop :=
  Leads g i t F ∧ Running Γ g i F n ∧ n.lastApplied = n.commitIndex ∧ n.term = t

section

variable (S : Record.Sane Γ.regime.rules g) (h : Running Γ g i F n) (hrole : n.role = .leader)
  (hdone : n.lastApplied = n.commitIndex)

include S h hrole hdone

theorem advanceLoop_spec (index : ℕ) (hindex : index ≤ F.length) :
    (Node.advanceLoop Γ.machine index).wp
      (fun _ n' => Outcome Γ g i fun g' => Advanced Γ g' i F n.term n')
      (fun _ n' => Outcome Γ g i fun g' => Dead Γ g' i n') n := by
  have hlead : Leads g i n.term F := by
    have := h.role
    rw [hrole] at this
    exact this.1
  induction index with
  | zero => exact Outcome.refl S ⟨hlead, h, hdone, rfl⟩
  | succ index ih =>
    simp only [Node.advanceLoop, wp_bind, wp_get, wp_ite]
    refine ⟨fun hgt => ?_, fun _ => Outcome.refl S ⟨hlead, h, hdone, rfl⟩⟩
    have hsnap := h.progress.snap_le.trans h.progress.applied_le
    obtain ⟨e, he⟩ := Views.exists_entry F (show 0 < index + 1 by omega) hindex
    rw [h.holds.views.termAt_eq (by omega) hindex, termOf_eq (by omega) he]
    simp only [wp_lift_ok, wp_modify]
    refine ⟨fun _ => ih (by omega), fun hterm => ⟨fun hquorum => ?_, fun _ => ih (by omega)⟩⟩
    obtain ⟨g', G, S', hlead', hrun⟩ := h.commit S hrole hgt (by simpa using he)
      (not_not.mp hterm) hquorum
    refine wp_mono (applyCommitted_spec S' hrun (by simp [hrole])) ?_ ?_
    · rintro - n' ⟨hrun', hdone', hterm', -⟩
      exact ⟨g', G, S', hlead', hrun', hdone', hterm'⟩
    · intro _ n' hdead
      exact ⟨g', G, S', hdead⟩

theorem advanceCommit_spec :
    (Node.advanceCommit Γ.machine).wp
      (fun _ n' => Outcome Γ g i fun g' => Advanced Γ g' i F n.term n')
      (fun _ n' => Outcome Γ g i fun g' => Dead Γ g' i n') n := by
  simp only [Node.advanceCommit, wp_bind, wp_get, wp_ite]
  refine ⟨fun _ => ?_, fun hnot => absurd hrole hnot⟩
  exact advanceLoop_spec S h hrole hdone _ (Nat.le_of_eq h.holds.views.lastIndex_eq)

end

end RivetDB.Raft
