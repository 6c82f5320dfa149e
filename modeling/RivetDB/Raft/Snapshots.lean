import RivetDB.Raft.Elections

/-!
# Snapshots

Taking a snapshot replaces the front of the held entries by a summary of them;
the full log behind the node stays as it is.  Installing one keeps the log when
it already agrees with the sender's up to the snapshot, and replaces it by the
sender's prefix otherwise.  Either way the prefix a snapshot stands for is
committed, so nothing that was applied is lost.
-/

namespace RivetDB.Raft

open Done List Prog Consensus

variable {σ : Type} {Γ : Setting σ} {g : Ghost} {i : NodeID} {F : List Entry} {n : Node σ}

/-! ### Taking a snapshot -/

/-- A state machine that was asked for a snapshot has still seen the same entries. -/
theorem Running.asked (h : Running Γ g i F n) :
    Running Γ g i F { n with stateMachine := (Γ.machine.snapshot n.stateMachine).2 } :=
  { h with progress := { h.progress with machine := h.progress.machine.snapshot } }

variable {store : Store} {d : PersistentState}

/-- What a node has applied may be summarised and discarded. -/
theorem Running.compact (h : Running Γ g i F n) {data : Bytes}
    (hdata : (Γ.machine.snapshot n.stateMachine).1 = .ok data) (hd : d = { n.persistent with
      snapshot :=
        { index := n.lastApplied, term := termOf F n.lastApplied, data := data
          config := n.configuration }
      entries := F.drop n.lastApplied }) (hstore : store.state = d) :
    Running Γ g i F
      { n with
        stateMachine := (Γ.machine.snapshot n.stateMachine).2
        store := store
        persistent := d } := by
  subst hd
  have hle := h.progress.applied_le
  have hsnapshot : SnapshotOK Γ g n.persistent.hardState.term F
      { index := n.lastApplied, term := termOf F n.lastApplied, data := data
        config := n.configuration } :=
    { le := hle.trans h.progress.commit_le
      term := rfl
      indexed := fun j e he => h.holds.indexed j e (getElem?_of_le ⟨_, take_append_drop _ _⟩ he)
      committed := h.progress.committed.of_le (take_prefix_take_left hle)
      data := fun _ => ⟨n.stateMachine, h.progress.machine, hdata⟩
      config := fun _ => h.progress.config
      config_current := fun _ => h.progress.config_current }
  have hbehind : n.lastApplied ≠ 0 → n.persistent.config.version ≠ 0 ∧
      (Γ.regime.view n.configuration).version ≤ (Γ.regime.view n.persistent.config).version := by
    rw [h.config_same.1, h.config_same.2]
    exact fun _ => ⟨h.config_ne, Nat.le_refl _⟩
  exact
    { h with
      holds := { h.holds with snapshot := hsnapshot, entries := rfl, config_behind := hbehind }
      synced := ⟨n.persistent.config, hstore, .inl rfl⟩
      progress :=
        { h.progress with
          snap_le := Nat.le_refl _
          machine := h.progress.machine.snapshot } }

/-- `CreateSnapshot` keeps the node in order. -/
theorem createSnapshot_spec (S : Record.Sane Γ.regime.rules g) (hnode : NodeOK Γ g i n) :
    (Node.createSnapshot Γ.machine).wp
      (fun _ n' => Done Γ g i [] n') (fun _ n' => Done Γ g i [] n') n := by
  have stay : Done Γ g i [] n := hnode.refused S
  simp only [Node.createSnapshot, wp_bind, wp_get, wp_lift, wp_ite, wp_throw, wp_modify]
  refine ⟨fun _ hu => ⟨fun _ => stay, fun _ => ⟨fun term hterm => ?_, fun _ _ => stay⟩⟩,
    fun _ _ => stay⟩
  obtain ⟨F, h, hdone⟩ := hnode.running_of_usable hu
  have asked : Done Γ g i [] _ := running S h.asked hdone (by simp)
  obtain ⟨-, -, rfl⟩ := h.holds.views.termAt_ok hterm
  split
  · simpa only [wp_throw] using asked
  · rename_i data hdata
    simp only [wp_bind, wp_lift]
    refine ⟨fun remaining hremaining => ?_, fun _ _ => asked⟩
    obtain ⟨-, -, rfl⟩ := h.holds.views.entriesFrom_ok hremaining
    refine Node.wp_save (fun _ store hstore => ?_)
      (fun err store hstore => dead S (h.dead rfl hstore rfl h.led))
    exact running S (h.compact hdata rfl hstore) hdone (by simp)

/-! ### Installing a snapshot -/

variable {r : Election NodeID Entry Ballot} {snapshot : Snapshot} {config : Configuration} {m : ℕ}

/-- A node may acknowledge everything up to its commit index. -/
theorem Running.acknowledge_committed (S : Record.Sane Γ.regime.rules g) (h : Running Γ g i F n)
    (hr : g.elect n.term = some r) (hm : m ≤ n.commitIndex) :
    Outcome Γ g i fun g' => Running Γ g' i F n ∧ m ≤ g'.ack i n.term := by
  have hcommit := h.progress.commit_le
  have hpre : F.take m <+: g.log n.term :=
    (h.progress.committed.of_le (take_prefix_take_left hm)).prefix_log S hr
  have hlen := hpre.length_le
  rw [length_take, Nat.min_eq_left (by omega)] at hlen
  have heq : (g.log n.term).take m = F.take m := by
    rw [prefix_iff_eq_take.mp hpre, length_take, Nat.min_eq_left (by omega)]
  exact h.acknowledge S (heq ▸ take_prefix _ _) hlen

variable {F' : List Entry}

section

variable (S : Record.Sane Γ.regime.rules g) (h : Running Γ g i F n)

include S h

/-- The durable state after installing a snapshot of the leader's log stands for
the log `F'`: the old one if it agrees with the leader's up to the snapshot, the
leader's prefix otherwise. -/
theorem Running.adopt (hr : g.elect n.term = some r)
    (hsnap : SnapshotOK Γ g n.term (g.log n.term) snapshot) (hpos : snapshot.index ≠ 0)
    (hF' : (g.log n.term).take snapshot.index <+: F ∧ F' = F ∨
      ¬ (g.log n.term).take snapshot.index <+: F ∧ F' = (g.log n.term).take snapshot.index)
    (hconfig : config = if snapshot.config.version > n.persistent.config.version
      then snapshot.config else n.persistent.config) :
    Holds Γ g i
      { n.persistent with
        snapshot := snapshot, entries := F'.drop snapshot.index, config := config } F' := by
  have hcfg : (config.version ≠ 0 → ConfigOK Γ.regime g n.term config) ∧ config.version ≠ 0 ∧
      (Γ.regime.view snapshot.config).version ≤ (Γ.regime.view config).version := by
    split at hconfig
    · rename_i hgt
      subst hconfig
      refine ⟨fun _ => hsnap.config hpos, fun hzero => ?_, Nat.le_refl _⟩
      rw [hzero, gt_iff_lt, UInt64.lt_iff_toNat_lt] at hgt
      simp at hgt
    · rename_i hle
      subst hconfig
      exact ⟨h.holds.config, h.config_same.1 ▸ h.config_ne, Regime.view_version_le hle⟩
  have hlater := h.holds.later
  rcases hF' with ⟨hin, rfl⟩ | ⟨hnot, rfl⟩
  · exact
      { h.holds with
        snapshot := hsnap.of_take_le hin
        entries := rfl
        config := hcfg.1
        config_behind := fun _ => hcfg.2 }
  · exact
      { h.holds with
        snapshot := hsnap.of_take_le prefix_rfl
        entries := rfl
        indexed := hsnap.indexed
        rooted := S.rooted_take_log _
        terms := fun e he => S.term_le_of_mem_log (mem_of_mem_take he)
        retain := h.holds.retain.replace S hr hnot fun T hT => (hlater T hT).2.2
        config := hcfg.1
        config_behind := fun _ => hcfg.2 }

/-- A follower whose state machine was restored continues behind the snapshot. -/
theorem Running.restored (hr : g.elect n.term = some r)
    (hd : Holds Γ g i d F') (hhard : d.hardState = n.persistent.hardState)
    (hlog : (g.log n.term).take d.snapshot.index <+: F')
    (hnew : n.commitIndex < d.snapshot.index)
    (hm : (Γ.machine.restore n.stateMachine d.snapshot.data).1 = none)
    (hstore : store.state = d) {n' : Node σ}
    (hcore : Node.SameCore
      { n with
        store := store, persistent := d
        stateMachine := (Γ.machine.restore n.stateMachine d.snapshot.data).2 } n')
    (hrole : n'.role = .follower) (hconfig : ConfigOK Γ.regime g n.term n'.configuration)
    (hsame : d.config.version = n'.configuration.version ∧
      Γ.regime.view d.config = Γ.regime.view n'.configuration)
    (hne : n'.configuration.version ≠ 0)
    (hcurrent : (Γ.regime.view d.snapshot.config).version ≤
      (Γ.regime.view n'.configuration).version) :
    max n'.commitIndex d.snapshot.index = d.snapshot.index ∧ Running Γ g i F'
      { n' with
        commitIndex := max n'.commitIndex d.snapshot.index
        lastApplied := d.snapshot.index } := by
  have hmax : max n'.commitIndex d.snapshot.index = d.snapshot.index := by
    rw [hcore.commitIndex]
    exact Nat.max_eq_right (Nat.le_of_lt hnew)
  rw [hmax]
  refine ⟨rfl, ?_⟩
  have hpos : d.snapshot.index ≠ 0 := by omega
  have hkept : F.take n.commitIndex <+: F' := by
    refine List.IsPrefix.trans ?_ hlog
    rw [prefix_take_iff]
    refine ⟨h.progress.committed.prefix_log S hr, ?_⟩
    rw [length_take]
    omega
  have hprogress := h.progress.of_le hkept
  obtain ⟨m', hreflects, hdata⟩ := hd.snapshot.data hpos
  refine
    { id := hcore.id.trans h.id
      id_ne := h.id_ne
      alive := hcore.stopped.trans h.alive
      holds := by rw [hcore.persistent]; exact hd
      synced := ⟨d.config, by rw [hcore.store, hcore.persistent]; exact hstore,
        by rw [hcore.persistent]; simp⟩
      progress := ?_
      config_same := by rw [hcore.persistent]; exact hsame
      config_ne := hne
      role := by rw [hrole]; trivial }
  dsimp only
  rw [hcore.persistent, hcore.stateMachine, hcore.applied, hhard]
  exact
    { snap_le := Nat.le_refl _
      applied_le := Nat.le_refl _
      commit_le := hd.snapshot.le
      committed := hhard ▸ hd.snapshot.committed
      config := hconfig
      config_current := (hd.snapshot.config_current hpos).trans hcurrent
      machine := Reflects.restore _ hreflects hdata hm
      applied := fun e he => by
        obtain ⟨hpos, hle, hget⟩ := hprogress.applied e he
        have := h.progress.applied_le
        exact ⟨hpos, by omega, hget⟩ }

/-- The suffix a node keeps decides which log it ends with. -/
theorem retainedSuffix_spec (hsnap : SnapshotOK Γ g n.term (g.log n.term) snapshot)
    (hge : n.persistent.snapshot.index ≤ snapshot.index) :
    (Node.retainedSuffix snapshot).wp
      (fun suffix n' => n' = n ∧ ∃ F', suffix = F'.drop snapshot.index ∧
        ((g.log n.term).take snapshot.index <+: F ∧ F' = F ∨
          ¬ (g.log n.term).take snapshot.index <+: F ∧
            F' = (g.log n.term).take snapshot.index))
      (fun _ n' => n' = n) n := by
  have hsnapLe := hsnap.le
  have hagree : (g.log n.term).take snapshot.index <+: F →
      n.termAt snapshot.index = .ok snapshot.term := fun hin => by
    have hlen := hin.length_le
    rw [length_take, Nat.min_eq_left hsnapLe] at hlen
    rw [h.holds.views.termAt_eq hge hlen, hsnap.term, termOf_of_le hin (by rw [length_take]; omega),
      ← termOf_of_le ⟨_, take_append_drop snapshot.index (g.log n.term)⟩
        (by rw [length_take]; omega)]
  have dropped : ¬ (g.log n.term).take snapshot.index <+: F →
      ∃ F', [] = F'.drop snapshot.index ∧ ((g.log n.term).take snapshot.index <+: F ∧ F' = F ∨
        ¬ (g.log n.term).take snapshot.index <+: F ∧
          F' = (g.log n.term).take snapshot.index) := fun hnot =>
    ⟨_, (drop_of_length_le (by simp)).symm, .inr ⟨hnot, rfl⟩⟩
  simp only [Node.retainedSuffix, wp_bind, wp_get]
  split
  · rename_i term hterm
    simp only [wp_ite, wp_lift, wp_pure]
    refine ⟨fun heq => ⟨fun suffix hsuffix => ⟨trivial, ?_⟩, fun _ _ => trivial⟩, fun hne =>
      ⟨trivial, dropped fun hin => hne ?_⟩⟩
    · obtain ⟨-, hlen, rfl⟩ := h.holds.views.termAt_ok hterm
      obtain ⟨-, -, rfl⟩ := h.holds.views.entriesFrom_ok hsuffix
      exact ⟨F, rfl, .inl ⟨take_prefix_of_termOf_eq S h.holds.rooted hlen hsnapLe
        (heq.trans hsnap.term), rfl⟩⟩
    · rw [hagree hin] at hterm
      exact (Except.ok.inj hterm).symm
  · rename_i err hterm
    simp only [wp_pure]
    refine ⟨trivial, dropped fun hin => ?_⟩
    rw [hagree hin] at hterm
    cases hterm

/-- A node acknowledges what it holds of the leader's committed log. -/
theorem Running.reply (hdone : n.lastApplied = n.commitIndex)
    (hr : g.elect n.term = some r) (peer : NodeID) (hm : m ≤ n.commitIndex) :
    Done Γ g i
      [{ kind := .installSnapshotResponse, fromID := n.id, toID := peer, term := n.term,
         success := true, matchIndex := m }] n := by
  obtain ⟨g', G, S', hrun, hack⟩ := h.acknowledge_committed S hr hm
  refine trans G (running S' hrun hdone ?_)
  simp only [mem_singleton, forall_eq]
  intro _
  rw [h.id]
  exact hack

end

/-- The configuration behind a snapshot: the snapshot's own if it is newer. -/
theorem Running.newer_configuration (h : Running Γ g i F n) (hrole : n.role = .follower)
    (hsnap : ConfigOK Γ.regime g n.term snapshot.config)
    (hconfig : config = if snapshot.config.version > n.persistent.config.version
      then snapshot.config else n.persistent.config) (n₂ : Node σ)
    (hn₂ : n₂.configuration = n.configuration) (hrole₂ : n₂.role = n.role) :
    let n' := if config.version > n₂.configuration.version
      then n₂.installConfiguration config else n₂
    n₂.SameCore n' ∧ n'.role = .follower ∧ ConfigOK Γ.regime g n.term n'.configuration ∧
      (config.version = n'.configuration.version ∧
        Γ.regime.view config = Γ.regime.view n'.configuration) ∧
      n'.configuration.version ≠ 0 ∧
      (Γ.regime.view snapshot.config).version ≤ (Γ.regime.view n'.configuration).version := by
  dsimp only
  have hsame := h.config_same
  have hne := h.config_ne
  split
  · rename_i hgt
    obtain ⟨hcore, hcfg, hrole'⟩ := n₂.installConfiguration_spec config
    have hnewer : snapshot.config.version > n.persistent.config.version := by
      by_contra hold
      rw [hn₂, hconfig, if_neg hold, hsame.1, gt_iff_lt, UInt64.lt_iff_toNat_lt] at hgt
      exact Nat.lt_irrefl _ hgt
    rw [if_pos hnewer] at hconfig
    subst hconfig
    refine ⟨hcore, ?_, ?_, ?_, ?_, ?_⟩
    · rcases hrole' with hf | ⟨hf, -⟩
      · exact hf
      · rw [hf, hrole₂, hrole]
    · rw [hcfg]
      exact configOK_normalize.mpr hsnap
    · rw [hcfg]
      exact ⟨rfl, (Regime.view_normalize _).symm⟩
    · rw [hcfg]
      intro hzero
      rw [show snapshot.config.normalize.version = snapshot.config.version from rfl] at hzero
      rw [hzero, gt_iff_lt, UInt64.lt_iff_toNat_lt] at hnewer
      simp at hnewer
    · rw [hcfg, Regime.view_normalize]
  · rename_i hle
    have hold : ¬ snapshot.config.version > n.persistent.config.version := by
      intro hgt
      rw [hconfig, if_pos hgt, hn₂, ← hsame.1] at hle
      exact hle hgt
    rw [if_neg hold] at hconfig
    subst hconfig
    rw [hn₂]
    refine ⟨⟨rfl, rfl, rfl, rfl, rfl, rfl, rfl, rfl⟩, hrole₂.trans hrole, h.progress.config,
      hsame, hne, ?_⟩
    rw [← hsame.2]
    exact Regime.view_version_le hold

variable {message : Message}

theorem installSnapshot_spec (S : Record.Sane Γ.regime.rules g) (h : Running Γ g i F n)
    (hrole : n.role = .follower)
    (hr : g.elect n.term = some r)
    (hsnap : SnapshotOK Γ g n.term (g.log n.term) message.snapshot)
    (hnew : n.commitIndex < message.snapshot.index)
    (hF' : (g.log n.term).take message.snapshot.index <+: F ∧ F' = F ∨
      ¬ (g.log n.term).take message.snapshot.index <+: F ∧
        F' = (g.log n.term).take message.snapshot.index)
    (hconfig : config = if message.snapshot.config.version > n.persistent.config.version
      then message.snapshot.config else n.persistent.config) :
    (Node.installSnapshot Γ.machine message
      { n.persistent with
        snapshot := message.snapshot, entries := F'.drop message.snapshot.index
        config := config }).wp
      (fun out n' => Done Γ g i out n') (fun _ n' => Done Γ g i [] n') n := by
  have hpos : message.snapshot.index ≠ 0 := by omega
  have hholds := h.adopt S hr hsnap hpos hF' hconfig
  have hlog : (g.log n.term).take message.snapshot.index <+: F' := by
    rcases hF' with ⟨hin, rfl⟩ | ⟨-, rfl⟩
    · exact hin
    · exact prefix_rfl
  simp only [Node.installSnapshot, wp_bind, wp_get]
  refine Node.wp_save (fun _ store hstore => ?_)
    (fun err store hstore => dead S (h.dead rfl hstore rfl h.led))
  simp only [wp_modify]
  split
  · simp only [Node.wp_fail, wp_bind]
    refine dead S ⟨rfl, ⟨F', ?_⟩, fun hlead => ?_, h.progress.dead_applied⟩
    · dsimp only
      rw [hstore]
      exact hholds
    · rw [hrole] at hlead
      cases hlead
  · rename_i herr
    simp only [wp_bind, wp_modify, wp_get, wp_pure]
    obtain ⟨hcore, hrole', hok, hsame, hne, hcurrent⟩ := h.newer_configuration hrole
      (hsnap.config hpos) hconfig { n with
        store := store
        stateMachine := (Γ.machine.restore n.stateMachine message.snapshot.data).2
        persistent := { n.persistent with
          snapshot := message.snapshot, entries := F'.drop message.snapshot.index
          config := config } } rfl rfl
    obtain ⟨hmax, hrun⟩ := h.restored S hr hholds rfl hlog hnew
      (Option.eq_none_iff_forall_ne_some.mpr herr) hstore hcore hrole' hok hsame hne hcurrent
    refine hrun.reply S hmax.symm (r := r) ?_ message.fromID (Nat.le_max_right _ _)
    simp only [Node.term, hcore.persistent]
    exact hr

/-- `handleInstallSnapshot` keeps the node in order. -/
theorem handleInstallSnapshot_spec (S : Record.Sane Γ.regime.rules g)
    (h : Running Γ g i F n) (hdone : n.lastApplied = n.commitIndex)
    (hkind : message.kind = .installSnapshot) (hmsg : MsgOK Γ g message)
    (hle : message.term ≤ n.term) :
    Ends Γ g i (Node.handleInstallSnapshot Γ.machine message) n := by
  simp only [Node.handleInstallSnapshot, wp_bind, wp_get, wp_ite, wp_pure,
    wp_modify, wp_throw, Node.wp_fail]
  refine ⟨fun _ => running S h hdone (by simp [MsgOK]), fun hge =>
    ⟨fun _ => running S h hdone (by simp), fun _ =>
      ⟨fun _ => dead S (h.fail _), fun _ => ?_⟩⟩⟩
  obtain ⟨hcore, hrole, -⟩ := n.sameCore_becomeFollower message.fromID
  have hrun := h.becomeFollower message.fromID
  have hdone' : (n.becomeFollower message.fromID).lastApplied =
      (n.becomeFollower message.fromID).commitIndex := by
    rw [hcore.lastApplied, hcore.commitIndex, hdone]
  have hterm : message.term = (n.becomeFollower message.fromID).term := by
    simp only [Node.term, hcore.persistent] at *
    omega
  unfold MsgOK at hmsg
  rw [hkind, hterm] at hmsg
  obtain ⟨⟨r, hr, -⟩, hsnap⟩ := hmsg
  have hsnapLe := hrun.progress.snap_le
  refine ⟨fun hcovered => hrun.reply S hdone' hr message.fromID (by omega), fun hnew => ?_⟩
  refine wp_mono (retainedSuffix_spec S hrun hsnap (by omega)) ?_ ?_
  · rintro suffix n' ⟨rfl, F', rfl, hF'⟩
    exact installSnapshot_spec S hrun hrole hr hsnap (by omega) hF' rfl
  · rintro err n' rfl
    exact running S hrun hdone' (by simp)

end RivetDB.Raft
