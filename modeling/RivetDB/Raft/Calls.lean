import RivetDB.Raft.Snapshots

/-!
# The exported calls of a node

Every call leaves a node in order and sends only truthful messages (`Done`),
whether it succeeds, is refused, or stops the node half way.  A stopped node
refuses everything.  Two calls may start an election, `Tick` and `Step` on a
`TimeoutNow`; both ask for `Current` exactly when they do.
-/

namespace RivetDB.Raft

open List Prog Fallible Consensus

variable {σ : Type} {Γ : Setting σ} {g : Ghost} {i : NodeID} {F : List Entry} {n : Node σ}

/-! ### Tick -/

/-- The timer of a node that is not leading runs out with this tick. -/
def Node.ElectionDue (n : Node σ) : Prop :=
  n.role ≠ .leader ∧ n.configuration.voter n.id = true ∧
    n.electionTimeout ≤ n.electionElapsed + 1

instance (n : Node σ) : Decidable n.ElectionDue := inferInstanceAs (Decidable (_ ∧ _ ∧ _))

/-- A leader tells its peers what they miss. -/
theorem replicate_all (S : Record.Sane Γ.regime.rules g) (h : Running Γ g i F n)
    (hrole : n.role = .leader) (hdone : n.lastApplied = n.commitIndex) :
    Node.replicationMessages.wp
      (fun out n' => Done Γ g i out n') (fun _ n' => Done Γ g i [] n') n := by
  refine wp_mono (replicationMessages_spec h (h.leads hrole)) ?_
    (fun _ _ hdead => Done.dead S hdead)
  rintro out n' ⟨rfl, hout⟩
  exact Done.running S h hdone hout

theorem tick_spec (S : Record.Sane Γ.regime.rules g) (h : NodeOK Γ g i n)
    (hcurrent : ∀ F, Running Γ g i F n → n.ElectionDue → Current Γ F n.configuration) :
    Ends Γ g i (Node.tick Γ.machine) n := by
  simp only [Node.tick, wp_bind, wp_get, wp_lift, wp_ite, wp_modify, wp_pure]
  refine ⟨fun _ hu => ?_, fun _ _ => h.refused S⟩
  obtain ⟨F, hrun, hdone⟩ := h.running_of_usable hu
  have leading : ∀ n' : Node σ, Running Γ g i F n' → n'.role = .leader →
      n'.lastApplied = n'.commitIndex →
      (n'.heartbeatElapsed + 1 < n'.heartbeatInterval →
        Done Γ g i [] { n' with heartbeatElapsed := n'.heartbeatElapsed + 1 }) ∧
      (¬ n'.heartbeatElapsed + 1 < n'.heartbeatInterval →
        Node.replicationMessages.wp (fun out n'' => Done Γ g i out n'')
          (fun _ n'' => Done Γ g i [] n'') { n' with heartbeatElapsed := 0 }) := by
    intro n' hrun' hrole hdone'
    refine ⟨fun _ => Done.running S { hrun' with } hdone' (by simp), fun _ => ?_⟩
    exact replicate_all S { hrun' with } hrole hdone'
  refine ⟨fun hrole => ⟨fun _ => ⟨fun _ => ?_, fun _ => ?_⟩, fun _ => ?_⟩, fun hrole =>
    ⟨fun _ => ?_, fun hvoter => ⟨fun _ => ?_, fun hdue => ?_⟩⟩⟩
  · exact leading { n with transferring := false, transferElapsed := 0 } { hrun with } hrole hdone
  · exact leading { n with transferElapsed := n.transferElapsed + 1 } { hrun with } hrole hdone
  · exact leading n hrun hrole hdone
  · exact Done.running S { hrun with } hdone (by simp)
  · exact Done.running S { hrun with } hdone (by simp)
  · refine startElection_spec (F := F) S { hrun with } hdone (hcurrent F hrun ⟨hrole, ?_, ?_⟩)
    · simpa using hvoter
    · omega

/-! ### Proposals -/

section

variable (S : Record.Sane Γ.regime.rules g)

include S

theorem mayPropose_spec (h : NodeOK Γ g i n) :
    Node.mayPropose.wp (fun _ n' => n' = n ∧ n.role = .leader ∧
        ∃ F, Running Γ g i F n ∧ n.lastApplied = n.commitIndex)
      (fun _ n' => Done Γ g i [] n') n := by
  simp only [Node.mayPropose, wp_bind, wp_get, wp_lift, wp_ite, wp_throw, wp_pure]
  exact ⟨fun _ hu => ⟨fun _ => h.refused S, fun hrole => ⟨fun _ => h.refused S,
    fun _ => ⟨trivial, not_not.mp hrole, h.running_of_usable hu⟩⟩⟩, fun _ _ => h.refused S⟩

/-- A leader may append an entry that does not change the configuration. -/
theorem appendEntry_plain (h : Running Γ g i F n)
    (hrole : n.role = .leader) (hdone : n.lastApplied = n.commitIndex) {e : Entry}
    (hterm : e.term = n.term) (hkind : e.kind ≠ .config) :
    (Node.appendEntry Γ.machine e).wp
      (fun out n' => Done Γ g i out.2 n') (fun _ n' => Done Γ g i [] n') n := by
  refine appendEntry_spec S h hrole hdone hterm
    (Regime.Chain.concat (S.chain_of_rooted h.holds.rooted) fun hc => absurd hc hkind) ?_
  rw [Regime.conf_concat_of_kind hkind]
  have hlead := h.role
  rw [hrole] at hlead
  exact hlead.2.1

theorem propose_spec (h : NodeOK Γ g i n) (command : Bytes) :
    (Node.propose Γ.machine command).wp
      (fun out n' => Done Γ g i out.2 n') (fun _ n' => Done Γ g i [] n') n := by
  simp only [Node.propose, wp_bind]
  refine wp_imp (mayPropose_spec S h) ?_
  rintro - n' ⟨rfl, hrole, F, hrun, hdone⟩
  simp only [wp_ite, wp_throw, wp_bind, wp_get]
  exact ⟨fun _ => h.refused S, fun _ => ⟨fun _ => h.refused S,
    fun _ => appendEntry_plain S hrun hrole hdone rfl (by simp)⟩⟩

theorem proposeNoOp_spec (h : NodeOK Γ g i n) :
    (Node.proposeNoOp Γ.machine).wp
      (fun out n' => Done Γ g i out.2 n') (fun _ n' => Done Γ g i [] n') n := by
  simp only [Node.proposeNoOp, wp_bind]
  refine wp_imp (mayPropose_spec S h) ?_
  rintro - n' ⟨rfl, hrole, F, hrun, hdone⟩
  simp only [wp_ite, wp_throw, wp_bind, wp_get]
  exact ⟨fun _ => h.refused S, fun _ => appendEntry_plain S hrun hrole hdone rfl (by simp)⟩

/-- A leader with no configuration entry beyond its commit index acts under the
configuration at the end of its log. -/
theorem Running.conf_eq (h : Running Γ g i F n)
    (hrole : n.role = .leader) (hdone : n.lastApplied = n.commitIndex)
    (hnone : ∀ e ∈ n.persistent.entries, n.commitIndex < e.index → e.kind ≠ .config) :
    Γ.regime.conf F = Γ.regime.view n.configuration := by
  obtain ⟨⟨r, hr, -⟩, hlog⟩ := h.leads hrole
  have hsnap := h.progress.snap_le
  have hchain : Γ.regime.Chain F := S.chain_of_rooted h.holds.rooted
  have htail : Γ.regime.conf F = Γ.regime.conf (F.take n.commitIndex) := by
    conv_lhs => rw [← take_append_drop n.commitIndex F]
    refine Regime.conf_append_of_kind fun e he => ?_
    obtain ⟨j, hj⟩ := mem_iff_getElem?.mp he
    rw [getElem?_drop] at hj
    refine hnone e ?_ (by rw [h.holds.indexed _ _ hj]; omega)
    rw [h.holds.entries, mem_iff_getElem?]
    refine ⟨n.commitIndex + j - n.persistent.snapshot.index, ?_⟩
    rw [getElem?_drop, ← hj]
    congr 1
    omega
  have hle : (Γ.regime.conf F).version ≤ (Γ.regime.view n.configuration).version := by
    rw [htail, ← hdone]
    exact h.progress.config_current
  -- the node's configuration was decided in its own log
  obtain ⟨P, hP, hconf⟩ : ∃ P, P <+: F ∧ Γ.regime.conf P = Γ.regime.view n.configuration := by
    rcases h.progress.config.origin with hbase | ⟨k, mem, hk, hconf, -⟩
    · exact ⟨[], nil_prefix, hbase.symm⟩
    · exact ⟨g.covered k, hlog ▸ S.sound.covered_prefix_of_le hr mem hk, hconf⟩
  rw [← hconf] at hle ⊢
  exact (Γ.regime.rules.conf_eq hchain hP
    (Nat.le_antisymm (Γ.regime.rules.version_mono hchain hP) hle)).symm

theorem proposeConfiguration_spec (h : NodeOK Γ g i n)
    {next : Configuration}
    (hkept : Γ.regime.frozen = true → Γ.regime.view next = Γ.regime.base) :
    (Node.proposeConfiguration Γ.machine next).wp
      (fun out n' => Done Γ g i out.2 n') (fun _ n' => Done Γ g i [] n') n := by
  simp only [Node.proposeConfiguration, wp_bind]
  refine wp_imp (mayPropose_spec S h) ?_
  rintro - n' ⟨rfl, hrole, F, hrun, hdone⟩
  simp only [wp_ite, wp_throw, wp_bind, wp_get, wp_lift]
  refine ⟨fun _ htransition => ⟨fun _ => h.refused S, fun hnone => ⟨fun encoded hencoded => ?_,
    fun _ _ => h.refused S⟩⟩, fun _ _ => h.refused S⟩
  have hconf := hrun.conf_eq S hrole hdone fun e he hlt hkind => hnone
    (any_eq_true.mpr ⟨e, he, by simp [hlt, hkind]⟩)
  have hchain : Γ.regime.Chain F := S.chain_of_rooted hrun.holds.rooted
  have hstep : Γ.regime.view next = Γ.regime.conf F ∨
      (Γ.regime.conf F).Follows (Γ.regime.view next) := by
    rcases hfrozen : Γ.regime.frozen with - | -
    · rw [hconf]
      exact .inr (Regime.follows_of_transition hfrozen htransition)
    · rw [hchain.conf_frozen hfrozen (hkept hfrozen)]
      exact .inl (hkept hfrozen)
  have hnext : ∀ e : Entry, e.kind = .config → e.command = encoded →
      Γ.regime.conf (F ++ [e]) = Γ.regime.view next := by
    rintro e hkind rfl
    rw [Regime.conf_concat_of_decode hkind (Configuration.decode_encode hencoded),
      Regime.view_normalize]
  refine appendEntry_spec S hrun hrole hdone rfl (hchain.concat fun _ => ?_) ?_
  · rw [hnext _ rfl rfl]
    exact hstep
  · rw [hnext _ rfl rfl, ← hconf]
    rcases hstep with heq | hfollows
    · rw [heq]
      exact Nat.le_succ _
    · exact hfollows.1.le

theorem transferLeadership_spec (h : NodeOK Γ g i n) (target : NodeID) :
    Ends Γ g i (Node.transferLeadership target) n := by
  simp only [Node.transferLeadership, wp_bind, wp_get, wp_lift, wp_ite,
    wp_throw, wp_modify, wp_pure]
  refine ⟨fun _ hu => ⟨fun _ => h.refused S, fun _ => ?_⟩, fun _ _ => h.refused S⟩
  obtain ⟨F, hrun, hdone⟩ := h.running_of_usable hu
  exact Done.running (F := F) S { hrun with } hdone (by simp [MsgOK])

end

/-! ### Step -/

/-- The node campaigns when it is handed this message. -/
def Node.ObeysTimeoutNow (n : Node σ) (message : Message) : Prop :=
  message.kind = .timeoutNow ∧ message.toID = n.id ∧ message.term = n.term ∧
    n.role = .follower ∧ n.leaderID = message.fromID ∧ n.configuration.voter n.id = true

instance (n : Node σ) (message : Message) : Decidable (n.ObeysTimeoutNow message) :=
  inferInstanceAs (Decidable (_ ∧ _ ∧ _ ∧ _ ∧ _ ∧ _))

variable {message : Message}

theorem dispatch_spec (S : Record.Sane Γ.regime.rules g) (h : Running Γ g i F n)
    (hdone : n.lastApplied = n.commitIndex) (hmsg : MsgOK Γ g message)
    (hle : message.term ≤ n.term) (hto : message.toID = n.id) (hfrom : message.fromID ≠ 0)
    (hcurrent : n.ObeysTimeoutNow message → Current Γ F n.configuration) :
    Ends Γ g i (Node.dispatch Γ.machine message) n := by
  unfold Node.dispatch
  split <;> rename_i hkind
  · exact handleRequestVote_spec S h hdone hkind hmsg hfrom
  · exact handleVoteResponse_spec S h hdone hkind hmsg (hto.trans h.id)
  · exact handleAppendEntries_spec S h hdone hkind hmsg hle
  · exact handleAppendResponse_spec S h hdone hkind hmsg
  · exact handleInstallSnapshot_spec S h hdone hkind hmsg hle
  · exact handleSnapshotResponse_spec S h hdone hkind hmsg
  · exact handleTimeoutNow_spec S h hdone fun hterm hrole hleader hvoter =>
      hcurrent ⟨hkind, hto, hterm, hrole, hleader, hvoter⟩

theorem step_spec (S : Record.Sane Γ.regime.rules g) (h : NodeOK Γ g i n) (hmsg : MsgOK Γ g message)
    (hcurrent : ∀ F, Running Γ g i F n → n.ObeysTimeoutNow message →
      Current Γ F n.configuration) :
    Ends Γ g i (Node.step Γ.machine message) n := by
  simp only [Node.step, wp_bind, wp_get, wp_lift, wp_ite, wp_throw, not_or, not_not]
  refine ⟨fun _ hu => ⟨fun _ => h.refused S, fun hvalid => ⟨fun hnew => ?_, fun hold => ?_⟩⟩,
    fun _ _ => h.refused S⟩
  all_goals
    obtain ⟨F, hrun, hdone⟩ := h.running_of_usable hu
    obtain ⟨hto, hfrom, -⟩ := hvalid
  · refine wp_imp (advanceTerm_spec S hrun hdone hnew) ?_
    -- the node has just forgotten its leader, so it obeys no `TimeoutNow`
    rintro - n' ⟨hrun', hdone', hterm, hleader⟩
    refine dispatch_spec S hrun' hdone' hmsg (Nat.le_of_eq hterm.symm)
      (hto.trans (hrun.id.trans hrun'.id.symm)) hfrom ?_
    rintro ⟨-, -, -, -, hobeys, -⟩
    exact absurd (hobeys.symm.trans hleader) hfrom
  · exact dispatch_spec S hrun hdone hmsg (by omega) hto hfrom (hcurrent F hrun)

/-! ### Building a node -/

variable {M : StateMachine σ} {config : Config σ}

/-- What `NewNode` has checked and built. -/
theorem newNode_ok (h : newNode M config = .ok n) :
    config.id ≠ 0 ∧ config.effective.validate = .ok () ∧
      ∃ machine, config.restore M = .ok machine ∧
        n = (config.build machine).resetElectionTimer := by
  simp only [newNode, validateConfig, throw_bind, bind_eq_ok, ite_throw_eq_ok] at h
  obtain ⟨-, ⟨hid, -, -, -⟩, -, -, hvalid, -, machine, hmachine, hn⟩ := h
  simp only [not_or, not_not, isOk_iff] at hid hvalid
  obtain ⟨⟨⟨⟩, hok⟩, -⟩ := hvalid
  exact ⟨hid.1, hok, machine, hmachine, (Except.ok.inj hn).symm⟩

/-- A restored state machine has seen the entries behind the snapshot. -/
theorem Config.reflects_restore {d : PersistentState}
    (hd : config.store.state = d) (h : Holds Γ g i d F) (hfresh : Γ.fresh config.stateMachine)
    {machine : σ} (hm : config.restore Γ.machine = .ok machine) :
    Reflects Γ (F.take d.snapshot.index) machine := by
  unfold Config.restore at hm
  rw [hd] at hm
  split at hm
  · rename_i hindex
    split at hm
    · rename_i m hrestore
      cases hm
      obtain ⟨m', hreflects, hdata⟩ := h.snapshot.data hindex
      have := Reflects.restore config.stateMachine hreflects hdata
      rw [hrestore] at this
      exact this rfl
    · cases hm
  · rename_i hindex
    cases hm
    rw [not_not.mp hindex, take_zero]
    exact Reflects.fresh hfresh

/-- The configuration a node starts with is in order: it was stored, or it is the
initial configuration of the group. -/
theorem Config.effective_ok (S : Record.Sane Γ.regime.rules g)
    (h : Holds Γ g i config.store.state F)
    (hvalid : config.effective.validate = .ok ())
    (hinit : Γ.regime.view config.initial = Γ.regime.base) :
    ConfigOK Γ.regime g config.store.state.hardState.term config.effective ∧
      (Γ.regime.conf (F.take config.store.state.snapshot.index)).version ≤
        (Γ.regime.view config.effective).version := by
  unfold Config.effective at hvalid ⊢
  split at hvalid
  · rename_i hstored
    rw [if_pos hstored, configOK_normalize, Regime.view_normalize]
    refine ⟨h.config hstored, ?_⟩
    by_cases hindex : config.store.state.snapshot.index = 0
    · rw [hindex, take_zero]
      exact S.sound.version_initial_le (h.config hstored).origin
    · exact (h.snapshot.config_current hindex).trans (h.config_behind hindex).2
  · rename_i hstored
    have hindex : config.store.state.snapshot.index = 0 := by
      by_contra hne
      exact hstored (h.config_behind hne).1
    rw [if_neg hstored, configOK_normalize, Regime.view_normalize, hinit, hindex]
    refine ⟨⟨fun hnil => ?_, .inl (by rw [hinit]; rfl)⟩, Nat.le_refl _⟩
    exact (Configuration.validate_ok hvalid).2 (Configuration.normalize_oldVoters_eq_nil.mpr hnil)

/-- `NewNode` on the durable state of a node builds that node again. -/
theorem newNode_running (config : Config σ) (S : Record.Sane Γ.regime.rules g)
    (hd : Holds Γ g config.id config.store.state F)
    (hinit : Γ.regime.view config.initial = Γ.regime.base)
    (hfresh : Γ.fresh config.stateMachine) (h : newNode Γ.machine config = .ok n) :
    Running Γ g config.id F n ∧ n.lastApplied = n.commitIndex := by
  obtain ⟨hid, hvalid, machine, hmachine, rfl⟩ := newNode_ok h
  obtain ⟨hok, hcurrent⟩ := Config.effective_ok S hd hvalid hinit
  have hne := (Configuration.validate_ok hvalid).1
  obtain ⟨timeout, draws, heq⟩ := (config.build machine).exists_resetElectionTimer
  refine ⟨Running.resetElectionTimer ?_, by rw [heq]; rfl⟩
  have hsynced : Synced config.store.state
      { config.store.state with config := config.effective } := by
    refine ⟨config.store.state.config, rfl, ?_⟩
    by_cases hstored : config.store.state.config.version = 0
    · refine .inr ⟨hstored, ?_⟩
      by_contra hindex
      exact (hd.config_behind hindex).1 hstored
    · exact .inl (by simp [Config.effective, hstored])
  have hbehind : config.store.state.snapshot.index ≠ 0 → config.effective.version ≠ 0 ∧
      (Γ.regime.view config.store.state.snapshot.config).version ≤
        (Γ.regime.view config.effective).version := by
    intro hindex
    obtain ⟨hstored, hle⟩ := hd.config_behind hindex
    refine ⟨hne, hle.trans (Nat.le_of_eq ?_)⟩
    rw [Config.effective, if_pos hstored, Regime.view_normalize]
  exact
    { id := rfl
      id_ne := hid
      alive := rfl
      holds := { hd with config := fun _ => hok, config_behind := hbehind }
      synced := hsynced
      progress :=
        { snap_le := Nat.le_refl _
          applied_le := Nat.le_refl _
          commit_le := hd.snapshot.le
          committed := hd.snapshot.committed
          config := hok
          config_current := hcurrent
          machine := Config.reflects_restore rfl hd hfresh hmachine
          applied := fun e he => by cases he }
      config_same := ⟨rfl, rfl⟩
      config_ne := hne
      role := trivial }

end RivetDB.Raft
