import RivetDB.Raft.Replication

/-!
# Elections

A candidacy, a vote and a won election are moves of the record, each made after
the hard state that promises it was saved.  The one thing a campaign needs that
the code does not check is `Current`: the log may be at most one configuration
ahead of the configuration the node acts under.
-/

namespace RivetDB.Raft

open Done Prog Consensus

variable {σ : Type} {Γ : Setting σ} {g : Ghost} {i : NodeID} {F : List Entry} {n : Node σ}

/-- The log is at most one configuration ahead of the node. -/
def Current (Γ : Setting σ) (F : List Entry) (c : Configuration) : Prop :=
  (Γ.regime.conf F).version ≤ (Γ.regime.view c).version + 1

/-! ### Changing the hard state -/

variable {d : PersistentState} {t : ℕ}

/-- A later term leaves everything but the promises about it. -/
theorem Holds.newTerm (h : Holds Γ g i d F) (hlt : d.hardState.term < t) :
    Holds Γ g i { d with hardState := { term := t, votedFor := 0 } } F :=
  have hle := Nat.le_of_lt hlt
  { snapshot := h.snapshot.mono_term hle
    entries := h.entries
    indexed := h.indexed
    rooted := h.rooted
    terms := fun e he => (h.terms e he).trans hle
    retain := h.retain.mono_term hle
    vote := (h.later t hlt).1
    later := fun T hT => h.later T (hlt.trans hT)
    config := fun h0 => (h.config h0).mono_term hle
    config_behind := h.config_behind }

/-- `advanceTerm` moves a node to a later term as a follower. -/
theorem advanceTerm_spec (S : Record.Sane Γ.regime.rules g) (h : Running Γ g i F n)
    (hdone : n.lastApplied = n.commitIndex) (ht : n.term < t) :
    (Node.advanceTerm t).wp
      (fun _ n' => Running Γ g i F n' ∧ n'.lastApplied = n'.commitIndex ∧ n'.term = t ∧
        n'.leaderID = 0)
      (fun _ n' => Done Γ g i [] n') n := by
  simp only [Node.advanceTerm, wp_bind, wp_get, Node.wp_assert, wp_modify]
  refine ⟨fun _ => ?_, fun hbad => absurd ht (by simpa using hbad)⟩
  set d : PersistentState :=
    { n.persistent with hardState := { term := t, votedFor := 0 } } with hd
  obtain ⟨hcore, hrole, hconfig⟩ :=
    Node.sameCore_becomeFollower { n with persistent := d } 0
  set n' := Node.becomeFollower { n with persistent := d } 0 with hn'
  refine Node.wp_persist (fun _ store hstore => ?_) (fun err store hstore => ?_)
  · refine ⟨?_, ?_, ?_, Node.becomeFollower_leaderID _ _⟩
    · have hle := Nat.le_of_lt ht
      refine
        { id := hcore.id.trans h.id
          id_ne := h.id_ne
          alive := hcore.stopped.trans h.alive
          holds := ?_
          synced := ⟨n.persistent.config, ?_, .inl ?_⟩
          progress := ?_
          config_same := ?_
          config_ne := ?_
          role := ?_ }
      all_goals dsimp only
      · rw [hcore.persistent]
        exact h.holds.newTerm ht
      · rw [hstore, hcore.persistent]
      · rw [hcore.persistent]
      · rw [hcore.persistent, hcore.commitIndex, hcore.lastApplied, hconfig,
          hcore.stateMachine, hcore.applied]
        exact h.progress.mono_term hle
      · rw [hcore.persistent, hconfig]
        exact h.config_same
      · rw [hconfig]
        exact h.config_ne
      · rw [hrole]
        trivial
    · dsimp only
      rw [hcore.lastApplied, hcore.commitIndex]
      exact hdone
    · simp only [Node.term, hcore.persistent, hd]
  · refine dead S (h.dead rfl ?_ hcore.applied ?_)
    · dsimp only at hstore ⊢
      rw [hstore, hcore.store]
    · intro hlead
      exact absurd (hlead.symm.trans hrole) (by simp)

/-! ### Voting -/

/-- A node that has saved its first vote of the term has voted. -/
theorem Running.castVote (S : Record.Sane Γ.regime.rules g) (h : Running Γ g i F n)
    (hzero : n.persistent.hardState.votedFor = 0) {c : NodeID} (hc : c ≠ 0)
    {F' : List Entry} {b : Ballot} (hcand : g.cand c n.term = some (F', b))
    (hup : lastTerm Entry.term F < lastTerm Entry.term F' ∨
      lastTerm Entry.term F = lastTerm Entry.term F' ∧ F.length ≤ F'.length)
    {store : Store} (hstore : store.state = { n.persistent with
      hardState := { n.persistent.hardState with votedFor := c } }) :
    Outcome Γ g i fun g' => g'.vote i n.term = some c ∧ Running Γ g' i F
      { n with
        persistent := { n.persistent with
          hardState := { n.persistent.hardState with votedFor := c } }
        store := store } := by
  have hvote := h.holds.vote
  rw [if_pos hzero] at hvote
  have G : Record.Grows i g (g.castVote i n.term c) := Record.castVote_grows hvote
  have hkeeps : g.VoteKeeps Γ.regime.rules.term i n.term (· ≤ n.term) F' :=
    h.holds.retain.voteKeeps_of_upToDate S h.holds.rooted (S.campaigned hcand).rooted
      (S.campaigned hcand).lt hup
  refine ⟨_, G, S.castVote hvote hcand hkeeps, Record.put_same _ _ _ _, ?_⟩
  have hholds : Holds Γ (g.castVote i n.term c) i { n.persistent with
      hardState := { n.persistent.hardState with votedFor := c } } F :=
    { h.holds with
      snapshot := h.holds.snapshot.grow S G
      rooted := G.rooted h.holds.rooted
      retain := h.holds.retain.grow S G fun _ => rfl
      vote := by
        dsimp only
        rw [if_neg hc]
        exact Record.put_same _ _ _ _
      later := fun T hT => by
        refine ⟨?_, (h.holds.later T hT).2⟩
        refine (Record.put_of_ne _ _ ?_).trans (h.holds.later T hT).1
        rintro ⟨-, rfl⟩
        exact absurd hT (Nat.lt_irrefl _)
      config := fun h0 => (h.holds.config h0).grow S G }
  refine
    { h with
      holds := hholds
      synced := ⟨n.persistent.config, hstore, .inl rfl⟩
      progress := h.progress.grow S G
      role := ?_ }
  have hrole := h.role
  revert hrole
  dsimp only
  cases n.role with
  | follower => exact fun _ => trivial
  | candidate => exact fun ⟨hcand', hvotes, hself⟩ =>
    ⟨hcand', fun x hx => G.vote (hvotes x hx), hself⟩
  | leader => exact fun hlead => hlead

variable {message : Message}

theorem handleRequestVote_spec (S : Record.Sane Γ.regime.rules g) (h : Running Γ g i F n)
    (hdone : n.lastApplied = n.commitIndex)
    (hkind : message.kind = .requestVote) (hmsg : MsgOK Γ g message)
    (hfrom : message.fromID ≠ 0) :
    Ends Γ g i (Node.handleRequestVote message) n := by
  unfold MsgOK at hmsg
  rw [hkind] at hmsg
  obtain ⟨F', b, hcand, hlastIndex, hlastTerm⟩ := hmsg
  simp only [Node.handleRequestVote, wp_bind, wp_get, wp_ite, wp_pure, wp_modify, wp_throw]
  refine ⟨fun _ => running S h hdone (by simp), fun _ => ⟨fun hgranted => ?_,
    fun hrefused => running S h hdone ?_⟩⟩
  swap
  · simp only [List.mem_singleton, forall_eq]
    exact fun hv => absurd hv hrefused
  simp only [Bool.and_eq_true, decide_eq_true_eq, Bool.or_eq_true, Node.logUpToDate,
    h.holds.views.lastIndex_eq, h.holds.views.lastTerm_eq, hlastIndex, hlastTerm] at hgranted
  obtain ⟨⟨⟨-, hterm⟩, hup⟩, hvoted⟩ := hgranted
  have reply : ∀ {g' : Ghost} {n' : Node σ} (granted : Bool), Record.Grows i g g' →
      Record.Sane Γ.regime.rules g' → Running Γ g' i F n' →
      n'.lastApplied = n'.commitIndex → g'.vote i n.term = some message.fromID →
      Done Γ g i
        [{ kind := .requestVoteResponse, fromID := n.id, toID := message.fromID,
           term := n.term, voteGranted := granted }] n'.resetElectionTimer := by
    intro g' n' granted G S' hrun hdone' hvote
    obtain ⟨timeout, draws, heq⟩ := n'.exists_resetElectionTimer
    refine trans G (running S' hrun.resetElectionTimer (by rw [heq]; exact hdone') ?_)
    simp only [List.mem_singleton, forall_eq]
    intro _
    rw [h.id]
    exact hvote
  refine ⟨fun hne => ?_, fun hsame => ?_⟩
  · have hzero := hvoted.resolve_right hne
    refine Node.wp_persist (fun _ store hstore => ?_)
      (fun err store hstore => dead S (h.dead rfl hstore rfl h.led))
    obtain ⟨g', G, S', hvote, hrun⟩ := h.castVote S hzero hfrom (hterm ▸ hcand) (by omega) hstore
    exact reply _ G S' hrun hdone hvote
  · have hvote := h.holds.vote
    rw [not_not.mp hsame, if_neg hfrom] at hvote
    exact reply _ (Record.Grows.refl g) S h hdone hvote

/-! ### Winning -/

variable {f : NodeID → Bool}

section

variable (S : Record.Sane Γ.regime.rules g) (h : Running Γ g i F n)

include S h

/-- A candidate with a quorum of votes leads its term. -/
theorem Running.win (hrole : n.role = .candidate)
    (hf : ∀ x, f x = true → g.vote x n.term = some i) (hquorum : n.configuration.quorum f = true)
    (votes : NodeID → Bool) (nextIndex matchIndex : NodeID → Option ℕ)
    (hmatch : ∀ x, (matchIndex x).getD 0 ≤ n.persistent.snapshot.index) :
    Outcome Γ g i fun g' => Running Γ g' i F
      { n with
        role := .leader, leaderID := n.id, votes := votes, heartbeatElapsed := 0
        nextIndex := nextIndex, matchIndex := matchIndex } := by
  have hcandidate := h.role
  rw [hrole] at hcandidate
  obtain ⟨hcand, -, hself⟩ := hcandidate
  let r : Election NodeID Entry Ballot :=
    { leader := i, init := F, config := Γ.regime.view n.configuration
      voters := {x | f x = true} }
  have hquorum' : Γ.regime.rules.Quorum r.config r.voters :=
    Regime.quorum_view h.progress.config.valid hquorum
  have hnone := S.unwon (r := r) hcand hf hquorum' hself
  have G : Record.Grows i g (g.win n.term r) :=
    Record.win_grows (r := r) hnone (S.unelected hnone)
  have hsnap := h.progress.snap_le.trans h.progress.applied_le
  have hlead : Leads (g.win n.term r) i n.term F :=
    ⟨⟨r, by simp [Record.win], rfl⟩, by simp [Record.win, r]⟩
  refine ⟨_, G, S.win (r := r) hcand hf hquorum' hself, ?_⟩
  exact
    { h with
      holds := h.holds.grow S G fun _ => ⟨rfl, rfl, rfl⟩
      progress := h.progress.grow S G
      role := ⟨hlead, (S.campaigned hcand).current, fun x => .inl ((hmatch x).trans hsnap)⟩ }

theorem becomeLeader_spec (hrole : n.role = .candidate) (hdone : n.lastApplied = n.commitIndex)
    (hf : ∀ x, f x = true → g.vote x n.term = some i)
    (hquorum : n.configuration.quorum f = true) :
    Ends Γ g i (Node.becomeLeader Γ.machine) n := by
  simp only [Node.becomeLeader, wp_bind, wp_get, wp_ite, wp_modify, wp_pure, Node.wp_fail]
  refine ⟨fun _ => dead S (h.fail _), fun _ => ?_⟩
  obtain ⟨g', G, S', hrun⟩ := h.win S hrole hf hquorum (fun _ => false)
    (fun peer => if peer ∈ n.peers then some (n.lastIndex + 1) else none)
    (fun peer => if peer ∈ n.peers then some n.persistent.snapshot.index else none)
    (fun x => by split <;> simp)
  have hcur : (Γ.regime.conf F).version ≤ (Γ.regime.view n.configuration).version + 1 :=
    hrun.role.2.1
  have hadmit := appendEntry_spec S' hrun rfl hdone
    (e := { index := n.lastIndex + 1, term := n.term, kind := .noOp }) rfl
    (Regime.Chain.concat (S'.chain_of_rooted hrun.holds.rooted) (by simp))
    (by rw [Regime.conf_concat_of_kind (by simp)]; exact hcur)
  exact wp_mono hadmit (fun _ _ hd => trans G hd) (fun _ _ hd => trans G hd)

theorem handleVoteResponse_spec (hdone : n.lastApplied = n.commitIndex)
    (hkind : message.kind = .requestVoteResponse) (hmsg : MsgOK Γ g message)
    (hto : message.toID = i) :
    Ends Γ g i (Node.handleVoteResponse Γ.machine message) n := by
  unfold MsgOK at hmsg
  rw [hkind, hto] at hmsg
  simp only [Node.handleVoteResponse, wp_bind, wp_get, wp_ite, wp_modify, wp_pure]
  refine ⟨fun _ => running S h hdone (by simp), fun hcase => ?_⟩
  simp only [not_or, not_not] at hcase
  obtain ⟨-, hrole, hterm⟩ := hcase
  have hcandidate := h.role
  rw [hrole] at hcandidate
  obtain ⟨hcand, hvotes, hself⟩ := hcandidate
  refine ⟨fun hgranted => ?_, fun _ => ⟨fun hquorum => becomeLeader_spec S h hrole hdone
    hvotes hquorum, fun _ => running S h hdone (by simp)⟩⟩
  have hvotes' : ∀ x, Function.update n.votes message.fromID true x = true →
      g.vote x n.term = some i := by
    intro x hx
    by_cases heq : x = message.fromID
    · rw [heq, ← hterm]
      exact hmsg hgranted
    · rw [Function.update_of_ne heq] at hx
      exact hvotes x hx
  have hrun : Running Γ g i F { n with votes := Function.update n.votes message.fromID true } := by
    refine { h with role := ?_ }
    rw [hrole]
    exact ⟨hcand, hvotes', hself⟩
  exact ⟨fun hquorum => becomeLeader_spec S hrun hrole hdone hvotes' hquorum,
    fun _ => running S hrun hdone (by simp)⟩

end

/-! ### Campaigning -/

section

variable (S : Record.Sane Γ.regime.rules g) (h : Running Γ g i F n)

include S h

/-- A node that has saved a vote for itself in the next term campaigns there. -/
theorem Running.campaign
    (hcurrent : Current Γ F n.configuration) (n' : Node σ) (hcore : Node.SameCore
      { n with persistent := { n.persistent with
        hardState := { term := n.term + 1, votedFor := n.id } }, store := n'.store } n')
    (hstore : n'.store.state = n'.persistent) (hconfig : n'.configuration = n.configuration)
    (hrole : n'.role = .candidate) (hvotes : ∀ x, n'.votes x = true → x = i) :
    Outcome Γ g i fun g' => Running Γ g' i F n' ∧
      g'.cand i (n.term + 1) = some (F, Γ.regime.view n.configuration) ∧
      g'.vote i (n.term + 1) = some i := by
  have hlt : n.term < n.term + 1 := Nat.lt_succ_self _
  obtain ⟨hvote, hcand, hack⟩ := h.holds.later (n.term + 1) hlt
  have G : Record.Grows i g (g.campaign i (n.term + 1) F (Γ.regime.view n.configuration)) :=
    Record.campaign_grows hvote hcand
  have hself : ∀ r, g.elect (n.term + 1) = some r → r.leader ≠ i := by
    rintro r hr rfl
    rw [(S.elected hr).cand] at hcand
    cases hcand
  have C : Record.Campaigned Γ.regime.rules g (n.term + 1) F (Γ.regime.view n.configuration) :=
    { rooted := h.holds.rooted
      lt := fun e he => Nat.lt_succ_of_le (h.holds.terms e he)
      origin := h.progress.config.origin.mono fun T hT => Nat.lt_succ_of_le hT
      current := hcurrent }
  refine ⟨_, G, S.campaign hvote hcand C (h.holds.retain.voteKeeps_self hlt), ?_,
    Record.put_same _ _ _ _, Record.put_same _ _ _ _⟩
  have hholds : Holds Γ (g.campaign i (n.term + 1) F (Γ.regime.view n.configuration)) i
      { n.persistent with hardState := { term := n.term + 1, votedFor := n.id } } F :=
    { snapshot := (h.holds.snapshot.grow S G).mono_term (Nat.le_succ _)
      entries := h.holds.entries
      indexed := h.holds.indexed
      rooted := G.rooted h.holds.rooted
      terms := fun e he => (h.holds.terms e he).trans (Nat.le_succ _)
      retain := (h.holds.retain.grow S G fun _ => rfl).mono_term (Nat.le_succ _)
      vote := by
        dsimp only
        rw [h.id, if_neg h.id_ne]
        exact Record.put_same _ _ _ _
      later := fun T hT => by
        dsimp only at hT
        have hne : ¬ (i = i ∧ T = n.term + 1) := fun heq => by omega
        obtain ⟨hv, hc, ha⟩ := h.holds.later T (show n.term < T by omega)
        exact ⟨(Record.put_of_ne _ _ hne).trans hv, (Record.put_of_ne _ _ hne).trans hc, ha⟩
      config := fun h0 => ((h.holds.config h0).grow S G).mono_term (Nat.le_succ _)
      config_behind := h.holds.config_behind }
  have hprogress := (h.progress.grow S G).mono_term (Nat.le_succ _)
  refine
    { id := hcore.id.trans h.id
      id_ne := h.id_ne
      alive := hcore.stopped.trans h.alive
      holds := by rw [hcore.persistent]; exact hholds
      synced := ⟨n'.persistent.config, hstore, .inl rfl⟩
      progress := ?_
      config_same := by rw [hcore.persistent, hconfig]; exact h.config_same
      config_ne := by rw [hconfig]; exact h.config_ne
      role := ?_ }
  · rw [hcore.persistent, hcore.commitIndex, hcore.lastApplied, hcore.stateMachine,
      hcore.applied, hconfig]
    exact hprogress
  · rw [hrole, hconfig, hcore.persistent]
    refine ⟨Record.put_same _ _ _ _, fun x hx => ?_, hself⟩
    rw [hvotes x hx]
    exact Record.put_same _ _ _ _

theorem startElection_spec
    (hdone : n.lastApplied = n.commitIndex) (hcurrent : Current Γ F n.configuration) :
    Ends Γ g i (Node.startElection Γ.machine) n := by
  simp only [Node.startElection, wp_bind, wp_get, wp_ite, wp_modify, wp_pure, Node.wp_fail]
  refine ⟨fun _ => running S h hdone (by simp), fun _ => ⟨fun _ => ?_, fun _ => ?_⟩⟩
  · exact dead S (h.dead rfl rfl rfl (by simp))
  obtain ⟨timeout, draws, heq⟩ := Node.exists_resetElectionTimer
    { n with
      role := .candidate, leaderID := 0
      persistent := { n.persistent with
        hardState := { term := n.term + 1, votedFor := n.id } }
      votes := fun id => id = n.id
      nextIndex := fun _ => none
      matchIndex := fun _ => none }
  dsimp only [Node.term] at heq ⊢
  rw [heq]
  refine Node.wp_persist (fun _ store hstore => ?_)
    (fun err store hstore => dead S (h.dead rfl hstore rfl (by simp)))
  obtain ⟨g', G, S', hrun, hcand, hvote⟩ := h.campaign S hcurrent
    { n with
      role := .candidate, leaderID := 0
      persistent := { n.persistent with
        hardState := { term := n.term + 1, votedFor := n.id } }
      votes := fun id => id = n.id
      nextIndex := fun _ => none
      matchIndex := fun _ => none
      electionElapsed := 0, electionTimeout := timeout, draws := draws, store := store }
    ⟨rfl, rfl, rfl, rfl, rfl, rfl, rfl, rfl⟩ hstore rfl rfl
    (fun x hx => by rw [← h.id]; simpa using hx)
  refine ⟨fun hquorum => ?_, fun _ => ?_⟩
  · refine wp_mono (becomeLeader_spec S' hrun rfl hdone (f := fun x => x = n.id) ?_ hquorum)
      (fun _ _ hd => trans G hd) (fun _ _ hd => trans G hd)
    intro x hx
    have hxi : x = i := by rw [← h.id]; simpa using hx
    rw [hxi]
    exact hvote
  · refine trans G (running S' hrun hdone fun m hm => ?_)
    obtain ⟨peer, -, rfl⟩ := List.mem_map.mp hm
    refine ⟨F, Γ.regime.view n.configuration, ?_, hrun.holds.views.lastIndex_eq,
      hrun.holds.views.lastTerm_eq⟩
    rw [h.id]
    exact hcand

theorem handleTimeoutNow_spec (hdone : n.lastApplied = n.commitIndex)
    (hcurrent : message.term = n.term → n.role = .follower → n.leaderID = message.fromID →
      n.configuration.voter n.id = true → Current Γ F n.configuration) :
    Ends Γ g i (Node.handleTimeoutNow Γ.machine message) n := by
  simp only [Node.handleTimeoutNow, wp_bind, wp_get, wp_ite, wp_pure]
  refine ⟨fun _ => running S h hdone (by simp), fun hcase => ?_⟩
  simp only [not_or, not_not, Bool.not_eq_true, Bool.not_eq_false'] at hcase
  obtain ⟨hterm, hrole, hleader, hvoter⟩ := hcase
  exact startElection_spec S h hdone (hcurrent hterm hrole hleader hvoter)

end

end RivetDB.Raft
