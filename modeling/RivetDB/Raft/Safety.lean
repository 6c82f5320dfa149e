import RivetDB.Raft.Calls

/-!
# Safety of a Raft group

The invariant holds in every state a run reaches, as long as every action meets
its `Guard`, and the record behind it only grows (`run_invariant`).  What a node
shows of itself at one time is summarised by its `Account`; an account stays true
when the record grows, so two nodes can be compared at different times of a run.

* `fixed_membership_safety`: with the voters fixed, the group is safe in every
  run, also when configuration entries change its learners.
* `changing_membership_safety`: when the voters change, it is safe in every run
  in which no node campaigns more than one configuration behind its own log.
-/

namespace RivetDB.Raft

open Raft.Configuration List Consensus

variable {σ : Type} {Γ : Setting σ} {g g' : Ghost} {i j : NodeID} {F P : List Entry}
  {n n' : Node σ} {s : Cluster σ}

/-! ### One action -/

/-- No configuration entry a node holds is more than one version ahead of the
configuration it acts under. -/
def Node.ConfigCurrent (n : Node σ) : Prop :=
  ∀ e ∈ n.persistent.entries, e.kind = .config →
    ∀ next ∈ (decode e.command).toOption,
      next.version.toNat ≤ n.configuration.version.toNat + 1

instance (n : Node σ) : Decidable n.ConfigCurrent :=
  inferInstanceAs (Decidable (∀ e ∈ n.persistent.entries, _ →
    ∀ next ∈ (decode e.command).toOption, _ ≤ _))

/-- What an action must meet in the state it is taken in. -/
def Action.Guard (Γ : Setting σ) (s : Cluster σ) : Action σ → Prop
  | .start config =>
    Γ.regime.view config.initial = Γ.regime.base ∧ Γ.fresh config.stateMachine
  | .tick id => ∀ n, s.node id = some n → n.ElectionDue →
      Γ.regime.frozen = true ∨ n.ConfigCurrent
  | .deliver id k => ∀ n message, s.node id = some n → s.sent[k]? = some message →
      n.ObeysTimeoutNow message → Γ.regime.frozen = true ∨ n.ConfigCurrent
  | .proposeConfiguration _ next =>
    Γ.regime.frozen = true → Γ.regime.view next = Γ.regime.base
  | _ => True

/-- The guard of a campaign is what the record needs. -/
theorem Running.current (S : Record.Sane Γ.regime.rules g) (h : Running Γ g i F n)
    (hguard : Γ.regime.frozen = true ∨ n.ConfigCurrent) : Current Γ F n.configuration := by
  have hsplit : F = F.take n.persistent.snapshot.index ++ n.persistent.entries := by
    rw [h.holds.entries, take_append_drop]
  unfold Current
  rcases Regime.conf_append_cases Γ.regime (F.take n.persistent.snapshot.index) n.persistent.entries
    with heq | ⟨e, he, hkind, next, hnext, heq⟩
  · -- the log ends in the configuration of the snapshot, which the node has applied
    rw [← hsplit] at heq
    rw [heq]
    have := Γ.regime.rules.version_mono
      (S.chain_of_rooted (Record.Sane.rooted_of_le (R := Γ.regime.rules) h.holds.rooted
        ⟨_, take_append_drop n.lastApplied F⟩))
      (take_prefix_take_left h.progress.snap_le)
    exact (this.trans h.progress.config_current).trans (Nat.le_succ _)
  · rw [← hsplit] at heq
    rcases hguard with hfrozen | hcurrent
    · have hversion : (Γ.regime.view next).version = 0 := by simp [Regime.view, hfrozen]
      rw [heq, hversion]
      exact Nat.zero_le _
    · rw [heq]
      have := hcurrent e he hkind next (by rw [hnext]; rfl)
      simp only [Regime.view]
      split
      · omega
      · exact this

variable {out : List Message}

theorem put_invariant (I : Invariant Γ g s) (h : Done Γ g i out n) :
    ∃ g', Record.Grows i g g' ∧ Invariant Γ g' (s.put i n out) := by
  obtain ⟨g', G, S', hn, hout⟩ := h
  refine ⟨g', G, S', fun j n' hn' => ?_, fun j hj T => ?_, fun m hm => ?_⟩
  · by_cases hji : j = i
    · subst hji
      simp only [Cluster.put, Function.update_self, Option.some.injEq] at hn'
      exact hn' ▸ hn
    · simp only [Cluster.put, Function.update_of_ne hji] at hn'
      exact (I.nodes j n' hn').grow I.sane G hji
  · have hji : j ≠ i := by
      rintro rfl
      simp [Cluster.put] at hj
    simp only [Cluster.put, Function.update_of_ne hji] at hj
    rw [G.vote_eq T hji, G.cand_eq T hji, G.ack_eq T hji]
    exact I.absent j hj T
  · rcases mem_append.mp hm with hold | hnew
    · exact (I.messages m hold).grow I.sane G
    · exact hout m hnew

variable {x : NodeM σ (List Message)}

theorem call_invariant (I : Invariant Γ g s) (hx : ∀ n, s.node i = some n → Ends Γ g i x n) :
    ∃ g', Record.Grows i g g' ∧ Invariant Γ g' (s.call i x) := by
  unfold Cluster.call
  rcases hn : s.node i with - | n
  · exact ⟨g, Record.Grows.refl g, I⟩
  · have hwp := hx n hn
    unfold Ends Prog.wp at hwp
    dsimp only
    rcases hexec : x.exec n with ⟨_ | out, n'⟩ <;> rw [hexec] at hwp
    · exact put_invariant I hwp
    · exact put_invariant I hwp

/-- A node that is stopped from outside. -/
theorem NodeOK.stop (S : Record.Sane Γ.regime.rules g) (h : NodeOK Γ g i n) :
    Done Γ g i [] n.stop := by
  rcases h with hdead | ⟨F, hrun, -⟩
  · exact Done.dead S ⟨rfl, hdead.holds, hdead.led, hdead.applied⟩
  · exact Done.dead S (hrun.dead rfl rfl rfl hrun.led)

/-- What a node has stored stands for some log, built or not. -/
theorem Invariant.stored (I : Invariant Γ g s) (i : NodeID) : ∃ F, Holds Γ g i (s.stored i) F := by
  unfold Cluster.stored
  rcases hn : s.node i with - | n
  · have habsent := I.absent i hn
    refine ⟨[], ?_⟩
    exact
      { snapshot := ⟨Nat.le_refl _, rfl, fun j e he => by simp at he, Or.inl rfl,
          fun h0 => absurd rfl h0, fun h0 => absurd rfl h0, fun h0 => absurd rfl h0⟩
        entries := rfl
        indexed := fun j e he => by simp at he
        rooted := fun j e he => by simp at he
        terms := fun e he => by simp at he
        retain := fun T m hm => by
          rw [(habsent T).2.2, Nat.le_zero] at hm
          simp [hm]
        vote := (habsent 0).1
        later := fun T _ => habsent T
        config := fun h0 => absurd rfl h0
        config_behind := fun h0 => absurd rfl h0 }
  · rcases I.nodes i n hn with hdead | ⟨F, hrun, -⟩
    · exact hdead.holds
    · exact ⟨F, hrun.holds.of_synced hrun.synced⟩

theorem start_invariant (I : Invariant Γ g s) {config : Config σ}
    (hinit : Γ.regime.view config.initial = Γ.regime.base)
    (hfresh : Γ.fresh config.stateMachine) :
    ∃ i g', Record.Grows i g g' ∧ Invariant Γ g' (s.start Γ.machine config) := by
  unfold Cluster.start
  obtain ⟨F, hstored⟩ := I.stored config.id
  split
  · rename_i n hn
    obtain ⟨hrun, hdone⟩ := newNode_running (F := F)
      { config with store := { config.store with state := s.stored config.id } } I.sane hstored
      hinit hfresh hn
    exact ⟨config.id, put_invariant I (Done.running I.sane hrun hdone (by simp))⟩
  · split
    · exact ⟨config.id, g, Record.Grows.refl g, I⟩
    · rename_i n hn
      exact ⟨config.id, put_invariant I ((I.nodes _ n hn).stop I.sane)⟩

variable {a : Action σ}

/-- **One action.**  The invariant survives, and one node has added to the
record. -/
theorem act_invariant (I : Invariant Γ g s) (hguard : a.Guard Γ s) :
    ∃ i g', Record.Grows i g g' ∧ Invariant Γ g' (s.act Γ.machine a) := by
  have S := I.sane
  cases a with
  | start config => exact start_invariant I hguard.1 hguard.2
  | stop id =>
    simp only [Cluster.act]
    split
    · exact ⟨id, g, Record.Grows.refl g, I⟩
    · rename_i n hn
      exact ⟨id, put_invariant I ((I.nodes id n hn).stop S)⟩
  | tick id =>
    exact ⟨id, call_invariant I fun n hn => tick_spec S (I.nodes id n hn)
      fun F hrun hdue => hrun.current S (hguard n hn hdue)⟩
  | deliver id k =>
    simp only [Cluster.act]
    split
    · exact ⟨id, g, Record.Grows.refl g, I⟩
    · rename_i message hk
      exact ⟨id, call_invariant I fun n hn => step_spec S (I.nodes id n hn)
        (I.messages message (mem_of_getElem? hk))
        fun F hrun hobeys => hrun.current S (hguard n message hn hk hobeys)⟩
  | propose id command =>
    exact ⟨id, call_invariant I fun n hn => by
      simpa using propose_spec S (I.nodes id n hn) command⟩
  | proposeNoOp id =>
    exact ⟨id, call_invariant I fun n hn => by
      simpa using proposeNoOp_spec S (I.nodes id n hn)⟩
  | proposeConfiguration id next =>
    exact ⟨id, call_invariant I fun n hn => by
      simpa using proposeConfiguration_spec S (I.nodes id n hn) hguard⟩
  | transferLeadership id target =>
    exact ⟨id, call_invariant I fun n hn => transferLeadership_spec S (I.nodes id n hn) target⟩
  | createSnapshot id =>
    exact ⟨id, call_invariant I fun n hn => by
      simpa using createSnapshot_spec S (I.nodes id n hn)⟩

/-! ### Runs -/

/-- Every action of the run meets the condition in the state it is taken in. -/
def Cluster.Along (M : StateMachine σ) (C : Cluster σ → Action σ → Prop) :
    Cluster σ → List (Action σ) → Prop
  | _, [] => True
  | s, a :: actions => C s a ∧ Along M C (s.act M a) actions

instance Cluster.decidableAlong (M : StateMachine σ) (C : Cluster σ → Action σ → Prop)
    [∀ s a, Decidable (C s a)] :
    ∀ (s : Cluster σ) (actions : List (Action σ)), Decidable (Cluster.Along M C s actions)
  | _, [] => isTrue trivial
  | s, a :: actions =>
    have := decidableAlong M C (s.act M a) actions
    inferInstanceAs (Decidable (_ ∧ _))

variable {M : StateMachine σ} {C : Cluster σ → Action σ → Prop} {before after : List (Action σ)}

theorem Cluster.Along.append (h : Cluster.Along M C s (before ++ after)) :
    Cluster.Along M C s before ∧ Cluster.Along M C (s.run M before) after := by
  induction before generalizing s with
  | nil => exact ⟨trivial, h⟩
  | cons a before ih => exact ⟨⟨h.1, (ih h.2).1⟩, (ih h.2).2⟩

variable {actions : List (Action σ)}

theorem Cluster.along_of_forall (h : ∀ a ∈ actions, ∀ s, C s a) :
    Cluster.Along M C s actions := by
  induction actions generalizing s with
  | nil => trivial
  | cons a actions ih => exact ⟨h a (by simp) s, ih fun a' ha' => h a' (by simp [ha'])⟩

/-- The record before anything happened. -/
def Ghost.init : Ghost where
  elect _ := none
  log _ := []
  ack _ _ := 0
  commits := ∅
  vote _ _ := none
  cand _ _ := none

theorem invariant_init (Γ : Setting σ) : Invariant Γ Ghost.init Cluster.init where
  sane :=
    { chain := fun _ => Regime.chain_nil
      rooted := fun _ i e he => by simp [Ghost.init] at he
      unelected := fun _ => rfl
      tail := fun hr => by cases hr
      ack_le := fun _ _ => Nat.le_refl _
      elected := fun hr => by cases hr
      voted := fun hv => by cases hv
      campaigned := fun hc => by cases hc
      decided := fun hk => absurd hk (Set.notMem_empty _) }
  nodes _ _ hn := by cases hn
  absent _ _ _ := ⟨rfl, rfl, rfl⟩
  messages _ hm := by cases hm

/-- The record `g'` came about from `g` by moves of the nodes. -/
def Later (Γ : Setting σ) : Ghost → Ghost → Prop :=
  Relation.ReflTransGen fun g g' => Record.Sane Γ.regime.rules g ∧ ∃ i, Record.Grows i g g'

/-- **Runs.**  The invariant holds wherever a guarded run leads. -/
theorem run_invariant (I : Invariant Γ g s)
    (h : Cluster.Along Γ.machine (fun s a => a.Guard Γ s) s actions) :
    ∃ g', Later Γ g g' ∧ Invariant Γ g' (s.run Γ.machine actions) := by
  induction actions generalizing g s with
  | nil => exact ⟨g, Relation.ReflTransGen.refl, I⟩
  | cons a actions ih =>
    obtain ⟨i, g₁, G, I₁⟩ := act_invariant I h.1
    obtain ⟨g', L, I'⟩ := ih I₁ h.2
    exact ⟨g', Relation.ReflTransGen.head ⟨I.sane, i, G⟩ L, I'⟩

/-! ### What a node shows of itself -/

/-- The durable states a node can speak for: the stored one, and the one in
memory while it is alive. -/
def Node.Remembers (n : Node σ) (d : PersistentState) : Prop :=
  d = n.store.state ∨ n.stopped = false ∧ d = n.persistent

/-- The sequence `P` of entries explains all a node has applied: the entries it
ran itself stand at their places, and its state machine and its snapshots are
what running a prefix of `P` gives, including what a snapshot skipped. -/
structure Explains (Γ : Setting σ) (P : List Entry) (n : Node σ) : Prop where
  applied : ∀ e ∈ n.applied, 0 < e.index ∧ P[e.index - 1]? = some e
  machine : n.stopped = false →
    n.lastApplied ≤ P.length ∧ Reflects Γ (P.take n.lastApplied) n.stateMachine
  snapshot : ∀ d, n.Remembers d → d.snapshot.index ≤ P.length ∧
    (d.snapshot.index ≠ 0 → Summarises Γ (P.take d.snapshot.index) d.snapshot.data)

theorem Explains.mono {Q : List Entry} (h : Explains Γ P n) (le : P <+: Q) :
    Explains Γ Q n := by
  have htake : ∀ k, k ≤ P.length → Q.take k = P.take k := by
    intro k hk
    obtain ⟨tail, rfl⟩ := le
    rw [take_append_of_le_length hk]
  refine ⟨fun e he => ?_, fun halive => ?_, fun d hd => ?_⟩
  · exact ⟨(h.applied e he).1, getElem?_of_le le (h.applied e he).2⟩
  · obtain ⟨hle, hm⟩ := h.machine halive
    exact ⟨hle.trans le.length_le, by rwa [htake _ hle]⟩
  · obtain ⟨hle, hsum⟩ := h.snapshot d hd
    exact ⟨hle.trans le.length_le, by rwa [htake _ hle]⟩

/-- What the record says about a node at one time. -/
structure Account (Γ : Setting σ) (g : Ghost) (i : NodeID) (n : Node σ) : Prop where
  led : n.role = .leader → ∃ r, g.elect n.term = some r ∧ r.leader = i
  held : ∀ d, n.Remembers d → ∃ F, Views d F ∧ g.Rooted Entry.term F
  applied : ∃ t P, Committed g t P ∧ Explains Γ P n

/-- What a running node remembers has the snapshot and the log it works with. -/
theorem Running.remembers (h : Running Γ g i F n) {d : PersistentState} (hd : n.Remembers d) :
    d.snapshot = n.persistent.snapshot ∧ d.entries = n.persistent.entries := by
  rcases hd with rfl | ⟨-, rfl⟩
  · obtain ⟨c, hc, -⟩ := h.synced
    rw [hc]
    exact ⟨rfl, rfl⟩
  · exact ⟨rfl, rfl⟩

/-- The committed prefix behind a live node explains it. -/
theorem Running.explains (h : Running Γ g i F n) : Explains Γ (F.take n.commitIndex) n := by
  have hsnap := h.progress.snap_le
  have happ := h.progress.applied_le
  have hcommit := h.progress.commit_le
  have htake : ∀ k, k ≤ n.commitIndex → (F.take n.commitIndex).take k = F.take k := by
    intro k hk
    rw [take_take, Nat.min_eq_left hk]
  refine ⟨?_, ?_, ?_⟩
  · intro e he
    obtain ⟨hpos, hle, hget⟩ := h.progress.applied e he
    exact ⟨hpos, by rw [getElem?_take_of_lt (by omega), hget]⟩
  · intro _
    rw [length_take, htake _ happ]
    exact ⟨by omega, h.progress.machine⟩
  · intro d hd
    rw [(h.remembers hd).1, length_take, htake _ (by omega)]
    exact ⟨by omega, h.holds.snapshot.data⟩

theorem Running.account (h : Running Γ g i F n) : Account Γ g i n := by
  refine ⟨h.led, fun d hd => ?_, _, F.take n.commitIndex, h.progress.committed, h.explains⟩
  obtain ⟨hs, he⟩ := h.remembers hd
  have hv := h.holds.views
  exact ⟨F, ⟨hs ▸ hv.le, hs ▸ hv.term, by rw [he, hs]; exact hv.entries, hv.indexed⟩,
    h.holds.rooted⟩

theorem Dead.account (S : Record.Sane Γ.regime.rules g) (h : Dead Γ g i n) :
    Account Γ g i n := by
  obtain ⟨hstop, ⟨F, hF⟩, hled, t, P, hP, happ⟩ := h
  have hstored : ∀ d, n.Remembers d → d = n.store.state := by
    rintro d (rfl | ⟨halive, -⟩)
    · rfl
    · rw [hstop] at halive
      cases halive
  refine ⟨hled, fun d hd => ⟨F, hstored d hd ▸ hF.views, hF.rooted⟩, ?_⟩
  have hsnap := hF.snapshot
  -- the longer of what it ran and what its snapshot covers explains both
  have explains : ∀ {Q : List Entry}, P <+: Q →
      F.take n.store.state.snapshot.index <+: Q → Explains Γ Q n := by
    intro Q hPQ hFQ
    have hlen := hFQ.length_le
    rw [length_take, Nat.min_eq_left hsnap.le] at hlen
    have htake : Q.take n.store.state.snapshot.index =
        F.take n.store.state.snapshot.index := by
      conv_rhs => rw [prefix_iff_eq_take.mp hFQ]
      rw [length_take, Nat.min_eq_left hsnap.le]
    refine ⟨fun e he => ⟨(happ e he).1, getElem?_of_le hPQ (happ e he).2⟩,
      fun halive => ?_, fun d hd => ?_⟩
    · rw [hstop] at halive
      cases halive
    · rw [hstored d hd, htake]
      exact ⟨hlen, hsnap.data⟩
  rcases hP.comparable S hsnap.committed with hle | hle
  · exact ⟨_, _, hsnap.committed, explains hle prefix_rfl⟩
  · exact ⟨_, _, hP, explains prefix_rfl hle⟩

theorem NodeOK.account (S : Record.Sane Γ.regime.rules g) (h : NodeOK Γ g i n) :
    Account Γ g i n := by
  rcases h with hdead | ⟨F, hrun, -⟩
  · exact hdead.account S
  · exact hrun.account

/-- An account stays true. -/
theorem Account.later (h : Account Γ g i n) (L : Later Γ g g') : Account Γ g' i n := by
  induction L with
  | refl => exact h
  | tail _ hstep ih =>
    obtain ⟨S, j, G⟩ := hstep
    refine ⟨fun hrole => ?_, fun d hd => ?_, ?_⟩
    · obtain ⟨r, hr, hlead⟩ := ih.led hrole
      exact ⟨r, G.elect hr, hlead⟩
    · obtain ⟨F, hv, hroot⟩ := ih.held d hd
      exact ⟨F, hv, G.rooted hroot⟩
    · obtain ⟨t, P, hP, hex⟩ := ih.applied
      exact ⟨t, P, hP.grow S G, hex⟩

/-! ### Two nodes compared -/

/-- The state covers the entry `index` of term `term`: it holds that entry, or its
snapshot ends there. -/
def PersistentState.Covers (d : PersistentState) (index term : ℕ) : Prop :=
  d.snapshot.index = index ∧ d.snapshot.term = term ∨
    ∃ e ∈ d.entries, e.index = index ∧ e.term = term

/-- Where two states cover the same entry, they agree on every entry up to it
that both still hold. -/
def PersistentState.Matches (d d' : PersistentState) : Prop :=
  ∀ index term, d.Covers index term → d'.Covers index term →
    ∀ e ∈ d.entries, ∀ e' ∈ d'.entries, e.index = e'.index → e.index ≤ index → e = e'

/-- What is safe about two nodes, each looked at when it likes. -/
structure Agree (Γ : Setting σ) (i j : NodeID) (n n' : Node σ) : Prop where
  leader : n.role = .leader → n'.role = .leader → n.term = n'.term → i = j
  logs : ∀ d d', n.Remembers d → n'.Remembers d' → d.Matches d'
  applied : ∀ e ∈ n.applied, ∀ e' ∈ n'.applied, e.index = e'.index → e = e'
  history : ∃ P, Explains Γ P n ∧ Explains Γ P n'

variable {d : PersistentState}

theorem Views.mem_entries (v : Views d F) {e : Entry}
    (he : e ∈ d.entries) : 0 < e.index ∧ F[e.index - 1]? = some e := by
  rw [v.entries] at he
  obtain ⟨k, hk⟩ := mem_iff_getElem?.mp he
  rw [getElem?_drop] at hk
  have hindex := v.indexed _ _ hk
  exact ⟨by omega, by rw [hindex]; simpa using hk⟩

theorem Views.covers (v : Views d F) {index term : ℕ}
    (h : d.Covers index term) : index ≤ F.length ∧ termOf F index = term := by
  rcases h with ⟨rfl, rfl⟩ | ⟨e, he, rfl, rfl⟩
  · exact ⟨v.le, v.term.symm⟩
  · obtain ⟨hpos, hget⟩ := v.mem_entries he
    have hlen := (List.getElem?_eq_some_iff.mp hget).1
    exact ⟨by omega, termOf_eq hpos hget⟩

/-- Log matching, read off two durable states. -/
theorem Views.matches {d d' : PersistentState} {F' : List Entry} (v : Views d F)
    (v' : Views d' F') (hF : g.Rooted Entry.term F) (hF' : g.Rooted Entry.term F') :
    d.Matches d' := by
  intro index term hcovers hcovers' e he e' he' hsame hle
  obtain ⟨hpos, hget⟩ := v.mem_entries he
  obtain ⟨hpos', hget'⟩ := v'.mem_entries he'
  obtain ⟨hlen, hterm⟩ := v.covers hcovers
  obtain ⟨hlen', hterm'⟩ := v'.covers hcovers'
  obtain ⟨x, hx⟩ := Views.exists_entry F (show 0 < index by omega) hlen
  obtain ⟨x', hx'⟩ := Views.exists_entry F' (show 0 < index by omega) hlen'
  have htake := hF.take_eq_of_term_eq hF' hx hx' (by
      rw [termOf_eq (by omega) hx] at hterm
      rw [termOf_eq (by omega) hx'] at hterm'
      exact hterm.trans hterm'.symm)
  have := congrArg (fun l => l[e.index - 1]?) htake
  rw [getElem?_take_of_lt (by omega), getElem?_take_of_lt (by omega), hget, hsame, hget'] at this
  exact Option.some.inj this

/-- Two true accounts agree. -/
theorem Account.agree (S : Record.Sane Γ.regime.rules g) (h : Account Γ g i n)
    (h' : Account Γ g j n') : Agree Γ i j n n' := by
  obtain ⟨t, P, hP, hex⟩ := h.applied
  obtain ⟨t', P', hP', hex'⟩ := h'.applied
  obtain ⟨Q, hQ, hQ'⟩ : ∃ Q, Explains Γ Q n ∧ Explains Γ Q n' := by
    rcases hP.comparable S hP' with hle | hle
    · exact ⟨P', hex.mono hle, hex'⟩
    · exact ⟨P, hex, hex'.mono hle⟩
  refine ⟨fun hrole hrole' hterm => ?_, fun d d' hd hd' => ?_, fun e he e' he' hsame => ?_,
    Q, hQ, hQ'⟩
  · obtain ⟨r, hr, rfl⟩ := h.led hrole
    obtain ⟨r', hr', rfl⟩ := h'.led hrole'
    rw [← hterm, hr] at hr'
    rw [Option.some.inj hr']
  · obtain ⟨F, hv, hroot⟩ := h.held d hd
    obtain ⟨F', hv', hroot'⟩ := h'.held d' hd'
    exact hv.matches hv' hroot hroot'
  · have hget := (hQ.applied e he).2
    rw [hsame, (hQ'.applied e' he').2] at hget
    exact (Option.some.inj hget).symm

/-- Nodes agree across a guarded run. -/
theorem run_agree
    (h : Cluster.Along Γ.machine (fun s a => a.Guard Γ s) Cluster.init (before ++ after))
    (hn : (Cluster.init.run Γ.machine before).node i = some n)
    (hn' : (Cluster.init.run Γ.machine (before ++ after)).node j = some n') :
    Agree Γ i j n n' := by
  obtain ⟨hbefore, hafter⟩ := h.append
  obtain ⟨g, -, I⟩ := run_invariant (invariant_init Γ) hbefore
  obtain ⟨g', L, I'⟩ := run_invariant I hafter
  rw [Cluster.run_append] at hn'
  exact Account.agree I'.sane (((I.nodes i n hn).account I.sane).later L)
    ((I'.nodes j n' hn').account I'.sane)

/-! ### Fixed membership -/

/-- The configuration names the same voters, in whatever order. -/
def Configuration.SameVoters (c c' : Configuration) : Prop :=
  c.oldVoters.Perm c'.oldVoters ∧ c.newVoters.Perm c'.newVoters

theorem insertionSort_eq_of_perm {l l' : List NodeID} (h : l.Perm l') :
    l.insertionSort (· ≤ ·) = l'.insertionSort (· ≤ ·) :=
  Perm.eq_of_pairwise (fun _ _ _ _ => UInt64.le_antisymm) (pairwise_sort l) (pairwise_sort l')
    (((perm_insertionSort _ l).trans h).trans (perm_insertionSort _ l').symm)

theorem Regime.view_eq_of_sameVoters {ρ : Regime} {c c' : Configuration}
    (h : c.SameVoters c') (hversion : ρ.frozen = true ∨ c.version = c'.version) :
    ρ.view c = ρ.view c' := by
  have hold := insertionSort_eq_of_perm h.1
  have hnew := insertionSort_eq_of_perm h.2
  unfold Regime.view Configuration.normalize
  rcases hversion with hf | hv
  · simp only [hf, if_true, hold, hnew]
  · simp only [hv, hold, hnew]

/-- A group whose voters never change.  `fresh` are the state machines its nodes
are built with. -/
def Setting.fixed (M : StateMachine σ) (fresh : σ → Prop) (voters : Configuration) :
    Setting σ where
  machine := M
  fresh := fresh
  regime :=
    { frozen := true
      base := Regime.view { frozen := true, base := ⟨0, [], []⟩ } voters }

/-- An action of a run with fixed membership: every node is built with the same
voters, and a proposed configuration has them too, so it changes learners only. -/
def Action.FixedMembership (fresh : σ → Prop) (voters : Configuration) : Action σ → Prop
  | .start config => config.initial.SameVoters voters ∧ fresh config.stateMachine
  | .proposeConfiguration _ next => next.SameVoters voters
  | _ => True

variable {fresh : σ → Prop} {voters : Configuration}

theorem Action.FixedMembership.guard (h : a.FixedMembership fresh voters)
    (s : Cluster σ) : a.Guard (Setting.fixed M fresh voters) s := by
  cases a with
  | start config => exact ⟨Regime.view_eq_of_sameVoters h.1 (Or.inl rfl), h.2⟩
  | tick id => exact fun _ _ _ => Or.inl rfl
  | deliver id k => exact fun _ _ _ _ _ => Or.inl rfl
  | proposeConfiguration id next => exact fun _ => Regime.view_eq_of_sameVoters h (Or.inl rfl)
  | stop | propose | proposeNoOp | transferLeadership | createSnapshot => trivial

/-- **Safety with a fixed membership.**  Take any two nodes at any two times of a
run, through losses, duplications, reorderings, crashes and snapshots.  They are
not both leader of one term, their logs match, and one sequence of entries
explains everything both have applied. -/
theorem fixed_membership_safety (M : StateMachine σ) (fresh : σ → Prop)
    (voters : Configuration) (before after : List (Action σ))
    (h : ∀ a ∈ before ++ after, a.FixedMembership fresh voters) (i j : NodeID)
    (n n' : Node σ) (hn : (Cluster.init.run M before).node i = some n)
    (hn' : (Cluster.init.run M (before ++ after)).node j = some n') :
    Agree (Setting.fixed M fresh voters) i j n n' :=
  run_agree (Γ := Setting.fixed M fresh voters)
    (Cluster.along_of_forall fun a ha s => (h a ha).guard s) hn hn'

/-- A state machine that keeps nothing. -/
def idle : StateMachine Unit where
  apply m _ := (none, m)
  snapshot m := (.ok [], m)
  restore m _ := (none, m)

/-- Node `id` of a group of three, with the shortest timers. -/
def trio (id : NodeID) : Config Unit where
  id := id
  peers := [1, 2, 3]
  electionTimeoutMin := 2
  electionTimeoutMax := 2
  heartbeatInterval := 1
  random _ := 0
  store := {}
  stateMachine := ()

theorem trio_initial (id : NodeID) :
    (trio id).initial = { version := 1, oldVoters := [1, 2, 3] } := rfl

/-- Node 3 is elected by node 1 and commits its first entry. -/
def electThree : List (Action Unit) :=
  [.start (trio 1), .start (trio 2), .start (trio 3), .tick 3, .tick 3, .deliver 1 0,
    .deliver 3 2, .deliver 1 3, .deliver 3 5]

/-- Node 3 takes a snapshot and crashes; node 1 is elected after it, commits and adds a
learner. -/
def electOne : List (Action Unit) :=
  [.createSnapshot 3, .start (trio 3), .tick 1, .tick 1, .deliver 3 9, .deliver 1 10,
    .deliver 3 12, .deliver 1 13,
    .proposeConfiguration 1 { version := 2, oldVoters := [1, 2, 3], learners := [4] }]

theorem fixed_membership_safety_trio :
    ∃ n n', (Cluster.init.run idle electThree).node 3 = some n ∧
      (Cluster.init.run idle (electThree ++ electOne)).node 1 = some n' ∧
      (n.role, n.term, n.applied.length) = (.leader, 1, 1) ∧
      (n'.role, n'.term, n'.applied.length) = (.leader, 2, 2) ∧
      Agree (Setting.fixed idle (fun _ => True) { oldVoters := [3, 2, 1] }) 3 1 n n' := by
  have hbefore : ((Cluster.init.run idle electThree).node 3).map
      (fun n => (n.role, n.term, n.applied.length)) = some (.leader, 1, 1) := by decide +kernel
  have hafter : ((Cluster.init.run idle (electThree ++ electOne)).node 1).map
      (fun n => (n.role, n.term, n.applied.length)) = some (.leader, 2, 2) := by decide +kernel
  obtain ⟨n, hn, hshow⟩ := Option.map_eq_some_iff.mp hbefore
  obtain ⟨n', hn', hshow'⟩ := Option.map_eq_some_iff.mp hafter
  refine ⟨n, n', hn, hn', hshow, hshow', fixed_membership_safety _ _ _ _ _ ?_ _ _ _ _ hn hn'⟩
  have hvoters : ([1, 2, 3] : List NodeID).Perm [3, 2, 1] := by decide
  simp [electThree, electOne, Action.FixedMembership, trio_initial, SameVoters, hvoters]

/-! ### Changing membership -/

/-- A group whose voters change along its log, starting from `initial`. -/
def Setting.changing (M : StateMachine σ) (fresh : σ → Prop) (initial : Configuration) :
    Setting σ where
  machine := M
  fresh := fresh
  regime :=
    { frozen := false
      base := Regime.view { frozen := false, base := ⟨0, [], []⟩ } initial }

/-- Every node of the group is built with its initial configuration. -/
def Action.BuiltWith (fresh : σ → Prop) (initial : Configuration) : Action σ → Prop
  | .start config => config.initial.SameVoters initial ∧
      config.initial.version = initial.version ∧ fresh config.stateMachine
  | _ => True

/-- A node that starts an election with this action is at most one configuration
behind the log it holds. -/
def Action.CampaignsCurrent (s : Cluster σ) : Action σ → Prop
  | .tick id => ∀ n ∈ s.node id, n.ElectionDue → n.ConfigCurrent
  | .deliver id k => ∀ n ∈ s.node id, ∀ message ∈ s.sent[k]?,
      n.ObeysTimeoutNow message → n.ConfigCurrent
  | _ => True

instance (s : Cluster σ) (a : Action σ) : Decidable (a.CampaignsCurrent s) := by
  cases a <;> unfold Action.CampaignsCurrent <;> infer_instance

variable {initial : Configuration}

theorem Action.BuiltWith.guard (hbuilt : a.BuiltWith fresh initial)
    (hcurrent : a.CampaignsCurrent s) :
    a.Guard (Setting.changing M fresh initial) s := by
  cases a with
  | start config =>
    exact ⟨Regime.view_eq_of_sameVoters hbuilt.1 (Or.inr hbuilt.2.1), hbuilt.2.2⟩
  | tick id => exact fun n hn hdue => Or.inr (hcurrent n hn hdue)
  | deliver id k =>
    exact fun n message hn hk hobeys => Or.inr (hcurrent n hn message hk hobeys)
  | proposeConfiguration id next => exact fun hfrozen => by cases hfrozen
  | stop | propose | proposeNoOp | transferLeadership | createSnapshot => trivial

theorem Cluster.Along.guard (hbuilt : ∀ a ∈ actions, a.BuiltWith fresh initial)
    (h : Cluster.Along M (fun s a => a.CampaignsCurrent s) s actions) :
    Cluster.Along M (fun s a => a.Guard (Setting.changing M fresh initial) s) s actions := by
  induction actions generalizing s with
  | nil => trivial
  | cons a actions ih =>
    exact ⟨(hbuilt a (by simp)).guard h.1, ih (fun a' ha' => hbuilt a' (by simp [ha'])) h.2⟩

/-- **Safety across membership changes**, for runs in which no node campaigns more
than one configuration behind its log. -/
theorem changing_membership_safety (M : StateMachine σ) (fresh : σ → Prop)
    (initial : Configuration) (before after : List (Action σ))
    (hbuilt : ∀ a ∈ before ++ after, a.BuiltWith fresh initial)
    (hcurrent : Cluster.Along M (fun s a => a.CampaignsCurrent s) Cluster.init
      (before ++ after)) (i j : NodeID) (n n' : Node σ)
    (hn : (Cluster.init.run M before).node i = some n)
    (hn' : (Cluster.init.run M (before ++ after)).node j = some n') :
    Agree (Setting.changing M fresh initial) i j n n' :=
  run_agree (Γ := Setting.changing M fresh initial) (hcurrent.guard hbuilt) hn hn'

/-- Node 3 replaces the three voters by itself: the joint configuration is
committed with node 1, the final one by node 3 alone. -/
def shrinkToThree : List (Action Unit) :=
  [.proposeConfiguration 3 { version := 2, oldVoters := [1, 2, 3], newVoters := [3] },
    .deliver 1 8, .deliver 3 10,
    .proposeConfiguration 3 { version := 3, oldVoters := [3] }, .propose 3 [7]]

theorem changing_membership_safety_trio :
    ∃ n n', (Cluster.init.run idle electThree).node 3 = some n ∧
      (Cluster.init.run idle (electThree ++ shrinkToThree)).node 1 = some n' ∧
      Agree (Setting.changing idle (fun _ => True) { version := 1, oldVoters := [1, 2, 3] })
        3 1 n n' := by
  have hbefore : ((Cluster.init.run idle electThree).node 3).isSome := by decide +kernel
  have hafter : ((Cluster.init.run idle (electThree ++ shrinkToThree)).node 1).isSome := by
    decide +kernel
  obtain ⟨n, hn⟩ := Option.isSome_iff_exists.mp hbefore
  obtain ⟨n', hn'⟩ := Option.isSome_iff_exists.mp hafter
  refine ⟨n, n', hn, hn', changing_membership_safety _ _ _ _ _ ?_ ?_ _ _ _ _ hn hn'⟩
  · simp [electThree, shrinkToThree, Action.BuiltWith, trio_initial, SameVoters]
  · decide +kernel

/-- Node 3 restarts behind its own log and is elected again; its first messages
carry the old commit index, so nodes 1 and 2 keep acting under the old voters
while they hold both configuration entries.  Node 3 then decides alone, and node 1
campaigns among the old voters. -/
def splitGroup : List (Action Unit) :=
  electThree ++
  [.proposeConfiguration 3 { version := 2, oldVoters := [1, 2, 3], newVoters := [3] },
    .deliver 1 8, .deliver 3 10,
    .proposeConfiguration 3 { version := 3, oldVoters := [3] },
    .start (trio 3), .tick 3, .tick 3, .deliver 1 15, .deliver 3 17, .deliver 1 18,
    .deliver 3 20, .deliver 1 21, .deliver 2 19, .deliver 3 23, .deliver 2 24, .deliver 3 22,
    .propose 3 [7], .tick 1, .tick 1, .deliver 2 26, .deliver 1 28, .deliver 2 29,
    .deliver 1 31]

set_option maxRecDepth 10000 in
/-- Without that condition two nodes apply different entries at one index. -/
theorem changing_membership_split :
    (∀ a ∈ splitGroup, a.BuiltWith (fun _ => True) { version := 1, oldVoters := [1, 2, 3] }) ∧
      ∃ n n' e e', (Cluster.init.run idle splitGroup).node 1 = some n ∧
        (Cluster.init.run idle splitGroup).node 3 = some n' ∧
        e ∈ n.applied ∧ e' ∈ n'.applied ∧ e.index = e'.index ∧ e ≠ e' := by
  refine ⟨by simp [splitGroup, electThree, Action.BuiltWith, trio_initial, SameVoters], ?_⟩
  have hone : ((Cluster.init.run idle splitGroup).node 1).bind (fun n => n.applied[4]?) =
      some { index := 5, term := 3, kind := .noOp } := by decide +kernel
  have hthree : ((Cluster.init.run idle splitGroup).node 3).bind (fun n => n.applied[4]?) =
      some { index := 5, term := 2, kind := .command, command := [7] } := by decide +kernel
  obtain ⟨n, hn, he⟩ := Option.bind_eq_some_iff.mp hone
  obtain ⟨n', hn', he'⟩ := Option.bind_eq_some_iff.mp hthree
  exact ⟨n, n', _, _, hn, hn', mem_of_getElem? he, mem_of_getElem? he', rfl, by simp⟩

/-! ### Leader completeness -/

theorem NodeOK.running (h : NodeOK Γ g i n) (halive : n.stopped = false) :
    ∃ F, Running Γ g i F n := by
  rcases h with hdead | ⟨F, hF, -⟩
  · simp [hdead.stopped] at halive
  · exact ⟨F, hF⟩

end RivetDB.Raft
