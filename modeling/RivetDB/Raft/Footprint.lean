import RivetDB.Raft.Conduct

/-!
# What a call leaves behind

The relation of `RivetDB.Raft.Conduct` read for the questions that the owner of a node asks,
whatever the call was and whatever it was called with.

* `Reaches.unread`: until a call touches the log, the log, the snapshot and both configurations are
  those it found.  With this, what holds of a call's node can be asked of the node before the call.
* `Kept`: a call does not change who the node is or how its store behaves, and the store holds what
  it held before or something that the call has offered to it.
* `Leaves.knows` and `Offers.knows`: a node learns of a configuration from its log, its own
  proposals and the messages it takes; it never makes one up.  A property of configurations
  therefore holds of all that a node may ever apply if it holds of what each call brings
  (`Call.Brings`).
* `Leaves.votes`: who the node may have voted for.
-/

namespace RivetDB.Raft

open List

variable {σ : Type}

/-! ### The store -/

namespace Store

variable (s : Store) (d : PersistentState)

theorem save_frame : (s.save d).2.refuse = s.refuse ∧ (s.save d).2.saveErr = s.saveErr ∧
    (s.save d).2.offered = s.offered ++ [d] := by
  unfold save
  dsimp only
  split
  · exact ⟨rfl, rfl, rfl⟩
  · split
    · exact ⟨rfl, rfl, rfl⟩
    · split <;> exact ⟨rfl, rfl, rfl⟩

theorem save_state : (s.save d).2.state = s.state ∨ (s.save d).2.state = d := by
  unfold save
  dsimp only
  split
  · exact .inl rfl
  · split
    · exact .inl rfl
    · split
      · exact .inl rfl
      · exact .inr rfl

end Store

/-! ### Known configurations -/

/-- The entry carries the configuration. -/
def Entry.Configures (e : Entry) (c : Configuration) : Prop :=
  e.kind = .config ∧ Configuration.decode e.command = .ok c

/-- The configuration is the committed one, or it may still be applied. -/
def PersistentState.Knows (d : PersistentState) (c : Configuration) : Prop :=
  c = d.config ∨ ∃ e ∈ d.entries, e.Configures c

def Node.Knows (n : Node σ) (c : Configuration) : Prop :=
  c = n.configuration ∨ n.persistent.Knows c

/-- The configurations that a call may bring to a node. -/
def Call.Brings : Call → Configuration → Prop
  | .step message, c =>
    message.kind = .appendEntries ∧ (∃ e ∈ message.entries, e.Configures c) ∨
      message.kind = .installSnapshot ∧ c = message.snapshot.config ∧ c.validate = .ok ()
  | .proposeConfiguration next, c => c = next ∧ c.validate = .ok ()
  | _, _ => False

section Lists

/-! Both are finite, so that what is asked of all of them can be evaluated. -/

def Entry.configuration (e : Entry) : Option Configuration :=
  if e.kind = .config then (Configuration.decode e.command).toOption else none

def PersistentState.known (d : PersistentState) : List Configuration :=
  d.config :: d.entries.filterMap Entry.configuration

def Call.brought : Call → List Configuration
  | .step message =>
    match message.kind with
    | .appendEntries => message.entries.filterMap Entry.configuration
    | .installSnapshot => [message.snapshot.config].filter (·.validate.isOk)
    | _ => []
  | .proposeConfiguration next => [next].filter (·.validate.isOk)
  | _ => []

variable {e : Entry} {c : Configuration} {Q : Configuration → Prop}

theorem Entry.configures_iff : e.Configures c ↔ e.configuration = some c := by
  unfold Entry.Configures Entry.configuration
  by_cases hkind : e.kind = .config
  · rcases hdecode : Configuration.decode e.command with err | c'
    · simp [hkind, Except.toOption]
    · simp [hkind, Except.toOption]
  · simp [hkind]

theorem PersistentState.mem_known {d : PersistentState} : c ∈ d.known ↔ d.Knows c := by
  simp [known, Knows, Entry.configures_iff]

theorem Call.mem_brought {call : Call} : c ∈ call.brought ↔ call.Brings c := by
  have hvalid : ∀ {c' : Configuration},
      c ∈ [c'].filter (·.validate.isOk) ↔ c = c' ∧ c.validate = .ok () := by
    intro c'
    rw [mem_filter, mem_singleton, Fallible.isOk_iff]
    exact and_congr_right fun _ => ⟨fun ⟨_, h⟩ => h, fun h => ⟨_, h⟩⟩
  cases call with
  | step message =>
    rcases hkind : message.kind <;>
      simp only [brought, Brings, hkind, hvalid, Entry.configures_iff, mem_filterMap] <;> simp
  | proposeConfiguration next => exact hvalid
  | _ => simp [brought, Brings]

instance [DecidablePred Q] (d : PersistentState) : Decidable (∀ c, d.Knows c → Q c) :=
  decidable_of_iff (∀ c ∈ d.known, Q c) (forall_congr' fun _ => by rw [PersistentState.mem_known])

instance [DecidablePred Q] (n : Node σ) : Decidable (∀ c, n.Knows c → Q c) :=
  decidable_of_iff (Q n.configuration ∧ ∀ c, n.persistent.Knows c → Q c)
    ⟨fun h c hc => hc.elim (fun heq => heq ▸ h.1) (h.2 c),
      fun h => ⟨h _ (.inl rfl), fun c hc => h c (.inr hc)⟩⟩

instance [DecidablePred Q] (call : Call) : Decidable (∀ c, call.Brings c → Q c) :=
  decidable_of_iff (∀ c ∈ call.brought, Q c) (forall_congr' fun _ => by rw [Call.mem_brought])

end Lists

namespace Attempt

variable {A : Attempt σ} {s : Stage} {n n' : Node σ} {d : PersistentState}

/-! ### Before the log is touched -/

/-- The configurations, the log and the snapshot are the same. -/
structure Unread (n n' : Node σ) : Prop where
  configuration : n'.configuration = n.configuration
  entries : n'.persistent.entries = n.persistent.entries
  snapshot : n'.persistent.snapshot = n.persistent.snapshot
  config : n'.persistent.config = n.persistent.config

theorem Reaches.unread (h : A.Reaches .early n) : Unread A.before n := by
  generalize hs : Stage.early = s at h
  induction h with
  | start => exact ⟨rfl, rfl, rfl, rfl⟩
  | same _ hsame ih =>
    exact ⟨hsame.configuration.trans (ih hs).configuration, hsame.persistent ▸ (ih hs).entries,
      hsame.persistent ▸ (ih hs).snapshot, hsame.persistent ▸ (ih hs).config⟩
  | term _ _ _ ih | campaign _ _ _ ih | vote _ _ _ _ _ ih | save _ _ ih =>
    exact ⟨(ih hs).configuration, (ih hs).entries, (ih hs).snapshot, (ih hs).config⟩
  | late | append | merge | configure | install | compact => cases hs

/-! ### The store of the node -/

/-- What a call may not change of its node, and what its store may hold afterwards. -/
structure Kept (A : Attempt σ) (n : Node σ) : Prop where
  id : n.id = A.before.id
  refuse : n.store.refuse = A.before.store.refuse
  saveErr : n.store.saveErr = A.before.store.saveErr
  offered : ∃ ds, n.store.offered = A.before.store.offered ++ ds ∧ ∀ d ∈ ds, ∃ n', A.Offers n' d
  state : n.store.state = A.before.store.state ∨ ∃ n', A.Offers n' n.store.state

theorem Kept.same (h : A.Kept n) (hid : n'.id = n.id) (hstore : n'.store = n.store) :
    A.Kept n' := by
  obtain ⟨hi, hr, hs, ho, hst⟩ := h
  exact ⟨hid.trans hi, hstore ▸ hr, hstore ▸ hs, hstore ▸ ho, hstore ▸ hst⟩

/-- A state is offered to the store, whatever the store does with it. -/
theorem Kept.offer (h : A.Kept n) (hd : A.Offers n d) : A.Kept (n.afterSave d) := by
  obtain ⟨hrefuse, hsaveErr, hoffered⟩ := n.store.save_frame d
  obtain ⟨ds, hds, hfrom⟩ := h.offered
  refine ⟨h.id, hrefuse.trans h.refuse, hsaveErr.trans h.saveErr, ⟨ds ++ [d], ?_, ?_⟩, ?_⟩
  · rw [Node.afterSave, hoffered, hds, append_assoc]
  · rw [forall_mem_append, forall_mem_singleton]
    exact ⟨hfrom, n, hd⟩
  · rcases n.store.save_state d with hstate | hstate
    · rw [Node.afterSave, hstate]
      exact h.state
    · rw [Node.afterSave, hstate]
      exact .inr ⟨n, hd⟩

theorem Kept.taking (h : A.Kept n) (c : Configuration) : A.Kept (n.taking c) := by
  unfold Node.taking
  split
  · exact h.same rfl rfl
  · exact h

theorem Reaches.kept (h : A.Reaches s n) : A.Kept n := by
  induction h with
  | start => exact ⟨rfl, rfl, rfl, ⟨[], by simp, by simp⟩, .inl rfl⟩
  | late _ ih => exact ih
  | same _ hsame ih => exact ih.same hsame.id hsame.store
  | term _ _ _ ih | campaign _ _ _ ih | vote _ _ _ _ _ ih | append _ _ _ ih | merge _ _ _ _ _ ih
  | configure _ _ _ _ _ ih => exact ih.same rfl rfl
  | install h hd _ ih =>
    refine Kept.taking ?_ _
    exact (ih.offer (.install h hd)).same rfl rfl
  | compact h hd _ ih => exact (ih.offer (.compact h hd)).same rfl rfl
  | save h _ ih => exact ih.offer (.own h)

theorem Offers.reaches (h : A.Offers n d) : ∃ s, A.Reaches s n := by
  cases h with
  | own h => exact ⟨_, h⟩
  | install h | compact h => exact ⟨_, h⟩

/-- The rule for what a failure cannot change: it holds of what a call leaves if it holds of what a
call reaches. -/
theorem Leaves.of_reaches {P : Node σ → Prop} (hreaches : ∀ {s n}, A.Reaches s n → P n)
    (hmachine : ∀ {n : Node σ} {m}, P n → P { n with stateMachine := m })
    (hoffer : ∀ {n d}, A.Offers n d → P n → P (n.afterSave d))
    (hfailed : ∀ {n : Node σ} {err}, P n → P (n.failed err)) (h : A.Leaves n) : P n := by
  cases h with
  | returned h => exact hreaches h
  | failed h => exact hfailed (hreaches h)
  | refused hd =>
    obtain ⟨s, h⟩ := hd.reaches
    exact hfailed (hoffer hd (hreaches h))
  | unrestored hd =>
    obtain ⟨s, h⟩ := hd.reaches
    exact hfailed (hmachine (hoffer hd (hreaches h)))

theorem Leaves.kept (h : A.Leaves n) : A.Kept n :=
  h.of_reaches Reaches.kept (fun hk => hk.same rfl rfl) (fun hd hk => hk.offer hd)
    fun hk => hk.same rfl rfl

/-- A call that has not failed has left the error of its node alone. -/
theorem Reaches.fatal (h : A.Reaches s n) : n.fatal = A.before.fatal := by
  induction h with
  | start => rfl
  | same _ hsame ih => exact hsame.fatal.trans ih
  | install _ _ _ ih =>
    unfold Node.taking
    split <;> exact ih
  | late _ ih | term _ _ _ ih | campaign _ _ _ ih | vote _ _ _ _ _ ih | append _ _ _ ih
  | merge _ _ _ _ _ ih | configure _ _ _ _ _ ih | compact _ _ _ ih | save _ _ ih => exact ih

/-! ### Known configurations -/

section Knows

variable {Q : Configuration → Prop} (hnormal : ∀ c : Configuration, Q c → Q c.normalize)
  (hbefore : ∀ c, A.before.Knows c → Q c) (hbrings : ∀ c, A.call.Brings c → Q c)

/-- An entry that a leader adds carries what was proposed. -/
theorem adds_configures {entry : Entry} {c : Configuration} (h : A.call.Adds n entry)
    (hc : entry.Configures c) : ∃ next, A.call.Brings next ∧ c = next.normalize := by
  cases h with
  | noOp | command => cases hc.1
  | config hcall hvalid hencode =>
    refine ⟨_, by rw [hcall]; exact ⟨rfl, Configuration.validate_of_transition hvalid⟩, ?_⟩
    have hdecode := hc.2
    rw [Configuration.decode_encode hencode] at hdecode
    exact (Except.ok.inj hdecode).symm

/-- The entries of a merged log are of the node or of the message. -/
theorem mem_of_merges {message : Message} {log : List Entry} {e : Entry}
    (h : n.Merges message log) (he : e ∈ log) :
    e ∈ n.persistent.entries ∨ e ∈ message.entries := by
  obtain ⟨index, previous, kept, rest, rfl, hsuffix, -, -, -, hkept⟩ := h
  rcases mem_append.mp he with he | he
  · rcases hkept with rfl | ⟨rfl, -⟩
    · exact .inl (mem_of_mem_take he)
    · exact .inl he
  · exact .inr (hsuffix.subset he)

theorem mem_of_entriesFrom {index : ℕ} {es : List Entry} {e : Entry}
    (h : n.entriesFrom index = .ok es) (he : e ∈ es) : e ∈ n.persistent.entries := by
  unfold Node.entriesFrom at h
  split_ifs at h
  · cases h
    cases he
  · cases h
    exact mem_of_mem_drop he

/-- The configuration of a snapshot that is installed was validated, if there is one. -/
theorem valid_of_checked {c : Configuration} {p q r t : Prop}
    (h : ¬ (p ∨ q ∨ r ∨ t ∨ c.version ≠ 0 ∧ ¬ c.validate.isOk = true)) (hversion : c.version ≠ 0) :
    c.validate = .ok () := by
  have hok : c.validate.isOk = true := by
    by_contra hbad
    exact h (.inr (.inr (.inr (.inr ⟨hversion, hbad⟩))))
  obtain ⟨_, hok⟩ := Fallible.isOk_iff.mp hok
  exact hok

theorem Installs.knows (hn : ∀ c, n.Knows c → Q c) (hd : A.Installs n d)
    (hbrings : ∀ c, A.call.Brings c → Q c) : ∀ c, d.Knows c → Q c := by
  obtain ⟨hcall, hkind, hchecked, -, -, hsuffix⟩ := hd
  rintro c (rfl | ⟨e, he, hc⟩)
  · dsimp only
    split_ifs with hnewer
    · refine hbrings _ ?_
      rw [hcall]
      refine .inr ⟨hkind, rfl, valid_of_checked hchecked fun h0 => ?_⟩
      rw [h0] at hnewer
      exact absurd hnewer (by simp)
    · exact hn _ (.inr (.inl rfl))
  · rcases hsuffix with rfl | ⟨-, hfrom⟩
    · cases he
    · exact hn _ (.inr (.inr ⟨e, mem_of_entriesFrom hfrom he, hc⟩))

theorem Compacts.knows (hn : ∀ c, n.Knows c → Q c) (hd : A.Compacts n d) :
    ∀ c, d.Knows c → Q c := by
  obtain ⟨-, -, -, -, hfrom⟩ := hd
  rintro c (rfl | ⟨e, he, hc⟩)
  · exact hn _ (.inr (.inl rfl))
  · exact hn _ (.inr (.inr ⟨e, mem_of_entriesFrom hfrom he, hc⟩))

include hnormal hbefore hbrings in
theorem Reaches.knows (h : A.Reaches s n) : ∀ c, n.Knows c → Q c := by
  induction h with
  | start => exact hbefore
  | same _ hsame ih =>
    intro c hc
    refine ih c ?_
    rw [Node.Knows, hsame.configuration, hsame.persistent] at hc
    exact hc
  | append _ _ hentry ih =>
    rintro c (hc | hc | ⟨e, he, hc⟩)
    · exact ih c (.inl hc)
    · exact ih c (.inr (.inl hc))
    · rcases mem_append.mp he with he | he
      · exact ih c (.inr (.inr ⟨e, he, hc⟩))
      · obtain rfl := mem_singleton.mp he
        obtain ⟨next, hnext, rfl⟩ := adds_configures hentry hc
        exact hnormal _ (hbrings _ hnext)
  | merge _ hcall hkind _ hlog ih =>
    rintro c (hc | hc | ⟨e, he, hc⟩)
    · exact ih c (.inl hc)
    · exact ih c (.inr (.inl hc))
    · rcases mem_of_merges hlog he with he | he
      · exact ih c (.inr (.inr ⟨e, he, hc⟩))
      · refine hbrings c ?_
        rw [hcall]
        exact .inl ⟨hkind, e, he, hc⟩
  | configure _ hentry hkind hdecode _ ih =>
    have hnext := ih _ (.inr (.inr ⟨_, hentry, hkind, hdecode⟩))
    rintro c (rfl | rfl | hc)
    · exact hnormal _ hnext
    · exact hnext
    · exact ih c (.inr (.inr hc))
  | install _ hd _ ih =>
    have hknows := Installs.knows ih hd hbrings
    unfold Node.taking
    split
    · rintro c (rfl | hc)
      · exact hnormal _ (hknows _ (.inl rfl))
      · exact hknows c hc
    · rintro c (hc | hc)
      · exact ih c (.inl hc)
      · exact hknows c hc
  | compact _ hd _ ih =>
    rintro c (hc | hc)
    · exact ih c (.inl hc)
    · exact Compacts.knows ih hd c hc
  | late _ ih | term _ _ _ ih | campaign _ _ _ ih | vote _ _ _ _ _ ih | save _ _ ih => exact ih

include hnormal hbefore hbrings in
/-- A configuration that is offered to the store was known, or the call has brought it. -/
theorem Offers.knows (h : A.Offers n d) : ∀ c, d.Knows c → Q c := by
  cases h with
  | own h => exact fun c hc => h.knows hnormal hbefore hbrings c (.inr hc)
  | install h hd => exact Installs.knows (h.knows hnormal hbefore hbrings) hd hbrings
  | compact h hd => exact Compacts.knows (h.knows hnormal hbefore hbrings) hd

include hnormal hbefore hbrings in
/-- A configuration that a node knows after a call was known, or the call has brought it. -/
theorem Leaves.knows (h : A.Leaves n) : ∀ c, n.Knows c → Q c :=
  h.of_reaches (fun h => h.knows hnormal hbefore hbrings) (fun hn => hn) (fun _ hn => hn)
    fun hn => hn

end Knows

/-! ### Votes -/

theorem Installs.hardState (hd : A.Installs n d) : d.hardState = n.persistent.hardState := by
  cases hd
  rfl

theorem Compacts.hardState (hd : A.Compacts n d) : d.hardState = n.persistent.hardState := by
  cases hd
  rfl

/-- Who a node may have voted for: whom it had voted for, itself when it stands for election, or the
sender of a request, and both only as voters of the configuration that the call found. -/
inductive Votes (A : Attempt σ) : NodeID → Prop
  | before : Votes A A.before.persistent.hardState.votedFor
  | none : Votes A 0
  | self (hcall : A.call.Elects) (hvoter : A.before.configuration.voter A.before.id = true) :
      Votes A A.before.id
  | sender {message : Message} (hcall : A.call = .step message)
      (hkind : message.kind = .requestVote)
      (hvoter : A.before.configuration.voter message.fromID = true) : Votes A message.fromID

theorem Reaches.votes (h : A.Reaches s n) : A.Votes n.persistent.hardState.votedFor := by
  induction h with
  | start => exact .before
  | same _ hsame ih => exact hsame.persistent ▸ ih
  | term => exact .none
  | campaign h hcall hvoter =>
    rw [h.unread.configuration, h.kept.id] at hvoter
    exact h.kept.id ▸ .self hcall hvoter
  | vote h hcall hkind _ hvoter =>
    rw [h.unread.configuration] at hvoter
    exact .sender hcall hkind hvoter
  | install _ hd _ ih =>
    have hvotes : A.Votes _ := hd.hardState ▸ ih
    unfold Node.taking
    split <;> exact hvotes
  | compact _ hd _ ih => exact hd.hardState ▸ ih
  | late _ ih | append _ _ _ ih | merge _ _ _ _ _ ih | configure _ _ _ _ _ ih | save _ _ ih =>
    exact ih

theorem Leaves.votes (h : A.Leaves n) : A.Votes n.persistent.hardState.votedFor :=
  h.of_reaches (P := fun n => A.Votes n.persistent.hardState.votedFor) Reaches.votes (fun h => h)
    (fun _ h => h) fun h => h

theorem Offers.votes (h : A.Offers n d) : A.Votes d.hardState.votedFor := by
  cases h with
  | own h => exact h.votes
  | install h hd => exact hd.hardState ▸ h.votes
  | compact h hd => exact hd.hardState ▸ h.votes

end Attempt

variable {M : StateMachine σ} {config : Config σ} {n : Node σ}

theorem newNode_same (h : newNode M config = .ok n) :
    ∃ machine, config.restore M = .ok machine ∧ (config.build machine).Same n := by
  simp only [newNode, Fallible.throw_bind, Fallible.ite_throw_eq_ok, Fallible.bind_eq_ok] at h
  obtain ⟨-, -, -, -, -, -, machine, hmachine, h⟩ := h
  cases h
  exact ⟨machine, hmachine, Node.same_resetElectionTimer _⟩

end RivetDB.Raft
