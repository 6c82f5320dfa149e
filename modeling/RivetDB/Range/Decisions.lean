import RivetDB.Range.Machine

/-!
# What a range never takes back

`Apply` keeps what it wrote before it failed, so the results here are about the machine that an
entry leaves behind, applied or refused.  `Onward` relates a machine to all later ones: a decided
transaction stays as it is, and no mark moves back.  `Frozen` does so for a machine behind the
final fence of a split.
-/

namespace RivetDB.Range

open Prog

/-- The machine after a part of the log. -/
def Machine.replay (m : Machine) (entries : List Raft.Entry) : Machine :=
  entries.foldl (fun m entry => (apply entry).state m) m

open Machine

variable {m n n' : Machine} {entry : Raft.Entry} {operation : Txn.Operation} {command : Command}
  {op : SplitOperation} {durable : Bool} {P : Machine → Prop}

theorem replay_keeps (h : ∀ entry, Keeps P (apply entry)) (hm : P m) (entries : List Raft.Entry) :
    P (m.replay entries) := by
  induction entries generalizing m with
  | nil => exact hm
  | cons entry entries ih => exact ih ((h entry).state hm)

/-! ### Decisions -/

section Transactions

variable {α β : Type} (fixed : α → β) (epoch : α → ℕ) (closed : α → Prop)

/-- `b` is `a` at a later time: only what is not closed changes hands or is decided. -/
structure Follows (a b : α) : Prop where
  fixed : fixed b = fixed a
  epoch : epoch a ≤ epoch b
  closed : closed a → b = a

/-- Every transaction of `d` is known to `d'`, where it follows. -/
def Outlives (d d' : Dict Txn.ID α) : Prop :=
  ∀ id, ∀ a ∈ d.get id, ∃ b ∈ d'.get id, Follows fixed epoch closed a b

variable {fixed epoch closed}

theorem Outlives.set {d d' : Dict Txn.ID α} (h : Outlives fixed epoch closed d d') {id : Txn.ID}
    {c : α} (hnext : ∀ b ∈ d'.get id, Follows fixed epoch closed b c) :
    Outlives fixed epoch closed d (d'.set id c) := by
  intro id' a ha
  obtain ⟨b, hb, hab⟩ := h id' a ha
  rw [Dict.get_set]
  split_ifs with heq
  · have hbc := hnext b (heq ▸ hb)
    refine ⟨c, rfl, hbc.fixed.trans hab.fixed, hab.epoch.trans hbc.epoch, fun hclosed => ?_⟩
    obtain rfl := hab.closed hclosed
    exact hbc.closed hclosed
  · exact ⟨b, hb, hab⟩

end Transactions

/-- The machine `m'` is `m` at a later time. -/
structure Onward (m m' : Machine) : Prop where
  clock : m.clock.last ≤ m'.clock.last
  safeRead : m.safeRead ≤ m'.safeRead
  maxApplied : m.maxApplied ≤ m'.maxApplied
  records : Outlives (fun r => { r with status := .pending, epoch := 0 }) Txn.Record.epoch
    (·.status ≠ .pending) m.records m'.records
  participants : Outlives (fun p => { p with status := .prepared, epoch := 0 })
    Txn.ParticipantRecord.epoch (fun p => p.status = .committed ∨ p.status = .aborted)
    m.participants m'.participants

namespace Onward

theorem refl (m : Machine) : Onward m m :=
  ⟨le_rfl, le_rfl, le_rfl, fun _ r hr => ⟨r, hr, rfl, le_rfl, fun _ => rfl⟩,
    fun _ p hp => ⟨p, hp, rfl, le_rfl, fun _ => rfl⟩⟩

/-- The marks move on and the maps stay. -/
theorem marks (h : Onward m n) (hrecords : n'.records = n.records := by rfl)
    (hparticipants : n'.participants = n.participants := by rfl)
    (hclock : n.clock.last ≤ n'.clock.last := by simp)
    (hsafe : n.safeRead ≤ n'.safeRead := by simp)
    (hmax : n.maxApplied ≤ n'.maxApplied := by simp) : Onward m n' where
  clock := h.clock.trans hclock
  safeRead := h.safeRead.trans hsafe
  maxApplied := h.maxApplied.trans hmax
  records := hrecords ▸ h.records
  participants := hparticipants ▸ h.participants

end Onward

variable {index : ℕ}

theorem keeps_advance
    (h : ∀ n e, P n → n.engine.advanceApplied index = .ok e → P { n with engine := e }) :
    Keeps P (advanceMetadata index durable) := by
  intro n hn
  unfold advanceMetadata
  split_ifs
  · exact hn
  · rw [wp_bind, wp_get]
    split
    · exact hn
    · exact h n _ hn ‹_›

theorem onward_advance : Keeps (Onward m) (advanceMetadata index durable) :=
  keeps_advance fun _ _ hn _ => hn.marks

theorem onward_write {text : String} {call : Storage.Engine → Except Storage.Error Storage.Engine}
    {f : Unit → MachineM Unit} (hn : Onward m n)
    (hf : ∀ e, (f ()).wp (fun _ => Onward m) (fun _ => Onward m) { n with engine := e }) :
    (write text call >>= f).wp (fun _ => Onward m) (fun _ => Onward m) n := by
  unfold write
  simp only [wp_bind, wp_get]
  split
  · exact hf _
  · rw [wp_ite]
    exact ⟨fun _ => hf n.engine, fun _ => hn⟩

theorem onward_create : Keeps (Onward m) (applyCreate operation) := by
  refine Keeps.get_bind fun n hn => ?_
  split_ifs
  · exact hn
  split
  · split_ifs <;> exact hn
  · rename_i hnone
    exact { hn with records := hn.records.set fun r hr => by rw [hnone] at hr; cases hr }

theorem onward_decision {status : Txn.Status} :
    Keeps (Onward m) (applyDecision operation status) := by
  refine Keeps.get_bind fun n hn => ?_
  split
  · exact hn
  rename_i record hrecord
  split_ifs with _ _ _ _ hterminal
  all_goals try exact hn
  refine { hn with records := hn.records.set fun r hr => ?_ }
  obtain rfl := Option.some.inj (hrecord.symm.trans hr)
  refine ⟨rfl, le_rfl, fun hne => absurd ?_ hterminal⟩
  rcases hstatus : record.status with - | - | - <;> simp_all [Txn.Status.terminal]

theorem onward_takeover : Keeps (Onward m) (applyTakeover operation) := by
  refine Keeps.get_bind fun n hn => ?_
  split
  · exact hn
  rename_i record hrecord
  split_ifs with hpending _ hepoch
  all_goals try exact hn
  refine { hn with records := hn.records.set fun r hr => ?_ }
  obtain rfl := Option.some.inj (hrecord.symm.trans hr)
  push Not at hpending hepoch
  exact ⟨rfl, hepoch ▸ Nat.le_succ _, fun hne => absurd hpending.1 hne⟩

theorem onward_prepare : Keeps (Onward m) (applyPrepare entry operation durable) := by
  refine Keeps.get_bind fun n hn => ?_
  rw [wp_ite]
  refine ⟨fun _ => hn, fun _ => ?_⟩
  split
  · simp only [wp_ite]
    exact ⟨fun _ => onward_advance n hn, fun _ => ⟨fun _ => onward_advance n hn, fun _ => hn⟩⟩
  rename_i hnone
  have hset : ∀ p, Onward m (n.setParticipant operation.id p) := fun p =>
    { hn with participants := hn.participants.set fun q hq => by rw [hnone] at hq; cases hq }
  rw [wp_ite]
  refine ⟨fun _ => hset _, fun _ => ?_⟩
  rw [installPrepare, wp_bind, wp_get]
  split
  · exact hn
  · rw [wp_bind]
    exact onward_advance _ (hset _)
  · rw [wp_bind, wp_lift]
    refine ⟨fun mutations _ => onward_write hn fun e => ?_, fun _ _ => hn⟩
    exact (hset _).marks rfl rfl le_rfl le_rfl (le_max_left _ _)

theorem onward_resolution {status : Txn.ParticipantStatus} :
    Keeps (Onward m) (applyResolution entry operation status durable) := by
  refine Keeps.get_bind fun n hn => ?_
  split
  · rename_i hnone
    exact onward_advance _ { hn with
      participants := hn.participants.set fun q hq => by rw [hnone] at hq; cases hq }
  rename_i p hp
  simp only [wp_ite]
  refine ⟨fun _ => hn, fun _ => ⟨fun _ => onward_advance n hn, fun hepoch => ⟨fun _ =>
    onward_advance n hn, fun _ => ⟨fun _ => hn, fun hopen => ?_⟩⟩⟩⟩
  have hset : Onward m (n.setParticipant operation.id
      { p with status := status, epoch := operation.epoch }) := by
    refine { hn with participants := hn.participants.set fun q hq => ?_ }
    obtain rfl := Option.some.inj (hp.symm.trans hq)
    exact ⟨rfl, not_lt.mp hepoch, fun hdone => absurd hdone hopen⟩
  refine ⟨fun _ => onward_advance _ hset, fun _ => ?_⟩
  unfold resolveIntents
  cases durable
  · exact onward_write hn fun e => hset.marks rfl rfl le_rfl le_rfl le_rfl
  · exact hset

theorem onward_transaction : Keeps (Onward m) (applyTransaction entry command durable) := by
  refine Keeps.bind (Keeps.modify fun n hn => hn.marks) fun _ => ?_
  split_ifs
  · exact Keeps.bind (Keeps.modify fun n hn => hn.marks) fun _ => onward_advance
  split
  · exact Keeps.throw _
  unfold applyOperation
  split
  · exact onward_create.bind fun _ => onward_advance
  · exact onward_prepare
  · exact onward_decision.bind fun _ => onward_advance
  · exact onward_decision.bind fun _ => onward_advance
  · exact onward_takeover.bind fun _ => onward_advance
  · exact onward_resolution
  · exact onward_resolution
  · exact Keeps.throw _

theorem onward_barrier : Keeps (Onward m) (applyBootstrapBarrier entry op) := by
  refine Keeps.get_bind fun n hn => ?_
  have henter : ∀ {n'}, Onward m n' → Onward m (enterBarrier n' op) := fun h =>
    h.marks rfl rfl (by simp [enterBarrier]) (by simp [enterBarrier]) le_rfl
  split
  · rw [wp_ite]
    exact ⟨fun _ => hn, fun _ => hn.marks⟩
  · simp only [wp_ite]
    refine ⟨fun _ => ⟨fun _ => hn, fun _ => henter ?_⟩, fun _ => ⟨fun _ => hn, fun _ => henter hn⟩⟩
    exact hn.marks rfl rfl le_rfl le_rfl le_rfl
  · exact hn

theorem onward_installVersion : Keeps (Onward m) (installVersion entry command op durable) := by
  unfold installVersion
  split_ifs
  · exact Keeps.pure _
  · exact fun n hn => onward_write hn fun e => hn.marks

theorem onward_splitFields (h : n.splitFields entry op = .ok n') (hn : Onward m n) :
    Onward m n' := by
  unfold splitFields at h
  split at h
  all_goals try split_ifs at h
  all_goals cases h
  all_goals first
    | exact hn
    | exact hn.marks

/-- A split passes its fence and raises its epoch before it does anything else. -/
theorem keeps_split (hepoch : ∀ n epoch, P n → P { n with splitEpoch := epoch })
    (h : ∀ op, Keeps P (applySplitOperation entry command op durable)) :
    Keeps P (applySplit entry command durable) := by
  unfold applySplit
  split
  · exact Keeps.throw _
  refine Keeps.get_bind fun n hn => ?_
  rw [wp_ite]
  exact ⟨fun _ => hn, fun _ => h _ _ (hepoch n _ hn)⟩

theorem onward_split : Keeps (Onward m) (applySplit entry command durable) := by
  refine keeps_split (fun n epoch hn => hn.marks) fun op n hn => ?_
  unfold applySplitOperation
  split
  · exact onward_barrier.bind (fun _ => onward_advance) n hn
  · unfold applyBootstrapVersion
    simp only [wp_bind, wp_get, wp_ite]
    refine ⟨fun _ => hn, fun _ => ⟨fun _ => hn, fun _ =>
      ⟨fun _ => onward_advance _ hn, fun _ => ?_⟩⟩⟩
    exact onward_installVersion _ hn.marks
  · unfold applyReplayVersion
    simp only [wp_bind, wp_get, wp_ite]
    refine ⟨fun _ => hn, fun _ => ⟨fun _ => ⟨fun _ => onward_advance _ hn, fun _ => hn⟩,
      fun _ => ?_⟩⟩
    exact onward_installVersion _ hn.marks
  · rw [wp_bind, wp_get]
    split
    · exact hn
    · rename_i hfields
      exact onward_advance _ (onward_splitFields hfields hn)

theorem onward_applyWrite : Keeps (Onward m) (applyWrite entry command durable) := by
  refine Keeps.get_bind fun n hn => ?_
  rw [wp_ite]
  refine ⟨fun _ => hn, fun hfresh => onward_write hn fun e => ?_⟩
  have hengine : Onward m { n with engine := e } := hn.marks
  rw [wp_ite]
  refine ⟨fun hstamped => hengine.marks rfl rfl (by simp) le_rfl ?_, fun _ => hengine⟩
  exact (not_le.mp fun hle => hfresh ⟨hstamped.1, hstamped.2, hle⟩).le

theorem onward_apply : Keeps (Onward m) (apply entry) := by
  unfold apply
  split
  · exact Keeps.throw _
  unfold applyCommand
  refine Keeps.get_bind fun n hn => ?_
  simp only [wp_ite]
  refine ⟨fun _ => hn, fun _ => ⟨fun _ => hn, fun _ => ⟨fun _ => onward_split n hn, fun _ =>
    ⟨fun _ => hn, fun _ => ⟨fun _ => ⟨fun _ => hn, fun _ => onward_transaction n hn⟩, fun _ =>
      onward_applyWrite n hn⟩⟩⟩⟩⟩

/-- **Nothing is taken back.**  Whatever entries follow, in whatever order and whether they are
applied or refused, the home range never changes a decision, a participant never changes a
resolution, and no timestamp moves back. -/
theorem replay_onward (m : Machine) (entries : List Raft.Entry) : Onward m (m.replay entries) :=
  replay_keeps (fun _ => onward_apply) (.refl m) entries

/-! ### The final fence -/

/-- `n` comes after `m`, which has passed the final fence of a split. -/
structure Frozen (m n : Machine) : Prop where
  fence : n.userFence = true
  lifecycle : n.lifecycle ≠ .shadow
  engine : ∃ applied, n.engine = { m.engine with applied := applied }
  records : n.records = m.records
  participants : n.participants = m.participants
  maxApplied : n.maxApplied = m.maxApplied

theorem frozen_advance (hmode : m.engine.mvcc = true) :
    Keeps (Frozen m) (advanceMetadata index durable) := by
  refine keeps_advance fun n e hn he => { hn with engine := ?_ }
  obtain ⟨applied, hengine⟩ := hn.engine
  rw [Storage.Engine.advanceApplied, hengine, if_pos hmode] at he
  split_ifs at he
  all_goals cases he
  · exact ⟨applied, rfl⟩
  · exact ⟨index, rfl⟩

theorem frozen_split (hmode : m.engine.mvcc = true) :
    Keeps (Frozen m) (applySplit entry command durable) := by
  refine keeps_split (fun n epoch hn => { hn with }) fun op n hn => ?_
  unfold applySplitOperation
  split
  · unfold applyBootstrapBarrier
    simp only [wp_bind, wp_get]
    split
    · rw [wp_ite]
      exact ⟨fun _ => hn, fun _ => frozen_advance hmode _ { hn with }⟩
    · exact absurd ‹_› hn.lifecycle
    · exact hn
  · rw [applyBootstrapVersion, wp_bind, wp_get, if_pos (.inl hn.lifecycle)]
    exact hn
  · rw [applyReplayVersion, wp_bind, wp_get, if_pos (.inl hn.lifecycle)]
    exact hn
  · rw [wp_bind, wp_get]
    split
    · exact hn
    rename_i hfields
    refine frozen_advance hmode _ ?_
    unfold splitFields at hfields
    split at hfields
    all_goals try split_ifs at hfields
    all_goals cases hfields
    all_goals first
      | exact hn
      | exact { hn with }
      | exact { hn with lifecycle := fun h => by cases h }
      | exact { hn with fence := rfl }

/-- **A split parent stands still behind its final fence**: no later entry changes what is
stored. -/
theorem fenced_range_frozen (hmode : m.engine.mvcc = true) (hfence : m.userFence = true)
    (hlifecycle : m.lifecycle ≠ .shadow) (entries : List Raft.Entry) :
    Frozen m (m.replay entries) := by
  refine replay_keeps (fun entry => ?_) ⟨hfence, hlifecycle, ⟨_, rfl⟩, rfl, rfl, rfl⟩ entries
  unfold apply
  split
  · exact Keeps.throw _
  refine Keeps.get_bind fun n hn => ?_
  simp only [wp_ite]
  refine ⟨fun _ => hn, fun _ => ⟨fun _ => hn, fun _ => ⟨fun _ => frozen_split hmode n hn, fun _ =>
    ⟨fun _ => hn, fun hserving => absurd (.inr hn.fence) hserving⟩⟩⟩⟩

/-- The command for an operation of split 7 of range 1. -/
def splitSeven (type : SplitOperationType) : Command where
  type := .split
  key := [107]
  value := SplitOperation.toBytes
    { type := type, splitID := 7, epoch := 1, parentRangeID := 1, parentGeneration := 1 }
  timestamp := 0

/-- A write of range 1. -/
def putCommand (key value : Bytes) (timestamp : ℕ) : Command where
  type := .put
  key := key
  value := value
  timestamp := timestamp

/-- Range 1 with one write, behind the final fence of split 7. -/
def fencedParent : Machine :=
  Machine.replay
    { engine := { mvcc := true, sha256 := fun _ => .zero }, rangeID := 1, generation := 1 }
    [(putCommand [107] [1] 5).entry 1 1, (splitSeven .begin).entry 2 1,
      (splitSeven .finalFence).entry 3 1]

theorem fencedParent_frozen :
    (fencedParent.engine.versions.length, fencedParent.fenceIndex) = (1, 3) ∧
      ∀ entries, Frozen fencedParent (fencedParent.replay entries) :=
  ⟨by decide +kernel,
    fenced_range_frozen (by decide +kernel) (by decide +kernel) (by decide +kernel)⟩

end RivetDB.Range
