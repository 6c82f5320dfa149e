import RivetDB.Program.Relate
import RivetDB.Range.Image
import RivetDB.Storage.Export

/-!
# Two state machines that are driven by the same commands

A restored replica does not have the machine of the replica it was copied from: its engine has
other memtables, tables and logs, and its maps list their entries in another order.  What the two
have to share is what `Apply` can look at.

* `Agree` — the fields of the machine and its maps by key.  The fields of a shadow only count
  while the machine is one.
* `Rel P` — two machines that agree, whose engines are related by `P`, and whose maps and marks
  hold values that a snapshot can carry (`Fit`).
* `Tolerant entry P P'` — what `P` has to allow for: related engines answer the reads of `Apply`
  alike, and the writes for `entry` fail alike or lead to engines related by `P'`.

`sim_apply` is the result: one committed entry, applied to related machines, returns the same and
leaves related machines.  It is assembled along the source, with one lemma for each function that
`Apply` calls, from the rules of `Prog.Sim`.  There are two relations because `P` may say that the
engines are below the index of the entry, which is over once they have taken it.
-/

namespace RivetDB.Range

open Codec (slice byteAt putBE getBE putLE getLE)

/-! ### What decoded values satisfy -/

theorem getLE_lt_of_length_le {b : Bytes} (h : b.length ≤ 8) : getLE b < 2 ^ 64 :=
  (Codec.getLE_lt b).trans_le ((Nat.pow_le_pow_right (by decide) h).trans (by decide))

theorem length_slice_le (b : Bytes) (i : ℕ) : (slice b i (i + 8)).length ≤ 8 := by
  unfold slice
  rw [List.length_take]
  omega

theorem getBE_slice_lt (b : Bytes) (i : ℕ) : getBE (slice b i (i + 8)) < 2 ^ 64 :=
  getLE_lt_of_length_le (by simpa using length_slice_le b i)

variable {b : Bytes}

theorem decodeParticipants_fits {n : ℕ} {p : Txn.Participant}
    (h : p ∈ Txn.decodeParticipants n b) : p.Fits := by
  induction n generalizing b with
  | zero => cases h
  | succ n ih =>
    rw [Txn.decodeParticipants] at h
    rcases List.mem_cons.mp h with rfl | h
    · exact ⟨getBE_slice_lt b 0, getBE_slice_lt b 8⟩
    · exact ih h

/-- A decoded operation is valid and its numbers are values of `uint64`. -/
structure Decoded (op : Txn.Operation) : Prop where
  valid : op.Valid
  fits : op.Fits
  participants : op.participants.length ≤ Txn.maxParticipants
  writes : op.writes.length ≤ Txn.maxWrites
  values : ∀ w ∈ op.writes, w.value.length ≤ maxImageValue

theorem decoded_of_decode {op : Txn.Operation} (h : Txn.Operation.decode b = .ok op) :
    Decoded op := by
  unfold Txn.Operation.decode at h
  dsimp only at h
  split_ifs at h
  split at h
  · cases h
  split at h
  · cases h
  unfold Txn.Operation.assemble at h
  split at h
  · cases h
  rename_i type htype
  dsimp only at h
  rcases hvalidate : Txn.Operation.validate _ with err | u
  · rw [hvalidate] at h
    cases h
  rw [hvalidate] at h
  cases h
  refine ⟨Txn.Operation.valid_of_validate hvalidate, ⟨getBE_slice_lt b 24, getBE_slice_lt b 32,
    getBE_slice_lt b 40, ⟨getBE_slice_lt b 48, getBE_slice_lt b 56⟩,
    fun p hp => decodeParticipants_fits hp⟩, ?_, ?_, ?_⟩
  all_goals
    simp only [Txn.Operation.validate, Fallible.throw_bind, Fallible.ite_throw_eq_ok,
      Fallible.bind_eq_ok, not_or, not_lt] at hvalidate
    obtain ⟨-, _, -, hcounts, _, -, hwrites⟩ := hvalidate
  · exact hcounts.1
  · exact hcounts.2
  · intro w hw
    have := (Txn.validateWrites_ok hwrites).2.2.2 w hw
    have hlimit : Txn.maxWriteBytes = maxImageValue := rfl
    omega

variable {command : Command}

theorem Command.timestamp_lt (h : Command.decode b = .ok command) : command.timestamp < 2 ^ 64 := by
  have hbody : ∀ {header timestamp : ℕ}, Command.decodeBody b header timestamp = .ok command →
      command.timestamp = timestamp := by
    intro header timestamp hbody
    unfold Command.decodeBody at hbody
    dsimp only at hbody
    split_ifs at hbody
    split at hbody
    · cases hbody
    rcases hvalidate : Command.validate _ with err | u
    · rw [hvalidate] at hbody
      cases hbody
    · rw [hvalidate] at hbody
      cases hbody
      rfl
  unfold Command.decode at h
  split at h
  · cases h
  split at h
  · cases h
  split at h
  · cases h
  split at h
  · split at h
    · cases h
    · rw [hbody h]
      exact getBE_slice_lt b 8
  · rw [hbody h]
    decide

variable {op : SplitOperation}

theorem SplitOperation.timestamp_lt
    (h : SplitOperation.decode b = .ok op) : op.timestamp < 2 ^ 64 := by
  unfold SplitOperation.decode at h
  split_ifs at h
  split at h
  · rename_i type kind htype hkind
    rcases hvalidate : SplitOperation.validate _ with err | u
    · rw [hvalidate] at h
      cases h
    · rw [hvalidate] at h
      cases h
      exact getLE_lt_of_length_le (length_slice_le b 48)
  · cases h

/-! ### The maps of a machine -/

/-- A participant record that a command may leave. -/
structure ParticipantSound (p : Txn.ParticipantRecord) : Prop where
  id : p.id.isZero = false
  readTime : p.readTime < 2 ^ 64
  commitTime : p.commitTime < 2 ^ 64
  epoch : p.epoch < 2 ^ 64
  started : p.epoch ≠ 0
  home : p.home.Fits
  reason : p.reason.length ≤ maxImageReason
  count : p.writes.length ≤ Txn.maxWrites
  values : ∀ w ∈ p.writes, w.value.length ≤ maxImageValue

/-- The machine of an MVCC range, whose maps and marks hold values that a snapshot can carry. -/
structure Fit (m : Machine) : Prop where
  maxApplied : m.maxApplied < 2 ^ 64
  safeRead : m.safeRead < 2 ^ 64
  clock : m.clock.last < 2 ^ 64
  records : ∀ id r, m.records.get id = some r → r.id = id ∧ RecordFits r
  participants : ∀ id p, m.participants.get id = some p → p.id = id ∧ ParticipantSound p
  mvcc : m.mvcc = true
  rangeID : m.rangeID < 2 ^ 64
  generation : m.generation < 2 ^ 64

/-- The fields of a shadow that `Apply` looks at. -/
structure AgreeShadow (m r : Machine) : Prop where
  bootstrapIndex : m.bootstrapIndex = r.bootstrapIndex
  bootstrapSplitID : m.bootstrapSplitID = r.bootstrapSplitID
  bootstrapParentID : m.bootstrapParentID = r.bootstrapParentID
  bootstrapParentGen : m.bootstrapParentGen = r.bootstrapParentGen
  bootstrapImage : m.bootstrapImage = r.bootstrapImage
  parentReplayThrough : m.parentReplayThrough = r.parentReplayThrough
  provenance : m.provenance = r.provenance
  bootstrapSeen : m.bootstrapSeen = r.bootstrapSeen

/-- Two machines agree on everything `Apply` looks at outside the engine. -/
structure Agree (m r : Machine) : Prop where
  containsKey : m.containsKey = r.containsKey
  mvcc : m.mvcc = r.mvcc
  maxApplied : m.maxApplied = r.maxApplied
  safeRead : m.safeRead = r.safeRead
  clock : m.clock = r.clock
  rangeID : m.rangeID = r.rangeID
  generation : m.generation = r.generation
  records : ∀ id, m.records.get id = r.records.get id
  participants : ∀ id, m.participants.get id = r.participants.get id
  lifecycle : m.lifecycle = r.lifecycle
  splitID : m.splitID = r.splitID
  splitEpoch : m.splitEpoch = r.splitEpoch
  txnFence : m.txnFence = r.txnFence
  userFence : m.userFence = r.userFence
  shadow : m.lifecycle = .shadow → AgreeShadow m r

/-- Two machines that agree, with related engines. -/
structure Rel (P : Storage.Engine → Storage.Engine → Prop) (m r : Machine) : Prop where
  agree : Agree m r
  engine : P m.engine r.engine
  left : Fit m
  right : Fit r

/-- What a relation between engines has to allow for, to compare two applies of one entry: `P`
holds before the entry reaches the engine, `P'` afterwards. -/
structure Tolerant (entry : Raft.Entry) (P P' : Storage.Engine → Storage.Engine → Prop) : Prop where
  index : entry.index < 2 ^ 64
  weaken : ∀ {e f}, P e f → P' e f
  sha256 : ∀ {e f}, P e f → e.sha256 = f.sha256
  durable : ∀ {e f}, P e f → (entry.index ≤ e.durable ↔ entry.index ≤ f.durable)
  getMVCCAt : ∀ {e f}, P e f → ∀ key target, e.getMVCCAt key target = f.getMVCCAt key target
  advance : ∀ {e f}, P e f →
    (∃ err, e.advanceApplied entry.index = .error err ∧ f.advanceApplied entry.index = .error err) ∨
      ∃ e' f', e.advanceApplied entry.index = .ok e' ∧ f.advanceApplied entry.index = .ok f' ∧
        P' e' f'
  store : ∀ {e f}, P e f → ∀ version mutations required allow, version < 2 ^ 64 →
    (∃ err, e.applyCommittedBatch entry.index entry.term version entry.command mutations required
          allow = .error err ∧
        f.applyCommittedBatch entry.index entry.term version entry.command mutations required
          allow = .error err) ∨
      ∃ e' f', e.applyCommittedBatch entry.index entry.term version entry.command mutations required
          allow = .ok e' ∧
        f.applyCommittedBatch entry.index entry.term version entry.command mutations required
          allow = .ok f' ∧ P' e' f'

/-! ### Updates that keep the relation -/

variable {entry : Raft.Entry} {P P' : Storage.Engine → Storage.Engine → Prop} {m r : Machine}

theorem Rel.weaken (h : Rel P m r) (ht : Tolerant entry P P') : Rel P' m r :=
  ⟨h.agree, ht.weaken h.engine, h.left, h.right⟩

variable {id : Txn.ID} {record : Txn.Record}

theorem Fit.setRecord (h : Fit m) (hid : record.id = id)
    (hfits : RecordFits record) : Fit (m.setRecord id record) := by
  refine { h with records := fun id' r hget => ?_ }
  have hget' : (m.records.set id record).get id' = some r := hget
  rw [Dict.get_set] at hget'
  split_ifs at hget' with heq
  · cases hget'
    exact ⟨hid.trans heq.symm, hfits⟩
  · exact h.records id' r hget'

variable {p : Txn.ParticipantRecord}

theorem Fit.setParticipant (h : Fit m) (hid : p.id = id)
    (hsound : ParticipantSound p) : Fit (m.setParticipant id p) := by
  refine { h with participants := fun id' q hget => ?_ }
  have hget' : (m.participants.set id p).get id' = some q := hget
  rw [Dict.get_set] at hget'
  split_ifs at hget' with heq
  · cases hget'
    exact ⟨hid.trans heq.symm, hsound⟩
  · exact h.participants id' q hget'

theorem Rel.setRecord (h : Rel P m r) (hid : record.id = id)
    (hfits : RecordFits record) : Rel P (m.setRecord id record) (r.setRecord id record) := by
  refine ⟨{ h.agree with records := fun id' => ?_, shadow := fun hs => ?_ }, h.engine,
    h.left.setRecord hid hfits, h.right.setRecord hid hfits⟩
  · show (m.records.set id record).get id' = (r.records.set id record).get id'
    rw [Dict.get_set, Dict.get_set, h.agree.records]
  · have hshadow := h.agree.shadow hs
    exact { hshadow with }

theorem Rel.setParticipant (h : Rel P m r) (hid : p.id = id) (hsound : ParticipantSound p) :
    Rel P (m.setParticipant id p) (r.setParticipant id p) := by
  refine ⟨{ h.agree with participants := fun id' => ?_, shadow := fun hs => ?_ }, h.engine,
    h.left.setParticipant hid hsound, h.right.setParticipant hid hsound⟩
  · show (m.participants.set id p).get id' = (r.participants.set id p).get id'
    rw [Dict.get_set, Dict.get_set, h.agree.participants]
  · have hshadow := h.agree.shadow hs
    exact { hshadow with }

theorem Rel.setEngine (h : Rel P m r) {e f : Storage.Engine} (hengine : P' e f) :
    Rel P' { m with engine := e } { r with engine := f } :=
  ⟨{ h.agree with shadow := fun hs => { h.agree.shadow hs with } }, hengine, { h.left with },
    { h.right with }⟩

/-- `m'` has the engine, the maps and the identity of `m`. -/
structure SameStores (m' m : Machine) : Prop where
  engine : m'.engine = m.engine := by rfl
  records : m'.records = m.records := by rfl
  participants : m'.participants = m.participants := by rfl
  mvcc : m'.mvcc = m.mvcc := by rfl
  rangeID : m'.rangeID = m.rangeID := by rfl
  generation : m'.generation = m.generation := by rfl

theorem Fit.control (h : Fit m) {m' : Machine} (hsame : SameStores m' m)
    (hmax : m'.maxApplied < 2 ^ 64) (hsafe : m'.safeRead < 2 ^ 64)
    (hclock : m'.clock.last < 2 ^ 64) : Fit m' where
  maxApplied := hmax
  safeRead := hsafe
  clock := hclock
  records := hsame.records ▸ h.records
  participants := hsame.participants ▸ h.participants
  mvcc := hsame.mvcc.trans h.mvcc
  rangeID := hsame.rangeID ▸ h.rangeID
  generation := hsame.generation ▸ h.generation

/-- Fields other than engine and maps may change as long as the machines still agree. -/
theorem Rel.control (h : Rel P m r) {m' r' : Machine} (hagree : Agree m' r')
    (hm : SameStores m' m) (hr : SameStores r' r)
    (hmax : m'.maxApplied < 2 ^ 64) (hsafe : m'.safeRead < 2 ^ 64)
    (hclock : m'.clock.last < 2 ^ 64) : Rel P m' r' := by
  refine ⟨hagree, ?_, h.left.control hm hmax hsafe hclock, h.right.control hr
    (hagree.maxApplied ▸ hmax) (hagree.safeRead ▸ hsafe) (hagree.clock ▸ hclock)⟩
  rw [hm.engine, hr.engine]
  exact h.engine

/-- Fields that are neither marks nor stores may change as long as the machines still agree. -/
theorem Rel.relabel (h : Rel P m r) {m' r' : Machine} (hagree : Agree m' r')
    (hm : SameStores m' m := by exact {}) (hr : SameStores r' r := by exact {})
    (hmax : m'.maxApplied = m.maxApplied := by rfl) (hsafe : m'.safeRead = m.safeRead := by rfl)
    (hclock : m'.clock = m.clock := by rfl) : Rel P m' r' :=
  h.control hagree hm hr (hmax ▸ h.left.maxApplied) (hsafe ▸ h.left.safeRead)
    (hclock ▸ h.left.clock)

variable {t : ℕ}

theorem observe_lt {c : Mvcc.Clock} (hc : c.last < 2 ^ 64) (ht : t < 2 ^ 64) :
    (c.observe t).last < 2 ^ 64 := by
  rw [Mvcc.Clock.observe_last]
  exact Nat.max_lt.mpr ⟨hc, ht⟩

section

variable (h : Rel P m r) (ht : t < 2 ^ 64)

include h ht

theorem Rel.observe :
    Rel P { m with clock := m.clock.observe t } { r with clock := r.clock.observe t } :=
  h.control
    { h.agree with
      clock := by rw [h.agree.clock]
      shadow := fun hs => { h.agree.shadow hs with } }
    {} {} h.left.maxApplied h.left.safeRead (observe_lt h.left.clock ht)

theorem Rel.raiseSafeRead :
    Rel P { m with safeRead := max m.safeRead t } { r with safeRead := max r.safeRead t } :=
  h.control
    { h.agree with
      safeRead := by rw [h.agree.safeRead]
      shadow := fun hs => { h.agree.shadow hs with } }
    {} {} h.left.maxApplied (Nat.max_lt.mpr ⟨h.left.safeRead, ht⟩)
    h.left.clock

theorem Rel.setMaxApplied : Rel P { m with maxApplied := t } { r with maxApplied := t } :=
  h.control { h.agree with maxApplied := rfl, shadow := fun hs => { h.agree.shadow hs with } }
    {} {} ht h.left.safeRead h.left.clock

theorem Rel.raiseMaxApplied :
    Rel P { m with maxApplied := max m.maxApplied t }
      { r with maxApplied := max r.maxApplied t } := by
  rw [← h.agree.maxApplied]
  exact h.setMaxApplied (Nat.max_lt.mpr ⟨h.left.maxApplied, ht⟩)

end

theorem Agree.fencesSplit (h : Agree m r) : m.fencesSplit op = r.fencesSplit op := by
  unfold Machine.fencesSplit
  rw [h.splitID, h.splitEpoch]
  by_cases hs : m.lifecycle = .shadow
  · have hshadow := h.shadow hs
    rw [← h.lifecycle, hshadow.bootstrapSplitID, hshadow.bootstrapParentID,
      hshadow.bootstrapParentGen]
  · rw [← h.lifecycle]
    simp [hs]

namespace Machine

open Prog

/-- The same computation on both machines. -/
abbrev Both (Q : Machine → Machine → Prop) (x : MachineM Unit) (m r : Machine) : Prop :=
  Sim Q x m x r

/-! ### Engine calls -/

section Calls

variable (ht : Tolerant entry P P') (h : Rel P m r)

include ht h

/-- One engine call on both machines. -/
theorem sim_write (text : String)
    {call call' : Storage.Engine → Except Storage.Error Storage.Engine}
    (hcall : (∃ err, call m.engine = .error err ∧ call' r.engine = .error err) ∨
      ∃ e f, call m.engine = .ok e ∧ call' r.engine = .ok f ∧ P' e f) :
    Sim (Rel P') (write text call) m (write text call') r := by
  unfold write
  refine sim_get_bind ?_
  rcases hcall with ⟨err, hm, hr⟩ | ⟨e, f, hm, hr, hpost⟩
  · rw [hm, hr]
    refine sim_ite Iff.rfl (fun _ => sim_pure _ (h.weaken ht)) fun _ => sim_throw _ (h.weaken ht)
  · rw [hm, hr]
    exact sim_set (h.setEngine hpost)

/-- An entry that stores no version still moves the applied index of both engines. -/
theorem sim_advanceMetadata (alreadyDurable : Bool) :
    Both (Rel P') (advanceMetadata entry.index alreadyDurable) m r := by
  unfold advanceMetadata
  refine sim_ite Iff.rfl (fun _ => sim_pure _ (h.weaken ht)) fun _ => sim_get_bind ?_
  rcases ht.advance h.engine with ⟨err, hm, hr⟩ | ⟨e, f, hm, hr, hpost⟩
  · rw [hm, hr]
    exact sim_throw _ (h.weaken ht)
  · rw [hm, hr]
    exact sim_set (h.setEngine hpost)

/-- Both machines see the same write conflicts, since their engines answer reads alike. -/
theorem conflicts_eq (readTime : ℕ) (writes : List Txn.Write) :
    conflicts m.engine readTime writes = conflicts r.engine readTime writes := by
  induction writes with
  | nil => rfl
  | cons w rest ih => rw [conflicts, conflicts, ht.getMVCCAt h.engine, ih]

end Calls

/-! ### Transactions -/

variable {operation : Txn.Operation}

theorem fits_created (h : Decoded operation) : RecordFits (created operation) :=
  ⟨h.valid.id, h.fits.readTime, h.fits.commitTime, h.fits.epoch, h.valid.epoch.ne', h.fits.home,
    h.participants, h.fits.participants⟩

theorem sound_prepared (h : Decoded operation) : ParticipantSound (prepared operation) :=
  ⟨h.valid.id, h.fits.readTime, h.fits.commitTime, h.fits.epoch, h.valid.epoch.ne', h.fits.home,
    Nat.zero_le _, h.writes, h.values⟩

theorem sound_resolved (h : Decoded operation) (status : Txn.ParticipantStatus) :
    ParticipantSound (resolved operation status) :=
  ⟨h.valid.id, h.fits.readTime, h.fits.commitTime, h.fits.epoch, h.valid.epoch.ne', h.fits.home,
    Nat.zero_le _, Nat.zero_le _, by simp [resolved]⟩

theorem sim_applyCreate (h : Rel P m r) (hop : Decoded operation) :
    Both (Rel P) (applyCreate operation) m r := by
  unfold applyCreate
  refine sim_get_bind (sim_ite (by rw [h.agree.rangeID, h.agree.generation])
    (fun _ => sim_throw _ h) fun _ => ?_)
  rw [h.agree.records]
  rcases r.records.get operation.id with - | existing
  · exact sim_set (h.setRecord rfl (fits_created hop))
  · exact sim_ite Iff.rfl (fun _ => sim_pure _ h) fun _ => sim_throw _ h

theorem sim_applyDecision (h : Rel P m r) (status : Txn.Status) :
    Both (Rel P) (applyDecision operation status) m r := by
  unfold applyDecision
  refine sim_get_bind ?_
  have hrecords := h.right.records operation.id
  rw [h.agree.records]
  rcases hget : r.records.get operation.id with - | record
  · exact sim_throw _ h
  obtain ⟨hid, hfits⟩ := hrecords record hget
  refine sim_ite Iff.rfl (fun _ => sim_throw _ h) fun _ => ?_
  refine sim_ite Iff.rfl (fun _ => sim_pure _ h) fun _ => ?_
  refine sim_ite Iff.rfl (fun _ => sim_throw _ h) fun _ => ?_
  refine sim_ite Iff.rfl (fun _ => sim_pure _ h) fun _ => ?_
  refine sim_ite Iff.rfl (fun _ => sim_throw _ h) fun _ => ?_
  exact sim_set (h.setRecord hid { hfits with })

theorem sim_applyTakeover (h : Rel P m r) (hop : Decoded operation) :
    Both (Rel P) (applyTakeover operation) m r := by
  unfold applyTakeover
  refine sim_get_bind ?_
  have hrecords := h.right.records operation.id
  rw [h.agree.records]
  rcases hget : r.records.get operation.id with - | record
  · exact sim_throw _ h
  obtain ⟨hid, hfits⟩ := hrecords record hget
  refine sim_ite Iff.rfl (fun _ => sim_throw _ h) fun _ => ?_
  refine sim_ite Iff.rfl (fun _ => sim_pure _ h) fun _ => ?_
  refine sim_ite Iff.rfl (fun _ => sim_pure _ h) fun _ => ?_
  exact sim_set (h.setRecord hid
    { hfits with epoch := hop.fits.epoch, started := hop.valid.epoch.ne' })

variable {participant : Txn.ParticipantRecord}

section Participants

variable (ht : Tolerant entry P P') (h : Rel P m r) (hop : Decoded operation)

include ht h hop

theorem sim_installPrepare :
    Both (Rel P') (installPrepare entry operation) m r := by
  unfold installPrepare
  refine sim_get_bind ?_
  rw [conflicts_eq ht h]
  rcases conflicts r.engine operation.readTime operation.writes with err | conflict
  · exact sim_throw _ (h.weaken ht)
  cases conflict with
  | true =>
    have hsound : ParticipantSound
        { prepared operation with status := .rejected, reason := rejection } :=
      { sound_prepared hop with reason := show rejection.length ≤ maxImageReason by decide +kernel }
    exact sim_bind (sim_set (h.setParticipant rfl hsound)) (fun _ _ h' => h'.weaken ht)
      fun _ _ _ h' => sim_advanceMetadata ht h' false
  | false =>
    refine sim_bind (sim_lift _ h) (fun _ _ h' => h'.weaken ht) fun mutations m' r' h' => ?_
    refine sim_bind (sim_write ht h' _ (ht.store h'.engine _ _ _ _ hop.fits.commitTime))
      (fun _ _ h'' => h'') fun _ _ _ h'' => sim_modify ?_
    exact (h''.raiseMaxApplied hop.fits.commitTime).setParticipant rfl (sound_prepared hop)

theorem sim_applyPrepare (alreadyDurable : Bool) :
    Both (Rel P') (applyPrepare entry operation alreadyDurable) m r := by
  unfold applyPrepare
  refine sim_get_bind (sim_ite (by rw [h.agree.containsKey])
    (fun _ => sim_throw _ (h.weaken ht)) fun _ => ?_)
  rw [h.agree.participants]
  rcases r.participants.get operation.id with - | existing
  · refine sim_ite Iff.rfl (fun _ => sim_set ?_) fun _ => sim_installPrepare ht h hop
    exact (h.weaken ht).setParticipant rfl (sound_prepared hop)
  · refine sim_ite Iff.rfl (fun _ => sim_advanceMetadata ht h _) fun _ => ?_
    exact sim_ite Iff.rfl (fun _ => sim_advanceMetadata ht h _) fun _ => sim_throw _ (h.weaken ht)

variable (status : Txn.ParticipantStatus)

include status

theorem sim_resolveIntents (hid : participant.id = operation.id)
    (hsound : ParticipantSound participant) (alreadyDurable : Bool) :
    Both (Rel P') (resolveIntents entry operation status participant alreadyDurable) m r := by
  have hresolved : ParticipantSound
      { participant with status := status, epoch := operation.epoch } :=
    { hsound with epoch := hop.fits.epoch, started := hop.valid.epoch.ne' }
  unfold resolveIntents
  dsimp only
  refine sim_ite Iff.rfl (fun _ => ?_)
    fun _ => sim_modify ((h.weaken ht).setParticipant hid hresolved)
  exact sim_bind (sim_write ht h _ (ht.store h.engine _ _ _ _ hsound.commitTime))
    (fun _ _ h' => h') fun _ _ _ h' => sim_modify (h'.setParticipant hid hresolved)

/-- A resolution rewrites the participant record and, for a prepared one, its intents. -/
theorem sim_applyResolution (alreadyDurable : Bool) :
    Both (Rel P') (applyResolution entry operation status alreadyDurable) m r := by
  unfold applyResolution
  refine sim_get_bind ?_
  have hparticipants := h.right.participants operation.id
  rw [h.agree.participants]
  rcases hget : r.participants.get operation.id with - | participant
  · exact sim_bind (sim_set (h.setParticipant rfl (sound_resolved hop status)))
      (fun _ _ h' => h'.weaken ht) fun _ _ _ h' => sim_advanceMetadata ht h' _
  obtain ⟨hid, hsound⟩ := hparticipants participant hget
  refine sim_ite Iff.rfl (fun _ => sim_throw _ (h.weaken ht)) fun _ => ?_
  refine sim_ite Iff.rfl (fun _ => sim_advanceMetadata ht h _) fun _ => ?_
  refine sim_ite Iff.rfl (fun _ => sim_advanceMetadata ht h _) fun _ => ?_
  refine sim_ite Iff.rfl (fun _ => sim_throw _ (h.weaken ht)) fun _ => ?_
  refine sim_ite Iff.rfl (fun _ => ?_)
    fun _ => sim_resolveIntents ht h hop status hid hsound alreadyDurable
  refine sim_bind (sim_set (h.setParticipant hid ?_)) (fun _ _ h' => h'.weaken ht)
    fun _ _ _ h' => sim_advanceMetadata ht h' _
  exact { hsound with epoch := hop.fits.epoch, started := hop.valid.epoch.ne' }

end Participants

/-- The commands that store nothing in the engine. -/
theorem sim_recordThenAdvance (ht : Tolerant entry P P') {x y : MachineM Unit}
    (hx : Sim (Rel P) x m y r) (alreadyDurable : Bool) :
    Sim (Rel P') (do x; advanceMetadata entry.index alreadyDurable) m
      (do y; advanceMetadata entry.index alreadyDurable) r :=
  sim_bind hx (fun _ _ h' => h'.weaken ht) fun _ _ _ h' => sim_advanceMetadata ht h' _

variable {command : Command}

theorem sim_applyTransaction (ht : Tolerant entry P P') (h : Rel P m r)
    (htimestamp : command.timestamp < 2 ^ 64) (alreadyDurable : Bool) :
    Both (Rel P') (applyTransaction entry command alreadyDurable) m r := by
  unfold applyTransaction
  refine sim_bind (sim_modify (h.observe htimestamp)) (fun _ _ h' => h'.weaken ht)
    fun _ m' r' h' => ?_
  refine sim_ite Iff.rfl (fun _ => ?_) fun _ => ?_
  · exact sim_bind (sim_modify (h'.raiseSafeRead htimestamp)) (fun _ _ h'' => h''.weaken ht)
      fun _ _ _ h'' => sim_advanceMetadata ht h'' _
  rcases hdecode : Txn.Operation.decode command.value with err | operation
  · exact sim_throw _ (h'.weaken ht)
  have hop := decoded_of_decode hdecode
  show Sim (Rel P') (applyOperation entry command operation alreadyDurable) m'
    (applyOperation entry command operation alreadyDurable) r'
  unfold applyOperation
  split
  · exact sim_recordThenAdvance ht (sim_applyCreate h' hop) _
  · exact sim_applyPrepare ht h' hop _
  · exact sim_recordThenAdvance ht (sim_applyDecision h' _) _
  · exact sim_recordThenAdvance ht (sim_applyDecision h' _) _
  · exact sim_recordThenAdvance ht (sim_applyTakeover h' hop) _
  · exact sim_applyResolution ht h' hop _ _
  · exact sim_applyResolution ht h' hop _ _
  · exact sim_throw _ (h'.weaken ht)

/-! ### Splits -/

variable {op : SplitOperation}

theorem sim_applyBootstrapBarrier (h : Rel P m r) (hop : op.timestamp < 2 ^ 64) :
    Both (Rel P) (applyBootstrapBarrier entry op) m r := by
  unfold applyBootstrapBarrier
  refine sim_get_bind ?_
  have hagree := h.agree
  rw [← hagree.lifecycle]
  rcases hlifecycle : m.lifecycle with - | - | - | -
  · refine sim_ite (by rw [hagree.txnFence]) (fun _ => sim_throw _ h) fun _ => sim_set ?_
    exact h.control
      { hagree with
        clock := by rw [hagree.clock]
        lifecycle := rfl
        shadow := nofun }
      {} {} h.left.maxApplied h.left.safeRead
      (observe_lt h.left.clock hop)
  · have hshadow := hagree.shadow hlifecycle
    have henter : ∀ {m' r' : Machine}, Rel P m' r' → AgreeShadow m' r' →
        Rel P (m'.enterBarrier op) (r'.enterBarrier op) := by
      intro m' r' h' hs'
      refine h'.control
        { h'.agree with
          splitID := rfl
          safeRead := ?_
          clock := ?_
          shadow := fun _ => { hs' with bootstrapIndex := rfl, parentReplayThrough := ?_ } }
        {} {} h'.left.maxApplied (Nat.max_lt.mpr ⟨h'.left.safeRead, hop⟩)
        (observe_lt h'.left.clock hop)
      · show max m'.safeRead op.timestamp = max r'.safeRead op.timestamp
        rw [h'.agree.safeRead]
      · show m'.clock.observe op.timestamp = r'.clock.observe op.timestamp
        rw [h'.agree.clock]
      · show max m'.parentReplayThrough op.parentIndex = max r'.parentReplayThrough op.parentIndex
        rw [hs'.parentReplayThrough]
    refine sim_ite (by rw [hshadow.bootstrapSplitID]) (fun _ => ?_) fun _ => ?_
    · refine sim_ite Iff.rfl (fun _ => sim_throw _ h) fun _ => sim_set (henter ?_ ?_)
      · exact h.relabel
          { hagree with
            shadow := fun _ => { hshadow with
              bootstrapSplitID := rfl
              bootstrapParentID := rfl
              bootstrapParentGen := rfl
              bootstrapImage := rfl } }
      · exact { hshadow with
          bootstrapSplitID := rfl
          bootstrapParentID := rfl
          bootstrapParentGen := rfl
          bootstrapImage := rfl }
    · exact sim_ite (by rw [hshadow.bootstrapIndex, hshadow.bootstrapImage])
        (fun _ => sim_throw _ h) fun _ => sim_set (henter h hshadow)
  · exact sim_throw _ h
  · exact sim_throw _ h

section Replay

variable (ht : Tolerant entry P P') (h : Rel P m r) (hop : op.timestamp < 2 ^ 64)
  (alreadyDurable : Bool)

include ht h hop alreadyDurable

theorem sim_installVersion :
    Both (Rel P') (installVersion entry command op alreadyDurable) m r := by
  unfold installVersion
  refine sim_ite Iff.rfl (fun _ => sim_pure _ (h.weaken ht)) fun _ => ?_
  refine sim_bind (sim_write ht h _ (ht.store h.engine _ _ _ _ hop)) (fun _ _ h' => h')
    fun _ _ _ h' => sim_modify ?_
  exact (h'.raiseMaxApplied hop).observe hop

theorem sim_applyBootstrapVersion :
    Both (Rel P') (applyBootstrapVersion entry command op alreadyDurable) m r := by
  unfold applyBootstrapVersion
  refine sim_get_bind (sim_ite (by rw [h.agree.lifecycle]) (fun _ => sim_throw _ (h.weaken ht))
    fun hok => ?_)
  have hshadow := h.agree.shadow (not_not.mp (not_or.mp hok).1)
  refine sim_ite (by rw [hshadow.bootstrapImage]) (fun _ => sim_throw _ (h.weaken ht)) fun _ => ?_
  rw [ht.sha256 h.engine, hshadow.bootstrapSeen]
  refine sim_ite Iff.rfl (fun _ => sim_advanceMetadata ht h _) fun _ => ?_
  refine sim_bind (sim_set ?_) (fun _ _ h' => h'.weaken ht)
    fun _ _ _ h' => sim_installVersion ht h' hop _
  exact h.relabel { h.agree with shadow := fun _ => { hshadow with bootstrapSeen := rfl } }

theorem sim_applyReplayVersion :
    Both (Rel P') (applyReplayVersion entry command op alreadyDurable) m r := by
  unfold applyReplayVersion
  refine sim_get_bind (sim_ite (by rw [h.agree.lifecycle]) (fun _ => sim_throw _ (h.weaken ht))
    fun hok => ?_)
  have hshadow := h.agree.shadow (not_not.mp (not_or.mp hok).1)
  refine sim_ite (by rw [hshadow.parentReplayThrough]) (fun _ => ?_) fun _ => ?_
  · exact sim_ite (by rw [hshadow.provenance]) (fun _ => sim_advanceMetadata ht h _)
      fun _ => sim_throw _ (h.weaken ht)
  · refine sim_bind (sim_set ?_) (fun _ _ h' => h'.weaken ht)
      fun _ _ _ h' => sim_installVersion ht h' hop _
    exact h.relabel
      { h.agree with
        shadow := fun _ => { hshadow with
          provenance := by rw [hshadow.provenance]
          parentReplayThrough := rfl } }

end Replay

/-- Both computations fail alike, or both give a machine and the two are related. -/
inductive Paired (P : Storage.Engine → Storage.Engine → Prop) :
    Except Error Machine → Except Error Machine → Prop
  | error (err : Error) : Paired P (.error err) (.error err)
  | ok {m r : Machine} (h : Rel P m r) : Paired P (.ok m) (.ok r)

theorem Paired.ite {c c' : Prop} [Decidable c] [Decidable c'] {x y x' y' : Except Error Machine}
    (hc : c ↔ c') (hthen : c → Paired P x x') (helse : ¬c → Paired P y y') :
    Paired P (if c then x else y) (if c' then x' else y') := by
  by_cases h : c
  · rw [if_pos h, if_pos (hc.mp h)]
    exact hthen h
  · rw [if_neg h, if_neg fun h' => h (hc.mpr h')]
    exact helse h

/-- The operations that only change fields change them in both machines alike. -/
theorem paired_splitFields (h : Rel P m r) (hop : op.timestamp < 2 ^ 64) :
    Paired P (m.splitFields entry op) (r.splitFields entry op) := by
  have hagree := h.agree
  unfold splitFields
  rcases op.type with - | - | - | - | - | - | - | - | -
  all_goals dsimp only
  case begin =>
    refine .ite (by rw [hagree.lifecycle, hagree.userFence, hagree.splitID]) (fun _ => .error _)
      fun _ => .ok ?_
    exact h.relabel
      { hagree with
        splitID := rfl
        txnFence := rfl
        shadow := fun hs => { hagree.shadow hs with } }
  case replayAdvance =>
    by_cases hs : m.lifecycle = .shadow
    · have hshadow := hagree.shadow hs
      refine .ite (by rw [hagree.lifecycle, hshadow.parentReplayThrough]) (fun _ => .error _)
        fun _ => .ok ?_
      exact h.control
        { hagree with
          clock := by rw [hagree.clock]
          safeRead := by rw [hagree.safeRead]
          shadow := fun _ => { hshadow with parentReplayThrough := rfl } }
        {} {} h.left.maxApplied (Nat.max_lt.mpr ⟨h.left.safeRead, hop⟩)
        (observe_lt h.left.clock hop)
    · rw [if_pos (.inl hs), if_pos (.inl (hagree.lifecycle ▸ hs))]
      exact .error _
  case finalFence =>
    refine .ite (by rw [hagree.lifecycle, hagree.txnFence]) (fun _ => .error _) fun _ => .ok ?_
    exact h.relabel
      { hagree with
        userFence := rfl
        shadow := fun hs => { hagree.shadow hs with } }
  case activate =>
    refine .ite (by rw [hagree.lifecycle, hagree.splitID]) (fun _ => .ok h) fun _ => ?_
    by_cases hs : m.lifecycle = .shadow
    · refine .ite (by rw [hagree.lifecycle, (hagree.shadow hs).parentReplayThrough])
        (fun _ => .error _) fun _ => .ok ?_
      exact h.control
        { hagree with
          lifecycle := rfl
          splitID := rfl
          splitEpoch := rfl
          shadow := nofun }
        {} {} h.left.maxApplied h.left.safeRead h.left.clock
    · rw [if_pos (.inl hs), if_pos (.inl (hagree.lifecycle ▸ hs))]
      exact .error _
  case retire =>
    refine .ite (by rw [hagree.lifecycle]) (fun _ => .ok h) fun _ => ?_
    refine .ite (by rw [hagree.lifecycle, hagree.userFence]) (fun _ => .error _) fun _ => .ok ?_
    exact h.relabel { hagree with lifecycle := rfl, shadow := nofun }
  case abort =>
    refine .ite (by rw [hagree.lifecycle, hagree.userFence]) (fun _ => .error _) fun hok => .ok ?_
    exact h.relabel
      { hagree with
        splitID := rfl
        splitEpoch := rfl
        txnFence := rfl
        shadow := fun hs => absurd (.inr fun ha => nomatch ha.symm.trans hs) hok }
  all_goals exact .error _

theorem sim_applySplitOperation (ht : Tolerant entry P P') (h : Rel P m r)
    (hop : op.timestamp < 2 ^ 64) (alreadyDurable : Bool) :
    Both (Rel P') (applySplitOperation entry command op alreadyDurable) m r := by
  unfold applySplitOperation
  split
  · exact sim_recordThenAdvance ht (sim_applyBootstrapBarrier h hop) _
  · exact sim_applyBootstrapVersion ht h hop _
  · exact sim_applyReplayVersion ht h hop _
  · refine sim_get_bind ?_
    have hpaired : Paired P (m.splitFields entry op) (r.splitFields entry op) :=
      paired_splitFields h hop
    generalize m.splitFields entry op = x at hpaired ⊢
    generalize r.splitFields entry op = y at hpaired ⊢
    dsimp only
    cases hpaired with
    | error err => exact sim_recordThenAdvance ht (sim_throw err h) _
    | ok h' => exact sim_recordThenAdvance ht (sim_set h') _

/-- A split command that fails to decode, or is fenced, does so on both machines; the epoch it
brings is taken over before the operation runs. -/
theorem sim_applySplit (ht : Tolerant entry P P') (h : Rel P m r) (command : Command)
    (alreadyDurable : Bool) :
    Both (Rel P') (applySplit entry command alreadyDurable) m r := by
  unfold applySplit
  rcases hdecode : SplitOperation.decode command.value with err | op
  · exact sim_throw _ (h.weaken ht)
  refine sim_get_bind (sim_ite (by rw [h.agree.fencesSplit]) (fun _ => sim_throw _ (h.weaken ht))
    fun _ => ?_)
  refine sim_bind (sim_set (?_ : Rel P _ _)) (fun _ _ h' => h'.weaken ht)
    fun _ _ _ h' => sim_applySplitOperation ht h' (SplitOperation.timestamp_lt hdecode) _
  exact h.relabel
    { h.agree with
      splitEpoch := by rw [h.agree.splitEpoch]
      shadow := fun hs => { h.agree.shadow hs with } }

/-! ### Ordinary writes and the whole command -/

theorem sim_applyWrite (ht : Tolerant entry P P') (h : Rel P m r)
    (htimestamp : command.timestamp < 2 ^ 64) (alreadyDurable : Bool) :
    Both (Rel P') (applyWrite entry command alreadyDurable) m r := by
  unfold applyWrite
  refine sim_get_bind (sim_ite (by rw [h.agree.mvcc, h.agree.maxApplied])
    (fun _ => sim_throw _ (h.weaken ht)) fun _ => ?_)
  rw [← h.agree.mvcc]
  refine sim_bind (Q := Rel P') (sim_write ht h _ ?_) (fun _ _ h' => h') fun _ _ _ h' => ?_
  · cases m.mvcc with
    | true => exact ht.store h.engine _ _ _ _ htimestamp
    | false => exact ht.store h.engine _ _ _ _ ht.index
  · refine sim_ite Iff.rfl (fun _ => sim_modify ?_) fun _ => sim_pure _ h'
    exact (h'.setMaxApplied htimestamp).observe htimestamp

theorem sim_applyCommand (ht : Tolerant entry P P') (h : Rel P m r)
    (htimestamp : command.timestamp < 2 ^ 64) :
    Both (Rel P') (applyCommand entry command) m r := by
  unfold applyCommand
  refine sim_get_bind ?_
  have hdurable :
      (entry.index ≤ m.engine.durable : Bool) = (entry.index ≤ r.engine.durable : Bool) :=
    decide_eq_decide.mpr (ht.durable h.engine)
  dsimp only
  rw [hdurable]
  refine sim_ite (by rw [h.agree.containsKey]) (fun _ => sim_throw _ (h.weaken ht)) fun _ => ?_
  refine sim_ite (by rw [h.agree.mvcc]) (fun _ => sim_throw _ (h.weaken ht)) fun _ => ?_
  refine sim_ite Iff.rfl (fun _ => sim_applySplit ht h _ _) fun _ => ?_
  refine sim_ite (by rw [h.agree.lifecycle, h.agree.userFence])
    (fun _ => sim_throw _ (h.weaken ht)) fun _ => ?_
  refine sim_ite Iff.rfl (fun _ => ?_) fun _ => sim_applyWrite ht h htimestamp _
  exact sim_ite (by rw [h.agree.txnFence]) (fun _ => sim_throw _ (h.weaken ht))
    fun _ => sim_applyTransaction ht h htimestamp _

/-- One committed entry, applied to both machines. -/
theorem sim_apply (ht : Tolerant entry P P') (h : Rel P m r) : Both (Rel P') (apply entry) m r := by
  unfold apply
  rcases hdecode : Command.decode entry.command with err | command
  · exact sim_throw _ (h.weaken ht)
  · exact sim_applyCommand ht h (Command.timestamp_lt hdecode)

end Machine

end RivetDB.Range
