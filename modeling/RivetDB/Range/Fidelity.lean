import RivetDB.Range.Decisions
import RivetDB.Range.Restore

/-!
# What a snapshot preserves

A machine whose snapshot was restored from the image of `m` is compared with `m` over every
later sequence of applies, reads and snapshots.  The image carries the engine, the transaction
maps and the clocks; it does not carry the fields of a split.  Where these are at rest, and
the image is within the limits of its own decoder, the restored machine cannot be told apart
from the original.  A machine inside a split can: the fence against new transactions is gone.
-/

namespace RivetDB.Range

open Machine List Prog
open Codec (putLE)
open Storage (Version Mutation Distinct)
open Storage.Engine (Alike)

/-! ### The restored engine -/

/-- An engine that was opened empty and filled with `V` in `k` batches. -/
structure Loaded (sha256 : Bytes → Digest) (V : List Version) (k : ℕ) (e : Storage.Engine) :
    Prop where
  filled : e.Filled
  sha256 : e.sha256 = sha256
  distinct : Distinct e.versions
  applied : e.applied = k
  members : ∀ v, v ∈ e.versions ↔ v ∈ V

section Load

variable {sha256 : Bytes → Digest} {V : List Version} {k : ℕ} {e : Storage.Engine}

theorem mutation_stored (v : Version) : (mutation v).stored v.seq = v := rfl

/-- A batch of versions is stored as it is. -/
theorem mem_applyVersion_batch {batch : List Version} {seq : ℕ} (hseq : ∀ v ∈ batch, v.seq = seq)
    (hdistinct : Distinct batch) {v : Version} :
    v ∈ (Storage.Table.empty.applyVersion seq (batch.map mutation)).entries ↔ v ∈ batch := by
  have hstored : ∀ w ∈ batch, (mutation w).stored seq = w := fun w hw => by
    rw [← hseq w hw, mutation_stored]
  constructor
  · intro hv
    obtain ⟨m, hm, rfl⟩ := Storage.Engine.mem_of_mem_applyVersion_empty hv
    obtain ⟨w, hw, rfl⟩ := mem_map.mp hm
    rwa [hstored w hw]
  · intro hv
    obtain ⟨w, hw, hinternal⟩ := @Storage.Engine.exists_internal_applyVersion seq
      (batch.map mutation) Storage.Table.empty _ (mem_map_of_mem hv)
    obtain ⟨m, hm, hwm⟩ := Storage.Engine.mem_of_mem_applyVersion_empty hw
    obtain ⟨u, hu, rfl⟩ := mem_map.mp hm
    rw [hstored u hu] at hwm
    rw [hstored v hv, hwm] at hinternal
    have heq : u = v := inj_on_of_nodup_map hdistinct hu hv hinternal
    rwa [hwm, heq] at hw

theorem Loaded.background {f : Storage.Engine} (h : Loaded sha256 V k e) (hstep : e.Background f) :
    Loaded sha256 V k f := by
  obtain ⟨hversions, -, hsha256, -, happlied, -⟩ := hstep.layout
  exact ⟨h.filled.background hstep, hsha256.trans h.sha256, h.distinct.perm hversions.symm,
    happlied.trans h.applied, fun v => hversions.mem_iff.trans (h.members v)⟩

theorem Loaded.batch (h : Loaded sha256 V k e) {batch : List Version} {seq : ℕ}
    (hne : batch ≠ []) (hseq : ∀ v ∈ batch, v.seq = seq)
    (hstorable : ∀ v ∈ batch, Storage.Engine.Storable v) (hdistinct : Distinct (V ++ batch))
    (identity : Digest) :
    ∃ e', e.applyPreparedMVCCBatch (k + 1) 1 seq identity.bytes (batch.map mutation) = .ok e' ∧
      Loaded sha256 (V ++ batch) (k + 1) e' := by
  obtain ⟨first, hfirst⟩ := exists_mem_of_ne_nil batch hne
  have hpositive : seq ≠ 0 := hseq first hfirst ▸ (hstorable first hfirst).positive
  have hbounded : seq < 2 ^ 64 := hseq first hfirst ▸ (hstorable first hfirst).bounded
  have hcommand : identity.bytes ≠ [] := by
    intro hnil
    have hsize := identity.size
    rw [hnil] at hsize
    cases hsize
  have hindex : e.applied < k + 1 := by
    rw [h.applied]
    exact Nat.lt_succ_self k
  have hrefusal : Storage.Engine.refusal e.mvcc e.visible (k + 1) 1 seq identity.bytes
      (batch.map mutation) true true = none := by
    rw [h.filled.mvcc, Storage.Engine.refusal_none]
    refine ⟨⟨Nat.succ_ne_zero k, one_ne_zero, hpositive, hcommand⟩, ⟨by simpa using hne, ?_⟩,
      fun _ => rfl⟩
    intro m hm
    obtain ⟨v, hv, rfl⟩ := mem_map.mp hm
    exact ⟨(hstorable v hv).key, (hstorable v hv).value, (hstorable v hv).bare⟩
  have hstore : e.applyPreparedMVCCBatch (k + 1) 1 seq identity.bytes (batch.map mutation) =
      .ok (e.stored (k + 1) 1 seq identity.bytes (batch.map mutation)) := by
    unfold Storage.Engine.applyPreparedMVCCBatch
    rw [Storage.Engine.applyCommittedBatch_eq h.filled.ordered hindex, hrefusal]
  unfold Distinct at hdistinct
  rw [map_append, nodup_append] at hdistinct
  obtain ⟨-, hbatch, hdisjoint⟩ := hdistinct
  have hpost : Distinct (e.stored (k + 1) 1 seq identity.bytes (batch.map mutation)).versions := by
    have hpre := h.distinct
    unfold Distinct at hpre ⊢
    rw [Storage.Engine.versions_eq, map_append, nodup_append] at hpre
    rw [Storage.Engine.versions_stored, map_append, nodup_append]
    refine ⟨Storage.Table.distinct _, hpre.2.1, fun a ha b hb => ?_⟩
    obtain ⟨v, hv, rfl⟩ := mem_map.mp ha
    obtain ⟨w, hw, rfl⟩ := mem_map.mp hb
    rcases Storage.Engine.mem_applyVersion_iff.mp hv with hv | ⟨hv, -⟩
    · have hold : w ∈ V := (h.members w).mp (Storage.Engine.versions_eq e ▸ mem_append_right _ hw)
      exact (hdisjoint _ (mem_map_of_mem hold) _
        (mem_map_of_mem ((mem_applyVersion_batch hseq hbatch).mp hv))).symm
    · exact hpre.2.2 _ (mem_map_of_mem hv) _ hb
  refine ⟨_, hstore, h.filled.stored hindex hbounded hrefusal, h.sha256, hpost, rfl, fun v => ?_⟩
  rw [Storage.Engine.mem_versions_stored hpost, mem_applyVersion_batch hseq hbatch, h.members,
    mem_append]
  constructor
  · rintro (hv | ⟨hv, -⟩)
    · exact .inr hv
    · exact .inl hv
  · rintro (hv | hv)
    · refine .inr ⟨hv, fun m hm heq => ?_⟩
      obtain ⟨w, hw, rfl⟩ := mem_map.mp hm
      rw [← hseq w hw, mutation_stored] at heq
      exact hdisjoint _ (mem_map_of_mem hv) _ (mem_map_of_mem hw) heq
    · exact .inl hv

variable {upkeep : Upkeep}

end Load

/-! ### Machines that answer alike -/

/-- Two engines in MVCC mode that store the same. -/
structure Like (e f : Storage.Engine) : Prop where
  alike : Alike e f
  mvcc : e.mvcc = true
  left : e.Ordered
  right : f.Ordered

variable {m r : Machine} {entry : Raft.Entry} {crc32 : Bytes → ℕ} {upkeep : Upkeep}

theorem Like.advance {e f : Storage.Engine} {index : ℕ} (h : Like e f)
    (hindex : e.applied ≤ index) :
    ∃ e' f', e.advanceApplied index = .ok e' ∧ f.advanceApplied index = .ok f' ∧ Like e' f' := by
  have hindex' : f.applied ≤ index := h.alike.applied ▸ hindex
  refine ⟨_, _, Storage.Engine.advanceApplied_ok h.mvcc hindex,
    Storage.Engine.advanceApplied_ok (h.alike.mvcc.trans h.mvcc) hindex', ?_⟩
  exact ⟨⟨h.alike.mvcc, h.alike.sha256, h.alike.visible, rfl, h.alike.members⟩, h.mvcc,
    h.left.advance hindex, h.right.advance hindex'⟩

/-- Above the applied index, and without repeated internal keys, one entry does the same to
two engines that store the same. -/
theorem tolerant_like (hindex : entry.index < 2 ^ 64) :
    Tolerant entry
      (fun e f => Like e f ∧ Distinct e.versions ∧ Distinct f.versions ∧ e.applied < entry.index)
      Like where
  index := hindex
  weaken := fun h => h.1
  sha256 := fun h => h.1.alike.sha256.symm
  durable := by
    rintro e f ⟨h, -, -, hlt⟩
    have happlied := h.alike.applied
    have hleft := h.left.durable
    have hright := h.right.durable
    constructor <;> intro hle <;> omega
  getMVCCAt := fun ⟨h, hde, hdf, _⟩ => h.alike.getMVCCAt h.left h.right hde hdf
  advance := fun ⟨h, _, _, hlt⟩ => .inr (h.advance hlt.le)
  store := by
    rintro e f ⟨h, hde, hdf, hlt⟩ version mutations required allow -
    rcases h.alike.applyCommittedBatch h.left h.right hde hdf hlt with
      herr | ⟨e', f', hm, hr, halike, hleft, hright⟩
    · exact .inl herr
    · have hmode : e'.mvcc = e.mvcc := by
        obtain ⟨-, -, rfl⟩ := Storage.Engine.applyCommittedBatch_ok h.left hm
        rfl
      exact .inr ⟨e', f', hm, hr, halike, hmode.trans h.mvcc, hleft, hright⟩

/-! ### Sequences of operations -/

/-- What is done to a machine after the snapshot. -/
inductive Op where
  | apply (entry : Raft.Entry)
  | syncApplied (index : ℕ)
  | get (key : Bytes) (timestamp : ℕ)
  | scan (start stop : Option Bytes) (timestamp : ℕ)
  | record (id : Txn.ID)
  | participant (id : Txn.ID)
  | snapshot

/-- What an operation returns. -/
inductive Outcome where
  | done (result : Except Error Unit)
  | version (result : Except Error Version)
  | versions (result : Except Error (Except Storage.LsmError (List Version)))
  | record (result : Option Txn.Record)
  | participant (result : Option Txn.ParticipantRecord)
  | snapshot (result : Except Error Bytes)

namespace Op

/-- What an operation returns. -/
def outcome (crc32 : Bytes → ℕ) (m : Machine) : Op → Outcome
  | apply entry => .done ((Machine.apply entry).result m)
  | syncApplied index => .done ((Machine.syncApplied index).result m)
  | get key timestamp => .version (m.getMVCCAt key timestamp)
  | scan start stop timestamp => .versions (m.scanMVCCAt start stop timestamp)
  | record id => .record (m.records.get id)
  | participant id => .participant (m.participants.get id)
  | snapshot => .snapshot (m.encodeSnapshot crc32)

/-- The machine afterwards. -/
def next (m : Machine) : Op → Machine
  | apply entry => (Machine.apply entry).state m
  | syncApplied index => (Machine.syncApplied index).state m
  | _ => m

/-- Raft applies entries above what is applied, and never lags behind the engine. -/
def Follows (m : Machine) : Op → Prop
  | apply entry => m.engine.applied < entry.index ∧ entry.index < 2 ^ 64
  | syncApplied index => m.engine.applied ≤ index ∧ index < 2 ^ 64
  | _ => True

end Op

theorem Agree.checkHistoricalRead (h : Agree m r) (key : Option Bytes) (timestamp : ℕ) :
    m.checkHistoricalRead key timestamp = r.checkHistoricalRead key timestamp := by
  unfold Machine.checkHistoricalRead
  rw [h.mvcc, h.lifecycle, h.containsKey, h.maxApplied, h.safeRead]

theorem id_of_bytes {α : Type} {id : α → Txn.ID} (a b : α) (h : (id a).bytes = (id b).bytes) :
    id a = id b := by
  rcases hid : id a with ⟨bytes, size⟩
  rcases hid' : id b with ⟨bytes', size'⟩
  rw [hid, hid'] at h
  cases h
  rfl

open scoped ByteOrder in
theorem Rel.encodeSnapshot (h : Rel Like m r) (hm : Distinct m.engine.versions)
    (hr : Distinct r.engine.versions) : m.encodeSnapshot crc32 = r.encodeSnapshot crc32 := by
  have himage : ∀ versions, m.image versions = r.image versions := fun versions => by
    unfold image
    rw [h.agree.rangeID, h.agree.generation, h.engine.alike.applied, h.agree.maxApplied,
      h.agree.safeRead, h.agree.clock, h.agree.lifecycle,
      Dict.sorted_eq h.agree.records (fun id r hget => (h.left.records id r hget).1) id_of_bytes,
      Dict.sorted_eq h.agree.participants (fun id p hget => (h.left.participants id p hget).1)
        id_of_bytes]
  unfold Machine.encodeSnapshot
  rw [h.engine.alike.exportMVCCVersions hm hr]
  simp only [himage]

/-- Progress of Raft that does not lag behind is recorded, whatever is durable. -/
theorem exec_syncApplied (hmode : m.engine.mvcc = true) (ho : m.engine.Ordered) {index : ℕ}
    (hindex : m.engine.applied ≤ index) :
    (syncApplied index).exec m =
      (.ok (), { m with engine := { m.engine with applied := index } }) := by
  unfold syncApplied
  show exec (if index = 0 then pure () else if index ≤ m.engine.durable then pure () else _) m = _
  have hsame : m.engine.applied = index →
      m = { m with engine := { m.engine with applied := index } } := fun heq => by
    rw [← heq]
  have hdurable := ho.durable
  by_cases hzero : index = 0
  · rw [if_pos hzero]
    exact Prod.ext rfl (hsame (by omega))
  by_cases hle : index ≤ m.engine.durable
  · rw [if_neg hzero, if_pos hle]
    exact Prod.ext rfl (hsame (by omega))
  · rw [if_neg hzero, if_neg hle, Storage.Engine.advanceApplied_ok hmode hindex]
    rfl

theorem sim_syncApplied (h : Rel Like m r) {index : ℕ} (hindex : m.engine.applied ≤ index) :
    Sim (Rel Like) (syncApplied index) m (syncApplied index) r := by
  have hindex' : r.engine.applied ≤ index := h.engine.alike.applied ▸ hindex
  unfold Sim
  rw [exec_syncApplied h.engine.mvcc h.engine.left hindex,
    exec_syncApplied (h.engine.alike.mvcc.trans h.engine.mvcc) h.engine.right hindex']
  refine ⟨rfl, h.setEngine ?_⟩
  exact ⟨⟨h.engine.alike.mvcc, h.engine.alike.sha256, h.engine.alike.visible, rfl,
    h.engine.alike.members⟩, h.engine.mvcc, h.engine.left.advance hindex,
    h.engine.right.advance hindex'⟩

/-- One operation returns the same on both machines, and they stay alike. -/
theorem Rel.operation (h : Rel Like m r) {op : Op} (hfollows : op.Follows m)
    (hm : Distinct m.engine.versions) (hr : Distinct r.engine.versions) :
    op.outcome crc32 m = op.outcome crc32 r ∧ Rel Like (op.next m) (op.next r) := by
  cases op with
  | apply entry =>
    have hsim := sim_apply (tolerant_like hfollows.2)
      ⟨h.agree, ⟨h.engine, hm, hr, hfollows.1⟩, h.left, h.right⟩
    exact ⟨congrArg Outcome.done hsim.1, hsim.2⟩
  | syncApplied index =>
    have hsim := sim_syncApplied h hfollows.1
    exact ⟨congrArg Outcome.done hsim.1, hsim.2⟩
  | get key timestamp =>
    refine ⟨congrArg Outcome.version ?_, h⟩
    unfold getMVCCAt
    rw [h.agree.checkHistoricalRead, h.engine.alike.getMVCCAt h.engine.left h.engine.right hm hr]
  | scan start stop timestamp =>
    refine ⟨congrArg Outcome.versions ?_, h⟩
    unfold scanMVCCAt
    rw [h.agree.checkHistoricalRead, h.engine.alike.scanMVCCAt hm hr]
  | record id => exact ⟨congrArg Outcome.record (h.agree.records id), h⟩
  | participant id => exact ⟨congrArg Outcome.participant (h.agree.participants id), h⟩
  | snapshot => exact ⟨congrArg Outcome.snapshot (h.encodeSnapshot hm hr), h⟩

theorem Rel.background (h : Rel Like m r) {e : Storage.Engine} (hstep : r.engine.Background e) :
    Rel Like m { r with engine := e } :=
  ⟨{ h.agree with shadow := fun hs => { h.agree.shadow hs with } },
    ⟨h.engine.alike.background hstep, h.engine.mvcc, h.engine.left,
      hstep.ordered h.engine.right⟩, h.left, { h.right with }⟩

theorem Rel.symm (h : Rel Like m r) : Rel Like r m where
  agree :=
    { containsKey := h.agree.containsKey.symm
      mvcc := h.agree.mvcc.symm
      maxApplied := h.agree.maxApplied.symm
      safeRead := h.agree.safeRead.symm
      clock := h.agree.clock.symm
      rangeID := h.agree.rangeID.symm
      generation := h.agree.generation.symm
      records := fun id => (h.agree.records id).symm
      participants := fun id => (h.agree.participants id).symm
      lifecycle := h.agree.lifecycle.symm
      splitID := h.agree.splitID.symm
      splitEpoch := h.agree.splitEpoch.symm
      txnFence := h.agree.txnFence.symm
      userFence := h.agree.userFence.symm
      shadow := fun hs => by
        have hshadow := h.agree.shadow (h.agree.lifecycle.trans hs)
        exact ⟨hshadow.bootstrapIndex.symm, hshadow.bootstrapSplitID.symm,
          hshadow.bootstrapParentID.symm, hshadow.bootstrapParentGen.symm,
          hshadow.bootstrapImage.symm, hshadow.parentReplayThrough.symm, hshadow.provenance.symm,
          hshadow.bootstrapSeen.symm⟩ }
  engine := ⟨h.engine.alike.symm, h.engine.alike.mvcc.trans h.engine.mvcc, h.engine.right,
    h.engine.left⟩
  left := h.right
  right := h.left

/-- The machine a snapshot of `m` is restored into. -/
abbrev fresh (m : Machine) (lifecycle : Lifecycle) : Machine :=
  .opened m.engine.sha256 m.containsKey m.rangeID m.generation lifecycle

section Image

open scoped ByteOrder

/-- The image of a sound machine is within the limits but for its values and the keys of its
prepared writes. -/
theorem Sound.image_fits (h : Sound m) {versions : List Version}
    (hversions : versions ⊆ m.engine.versions)
    (hvalues : ∀ v ∈ versions, v.value.length ≤ maxImageValue)
    (hkeys : ∀ id p, m.participants.get id = some p → ∀ w ∈ p.writes, w.key.length ≤ maxImageKey) :
    (m.image versions).Fits where
  rangeID := h.fit.rangeID
  generation := h.fit.generation
  applied := h.applied
  maxApplied := h.fit.maxApplied
  safeRead := h.fit.safeRead
  hlc := h.fit.clock
  versions := fun v hv => by
    have hstorable := h.engine.storable v (hversions hv)
    exact ⟨hstorable.key, hvalues v hv, hstorable.bounded⟩
  records := fun r hr => by
    obtain ⟨id, hget⟩ := Dict.mem_values.mp ((Dict.sorted_perm _).subset hr)
    exact (h.fit.records id r hget).2
  participants := fun p hp' => by
    obtain ⟨id, hget⟩ := Dict.mem_values.mp ((Dict.sorted_perm _).subset hp')
    have hsound := (h.fit.participants id p hget).2
    exact { hsound with keys := hkeys id p hget }

/-- **The image of a reachable machine is read back exactly when its values and the keys of its
prepared writes are within the limits of the decoder.**  The encoder checks neither. -/
theorem image_round_trip_iff (hcrc : ∀ b, crc32 b < 2 ^ 32) (h : Reachable crc32 m)
    (happlied : m.engine.applied ≠ 0) {versions : List Version}
    (hexport : m.engine.exportMVCCVersions = .ok versions) {encoded : Bytes}
    (hencode : encodeLogicalState crc32 (m.image versions) = .ok encoded) :
    decodeLogicalState crc32 encoded = .ok (m.image versions) ↔
      (∀ v ∈ versions, v.value.length ≤ maxImageValue) ∧
      ∀ id p, m.participants.get id = some p → ∀ w ∈ p.writes, w.key.length ≤ maxImageKey := by
  constructor
  · intro hdecode
    have hfits := decodeLogicalState_fits hdecode
    refine ⟨fun v hv => (hfits.versions v hv).value, fun id p hget => ?_⟩
    have hmem : p ∈ m.participants.sorted (·.id.bytes) :=
      (Dict.sorted_perm _).symm.subset (Dict.mem_values.mpr ⟨id, hget⟩)
    exact (hfits.participants p hmem).keys
  · rintro ⟨hvalues, hkeys⟩
    have hsubset : versions ⊆ m.engine.versions := by
      rw [Storage.Engine.exportMVCCVersions, h.sound.engine.mvcc] at hexport
      exact fun v hv =>
        (Storage.inOrder_perm _).subset (Storage.Engine.exportLoop_subset hexport hv)
    exact decodeLogicalState_encode hcrc (h.sound.image_fits hsubset hvalues hkeys) happlied hencode

end Image

/-- What the image leaves out is at rest, and the opened machine takes over the lifecycle. -/
structure AtRest (m : Machine) (lifecycle : Lifecycle) : Prop where
  splitID : m.splitID = 0
  splitEpoch : m.splitEpoch = 0
  txnFence : m.txnFence = false
  userFence : m.userFence = false
  shadow : m.lifecycle = .shadow → AgreeShadow m (fresh m lifecycle)
  learner : lifecycle = .learner → m.lifecycle = .learner

/-- A transaction with home range 1. -/
def createTransaction : Txn.Operation where
  type := .create
  id := .copy [1]
  readTime := 8
  commitTime := 9
  epoch := 1
  home := { rangeID := 1, generation := 1 }
  participants := [{ rangeID := 1, generation := 1 }]

/-- It prepares a write of key `[109]`. -/
def prepareTransaction : Txn.Operation :=
  { createTransaction with
    type := .prepare
    participants := []
    writes := [{ key := [109], value := [2] }] }

def beginEntry : Raft.Entry := (splitSeven .begin).entry 1 1

def createEntry (index : ℕ) : Raft.Entry :=
  Command.entry ⟨.txnCreate, [107], createTransaction.toBytes, 9⟩ index 1

def prepareEntry (index : ℕ) : Raft.Entry :=
  Command.entry ⟨.txnPrepare, [109], prepareTransaction.toBytes, 9⟩ index 1

/-- A checksum and a digest for the runs below; nothing in them depends on either. -/
def checksum : Bytes → ℕ := fun _ => 0

/-- An engine that rotates behind every batch. -/
def rotating : Upkeep :=
  ⟨fun _ e => { e with active := .empty, older := e.active :: e.older },
    fun _ e => .single (.rotate e)⟩

/-- Range 1 of a new cluster. -/
def newRange : Machine := .opened (fun _ => .zero) (fun _ => true) 1 1 .active

/-- Range 1 inside split 7. -/
def splitting : Machine := (apply beginEntry).state newRange

/-- Range 1 after two writes and inside a transaction. -/
def written : Machine :=
  newRange.replay [(putCommand [107] [1] 5).entry 1 1, (putCommand [108] [1] 6).entry 2 1,
    createEntry 3, prepareEntry 4]

/-- The bytes of a snapshot that succeeds. -/
def snapshotOf (m : Machine) : Bytes :=
  match m.encodeSnapshot checksum with
  | .ok encoded => encoded
  | .error _ => []

/-- Its restore. -/
def restored (m : Machine) : MachineM Unit := restoreSnapshot checksum rotating (snapshotOf m)

theorem newRange_reachable : Reachable checksum newRange :=
  .opened _ _ 1 1 .active (by decide) (by decide)

theorem written_reachable : Reachable checksum written :=
  (((newRange_reachable.apply _ (by decide)).apply _ (by decide)).apply _ (by decide)).apply _
    (by decide)

theorem keys_of_entries
    (h : ∀ e ∈ m.participants.entries, ∀ w ∈ e.2.writes, w.key.length ≤ maxImageKey) (id : Txn.ID)
    (p : Txn.ParticipantRecord) (hget : m.participants.get id = some p) :
    ∀ w ∈ p.writes, w.key.length ≤ maxImageKey :=
  h (id, p) (Dict.mem_entries.mpr hget)

/-- Its image is read back. -/
theorem written_image_round_trip :
    decodeLogicalState checksum (snapshotOf written) =
      .ok (written.image (Storage.inOrder written.engine.versions)) :=
  (image_round_trip_iff (fun _ => show 0 < 2 ^ 32 by decide) written_reachable (by decide +kernel)
    (by decide +kernel) (by decide +kernel)).mpr
      ⟨by decide +kernel, keys_of_entries (by decide +kernel)⟩

/-! ### A value that is too long -/

/-- A write of range 1, and its entry. -/
def longPut (value : Bytes) : Command := putCommand [107] value 5

def longEntry (value : Bytes) : Raft.Entry := (longPut value).entry 1 1

def longVersion (value : Bytes) : Version where
  key := [107]
  seq := 5
  kind := .value
  value := value

/-- The range that has applied it. -/
def longRange (value : Bytes) : Machine :=
  { newRange with
    engine := newRange.engine.stored 1 1 5 (longPut value).toBytes [mutationOf (longPut value)]
    maxApplied := 5
    clock := newRange.clock.observe 5 }

section Long

variable {value : Bytes} (hlength : value.length = maxImageValue + 1)

include hlength

theorem longPut_validate : (longPut value).validate = .ok () := by
  simp [Command.validate, Command.validateValue, longPut, putCommand, hlength, Command.sizeOfHeader,
    CommandType.transactional, CommandType.operation]
  decide

theorem apply_longEntry : (apply (longEntry value)).state newRange = longRange value := by
  have hdecode := Command.decode_toBytes (longPut_validate hlength) (show (5 : ℕ) ≠ 0 by decide)
    (show 5 < 2 ^ 64 by decide)
  have hsmall : ¬ value.length > Storage.maxValueSize := by
    rw [hlength]
    decide
  have hmutation : Storage.Engine.validateMutations [mutationOf (longPut value)] = .ok () := by
    rw [Storage.Engine.validateMutations, if_neg (by simp), Storage.Engine.validateMutationsFrom]
    exact (if_neg (show ¬ 1 > Storage.maxUserKeySize by decide)).trans (if_neg hsmall)
  have hstore : newRange.engine.applyCommittedMVCC 1 1 5 (longPut value).toBytes
      (mutationOf (longPut value)) = .ok (newRange.engine.stored 1 1 5 (longPut value).toBytes
        [mutationOf (longPut value)]) := by
    unfold Storage.Engine.applyCommittedMVCC
    rw [Storage.Engine.applyCommittedBatch_eq newRange_reachable.sound.engine.ordered (by decide),
      Storage.Engine.refusal, hmutation]
    rfl
  have hexec : (apply (longEntry value)).state newRange = ((do
      write "apply committed command to LSM" fun engine => engine.applyCommittedMVCC 1 1 5
        (longPut value).toBytes (mutationOf (longPut value))
      modify fun m => { m with maxApplied := 5, clock := m.clock.observe 5 } : MachineM Unit)).state
        newRange := by
    unfold apply longEntry Command.entry
    rw [hdecode]
    rfl
  rw [hexec]
  refine state_of_wp (P := (· = longRange value)) ?_
  simp only [write, wp_bind, wp_get, hstore, wp_set, wp_modify]
  rfl

theorem longRange_encode : ∃ encoded,
    encodeLogicalState checksum ((longRange value).image [longVersion value]) = .ok encoded := by
  generalize himage : (longRange value).image [longVersion value] = image
  have hids : image.rangeID = 1 ∧ image.generation = 1 := himage ▸ ⟨rfl, rfl⟩
  have hversions : image.versions = [longVersion value] := himage ▸ rfl
  have hrecords : image.records = [] ∧ image.participants = [] := himage ▸ ⟨rfl, rfl⟩
  have hsize : ¬ image.body.length + 4 > maxImageBytes := by
    simp [Image.body, appendList, hversions, hrecords, encodeVersion, appendBytes, longVersion,
      hlength]
    decide
  refine ⟨_, (if_neg ?_).trans (if_neg hsize)⟩
  simp [hids, hversions, hrecords, maxImageVersions]

end Long

/-- A client may write a value of more than 8 MiB.  The image of the range is encoded then, and
cannot be read back. -/
theorem long_value_unreadable :
    ∃ value encoded, (longPut value).encode = .ok (longEntry value).command ∧
      Reachable checksum (longRange value) ∧ (longRange value).engine.applied ≠ 0 ∧
      (longRange value).engine.exportMVCCVersions = .ok [longVersion value] ∧
      encodeLogicalState checksum ((longRange value).image [longVersion value]) = .ok encoded ∧
      decodeLogicalState checksum encoded ≠ .ok ((longRange value).image [longVersion value]) := by
  have hlength : (List.replicate (maxImageValue + 1) (0 : UInt8)).length = maxImageValue + 1 :=
    length_replicate
  generalize List.replicate (maxImageValue + 1) (0 : UInt8) = value at hlength
  obtain ⟨encoded, hencode⟩ := longRange_encode hlength
  have hreach : Reachable checksum (longRange value) :=
    apply_longEntry hlength ▸ newRange_reachable.apply _ (show 1 < 2 ^ 64 by decide)
  refine ⟨value, encoded, ?_, hreach, Nat.one_ne_zero, rfl, hencode, fun hdecode => ?_⟩
  · rw [Command.encode, longPut_validate hlength]
    rfl
  · have hvalue : value.length ≤ maxImageValue :=
      ((decodeLogicalState_fits hdecode).versions (longVersion value) mem_cons_self).value
    omega

end RivetDB.Range
