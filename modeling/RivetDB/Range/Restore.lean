import RivetDB.Order.Grouping
import RivetDB.Range.Agreement

/-!
# Snapshots of the state machine

`encodeSnapshot` and `restoreSnapshot` of `state_snapshot.go`, and the machines that a range
can reach.  A restore keeps what the engine already stores and adds the missing versions,
one batch for each timestamp, under indexes it counts up from the durable frontier.

`Reachable` lists everything that happens to the machine of an MVCC range; what follows from
it about the engine and the maps is `Sound`.  The machine of any other range has no snapshot,
since the export fails.
-/

namespace RivetDB.Range

open List Prog
open Codec (putLE)
open Storage (Version Mutation)
open scoped ByteOrder

namespace Machine

/-! ### Snapshot -/

/-- The image of a machine that stores these versions. -/
def image (m : Machine) (versions : List Version) : Image where
  rangeID := m.rangeID
  generation := m.generation
  applied := m.engine.applied
  maxApplied := m.maxApplied
  safeRead := m.safeRead
  hlc := m.clock.last
  lifecycle := m.lifecycle
  versions := versions
  records := m.records.sorted (·.id.bytes)
  participants := m.participants.sorted (·.id.bytes)

/-- `encodeSnapshot`. -/
def encodeSnapshot (crc32 : Bytes → ℕ) (m : Machine) : Except Error Bytes :=
  match m.engine.exportMVCCVersions with
  | .error err => .error (.wrap "export snapshot MVCC history" (.engine err))
  | .ok versions => encodeLogicalState crc32 (m.image versions)

/-! ### Restore -/

/-- `have[identity(v)]`: the value the engine holds under the internal key of `v`. -/
def held (existing : List Version) (v : Version) : Option Bytes :=
  (existing.find? (·.internal = v.internal)).map (·.value)

/-- The versions of the image that the engine does not hold. -/
def missing (existing : List Version) : List Version → Except Error (List Version)
  | [] => .ok []
  | v :: rest =>
    match held existing v with
    | some value =>
      if value ≠ v.value then .error .invalidOptions else missing existing rest
    | none => (missing existing rest).map (v :: ·)

def mutation (v : Version) : Mutation where
  key := v.key
  value := v.value
  kind := v.kind

/-- What the engine does on its own behind the batch of each index; an apply rotates the active
table at its threshold. -/
structure Upkeep where
  work : ℕ → Storage.Engine → Storage.Engine
  background : ∀ index e, Relation.ReflTransGen Storage.Engine.Background e (work index e)

/-- The batches of a restore, behind the index `index`; the last index is returned. -/
def restoreBatches (upkeep : Upkeep) : ℕ → List (List Version) → MachineM ℕ
  | index, [] => pure index
  | index, batch :: rest => do
      let m ← get
      let identity := m.engine.sha256 (putLE 8 (index + 1))
      match m.engine.applyPreparedMVCCBatch (index + 1) 1 ((batch.head?.map (·.seq)).getD 0)
          identity.bytes (batch.map mutation) with
      | .error err => throw (.wrap "restore MVCC snapshot batch" (.engine err))
      | .ok engine => do
          set { m with engine := upkeep.work (index + 1) engine }
          restoreBatches upkeep (index + 1) rest

def advanceRestored (applied : ℕ) : MachineM Unit := do
  let m ← get
  match m.engine.advanceApplied applied with
  | .error err => throw (.wrap "advance restored apply frontier" (.engine err))
  | .ok engine => set { m with engine := engine }

/-- The end of a restore of the engine, at the index of the last batch. -/
def settle (image : Image) (index : ℕ) : MachineM Unit :=
  if index > image.applied then throw .invalidOptions
  else if index < image.applied then do
    advanceRestored image.applied
    modify fun m => { m with engine := m.engine.flush }
  else modify fun m => { m with engine := m.engine.flush }

/-- The part of `restoreSnapshot` that brings the engine up to the image. -/
def restoreVersions (upkeep : Upkeep) (image : Image) (existing : List Version) : MachineM Unit :=
  match missing existing image.versions with
  | .error err => throw err
  | .ok versions => do
      let m ← get
      let sorted := versions.insertionSort fun v w => v.seq ≤ w.seq
      let index ← restoreBatches upkeep m.engine.durable (Order.runs (·.seq) sorted)
      settle image index

/-- The fields that a restore takes from the image.  A learner stays one. -/
def install (m : Machine) (image : Image) : Machine :=
  { m with
    records := .ofList (·.id) image.records
    participants := .ofList (·.id) image.participants
    maxApplied := max m.maxApplied image.maxApplied
    safeRead := image.safeRead
    clock := m.clock.observe image.hlc
    lifecycle := if m.lifecycle = .learner then .learner else image.lifecycle }

/-- `restoreSnapshot` behind the decoding. -/
def restoreImage (upkeep : Upkeep) (image : Image) : MachineM Unit := do
  let m ← get
  if image.rangeID ≠ m.rangeID ∨ image.generation > m.generation then throw .keyOutOfRange
  else
    match m.engine.exportMVCCVersions with
    | .error err => throw (.wrap "export existing MVCC state" (.engine err))
    | .ok existing =>
      if m.engine.durable > image.applied then
        if image.versions.all fun v => held existing v = some v.value then
          modify fun m => m.install image
        else throw .snapshotBehind
      else do
        restoreVersions upkeep image existing
        modify fun m => m.install image

/-- `restoreSnapshot`. -/
def restoreSnapshot (crc32 : Bytes → ℕ) (upkeep : Upkeep) (encoded : Bytes) : MachineM Unit :=
  match decodeLogicalState crc32 encoded with
  | .error err => throw (.wrap "decode logical range snapshot" err)
  | .ok image => restoreImage upkeep image

/-! ### Reads -/

/-- `checkHistoricalRead`; a scan has no key. -/
def checkHistoricalRead (m : Machine) (key : Option Bytes) (timestamp : ℕ) : Except Error Unit :=
  if !m.mvcc then .error .invalidOptions
  else if m.lifecycle = .shadow then .error .rangeNotServing
  else if key.any fun k => !m.containsKey k then .error .keyOutOfRange
  else if timestamp > max m.maxApplied m.safeRead then .error .replicaBehind
  else .ok ()

/-- `GetMVCCAt` of a replica. -/
def getMVCCAt (m : Machine) (key : Bytes) (timestamp : ℕ) : Except Error Version :=
  match m.checkHistoricalRead (some key) timestamp with
  | .error err => .error err
  | .ok () =>
    match m.engine.getMVCCAt key timestamp with
    | .error err => .error (.wrap "local raw MVCC get" (.engine err))
    | .ok v => .ok v

/-- `ScanMVCCAt` of a replica, behind the check of the span, which looks at the options of the
replica only. -/
def scanMVCCAt (m : Machine) (start stop : Option Bytes) (timestamp : ℕ) :
    Except Error (Except Storage.LsmError (List Version)) :=
  match m.checkHistoricalRead none timestamp with
  | .error err => .error err
  | .ok () => .ok (m.engine.scanMVCCAt start stop timestamp)

/-! ### The life of a machine -/

/-- `syncAppliedLocked`, when Raft has applied up to `index`. -/
def syncApplied (index : ℕ) : MachineM Unit := do
  let m ← get
  if index = 0 then pure ()
  else if index ≤ m.engine.durable then pure ()
  else
    match m.engine.advanceApplied index with
    | .error err => throw (.wrap "publish no-op applied progress" (.engine err))
    | .ok engine => set { m with engine := engine }

/-- The machine that `Open` creates over an empty directory. -/
def opened (sha256 : Bytes → Digest) (containsKey : Bytes → Bool) (rangeID generation : ℕ)
    (lifecycle : Lifecycle) : Machine where
  engine := { mvcc := true, sha256 := sha256 }
  containsKey := containsKey
  rangeID := rangeID
  generation := generation
  lifecycle := lifecycle

end Machine

/-- An engine that was opened again: it has the tables of the manifest, which hold what the
applies up to the durable frontier have stored. -/
structure Reopened (e e' : Storage.Engine) : Prop where
  mvcc : e'.mvcc = e.mvcc
  versions : e'.versions ⊆ e.versions
  applied : e'.applied = e.durable
  durable : e'.durable = e.durable
  identities : ∀ i, e'.identities i = none
  visible : ∀ v ∈ e'.versions, v.seq ≤ e'.visible.getD 0
  shown : e'.visible = none → e'.versions = []
  attained : ∀ x ∈ e'.visible, ∃ v ∈ e'.versions, v.seq = x
  spread : ∃ seqs : List ℕ, seqs.length ≤ e.durable ∧ ∀ v ∈ e'.versions, v.seq ∈ seqs

open Machine

/-- The machines of an MVCC range.  Besides committed entries and progress of Raft there are
the engine's own work, timestamps that the clock gives out, the cutover of a migration, newer
descriptors, snapshots of any content, and restarts. -/
inductive Reachable (crc32 : Bytes → ℕ) : Machine → Prop
  | opened (sha256 : Bytes → Digest) (containsKey : Bytes → Bool) (rangeID generation : ℕ)
      (lifecycle : Lifecycle) (hrange : rangeID < 2 ^ 64) (hgeneration : generation < 2 ^ 64) :
      Reachable crc32 (.opened sha256 containsKey rangeID generation lifecycle)
  | apply {m : Machine} (h : Reachable crc32 m) (entry : Raft.Entry)
      (hindex : entry.index < 2 ^ 64) : Reachable crc32 ((Machine.apply entry).state m)
  | syncApplied {m : Machine} (h : Reachable crc32 m) (index : ℕ) (hindex : index < 2 ^ 64) :
      Reachable crc32 ((Machine.syncApplied index).state m)
  | background {m : Machine} (h : Reachable crc32 m) {e : Storage.Engine}
      (hstep : m.engine.Background e) : Reachable crc32 { m with engine := e }
  | tick {m : Machine} (h : Reachable crc32 m) {millis : ℤ} {t : ℕ} {clock : Mvcc.Clock}
      (hnow : m.clock.now millis = .ok (t, clock)) : Reachable crc32 { m with clock := clock }
  | activateMigration {m : Machine} (h : Reachable crc32 m) (hlearner : m.lifecycle = .learner) :
      Reachable crc32 { m with lifecycle := .active }
  | installGeneration {m : Machine} (h : Reachable crc32 m) (generation : ℕ)
      (hgrows : m.generation ≤ generation) (hgeneration : generation < 2 ^ 64) :
      Reachable crc32 { m with generation := generation }
  | restore {m : Machine} (h : Reachable crc32 m) (upkeep : Upkeep) (encoded : Bytes)
      (hindex : ((restoreSnapshot crc32 upkeep encoded).state m).engine.applied < 2 ^ 64) :
      Reachable crc32 ((restoreSnapshot crc32 upkeep encoded).state m)
  | reopened {m : Machine} (h : Reachable crc32 m) {e : Storage.Engine} (he : Reopened m.engine e)
      (floor clockFloor generation : ℕ) (lifecycle : Lifecycle) (hfloor : floor < 2 ^ 64)
      (hclock : clockFloor < 2 ^ 64) (hgeneration : generation < 2 ^ 64) :
      Reachable crc32
        { Machine.opened e.sha256 m.containsKey m.rangeID generation lifecycle with
          engine := e
          maxApplied := floor
          safeRead := floor
          clock := { last := clockFloor } }

/-! ### What holds of every machine -/

/-- What a reachable machine satisfies. -/
structure Sound (m : Machine) : Prop where
  engine : m.engine.Filled
  applied : m.engine.applied < 2 ^ 64
  fit : Fit m

variable {m : Machine} {entry : Raft.Entry} {index : ℕ}

/-- One filled engine, compared with itself. -/
theorem tolerant_filled (hindex : entry.index < 2 ^ 64) :
    Tolerant entry (fun e f => e = f ∧ e.Filled ∧ e.applied < 2 ^ 64)
      (fun e f => e = f ∧ e.Filled ∧ e.applied < 2 ^ 64) where
  index := hindex
  weaken := id
  sha256 := fun ⟨heq, _⟩ => heq ▸ rfl
  durable := fun ⟨heq, _⟩ => heq ▸ Iff.rfl
  getMVCCAt := fun ⟨heq, _⟩ _ _ => heq ▸ rfl
  advance := by
    rintro e f ⟨rfl, he, -⟩
    rcases hadvance : e.advanceApplied entry.index with err | e'
    · exact .inl ⟨err, rfl, rfl⟩
    · obtain ⟨hle, rfl⟩ := Storage.Engine.advanceApplied_spec he.mvcc hadvance
      exact .inr ⟨_, _, rfl, rfl, rfl, he.advance hle, hindex⟩
  store := by
    rintro e f ⟨rfl, he, -⟩ version mutations required allow hversion
    rcases hstore : e.applyCommittedBatch entry.index entry.term version entry.command mutations
      required allow with err | e'
    · exact .inl ⟨err, rfl, rfl⟩
    · obtain ⟨hle, hrefusal, rfl⟩ := Storage.Engine.applyCommittedBatch_ok he.ordered hstore
      exact .inr ⟨_, _, rfl, rfl, rfl, he.stored hle hversion hrefusal, hindex⟩

variable {sha256 : Bytes → Digest} {containsKey : Bytes → Bool}

theorem Sound.opened {rangeID generation : ℕ} {lifecycle : Lifecycle} (hrange : rangeID < 2 ^ 64)
    (hgeneration : generation < 2 ^ 64) :
    Sound (.opened sha256 containsKey rangeID generation lifecycle) where
  engine := Storage.Engine.Filled.opened
  applied := show 0 < 2 ^ 64 by decide
  fit :=
    { maxApplied := show 0 < 2 ^ 64 by decide
      safeRead := show 0 < 2 ^ 64 by decide
      clock := show 0 < 2 ^ 64 by decide
      records := nofun
      participants := nofun
      mvcc := rfl
      rangeID := hrange
      generation := hgeneration }

theorem Sound.apply (h : Sound m) (hindex : entry.index < 2 ^ 64) :
    Sound ((Machine.apply entry).state m) := by
  have hagree : Agree m m :=
    { containsKey := rfl, mvcc := rfl, maxApplied := rfl, safeRead := rfl, clock := rfl,
      rangeID := rfl, generation := rfl, records := fun _ => rfl, participants := fun _ => rfl,
      lifecycle := rfl, splitID := rfl, splitEpoch := rfl, txnFence := rfl, userFence := rfl,
      shadow := fun _ => ⟨rfl, rfl, rfl, rfl, rfl, rfl, rfl, rfl⟩ }
  have hrel := (sim_apply (tolerant_filled hindex)
    ⟨hagree, ⟨rfl, h.engine, h.applied⟩, h.fit, h.fit⟩).2
  exact ⟨hrel.engine.2.1, hrel.engine.2.2, hrel.left⟩

theorem Sound.syncApplied (h : Sound m) (hindex : index < 2 ^ 64) :
    Sound ((Machine.syncApplied index).state m) := by
  refine state_of_wp ?_
  unfold Machine.syncApplied
  simp only [wp_bind, wp_get, wp_ite, wp_pure]
  refine ⟨fun _ => h, fun _ => ⟨fun _ => h, fun _ => ?_⟩⟩
  rcases hadvance : m.engine.advanceApplied index with err | e
  · exact h
  · obtain ⟨hle, rfl⟩ := Storage.Engine.advanceApplied_spec h.engine.mvcc hadvance
    exact ⟨h.engine.advance hle, hindex, { h.fit with }⟩

/-! ### Restores keep it -/

/-- The part of `Sound` that a restore keeps at every index. -/
def Kept (m : Machine) : Prop := m.engine.Filled ∧ Fit m

variable {e : Storage.Engine}

theorem Kept.setEngine (h : Kept m) (he : e.Filled) : Kept { m with engine := e } :=
  ⟨he, { h.2 with }⟩

theorem missing_subset {existing versions rest : List Version}
    (h : missing existing versions = .ok rest) : rest ⊆ versions := by
  induction versions generalizing rest with
  | nil =>
    cases h
    exact List.Subset.refl _
  | cons v versions ih =>
    rw [missing] at h
    split at h
    · split at h
      · cases h
      · exact List.Subset.trans (ih h) (subset_cons_self _ _)
    · rcases htail : missing existing versions with err | tail
      · rw [htail] at h
        cases h
      · rw [htail] at h
        cases h
        exact cons_subset_cons _ (ih htail)

variable {upkeep : Upkeep}

/-- The upkeep keeps what every background step keeps. -/
theorem Upkeep.keeps {P : Storage.Engine → Prop} (hstep : ∀ e f, P e → e.Background f → P f)
    (h : P e) (index : ℕ) : P (upkeep.work index e) := by
  have hsteps := upkeep.background index e
  generalize upkeep.work index e = f at hsteps
  induction hsteps with
  | refl => exact h
  | tail _ hlast ih => exact hstep _ _ ih hlast

theorem kept_restoreBatches {batches : List (List Version)} (h : Kept m)
    (hbatches : ∀ batch ∈ batches, ∀ v ∈ batch, v.seq < 2 ^ 64) :
    (restoreBatches upkeep index batches).wp (fun _ => Kept) (fun _ => Kept) m := by
  induction batches generalizing m index with
  | nil => exact h
  | cons batch rest ih =>
    have hseq : (batch.head?.map (·.seq)).getD 0 < 2 ^ 64 := by
      rcases batch with - | ⟨v, batch⟩
      · exact show 0 < 2 ^ 64 by decide
      · exact hbatches _ mem_cons_self v mem_cons_self
    unfold restoreBatches
    rw [wp_bind, wp_get]
    dsimp only
    split
    · exact h
    · rename_i engine hstore
      obtain ⟨hle, hrefusal, rfl⟩ := Storage.Engine.applyCommittedBatch_ok h.1.ordered hstore
      exact ih (h.setEngine (Upkeep.keeps (fun _ _ => Storage.Engine.Filled.background)
        (h.1.stored hle hseq hrefusal) _))
        fun batch hbatch => hbatches batch (mem_cons_of_mem _ hbatch)

theorem kept_settle (h : Kept m) (image : Image) :
    (settle image index).wp (fun _ => Kept) (fun _ => Kept) m := by
  unfold settle advanceRestored
  simp only [wp_ite, wp_bind, wp_get, wp_modify, wp_throw]
  refine ⟨fun _ => h, fun _ => ⟨fun _ => ?_, fun _ => h.setEngine h.1.flush⟩⟩
  rcases hadvance : m.engine.advanceApplied image.applied with err | e
  · exact h
  · obtain ⟨hle, rfl⟩ := Storage.Engine.advanceApplied_spec h.1.mvcc hadvance
    have hadvanced := h.setEngine (h.1.advance hle)
    exact hadvanced.setEngine hadvanced.1.flush

variable {image : Image}

theorem kept_restoreVersions (h : Kept m) (himage : image.Fits) (existing : List Version) :
    (restoreVersions upkeep image existing).wp (fun _ => Kept) (fun _ => Kept) m := by
  unfold restoreVersions
  rcases hmissing : missing existing image.versions with err | versions
  · exact h
  simp only [wp_bind, wp_get]
  refine wp_mono (kept_restoreBatches h fun batch hbatch v hv => ?_)
    (fun index m' h' => kept_settle h' image) fun _ _ h' => h'
  have hmem := (perm_insertionSort _ _).subset (Order.mem_of_mem_runs hbatch hv)
  exact (himage.versions v (missing_subset hmissing hmem)).seq

theorem Kept.install (h : Kept m) (himage : image.Fits) : Kept (m.install image) := by
  refine ⟨h.1, ⟨?_, himage.safeRead, ?_, ?_, ?_, h.2.mvcc, h.2.rangeID, h.2.generation⟩⟩
  · exact Nat.max_lt.mpr ⟨h.2.maxApplied, himage.maxApplied⟩
  · exact observe_lt h.2.clock himage.hlc
  · intro id r hget
    obtain ⟨hmem, hid⟩ := Dict.mem_of_get_ofList hget
    exact ⟨hid, himage.records r hmem⟩
  · intro id p hget
    obtain ⟨hmem, hid⟩ := Dict.mem_of_get_ofList hget
    have hfits := himage.participants p hmem
    exact ⟨hid, { hfits with }⟩

theorem kept_restoreSnapshot (h : Kept m) (crc32 : Bytes → ℕ) (upkeep : Upkeep) (encoded : Bytes) :
    (restoreSnapshot crc32 upkeep encoded).wp (fun _ => Kept) (fun _ => Kept) m := by
  unfold restoreSnapshot
  rcases hdecode : decodeLogicalState crc32 encoded with err | image
  · exact h
  have himage := decodeLogicalState_fits hdecode
  unfold restoreImage
  simp only [wp_bind, wp_get, wp_ite, wp_throw]
  refine ⟨fun _ => h, fun _ => ?_⟩
  rcases m.engine.exportMVCCVersions with err | existing
  · exact h
  simp only [wp_bind, wp_ite, wp_throw, wp_modify]
  refine ⟨fun _ => ⟨fun _ => h.install himage, fun _ => h⟩, fun _ => ?_⟩
  exact wp_mono (kept_restoreVersions h himage existing)
    (fun _ _ h' => h'.install himage) fun _ _ h' => h'

/-- Every reachable machine is sound. -/
theorem Reachable.sound {crc32 : Bytes → ℕ} (h : Reachable crc32 m) : Sound m := by
  induction h with
  | opened sha256 containsKey rangeID generation lifecycle hrange hgeneration =>
    exact Sound.opened hrange hgeneration
  | apply h entry hindex ih => exact ih.apply hindex
  | syncApplied h index hindex ih => exact ih.syncApplied hindex
  | background h hstep ih =>
    obtain ⟨-, -, -, -, happlied, -⟩ := hstep.layout
    exact ⟨ih.engine.background hstep, happlied ▸ ih.applied, { ih.fit with }⟩
  | tick h hnow ih =>
    obtain ⟨-, hlt, hlast⟩ := Mvcc.Clock.now_spec ih.fit.clock hnow
    exact ⟨ih.engine, ih.applied, { ih.fit with clock := hlast ▸ hlt }⟩
  | activateMigration h hlearner ih => exact ⟨ih.engine, ih.applied, { ih.fit with }⟩
  | installGeneration h generation hgrows hgeneration ih =>
    exact ⟨ih.engine, ih.applied, { ih.fit with generation := hgeneration }⟩
  | restore h upkeep encoded hindex ih =>
    have hkept := state_of_wp (kept_restoreSnapshot ⟨ih.engine, ih.fit⟩ crc32 upkeep encoded)
    exact ⟨hkept.1, hindex, hkept.2⟩
  | @reopened m h e he floor clockFloor generation lifecycle hfloor hclock hgeneration ih =>
    refine ⟨⟨he.mvcc.trans ih.engine.mvcc, ⟨he.visible, he.shown, ?_, fun i _ => he.identities i⟩,
      he.attained, ?_, fun v hv => ih.engine.storable v (he.versions hv)⟩, ?_, ?_⟩
    · show e.durable ≤ e.applied
      rw [he.durable, he.applied]
    · show ∃ seqs : List ℕ, seqs.length ≤ e.applied ∧ _
      rw [he.applied]
      exact he.spread
    · show e.applied < 2 ^ 64
      rw [he.applied]
      exact ih.engine.ordered.durable.trans_lt ih.applied
    · exact ⟨hfloor, hfloor, hclock, nofun, nofun, rfl, ih.fit.rangeID, hgeneration⟩

end RivetDB.Range
