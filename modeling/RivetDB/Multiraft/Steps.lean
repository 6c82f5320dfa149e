import RivetDB.Multiraft.Metadata
import RivetDB.Multiraft.Partition

/-!
# What a metadata call can do

`Step s s'` lists the changes a successful call makes to the metadata, each with the
checks that were passed.  Every invariant of the metadata is proved over these cases,
never over the methods themselves.
-/

namespace RivetDB.Multiraft

open List MetadataState

variable {s s' : MetadataState}

/-- Two split records describe the same split, perhaps at different progress. -/
structure SplitRecord.SameSplit (r r' : SplitRecord) : Prop where
  splitID : r'.splitID = r.splitID
  parent : r'.parent = r.parent
  splitKey : r'.splitKey = r.splitKey
  left : r'.left = r.left
  right : r'.right = r.right

/-- Two migration records describe the same migration, perhaps at different progress. -/
structure MigrationRecord.SameMigration (r r' : MigrationRecord) : Prop where
  migrationID : r'.migrationID = r.migrationID
  rangeID : r'.rangeID = r.rangeID
  rangeGeneration : r'.rangeGeneration = r.rangeGeneration
  sourceReplicaID : r'.sourceReplicaID = r.sourceReplicaID
  targetReplicaID : r'.targetReplicaID = r.targetReplicaID
  targetNodeID : r'.targetNodeID = r.targetNodeID

/-- The state after a split was begun. -/
def MetadataState.withSplit (s : MetadataState) (d : RangeDescriptor) (splitKey : Bytes) :
    MetadataState :=
  { s with
    nextRangeID := s.nextRangeID + 2
    nextSplitID := wrap64 (s.nextSplitID + 1)
    splits := s.splits ++
      [newSplit d.ref d splitKey s.nextRangeID (s.nextRangeID + 1) s.nextSplitID] }

/-- The state after a migration was begun. -/
def MetadataState.withMigration (s : MetadataState) (d : RangeDescriptor)
    (source : ReplicaDescriptor) (target : Raft.NodeID) : MetadataState :=
  { s with
    nextMigrationID := wrap64 (s.nextMigrationID + 1)
    nextReplicaID := wrap64 (s.nextReplicaID + 1)
    migrations := s.migrations ++
      [newMigration s.nextMigrationID d.rangeID d.generation source s.nextReplicaID target
        s.catalog.generation] }

/-- The state after a migration was committed. -/
def MetadataState.migrationCommitted (s : MetadataState) (record : MigrationRecord)
    (candidate : Catalog) : MetadataState :=
  { s with catalog := candidate }.setMigration
    { record with state := .committed, catalogGeneration := candidate.generation }

theorem SplitRecord.sameSplit_advanced (r : SplitRecord) (target : SplitState)
    (update : SplitRecord) : r.SameSplit (r.advanced target update) :=
  ⟨rfl, rfl, rfl, rfl, rfl⟩

theorem MigrationRecord.sameMigration_advanced (r : MigrationRecord) (target : MigrationState)
    (update : MigrationRecord) : r.SameMigration (r.advanced target update) :=
  ⟨rfl, rfl, rfl, rfl, rfl, rfl⟩

theorem MigrationRecord.sameMigration_committed (r : MigrationRecord) (generation : ℕ) :
    r.SameMigration { r with state := .committed, catalogGeneration := generation } :=
  ⟨rfl, rfl, rfl, rfl, rfl, rfl⟩

/-- Nothing leads out of a terminal state. -/
theorem legalSplitTransition_source {source target : SplitState}
    (h : legalSplitTransition source target = true) : source.terminal = false := by
  cases source <;> cases target <;> first | rfl | (exact absurd h (by decide))

theorem legalMigrationTransition_source {source target : MigrationState}
    (h : legalMigrationTransition source target = true) : source.terminal = false := by
  cases source <;> first | rfl | (cases target <;> exact absurd h (by decide))

variable {id : ℕ}

theorem MetadataState.split?_some {r : SplitRecord} (h : s.split? id = some r) :
    r ∈ s.splits ∧ r.splitID = id :=
  ⟨mem_of_find?_eq_some h, by simpa using find?_some h⟩

variable {r : MigrationRecord}

theorem MetadataState.migration?_some
    (h : s.migration? id = some r) : r ∈ s.migrations ∧ r.migrationID = id :=
  ⟨mem_of_find?_eq_some h, by simpa using find?_some h⟩

variable {d : RangeDescriptor}

theorem Catalog.lookupByID_mem {c : Catalog}
    (h : c.lookupByID id = .ok d) : d ∈ c.ranges ∧ d.rangeID = id := by
  unfold Catalog.lookupByID at h
  split at h
  · rename_i d' hfind
    cases h
    exact ⟨mem_of_find?_eq_some hfind, by simpa using find?_some hfind⟩
  · cases h

/-! ### One lemma per method -/

/-- How a call moves an open split to its next state. -/
inductive SplitRecord.Moves (r : SplitRecord) : MetadataCall → SplitRecord → Prop
  | advanced (target : SplitState) (update : SplitRecord)
      (hlegal : legalSplitTransition r.state target = true) :
      r.Moves (.advance r.splitID r.epoch target update) (r.advanced target update)
  | taken (hepoch : r.epoch ≠ Raft.maxUint64) :
      r.Moves (.takeover r.splitID r.epoch) { r with epoch := r.epoch + 1 }

/-- How a call moves an open migration to its next state. -/
inductive MigrationRecord.Moves (r : MigrationRecord) : MetadataCall → MigrationRecord → Prop
  | advanced (target : MigrationState) (update : MigrationRecord)
      (hlegal : legalMigrationTransition r.state target = true) :
      r.Moves (.advanceMigration r.migrationID r.epoch target update) (r.advanced target update)
  | taken (hepoch : r.epoch ≠ Raft.maxUint64) :
      r.Moves (.takeoverMigration r.migrationID r.epoch) { r with epoch := r.epoch + 1 }

/-- What a successful call does. -/
inductive Change (s : MetadataState) : MetadataCall → MetadataState → Prop
  | same (c : MetadataCall) : Change s c s
  | splitBegun (d : RangeDescriptor) (splitKey : Bytes) (hd : d ∈ s.catalog.ranges)
      (hinterior : strictInterior d.startKey d.endKey splitKey = true)
      (hsplits : ∀ r ∈ s.splits, r.parent = d.ref → r.state.terminal = true)
      (hmigrations : ∀ r ∈ s.migrations, r.rangeID = d.rangeID → r.state.terminal = true)
      (hnext : s.nextRangeID < metaRangeID - 1) (hsplitID : s.nextSplitID ≠ 0) :
      Change s (.begin d.ref splitKey s.catalog.generation) (s.withSplit d splitKey)
  | splitMoved (c : MetadataCall) (r r' : SplitRecord) (hr : s.split? r.splitID = some r)
      (hsame : r.SameSplit r') (hstate : r.state.terminal = false) (hmoves : r.Moves c r') :
      Change s c (s.setSplit r')
  | splitCommitted (r : SplitRecord) (candidate : Catalog) (hr : s.split? r.splitID = some r)
      (hstate : r.state = .fenced)
      (hcandidate : newCatalog (s.splitBootstrap r) = .ok candidate)
      (hedge : s.edge? r.parent = none)
      (hlineage : (s.splitCommitted r candidate).validateLineage = .ok ()) :
      Change s (.commit r.splitID r.epoch s.catalog.generation) (s.splitCommitted r candidate)
  | migrationBegun (d : RangeDescriptor) (source : ReplicaDescriptor) (target : Raft.NodeID)
      (hd : d ∈ s.catalog.ranges) (hsource : source ∈ d.replicas)
      (htarget : ∀ r ∈ d.replicas, r.nodeID ≠ target) (hnode : target ∈ s.catalog.nodes)
      (hzero : target ≠ 0)
      (hsplits : ∀ r ∈ s.splits, r.parent.rangeID = d.rangeID → r.state.terminal = true)
      (hmigrations : ∀ r ∈ s.migrations, r.rangeID = d.rangeID → r.state.terminal = true)
      (hreplicaID : s.nextReplicaID ≠ 0) (hmigrationID : s.nextMigrationID ≠ 0) :
      Change s (.beginMigration d.rangeID source.replicaID target d.generation
        s.catalog.generation) (s.withMigration d source target)
  | migrationMoved (c : MetadataCall) (r r' : MigrationRecord)
      (hr : s.migration? r.migrationID = some r) (hsame : r.SameMigration r')
      (hstate : r.state.terminal = false) (hmoves : r.Moves c r') :
      Change s c (s.setMigration r')
  | migrationCommitted (r : MigrationRecord) (d : RangeDescriptor) (candidate : Catalog)
      (hr : s.migration? r.migrationID = some r) (hstate : r.state = .sourceRemoving)
      (hd : d ∈ s.catalog.ranges) (href : d.rangeID = r.rangeID)
      (hgeneration : d.generation = r.rangeGeneration)
      (hsource : ∃ x ∈ d.replicas, x.replicaID = r.sourceReplicaID)
      (hcandidate : newCatalog (s.migrationBootstrap r) = .ok candidate) :
      Change s (.commitMigration r.migrationID r.epoch s.catalog.generation r.configVersion)
        (s.migrationCommitted r candidate)

/-- A change by some call. -/
def Step (s s' : MetadataState) : Prop := ∃ c, Change s c s'

variable {generation : ℕ}

theorem MetadataState.begin_change {parent : RangeRef} {splitKey : Bytes}
    {r : SplitRecord} (h : s.begin parent splitKey generation = .ok (r, s')) :
    Change s (.begin parent splitKey generation) s' := by
  unfold begin at h
  split at h
  · cases h
  rename_i hexpected
  split at h
  · cases h
  rename_i d hlookup
  obtain ⟨hd, hid⟩ := Catalog.lookupByID_mem hlookup
  split at h
  · cases h
  rename_i hgeneration
  split at h
  · cases h
  rename_i hinterior
  have href : parent = d.ref := by
    simp only [not_not] at hgeneration
    simp [RangeDescriptor.ref, hid, hgeneration]
  split at h
  · split_ifs at h
    cases h
    exact Change.same _
  rename_i hnone
  split at h
  · cases h
  rename_i hmigrations
  unfold allocateSplit at h
  split_ifs at h with hlimits
  cases h
  simp only [not_or, Nat.not_le, not_not] at hlimits hexpected
  subst href hexpected
  refine Change.splitBegun d splitKey hd (by simpa using hinterior) (fun x hx hparent => ?_)
    (fun x hx hrange => ?_) hlimits.2.1 hlimits.2.2
  · have := find?_eq_none.mp hnone x hx
    simpa [hparent] using this
  · simp only [any_eq_true, not_exists, not_and] at hmigrations
    have := hmigrations x hx
    simpa [hrange, hid] using this

variable {epoch : ℕ}

theorem MetadataState.advance_change {target : SplitState}
    {update r : SplitRecord} (h : s.advance id epoch target update = .ok (r, s')) :
    Change s (.advance id epoch target update) s' := by
  unfold advance at h
  split at h
  · cases h
  rename_i record hrecord
  split_ifs at h with hguard
  cases h
  simp only [not_or, not_not, Bool.not_eq_true', Bool.not_eq_false] at hguard
  obtain ⟨-, rfl⟩ := split?_some hrecord
  rw [hguard.1]
  exact Change.splitMoved _ record _ hrecord (record.sameSplit_advanced target update)
    (legalSplitTransition_source hguard.2) (.advanced target update hguard.2)

theorem MetadataState.takeover_change {r : SplitRecord}
    (h : s.takeover id epoch = .ok (r, s')) : Change s (.takeover id epoch) s' := by
  unfold takeover at h
  split at h
  · cases h
  rename_i record hrecord
  split_ifs at h with hguard
  cases h
  simp only [not_or, not_not] at hguard
  obtain ⟨-, rfl⟩ := split?_some hrecord
  rw [hguard.2.2.1]
  refine Change.splitMoved _ record _ hrecord ⟨rfl, rfl, rfl, rfl, rfl⟩ ?_ (.taken hguard.2.2.2)
  simp [SplitState.terminal, hguard.1, hguard.2.1]

/-- The record `commit` stores. -/
def SplitRecord.cutOver (r : SplitRecord) (candidate : Catalog) : SplitRecord :=
  { r with state := .committed, cutoverCatalogGeneration := candidate.generation }

theorem SplitRecord.sameSplit_cutOver (r : SplitRecord) (candidate : Catalog) :
    r.SameSplit (r.cutOver candidate) :=
  ⟨rfl, rfl, rfl, rfl, rfl⟩

variable {expected : ℕ}

/-- `commit` succeeds for a fenced split whose children have caught up, when the new
catalog and the new lineage are accepted. -/
theorem MetadataState.commit_ok_iff {r' : SplitRecord} :
    s.commit id epoch expected = .ok (r', s') ↔
      ∃ r candidate, s.split? id = some r ∧ r.epoch = epoch ∧ r.state = .fenced ∧
        s.catalog.generation = expected ∧ r.fenceIndex ≠ 0 ∧
        r.leftReplayThrough = r.fenceIndex ∧ r.rightReplayThrough = r.fenceIndex ∧
        newCatalog (s.splitBootstrap r) = .ok candidate ∧ s.edge? r.parent = none ∧
        (s.splitCommitted r candidate).validateLineage = .ok () ∧
        r' = r.cutOver candidate ∧ s' = s.splitCommitted r candidate := by
  constructor
  · intro h
    unfold commit at h
    split at h
    · cases h
    rename_i r hr
    split at h
    · cases h
    rename_i hguard
    split at h
    · cases h
    rename_i candidate hcandidate
    split at h
    · cases h
    rename_i hedge
    dsimp only at h
    split at h
    · cases h
    rename_i hlineage
    cases h
    simp only [not_or, not_not] at hguard
    obtain ⟨hepoch, hstate, hexpected, hfence, hleft, hright⟩ := hguard
    exact ⟨r, candidate, hr, hepoch, hstate, hexpected, hfence, hleft, hright, hcandidate,
      by simpa using hedge, hlineage, rfl, rfl⟩
  · rintro ⟨r, candidate, hr, hepoch, hstate, hexpected, hfence, hleft, hright, hcandidate, hedge,
      hlineage, rfl, rfl⟩
    have hguard : ¬ (r.epoch ≠ epoch ∨ r.state ≠ .fenced ∨ s.catalog.generation ≠ expected ∨
        r.fenceIndex = 0 ∨ r.leftReplayThrough ≠ r.fenceIndex ∨
        r.rightReplayThrough ≠ r.fenceIndex) := by
      tauto
    unfold commit
    simp only [hr, if_neg hguard, hcandidate, hedge, hlineage]
    rfl

theorem MetadataState.commit_change {r : SplitRecord}
    (h : s.commit id epoch expected = .ok (r, s')) : Change s (.commit id epoch expected) s' := by
  obtain ⟨r, candidate, hr, rfl, hstate, rfl, -, -, -, hcandidate, hedge, hlineage, rfl, rfl⟩ :=
    commit_ok_iff.mp h
  obtain ⟨-, rfl⟩ := split?_some hr
  exact Change.splitCommitted r candidate hr hstate hcandidate hedge hlineage

theorem MetadataState.beginMigration_change {rangeID source : ℕ} {target : Raft.NodeID}
    (h : s.beginMigration rangeID source target generation expected = .ok (r, s')) :
    Change s (.beginMigration rangeID source target generation expected) s' := by
  unfold beginMigration at h
  split at h
  · cases h
  rename_i hexpected
  split at h
  · cases h
  rename_i d hlookup
  obtain ⟨hd, rfl⟩ := Catalog.lookupByID_mem hlookup
  split at h
  · cases h
  rename_i hgeneration
  split at h
  · cases h
  rename_i htarget
  split at h
  · cases h
  rename_i replica hreplica
  split_ifs at h with hidentity hsplits
  split at h
  · split_ifs at h
    cases h
    exact Change.same _
  rename_i hnone
  unfold allocateMigration at h
  split_ifs at h with hlimits
  cases h
  simp only [not_or, not_not] at hlimits hidentity hexpected hgeneration
  have hsource : replica.replicaID = source := by simpa using find?_some hreplica
  subst hexpected hgeneration hsource
  refine Change.migrationBegun d replica target hd (mem_of_find?_eq_some hreplica)
    (fun x hx heq => htarget ?_) hidentity.2.2 hidentity.2.1 (fun x hx hparent => ?_)
    (fun x hx hrange => ?_) hlimits.1 hlimits.2
  · exact any_eq_true.mpr ⟨x, hx, by simpa using heq⟩
  · simp only [any_eq_true, not_exists, not_and] at hsplits
    have := hsplits x hx
    simpa [hparent] using this
  · have := find?_eq_none.mp hnone x hx
    simpa [hrange] using this

theorem MetadataState.advanceMigration_change {target : MigrationState}
    {update r : MigrationRecord} (h : s.advanceMigration id epoch target update = .ok (r, s')) :
    Change s (.advanceMigration id epoch target update) s' := by
  unfold advanceMigration at h
  split at h
  · cases h
  rename_i record hrecord
  split_ifs at h with hepoch hsame hlegal
  · cases h
    exact Change.same _
  · cases h
    simp only [Bool.not_eq_true', Bool.not_eq_false, not_not] at hlegal hepoch
    obtain ⟨-, rfl⟩ := migration?_some hrecord
    rw [← hepoch]
    exact Change.migrationMoved _ record _ hrecord (record.sameMigration_advanced target update)
      (legalMigrationTransition_source hlegal) (.advanced target update hlegal)

theorem MetadataState.takeoverMigration_change (h : s.takeoverMigration id epoch = .ok (r, s')) :
    Change s (.takeoverMigration id epoch) s' := by
  unfold takeoverMigration at h
  split at h
  · cases h
  rename_i record hrecord
  split_ifs at h with hguard
  cases h
  simp only [not_or, not_not] at hguard
  obtain ⟨-, rfl⟩ := migration?_some hrecord
  rw [← hguard.1]
  refine Change.migrationMoved _ record _ hrecord ⟨rfl, rfl, rfl, rfl, rfl, rfl⟩ ?_
    (.taken hguard.2.2.2)
  simp [MigrationState.terminal, hguard.2.1, hguard.2.2.1]

theorem MetadataState.commitMigration_change {id epoch expected version : ℕ}
    (h : s.commitMigration id epoch expected version = .ok (r, s')) :
    Change s (.commitMigration id epoch expected version) s' := by
  unfold commitMigration at h
  split at h
  · cases h
  rename_i record hrecord
  split_ifs at h with hguard
  split at h
  · cases h
  rename_i d hfind
  split_ifs at h with hgeneration hsource
  split at h
  · cases h
  rename_i candidate hcandidate
  cases h
  simp only [not_or, not_not] at hguard hgeneration
  simp only [Bool.not_eq_true', Bool.not_eq_false, any_eq_true, decide_eq_true_eq] at hsource
  obtain ⟨-, rfl⟩ := migration?_some hrecord
  obtain ⟨rfl, hstate, rfl, -, rfl, -⟩ := hguard
  exact Change.migrationCommitted record d candidate hrecord hstate
    (mem_of_find?_eq_some hfind) (by simpa using find?_some hfind) hgeneration hsource
    hcandidate

variable {c : MetadataCall}

/-- Every successful call is one of the changes. -/
theorem MetadataState.result_change (h : s.result c = .ok s') :
    Change s c s' := by
  have hmap : ∀ {α : Type} {x : Except Error (α × MetadataState)},
      x.map (·.2) = .ok s' → ∃ a, x = .ok (a, s') := by
    rintro α (err | ⟨a, t⟩) hx
    · cases hx
    · cases hx
      exact ⟨a, rfl⟩
  cases c with
  | «begin» => exact (hmap h).elim fun _ => begin_change
  | advance => exact (hmap h).elim fun _ => advance_change
  | takeover => exact (hmap h).elim fun _ => takeover_change
  | commit => exact (hmap h).elim fun _ => commit_change
  | beginMigration => exact (hmap h).elim fun _ => beginMigration_change
  | advanceMigration => exact (hmap h).elim fun _ => advanceMigration_change
  | takeoverMigration => exact (hmap h).elim fun _ => takeoverMigration_change
  | commitMigration => exact (hmap h).elim fun _ => commitMigration_change

/-- Only `commit` adds to the lineage. -/
theorem MetadataState.result_lineage (h : s.result c = .ok s') :
    s'.lineage = s.lineage ∨ ∃ id epoch expected r,
      c = .commit id epoch expected ∧ s.commit id epoch expected = .ok (r, s') := by
  cases result_change h with
  | splitCommitted r candidate hr hstate hcandidate hedge hlineage =>
    change (s.commit r.splitID r.epoch s.catalog.generation).map (·.2) = _ at h
    rcases hcommit : s.commit r.splitID r.epoch s.catalog.generation with err | ⟨r', t⟩
    · rw [hcommit] at h
      cases h
    · rw [hcommit] at h
      cases h
      exact .inr ⟨_, _, _, r', rfl, hcommit⟩
  | _ => exact .inl rfl

theorem MetadataState.call_step (s : MetadataState) (c : MetadataCall) : Step s (s.call c) := by
  unfold call
  split
  · rename_i s' h
    exact ⟨c, result_change h⟩
  · exact ⟨c, Change.same c⟩

theorem MetadataState.call_lineage (s : MetadataState) (c : MetadataCall) :
    (s.call c).lineage = s.lineage ∨ ∃ id epoch expected r,
      c = .commit id epoch expected ∧ s.commit id epoch expected = .ok (r, s.call c) := by
  unfold call
  split
  · rename_i s' h
    exact result_lineage h
  · exact .inl rfl

/-- What holds initially and is kept by every step holds along every run. -/
theorem MetadataState.run_induction {P : MetadataState → Prop} (hs : P s)
    (hstep : ∀ s s', P s → Step s s' → P s') (calls : List MetadataCall) : P (s.run calls) := by
  induction calls generalizing s with
  | nil => exact hs
  | cons c calls ih => exact ih (hstep s _ hs (s.call_step c))

end RivetDB.Multiraft
