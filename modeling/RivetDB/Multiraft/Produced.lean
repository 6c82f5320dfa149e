import RivetDB.Multiraft.RoundTrip

/-!
# The metadata that calls can produce

`Produced c₀ m`: the methods of `MetaRange` and the codec lead from the catalog `c₀` to the
metadata `m`.  Every such state satisfies the invariants of the catalog and the lineage, and
its records have the shape that the decoder expects, whatever the calls were given; what is
left open is exactly what `Legible` asks for.
-/

namespace RivetDB.Multiraft

open RebalanceActionRecord RebalanceControl List MetadataState RangeDescriptor

variable {crc32 : Bytes → ℕ} {c₀ : Catalog} {s s' : MetadataState} {m m' : Metadata}

/-! ### The order of the tables -/

/-- Two states hold the same catalog, counters and records. -/
structure MetadataState.Same (s s' : MetadataState) : Prop where
  catalog : s'.catalog = s.catalog
  nextRangeID : s'.nextRangeID = s.nextRangeID
  nextSplitID : s'.nextSplitID = s.nextSplitID
  nextReplicaID : s'.nextReplicaID = s.nextReplicaID
  nextMigrationID : s'.nextMigrationID = s.nextMigrationID
  splits : s'.splits.Perm s.splits
  migrations : s'.migrations.Perm s.migrations
  lineage : s'.lineage.Perm s.lineage

theorem MetadataState.same_stored (s : MetadataState) : s.Same s.stored where
  catalog := rfl
  nextRangeID := rfl
  nextSplitID := rfl
  nextReplicaID := rfl
  nextMigrationID := rfl
  splits := s.stored_splits
  migrations := s.stored_migrations
  lineage := s.stored_lineage

theorem Issued.perm {next : ℕ} {ids ids' : List ℕ} (h : Issued next ids) (hperm : ids'.Perm ids) :
    Issued next ids' where
  nodup := hperm.nodup_iff.mpr h.nodup
  below id hid := h.below id (hperm.mem_iff.mp hid)
  fits := h.fits

/-- The invariant does not see the order of the tables. -/
theorem Sound.same (h : Sound c₀ s) (hsame : s.Same s') : Sound c₀ s' := by
  have hsplits : ∀ {r}, r ∈ s'.splits ↔ r ∈ s.splits := hsame.splits.mem_iff
  have hmigrations : ∀ {r}, r ∈ s'.migrations ↔ r ∈ s.migrations := hsame.migrations.mem_iff
  have hlineage : ∀ {e}, e ∈ s'.lineage ↔ e ∈ s.lineage := hsame.lineage.mem_iff
  have hranges : s'.allocatedRanges.Perm s.allocatedRanges := hsame.splits.flatMap_right _
  have hreplicas : s'.allocatedReplicas.Perm s.allocatedReplicas := hsame.migrations.map _
  exact
    { catalog := hsame.catalog ▸ h.catalog
      generation := hsame.catalog ▸ h.generation
      generations := hsame.catalog ▸ h.generations
      nextRange := hsame.nextRangeID ▸ h.nextRange
      ranges := by
        rw [hsame.catalog, hsame.nextRangeID]
        exact h.ranges
      children := hranges.nodup_iff.mpr h.children
      childrenBelow := by
        intro id hid
        rw [hsame.nextRangeID]
        exact h.childrenBelow id (hranges.mem_iff.mp hid)
      childrenPos := fun id hid => h.childrenPos id (hranges.mem_iff.mp hid)
      origins := by
        intro d hd
        rw [hsame.nextRangeID, hranges.mem_iff]
        exact h.origins d hd
      retired := by
        intro e he
        rw [hsame.nextRangeID, hsame.catalog]
        exact h.retired e (hlineage.mp he)
      splitIDs := by
        rw [hsame.nextSplitID]
        exact h.splitIDs.perm (hsame.splits.map _)
      migrationIDs := by
        rw [hsame.nextMigrationID]
        exact h.migrationIDs.perm (hsame.migrations.map _)
      replicaIDs := by
        rw [hsame.nextReplicaID]
        exact h.replicaIDs.perm hreplicas
      originReplicas := by
        intro d hd x hx
        rw [hsame.nextReplicaID, hreplicas.mem_iff]
        exact h.originReplicas d hd x hx
      divides := by
        intro r hr hstate
        rw [hsame.catalog]
        exact h.divides r (hsplits.mp hr) hstate
      unborn := by
        intro r hr hstate id hid
        rw [hsame.catalog]
        obtain ⟨hcatalog, hedges⟩ := h.unborn r (hsplits.mp hr) hstate id hid
        exact ⟨hcatalog, fun e he => hedges e (hlineage.mp he)⟩
      oneSplit := fun r hr r' hr' => h.oneSplit r (hsplits.mp hr) r' (hsplits.mp hr')
      oneMigration := fun r hr r' hr' =>
        h.oneMigration r (hmigrations.mp hr) r' (hmigrations.mp hr')
      apart := fun r hr r' hr' => h.apart r (hsplits.mp hr) r' (hmigrations.mp hr') }

/-- Neither does the history. -/
theorem Traced.same (h : Traced c₀ s) (hsame : s.Same s') : Traced c₀ s' := by
  have hoffspring : s'.offspring.Perm s.offspring := hsame.splits.map _
  have hmoves : s'.moves.Perm s.moves := hsame.migrations.map _
  have hlineage : ∀ {e}, e ∈ s'.lineage ↔ e ∈ s.lineage := hsame.lineage.mem_iff
  have hdistinct : (s'.lineage.map fun e => e.parent.rangeID).Nodup :=
    (hsame.lineage.map _).nodup_iff.mpr h.distinct
  have hview : s'.view = s.view := by
    funext ref
    have hedge : s'.edge? ref = s.edge? ref := by
      ext e
      rw [edge?_eq_some hdistinct, edge?_eq_some h.distinct, hlineage]
    simp only [view, current?, hsame.catalog, hedge]
  refine ⟨?_, ?_, ?_, hdistinct, fun e he => h.simple e (hlineage.mp he), ?_⟩
  · intro d hd
    obtain ⟨d₀, horigin, hdesc, hbounds⟩ := h.ranges d (hsame.catalog ▸ hd)
    exact ⟨d₀, horigin.mono hoffspring.symm.subset, hdesc.mono hmoves.symm.subset, hbounds⟩
  · intro e he
    obtain ⟨d₀, horigin, hdesc, p, hp, hedge⟩ := h.edges e (hlineage.mp he)
    exact ⟨d₀, horigin.mono hoffspring.symm.subset, hdesc.mono hmoves.symm.subset, p,
      hoffspring.mem_iff.mpr hp, hedge⟩
  · exact fun p hp => h.young p (hoffspring.mem_iff.mp hp)
  · intro e he
    rw [hview]
    exact h.grown e (hlineage.mp he)

/-- The lineage of every state with a history is valid. -/
theorem Traced.validateLineage_ok (h : Traced c₀ s) (hs : Sound c₀ s) (hc₀ : c₀.WellFormed) :
    s.validateLineage = .ok () := by
  refine validateEdges_ok_iff.mpr fun e he => ⟨h.simple e he, ?_⟩
  obtain ⟨nodes, leaves, hgrows⟩ := h.grown e he
  obtain ⟨ds, hds, -⟩ := h.resolve_ok hs hc₀ hgrows
  exact ⟨ds, hds⟩

/-! ### The shape of the records -/

/-- The numbers a call is given are machine numbers of their types. -/
def MetadataCall.Fits : MetadataCall → Prop
  | .advance _ _ _ update => ∀ n ∈ [update.bootstrapIndex, update.fenceIndex,
      update.leftReplayThrough, update.rightReplayThrough], n < 2 ^ 64
  | .advanceMigration _ _ _ update => ∀ n ∈ [update.bootstrapIndex, update.catchUpIndex,
      update.promotionBarrier, update.configVersion], n < 2 ^ 64
  | _ => True

/-- The catalog and the records have the shape the decoder expects. -/
structure MetadataState.Shaped (s : MetadataState) : Prop where
  accepted : newCatalog s.catalog.snapshot = .ok s.catalog
  replicas : ∀ d ∈ s.catalog.ranges, ∀ r ∈ d.replicas, r.replicaID < 2 ^ 64
  splits : ∀ r ∈ s.splits, r.Formed
  migrations : ∀ r ∈ s.migrations, r.Formed
  lineage : ∀ e ∈ s.lineage, e.Formed

/-- A record of the same split keeps its shape. -/
theorem SplitRecord.Formed.moved {r r' : SplitRecord} (h : r.Formed) (hsame : r.SameSplit r')
    (hepoch : r'.epoch ≠ 0 ∧ r'.epoch < 2 ^ 64)
    (hnumbers : ∀ n ∈ [r'.bootstrapIndex, r'.fenceIndex, r'.leftReplayThrough,
      r'.rightReplayThrough, r'.cutoverCatalogGeneration], n < 2 ^ 64) : r'.Formed := by
  obtain ⟨d, hvalid, hfits, hcount, hdiv⟩ := h.divides
  simp only [forall_mem_cons] at hnumbers
  exact
    { splitID := hsame.splitID ▸ h.splitID
      parent := hsame.parent ▸ h.parent
      epoch := hepoch
      bootstrapIndex := hnumbers.1
      fenceIndex := hnumbers.2.1
      leftReplayThrough := hnumbers.2.2.1
      rightReplayThrough := hnumbers.2.2.2.1
      cutover := hnumbers.2.2.2.2.1
      children := by
        rw [hsame.left, hsame.right]
        exact h.children
      divides := ⟨d, hvalid, hfits, hcount, hsame.divides hdiv⟩ }

section Shaped

variable (hs : Sound c₀ s)

include hs

variable {d : RangeDescriptor}

theorem Sound.rangeID_lt (hd : d ∈ s.catalog.ranges) : d.rangeID < 2 ^ 64 := by
  have hid := hs.ranges d hd
  have hnext := hs.nextRange
  unfold metaRangeID at hnext
  omega

/-- The descriptors of the catalog are what a split record may divide. -/
theorem Sound.descriptor_fits (hshaped : s.Shaped) (hd : d ∈ s.catalog.ranges) :
    d.Valid ∧ d.Fits ∧ d.replicas.length ≤ maxRangeReplicas := by
  obtain ⟨-, haccept⟩ := newCatalog_ok_iff.mp hshaped.accepted
  refine ⟨hs.catalog.valid d hd, ⟨hs.rangeID_lt hd, hs.generations d hd, hshaped.replicas d hd⟩, ?_⟩
  exact (hs.catalog.factor d hd).trans_le haccept.factor.2

theorem Sound.shaped_splitBegun (hshaped : s.Shaped) {splitKey : Bytes} (hd : d ∈ s.catalog.ranges)
    (hinterior : strictInterior d.startKey d.endKey splitKey = true)
    (hnext : s.nextRangeID < metaRangeID - 1) (hsplitID : s.nextSplitID ≠ 0) :
    (s.withSplit d splitKey).Shaped := by
  refine { hshaped with splits := fun r hr => ?_ }
  rcases mem_append.mp hr with hr | hr
  · exact hshaped.splits r hr
  obtain ⟨hvalid, hfits, hcount⟩ := hs.descriptor_fits hshaped hd
  have hpos : 0 < s.nextRangeID := (Nat.zero_le _).trans_lt (hs.ranges d hd)
  unfold metaRangeID at hnext
  rw [mem_singleton.mp hr]
  exact
    { splitID := ⟨hsplitID, hs.splitIDs.fits⟩
      parent := ⟨hfits.rangeID, hfits.generation⟩
      epoch := ⟨by simp [newSplit], by simp [newSplit]⟩
      bootstrapIndex := by simp [newSplit]
      fenceIndex := by simp [newSplit]
      leftReplayThrough := by simp [newSplit]
      rightReplayThrough := by simp [newSplit]
      cutover := by simp [newSplit]
      children := by
        simp only [newSplit, forall_mem_cons]
        exact ⟨⟨by omega, by omega⟩, ⟨by omega, by omega⟩, by simp⟩
      divides := ⟨d, hvalid, hfits, hcount, rfl, hinterior, rfl, rfl⟩ }

theorem Sound.shaped_setSplit (hshaped : s.Shaped) {r r' : SplitRecord} (hr : r ∈ s.splits)
    (hsame : r.SameSplit r') (hformed : r'.Formed) : (s.setSplit r').Shaped := by
  refine { hshaped with splits := fun x hx => ?_ }
  rcases (mem_setSplit hs.splitIDs.nodup hr hsame).mp hx with rfl | ⟨hx, -⟩
  · exact hformed
  · exact hshaped.splits x hx

theorem Sound.shaped_setMigration (hshaped : s.Shaped) {r r' : MigrationRecord}
    (hr : r ∈ s.migrations) (hsame : r.SameMigration r') (hformed : r'.Formed) :
    (s.setMigration r').Shaped := by
  refine { hshaped with migrations := fun x hx => ?_ }
  rcases (mem_setMigration hs.migrationIDs.nodup hr hsame).mp hx with rfl | ⟨hx, -⟩
  · exact hformed
  · exact hshaped.migrations x hx

variable {candidate : Catalog}

/-- The edge and the record of a committed split. -/
theorem Sound.shaped_splitCommitted (hshaped : s.Shaped) {r : SplitRecord}
    (hr : r ∈ s.splits) (hstate : r.state = .fenced)
    (hcandidate : newCatalog (s.splitBootstrap r) = .ok candidate) :
    (s.splitCommitted r candidate).Shaped := by
  have hopen : r.state.terminal = false := by rw [hstate]; rfl
  obtain ⟨d, hd, hdiv⟩ := hs.divides r hr hopen
  have hformed := hshaped.splits r hr
  have hwf := newCatalog_wellFormed hcandidate
  have hgeneration : candidate.generation < 2 ^ 64 :=
    (hs.splitCommitted hr hstate hcandidate).generation
  have hranges : ∀ x ∈ candidate.ranges, x = r.left ∨ x = r.right ∨ x ∈ s.catalog.ranges := by
    intro x hx
    rcases (splitCandidate_mem hs.catalog hd hdiv hcandidate).mp hx with hx | hx | ⟨hx, -⟩
    · exact .inl hx
    · exact .inr (.inl hx)
    · exact .inr (.inr hx)
  have hleft : r.left ∈ candidate.ranges :=
    (splitCandidate_mem hs.catalog hd hdiv hcandidate).mpr (.inl rfl)
  have hkey : r.splitKey.length ≤ maxMetadataKey := by
    have hsize := (hwf.valid r.left hleft).endSize
    rw [hdiv.left] at hsize
    exact hsize
  have hchildren := hformed.children
  simp only [forall_mem_cons] at hchildren
  have hparent : r.parent.rangeID ≠ 0 := by
    rw [hdiv.parent]
    exact (hs.catalog.valid d hd).rangeID
  have hone : r.left.generation = 1 ∧ r.right.generation = 1 := by
    rw [hdiv.left, hdiv.right]
    exact ⟨rfl, rfl⟩
  have hsame := r.sameSplit_cutOver candidate
  have hcut : (r.cutOver candidate).Formed := by
    refine hformed.moved hsame hformed.epoch ?_
    simp only [SplitRecord.cutOver, forall_mem_cons]
    exact ⟨hformed.bootstrapIndex, hformed.fenceIndex, hformed.leftReplayThrough,
      hformed.rightReplayThrough, hgeneration, by simp⟩
  refine
    { accepted := newCatalog_snapshot hcandidate
      replicas := ?_
      splits := ?_
      migrations := hshaped.migrations
      lineage := ?_ }
  · intro x hx y hy
    rcases hranges x hx with rfl | rfl | hx
    · rw [hdiv.left] at hy
      exact hshaped.replicas d hd y hy
    · rw [hdiv.right] at hy
      exact hshaped.replicas d hd y hy
    · exact hshaped.replicas x hx y hy
  · intro x hx
    rcases (mem_setSplit hs.splitIDs.nodup hr hsame).mp hx with rfl | ⟨hx, -⟩
    · exact hcut
    · exact hshaped.splits x hx
  · intro e he
    rcases mem_append.mp he with he | he
    · exact hshaped.lineage e he
    rw [mem_singleton.mp he]
    have hparentFits := hformed.parent
    have hsplitID := hformed.splitID
    refine ⟨?_, ?_, hkey⟩
    · simp only [SplitRecord.lineage, ref, forall_mem_cons]
      exact ⟨hsplitID, ⟨hparent, hparentFits.1⟩, hchildren.1, hchildren.2.1, by simp⟩
    · simp only [SplitRecord.lineage, ref, forall_mem_cons, hone.1, hone.2]
      exact ⟨hparentFits.2, by norm_num, by norm_num, hgeneration, by simp⟩

variable {source : ReplicaDescriptor}

theorem Sound.shaped_migrationBegun (hshaped : s.Shaped)
    {target : Raft.NodeID} (hd : d ∈ s.catalog.ranges)
    (hsource : source ∈ d.replicas) (hzero : target ≠ 0) (hreplicaID : s.nextReplicaID ≠ 0)
    (hmigrationID : s.nextMigrationID ≠ 0) : (s.withMigration d source target).Shaped := by
  refine { hshaped with migrations := fun r hr => ?_ }
  rcases mem_append.mp hr with hr | hr
  · exact hshaped.migrations r hr
  obtain ⟨hvalid, hfits, -⟩ := hs.descriptor_fits hshaped hd
  obtain ⟨hsourceID, hsourceNode⟩ := hvalid.identities source hsource
  rw [mem_singleton.mp hr]
  constructor
  · simp only [newMigration, forall_mem_cons]
    refine ⟨⟨hmigrationID, hs.migrationIDs.fits⟩, ⟨hvalid.rangeID, hfits.rangeID⟩,
      ⟨hvalid.generation, hfits.generation⟩, ⟨hsourceID, hshaped.replicas d hd source hsource⟩,
      ⟨fun h => hsourceNode (UInt64.toNat_inj.mp h), source.nodeID.toNat_lt⟩,
      ⟨hreplicaID, hs.replicaIDs.fits⟩,
      ⟨fun h => hzero (UInt64.toNat_inj.mp h), target.toNat_lt⟩, ⟨by simp, by simp⟩, by simp⟩
  · simp only [newMigration, forall_mem_cons]
    exact ⟨by norm_num, by norm_num, by norm_num, by norm_num, hs.generation, by simp⟩

variable {r : MigrationRecord}

theorem Sound.shaped_migrationCommitted (hshaped : s.Shaped)
    (hr : r ∈ s.migrations) (hstate : r.state = .sourceRemoving)
    (hcandidate : newCatalog (s.migrationBootstrap r) = .ok candidate) :
    (s.migrationCommitted r candidate).Shaped := by
  have hformed := hshaped.migrations r hr
  have hgeneration : candidate.generation < 2 ^ 64 :=
    (hs.migrationCommitted hr hstate hcandidate).generation
  have htarget : r.targetReplicaID < 2 ^ 64 := (hformed.identities _ (by simp)).2
  refine
    { accepted := newCatalog_snapshot hcandidate
      replicas := ?_
      splits := hshaped.splits
      migrations := ?_
      lineage := hshaped.lineage }
  · intro x hx y hy
    obtain ⟨p, hp, hxp⟩ := (migrationCandidate_mem hs.catalog hcandidate).mp hx
    split_ifs at hxp with hid
    · rw [hxp] at hy
      have hy := (sortReplicas_perm _).mem_iff.mp hy
      rw [replaceReplica, if_pos hid] at hy
      obtain ⟨z, hz, hzy⟩ := mem_map.mp hy
      split_ifs at hzy
      · rw [← hzy]
        exact htarget
      · rw [← hzy]
        exact hshaped.replicas p hp z hz
    · exact hshaped.replicas p hp y (hxp ▸ hy)
  · intro x hx
    have hsame := r.sameMigration_committed candidate.generation
    rcases (mem_setMigration hs.migrationIDs.nodup hr hsame).mp hx with
      rfl | ⟨hx, -⟩
    · refine ⟨hformed.identities, ?_⟩
      have hevidence := hformed.evidence
      simp only [forall_mem_cons] at hevidence ⊢
      exact ⟨hevidence.1, hevidence.2.1, hevidence.2.2.1, hevidence.2.2.2.1, hgeneration, by simp⟩
    · exact hshaped.migrations x hx

/-- **Every change keeps the shape of the records.** -/
theorem Sound.shaped_change (hshaped : s.Shaped) {c : MetadataCall} (hfits : c.Fits)
    (h : Change s c s') : s'.Shaped := by
  cases h with
  | same => exact hshaped
  | splitBegun d splitKey hd hinterior hsplits hmigrations hnext hsplitID =>
    exact hs.shaped_splitBegun hshaped hd hinterior hnext hsplitID
  | splitMoved c r r' hr hsame hstate hmoves =>
    have hmem := (split?_some hr).1
    have hformed := hshaped.splits r hmem
    refine hs.shaped_setSplit hshaped hmem hsame ?_
    cases hmoves with
    | advanced target update hlegal =>
      refine hformed.moved hsame hformed.epoch ?_
      simp only [MetadataCall.Fits, forall_mem_cons] at hfits
      simp only [SplitRecord.advanced, forall_mem_cons]
      refine ⟨?_, ?_, max_lt hformed.leftReplayThrough hfits.2.2.1,
        max_lt hformed.rightReplayThrough hfits.2.2.2.1, hformed.cutover, by simp⟩
      · split_ifs
        · exact hfits.1
        · exact hformed.bootstrapIndex
      · split_ifs
        · exact hfits.2.1
        · exact hformed.fenceIndex
    | taken hepoch =>
      have hlt := hformed.epoch.2
      refine hformed.moved hsame ⟨by simp, ?_⟩ ?_
      · unfold Raft.maxUint64 at hepoch
        show r.epoch + 1 < 2 ^ 64
        omega
      · simp only [forall_mem_cons]
        exact ⟨hformed.bootstrapIndex, hformed.fenceIndex, hformed.leftReplayThrough,
          hformed.rightReplayThrough, hformed.cutover, by simp⟩
  | splitCommitted r candidate hr hstate hcandidate hedge hlineage =>
    exact hs.shaped_splitCommitted hshaped (split?_some hr).1 hstate hcandidate
  | migrationBegun d source target hd hsource htarget hnode hzero hsplits hmigrations hreplicaID
      hmigrationID =>
      exact hs.shaped_migrationBegun hshaped hd hsource hzero hreplicaID hmigrationID
  | migrationMoved c r r' hr hsame hstate hmoves =>
    have hmem := (migration?_some hr).1
    have hformed := hshaped.migrations r hmem
    have hevidence := hformed.evidence
    refine hs.shaped_setMigration hshaped hmem hsame ?_
    cases hmoves with
    | advanced target update hlegal =>
      refine ⟨hformed.identities, ?_⟩
      simp only [MetadataCall.Fits, forall_mem_cons] at hfits hevidence
      simp only [MigrationRecord.advanced, forall_mem_cons]
      exact ⟨max_lt hevidence.1 hfits.1, max_lt hevidence.2.1 hfits.2.1,
        max_lt hevidence.2.2.1 hfits.2.2.1, max_lt hevidence.2.2.2.1 hfits.2.2.2.1,
        hevidence.2.2.2.2.1, by simp⟩
    | taken hepoch =>
      have hids := hformed.identities
      refine ⟨?_, hevidence⟩
      unfold Raft.maxUint64 at hepoch
      simp only [forall_mem_cons] at hids ⊢
      obtain ⟨h1, h2, h3, h4, h5, h6, h7, h8, -⟩ := hids
      exact ⟨h1, h2, h3, h4, h5, h6, h7, ⟨by omega, by omega⟩, by simp⟩
  | migrationCommitted r d candidate hr hstate hd href hgeneration hsource hcandidate =>
    exact hs.shaped_migrationCommitted hshaped (migration?_some hr).1 hstate hcandidate

end Shaped

/-! ### The shape of the control -/

def MetaCall.Fits : MetaCall → Prop
  | .metadata call => call.Fits
  | .setRebalancePolicy policy => policy.Fits
  | .takeoverRebalanceController => True
  | .beginRebalanceAction action _ _ => ∀ n ∈ [action.rangeID, action.rangeGeneration,
      action.catalogGeneration, action.sourceReplicaID, action.sourceScore, action.targetScore,
      action.estimatedCost, action.expectedImprovement], n < 2 ^ 64
  | .advanceRebalanceAction _ _ e => e.migrationID < 2 ^ 64 ∧ e.splitID < 2 ^ 64

section Assign

variable {κ ν : Type} [DecidableEq κ] {l : List (κ × ν)} {k : κ} {v : ν}

theorem mem_assign {p : κ × ν} (h : p ∈ assign l k v) : p = (k, v) ∨ p ∈ l := by
  unfold assign at h
  split_ifs at h
  · obtain ⟨q, hq, hqp⟩ := mem_map.mp h
    split_ifs at hqp
    · exact .inl hqp.symm
    · exact .inr (hqp ▸ hq)
  · rcases mem_append.mp h with h | h
    · exact .inr h
    · exact .inl (mem_singleton.mp h)

theorem nodup_assign (h : (l.map Prod.fst).Nodup) : ((assign l k v).map Prod.fst).Nodup := by
  unfold assign
  split_ifs with hk
  · -- the keys stay where they are
    have hkeys : (l.map fun p => if p.1 = k then (k, v) else p).map Prod.fst = l.map Prod.fst := by
      rw [map_map]
      refine map_congr_left fun p _ => ?_
      by_cases hp : p.1 = k
      · simp [hp]
      · simp [hp]
    rw [hkeys]
    exact h
  · rw [map_append, nodup_append]
    refine ⟨h, nodup_singleton _, fun a ha b hb heq => hk ?_⟩
    obtain ⟨p, hp, rfl⟩ := mem_map.mp ha
    rw [map_singleton, mem_singleton] at hb
    exact any_eq_true.mpr ⟨p, hp, by simpa [hb] using heq⟩

end Assign

namespace RebalanceControl

variable {c c' : RebalanceControl}

theorem Formed.policyVersion_lt (h : c.Formed) : c.policyVersion < 2 ^ 64 := by
  rw [h.version]
  exact h.policy.words _ (by simp [RebalancePolicy.words])

variable {policy : RebalancePolicy}

theorem Formed.setPolicy (h : c.Formed) (hfits : policy.Fits)
    (hset : c.setPolicy policy = .ok c') : c'.Formed := by
  unfold RebalanceControl.setPolicy at hset
  split at hset
  · cases hset
  rename_i hvalid
  split_ifs at hset
  cases hset
  exact { h with policy := hfits, valid := fun _ => hvalid, version := rfl }

theorem Formed.takeover (h : c.Formed) (htake : c.takeover = .ok c') : c'.Formed := by
  unfold RebalanceControl.takeover at htake
  split_ifs at htake with hmax
  cases htake
  have hlt := h.controllerEpoch
  refine { h with controllerEpoch := ?_ }
  unfold Raft.maxUint64 at hmax
  show c.controllerEpoch + 1 < 2 ^ 64
  omega

variable {limit : ℕ}

theorem makeRoom_subset {history history' : List RebalanceActionRecord}
    (h : makeRoom history limit = .ok history') : history' ⊆ history := by
  unfold makeRoom at h
  split_ifs at h
  · cases h
    exact List.Subset.refl _
  · split at h
    · cases h
      exact List.Subset.refl _
    · split_ifs at h
      cases h
      exact subset_cons_self _ _

variable {action : RebalanceAction}

theorem Formed.beginAction (h : c.Formed) {time : ℤ}
    (hfits : (MetaCall.beginRebalanceAction action time limit).Fits)
    (hbegin : c.beginAction action time limit = .ok c') : c'.Formed := by
  unfold RebalanceControl.beginAction at hbegin
  split_ifs at hbegin with hguard
  split at hbegin
  · cases hbegin
  rename_i history hroom
  cases hbegin
  simp only [not_or] at hguard
  obtain ⟨-, -, hnext, hrange, htype, -⟩ := hguard
  refine
    { h with
      nextActionID := Nat.mod_lt _ (by norm_num)
      history := fun r hr => ?_ }
  rcases mem_append.mp hr with hr | hr
  · exact h.history r (makeRoom_subset hroom hr)
  rw [mem_singleton.mp hr]
  have hversion := h.policyVersion_lt
  have hepoch := h.controllerEpoch
  simp only [MetaCall.Fits, forall_mem_cons] at hfits
  refine ⟨?_, htype, ?_⟩
  · simp only [planned, forall_mem_cons]
    exact ⟨⟨hnext, h.nextActionID⟩, ⟨hrange, hfits.1⟩, by simp⟩
  · simp only [planned, forall_mem_cons]
    obtain ⟨-, h2, h3, h4, h5, h6, h7, h8, -⟩ := hfits
    exact ⟨h2, h3, h4, h5, h6, h7, h8, hepoch, hversion, by norm_num, by norm_num, by simp⟩

variable {r : RebalanceActionRecord}

/-- Replacing the last record. -/
theorem Formed.setLast (h : c.Formed) (hr : r.Formed) : (c.setLast r).Formed := by
  refine { h with history := fun x hx => ?_ }
  rcases mem_append.mp hx with hx | hx
  · exact h.history x (dropLast_subset _ hx)
  · rw [mem_singleton.mp hx]
    exact hr

theorem Formed.assignNode {l : List (Raft.NodeID × ℤ)} (node : Raft.NodeID) (time : ℤ)
    (hkeys : (l.map Prod.fst).Nodup) (hzero : ∀ p ∈ l, p.1 ≠ 0) :
    ((Multiraft.assignNode l node time).map Prod.fst).Nodup ∧
      ∀ p ∈ Multiraft.assignNode l node time, p.1 ≠ 0 := by
  unfold Multiraft.assignNode assignUnlessZero
  split_ifs with hnode htime
  · exact ⟨hkeys, hzero⟩
  · exact ⟨hkeys, hzero⟩
  · refine ⟨nodup_assign hkeys, fun p hp => ?_⟩
    rcases mem_assign hp with rfl | hp
    · exact hnode
    · exact hzero p hp

theorem Formed.cooledDown (h : c.Formed)
    (haction : action.rangeID ≠ 0 ∧ action.rangeID < 2 ^ 64) (e : ActionEvidence) :
    (c.cooledDown action e).Formed := by
  have hsource := assignNode action.sourceNodeID e.sourceUntil h.nodeKeys h.nodes
  have htarget := assignNode action.targetNodeID e.targetUntil hsource.1 hsource.2
  have hranges : ((assignUnlessZero c.rangeCooldowns action.rangeID e.rangeUntil).map
      Prod.fst).Nodup ∧ ∀ p ∈ assignUnlessZero c.rangeCooldowns action.rangeID e.rangeUntil,
        p.1 ≠ 0 ∧ p.1 < 2 ^ 64 := by
    unfold assignUnlessZero
    split_ifs
    · exact ⟨h.rangeKeys, h.ranges⟩
    · refine ⟨nodup_assign h.rangeKeys, fun p hp => ?_⟩
      rcases mem_assign hp with rfl | hp
      · exact haction
      · exact h.ranges p hp
  exact
    { h with
      rangeKeys := hranges.1
      ranges := hranges.2
      nodeKeys := htarget.1
      nodes := htarget.2 }

variable {state : RebalanceActionState} {e : ActionEvidence}

theorem Formed.advanceAction (h : c.Formed) {actionID : ℕ}
    (hfits : e.migrationID < 2 ^ 64 ∧ e.splitID < 2 ^ 64)
    (hadvance : c.advanceAction actionID state e = .ok c') : c'.Formed := by
  unfold RebalanceControl.advanceAction at hadvance
  split at hadvance
  · cases hadvance
  rename_i r hlast
  have hformed := h.history r (mem_of_mem_getLast? hlast)
  have hnumbers := hformed.numbers
  simp only [forall_mem_cons] at hnumbers
  obtain ⟨h1, h2, h3, h4, h5, h6, h7, h8, h9, hmigration, hsplit, -⟩ := hnumbers
  have hids : r.action.rangeID ≠ 0 ∧ r.action.rangeID < 2 ^ 64 :=
    hformed.identities _ (by simp)
  have hadvanced : (c.setLast (r.advanced state e)).Formed := by
    refine h.setLast ⟨hformed.identities, hformed.type, ?_⟩
    simp only [advanced, forall_mem_cons]
    exact ⟨h1, h2, h3, h4, h5, h6, h7, h8, h9, hfits.1, hfits.2, by simp⟩
  split_ifs at hadvance
  · cases hadvance
    refine h.setLast ⟨hformed.identities, hformed.type, ?_⟩
    simp only [refreshed, forall_mem_cons]
    refine ⟨h1, h2, h3, h4, h5, h6, h7, h8, h9, ?_, ?_, by simp⟩
    · split_ifs
      · exact hfits.1
      · exact hmigration
    · split_ifs
      · exact hfits.2
      · exact hsplit
  · cases hadvance
    exact hadvanced.cooledDown hids e
  · cases hadvance
    exact hadvanced

/-- The control comes back in the same shape. -/
theorem Formed.stored (h : c.Formed) : c.stored.Formed := by
  refine
    { h with
      history := fun r hr => ?_
      rangeKeys := ?_
      ranges := fun p hp => ?_
      nodeKeys := ?_
      nodes := fun p hp => ?_ }
  · obtain ⟨x, hx, rfl⟩ := mem_map.mp hr
    have hx := h.history x hx
    exact { hx with }
  · simp only [RebalanceControl.stored, map_map]
    exact (c.sortedRanges_perm.map _).nodup_iff.mpr h.rangeKeys
  · obtain ⟨q, hq, rfl⟩ := mem_map.mp hp
    exact h.ranges q (c.sortedRanges_perm.mem_iff.mp hq)
  · simp only [RebalanceControl.stored, map_map]
    exact (c.sortedNodes_perm.map _).nodup_iff.mpr h.nodeKeys
  · obtain ⟨q, hq, rfl⟩ := mem_map.mp hp
    exact h.nodes q (c.sortedNodes_perm.mem_iff.mp hq)

/-- A control that was never changed. -/
theorem formed_initial : ({} : RebalanceControl).Formed where
  policy := by
    refine ⟨?_, ?_, ?_⟩
    · decide
    · decide
    · have hzero : Storable 0 := ⟨by decide, by decide⟩
      simp only [forall_mem_cons]
      exact ⟨hzero, hzero, hzero, hzero, by simp⟩
  valid h := absurd rfl h
  version := rfl
  controllerEpoch := by norm_num
  nextActionID := by norm_num
  history := by simp
  rangeKeys := by simp
  ranges := by simp
  nodeKeys := by simp
  nodes := by simp

end RebalanceControl

/-! ### Produced metadata -/

/-- The metadata that calls of `MetaRange` and the codec lead to from the catalog `c₀`. -/
inductive Produced (crc32 : Bytes → ℕ) (c₀ : Catalog) : Metadata → Prop
  | initial {s : MetadataState} (h : newMetadataState c₀ = .ok s) :
      Produced crc32 c₀ { state := s }
  | changed {m m' : Metadata} {c : MetaCall} (h : Produced crc32 c₀ m) (hfits : c.Fits)
      (hchange : m.change c = .ok m') : Produced crc32 c₀ m'
  | decoded {m m' : Metadata} {bytes : Bytes} (h : Produced crc32 c₀ m)
      (hencode : m.encode crc32 = .ok bytes) (hdecode : decodeMetadata crc32 bytes = .ok m') :
      Produced crc32 c₀ m'

theorem map_ok {α β : Type} {x : Except Error α} {f : α → β} {b : β} (h : x.map f = .ok b) :
    ∃ a, x = .ok a ∧ f a = b := by
  rcases x with err | a
  · cases h
  · cases h
    exact ⟨a, rfl, rfl⟩

/-- What holds of all of it. -/
structure Kept (c₀ : Catalog) (m : Metadata) : Prop where
  sound : Sound c₀ m.state
  traced : Traced c₀ m.state
  shaped : m.state.Shaped
  control : m.control.Formed

namespace Kept

theorem formed (h : Kept c₀ m) : m.Formed where
  catalog :=
    { accepted := h.shaped.accepted
      generation := h.sound.generation
      ranges := fun d hd => (h.sound.descriptor_fits h.shaped hd).2.1 }
  counters := by
    have hnext := h.sound.nextRange
    simp only [forall_mem_cons]
    refine ⟨?_, h.sound.splitIDs.fits, h.sound.replicaIDs.fits, h.sound.migrationIDs.fits, by simp⟩
    unfold metaRangeID at hnext
    omega
  splitIDs := h.sound.splitIDs.nodup
  splits := h.shaped.splits
  migrationIDs := h.sound.migrationIDs.nodup
  migrations := h.shaped.migrations
  parents := by
    refine Nodup.of_map RangeRef.rangeID ?_
    rw [map_map]
    exact h.traced.distinct
  lineage := h.shaped.lineage
  control := h.control

theorem change (h : Kept c₀ m) {c : MetaCall} (hfits : c.Fits) (hchange : m.change c = .ok m') :
    Kept c₀ m' := by
  cases c with
  | metadata call =>
    obtain ⟨s, hs, rfl⟩ := map_ok hchange
    have hstep := result_change hs
    exact
      { sound := h.sound.step ⟨_, hstep⟩
        traced := h.traced.step h.sound ⟨_, hstep⟩
        shaped := h.sound.shaped_change h.shaped hfits hstep
        control := h.control }
  | setRebalancePolicy policy =>
    obtain ⟨c, hc, rfl⟩ := map_ok hchange
    exact { h with control := h.control.setPolicy hfits hc }
  | takeoverRebalanceController =>
    obtain ⟨c, hc, rfl⟩ := map_ok hchange
    exact { h with control := h.control.takeover hc }
  | beginRebalanceAction action time limit =>
    obtain ⟨c, hc, rfl⟩ := map_ok hchange
    exact { h with control := h.control.beginAction hfits hc }
  | advanceRebalanceAction actionID state e =>
    obtain ⟨c, hc, rfl⟩ := map_ok hchange
    exact { h with control := h.control.advanceAction hfits hc }

theorem stored (h : Kept c₀ m) : Kept c₀ m.stored where
  sound := h.sound.same m.state.same_stored
  traced := h.traced.same m.state.same_stored
  shaped :=
    { accepted := h.shaped.accepted
      replicas := h.shaped.replicas
      splits := fun r hr => h.shaped.splits r (m.state.stored_splits.mem_iff.mp hr)
      migrations := fun r hr => h.shaped.migrations r (m.state.stored_migrations.mem_iff.mp hr)
      lineage := fun e he => h.shaped.lineage e (m.state.stored_lineage.mem_iff.mp he) }
  control := h.control.stored

variable {bytes : Bytes}

/-- The round trip of a state is decided by what the decoder asks for. -/
theorem decode_encode (h : Kept c₀ m) (hc₀ : c₀.WellFormed) (hencode : m.encode crc32 = .ok bytes) :
    (m.Legible → decodeMetadata crc32 bytes = .ok m.stored) ∧
      (¬ m.Legible → ∃ err, decodeMetadata crc32 bytes = .error err) :=
  h.formed.decode_encode hencode (h.stored.traced.validateLineage_ok h.stored.sound hc₀)

theorem decoded (h : Kept c₀ m) (hc₀ : c₀.WellFormed)
    (hencode : m.encode crc32 = .ok bytes) (hdecode : decodeMetadata crc32 bytes = .ok m') :
    m.Legible ∧ m' = m.stored := by
  obtain ⟨hgood, hbad⟩ := h.decode_encode hc₀ hencode
  by_cases hlegible : m.Legible
  · rw [hgood hlegible, Except.ok.injEq] at hdecode
    exact ⟨hlegible, hdecode.symm⟩
  · obtain ⟨err, herr⟩ := hbad hlegible
    rw [herr] at hdecode
    cases hdecode

end Kept

theorem newMetadataState_splits (h : newMetadataState c₀ = .ok s) : s.splits = [] := by
  unfold newMetadataState at h
  dsimp only at h
  split_ifs at h
  cases h
  rfl

variable {b : Bootstrap}

/-- The metadata a group starts from. -/
theorem kept_initial (hb : newCatalog b = .ok c₀) (hfits : c₀.Fits)
    (h : newMetadataState c₀ = .ok s) : Kept c₀ { state := s } := by
  have hcatalog := newMetadataState_catalog h
  obtain ⟨hlineage, hmigrations⟩ := newMetadataState_empty h
  have hsplits := newMetadataState_splits h
  exact
    { sound := newMetadataState_sound (newCatalog_wellFormed hb) hfits h
      traced := newMetadataState_traced h
      shaped :=
        { accepted := by
            rw [hcatalog]
            exact newCatalog_snapshot hb
          replicas := by
            rw [hcatalog]
            exact hfits.replicas
          splits := by simp [hsplits]
          migrations := by simp [hmigrations]
          lineage := by simp [hlineage] }
      control := formed_initial }

/-- **Whatever calls produce satisfies the invariants.** -/
theorem Produced.kept (hb : newCatalog b = .ok c₀) (hfits : c₀.Fits)
    (h : Produced crc32 c₀ m) : Kept c₀ m := by
  induction h with
  | initial h => exact kept_initial hb hfits h
  | changed h hcall hchange ih => exact ih.change hcall hchange
  | decoded h hencode hdecode ih =>
    rw [(ih.decoded (newCatalog_wellFormed hb) hencode hdecode).2]
    exact ih.stored

/-! ### The round trip -/

/-- Two states are equal in everything, the tables and cooldowns up to their order. -/
structure Metadata.Same (m m' : Metadata) : Prop where
  state : m.state.Same m'.state
  policy : m'.control.policy = m.control.policy
  policyVersion : m'.control.policyVersion = m.control.policyVersion
  controllerEpoch : m'.control.controllerEpoch = m.control.controllerEpoch
  nextActionID : m'.control.nextActionID = m.control.nextActionID
  history : m'.control.history = m.control.history
  rangeCooldowns : m'.control.rangeCooldowns.Perm m.control.rangeCooldowns
  nodeCooldowns : m'.control.nodeCooldowns.Perm m.control.nodeCooldowns

/-- Every instant of the control is stored without loss. -/
structure RebalanceControl.Timely (c : RebalanceControl) : Prop where
  history : ∀ r ∈ c.history, Storable r.plannedAt ∧ Storable r.updatedAt
  ranges : ∀ p ∈ c.rangeCooldowns, Storable p.2
  nodes : ∀ p ∈ c.nodeCooldowns, Storable p.2

theorem RebalanceActionRecord.stored_eq_iff (r : RebalanceActionRecord) :
    r.stored = r ↔ Storable r.plannedAt ∧ Storable r.updatedAt := by
  rw [← bmod_eq_iff, ← bmod_eq_iff]
  constructor
  · intro h
    exact ⟨congrArg plannedAt h, congrArg updatedAt h⟩
  · rintro ⟨hplanned, hupdated⟩
    unfold stored
    rw [hplanned, hupdated]

/-- Cooldowns under distinct keys come back as they were when their instants are storable. -/
theorem perm_bmod_iff {κ : Type} {l sorted : List (κ × ℤ)} (hkeys : (l.map Prod.fst).Nodup)
    (hperm : sorted.Perm l) :
    (sorted.map fun p => (p.1, p.2.bmod (2 ^ 64))).Perm l ↔ ∀ p ∈ l, Storable p.2 := by
  constructor
  · intro h p hp
    have hmem : (p.1, p.2.bmod (2 ^ 64)) ∈ l :=
      h.mem_iff.mp (mem_map_of_mem (hperm.mem_iff.mpr hp))
    have heq := inj_on_of_nodup_map hkeys hmem hp rfl
    exact (bmod_eq_iff p.2).mp (congrArg Prod.snd heq)
  · intro h
    have hsame : sorted.map (fun p => (p.1, p.2.bmod (2 ^ 64))) = sorted := by
      refine (map_congr_left fun p hp => ?_).trans (map_id _)
      exact Prod.ext rfl ((bmod_eq_iff p.2).mpr (h p (hperm.mem_iff.mp hp)))
    rw [hsame]
    exact hperm

/-- What comes back is the same exactly when no instant was reduced. -/
theorem Metadata.same_stored_iff (h : m.control.Formed) : m.Same m.stored ↔ m.control.Timely := by
  have hranges := perm_bmod_iff h.rangeKeys m.control.sortedRanges_perm
  have hnodes := perm_bmod_iff h.nodeKeys m.control.sortedNodes_perm
  have hhistory : m.control.history.map RebalanceActionRecord.stored = m.control.history ↔
      ∀ r ∈ m.control.history, Storable r.plannedAt ∧ Storable r.updatedAt := by
    constructor
    · intro heq r hr
      rw [← stored_eq_iff]
      exact map_inj_left.mp (heq.trans (map_id _).symm) r hr
    · intro hall
      refine (map_congr_left fun r hr => ?_).trans (map_id _)
      exact r.stored_eq_iff.mpr (hall r hr)
  constructor
  · intro hsame
    exact ⟨hhistory.mp hsame.history, hranges.mp hsame.rangeCooldowns,
      hnodes.mp hsame.nodeCooldowns⟩
  · intro htimely
    exact
      { state := m.state.same_stored
        policy := rfl
        policyVersion := rfl
        controllerEpoch := rfl
        nextActionID := rfl
        history := hhistory.mpr htimely.history
        rangeCooldowns := hranges.mpr htimely.ranges
        nodeCooldowns := hnodes.mpr htimely.nodes }

/-! ### Encoding again -/

section Sorted

variable {α ι : Type} [LE ι] [DecidableLE ι] [Std.Total (α := ι) (· ≤ ·)]
  [IsTrans ι (· ≤ ·)] (key : α → ι) (l : List α)

theorem pairwise_insertionSort_key :
    (l.insertionSort fun a b => key a ≤ key b).Pairwise fun a b => key a ≤ key b := by
  exact pairwise_insertionSort _ _

/-- Sorting a second time, with other values under the keys, changes nothing. -/
theorem insertionSort_map_sorted {f : α → α} (hf : ∀ a, key (f a) = key a) :
    ((l.insertionSort fun a b => key a ≤ key b).map f).insertionSort (fun a b => key a ≤ key b) =
      (l.insertionSort fun a b => key a ≤ key b).map f := by
  refine Pairwise.insertionSort_eq ?_
  rw [pairwise_map]
  exact (pairwise_insertionSort_key key l).imp fun hle => by rwa [hf, hf]

theorem insertionSort_sorted :
    (l.insertionSort fun a b => key a ≤ key b).insertionSort (fun a b => key a ≤ key b) =
      l.insertionSort fun a b => key a ≤ key b :=
  (pairwise_insertionSort_key key l).insertionSort_eq

end Sorted

variable {c : RebalanceControl} {bytes : Bytes}

theorem RebalanceControl.encode_stored
    (h : c.encode = .ok bytes) : c.stored.encode = .ok bytes := by
  obtain ⟨⟨hhistory, hranges, hnodes⟩, hversion, hbounded, rfl⟩ := encode_ok_iff.mp h
  have hsortedRanges : c.stored.sortedRanges =
      c.sortedRanges.map fun p => (p.1, p.2.bmod (2 ^ 64)) :=
    insertionSort_map_sorted Prod.fst c.rangeCooldowns fun _ => rfl
  have hsortedNodes : c.stored.sortedNodes = c.sortedNodes.map fun p => (p.1, p.2.bmod (2 ^ 64)) :=
    insertionSort_map_sorted Prod.fst c.nodeCooldowns fun _ => rfl
  have hbits : ∀ t : ℤ, putInt64 (t.bmod (2 ^ 64)) = putInt64 t := fun t => by
    rw [putInt64, bits64_bmod, putInt64]
  have hrecords : c.stored.history.flatMap RebalanceActionRecord.encode =
      c.history.flatMap RebalanceActionRecord.encode := by
    simp only [stored, flatMap_map, RebalanceActionRecord.encode_stored]
  have hrangesLength := c.sortedRanges_perm.length_eq
  have hnodesLength := c.sortedNodes_perm.length_eq
  refine encode_ok_iff.mpr ⟨⟨?_, ?_, ?_⟩, hversion, ?_, ?_⟩
  · simpa [stored] using hhistory
  · simpa [stored, hrangesLength] using hranges
  · simpa [stored, hnodesLength] using hnodes
  · intro r hr
    obtain ⟨x, hx, rfl⟩ := mem_map.mp hr
    exact hbounded x hx
  · unfold RebalanceControl.bytes
    rw [hrecords, hsortedRanges, hsortedNodes]
    simp only [stored, length_map, flatMap_map, hbits]

/-- What comes back is encoded as it was. -/
theorem Metadata.encode_stored (h : m.encode crc32 = .ok bytes) :
    m.stored.encode crc32 = .ok bytes := by
  obtain ⟨hsplits, hmigrations, hlineage, catalog, control, hcatalog, hcontrol, rfl, hsize⟩ :=
    encode_ok_iff.mp h
  have hstored : m.state.stored.stored = m.state.stored := by
    unfold MetadataState.stored
    simp only [insertionSort_sorted SplitRecord.splitID,
      insertionSort_sorted MigrationRecord.migrationID,
      insertionSort_sorted fun e : LineageRecord => e.parent.rangeID]
  have himage : m.state.stored.image catalog control = m.state.image catalog control := by
    rw [image_eq, image_eq, hstored]
    rfl
  refine encode_ok_iff.mpr ⟨?_, ?_, ?_, catalog, control, hcatalog,
    RebalanceControl.encode_stored hcontrol, himage.symm, hsize⟩
  · exact m.state.stored_splits.length_eq.trans_le hsplits
  · exact m.state.stored_migrations.length_eq.trans_le hmigrations
  · exact m.state.stored_lineage.length_eq.trans_le hlineage

/-- **The metadata survives its encoding exactly when it is legible and its instants fit.** -/
theorem metadata_round_trip_iff {b : Bootstrap} (hb : newCatalog b = .ok c₀) (hfits : c₀.Fits)
    (hm : Produced crc32 c₀ m) {bytes : Bytes} (hencode : m.encode crc32 = .ok bytes) :
    (∃ m', decodeMetadata crc32 bytes = .ok m' ∧ m.Same m' ∧ m'.encode crc32 = .ok bytes) ↔
      m.Legible ∧ m.control.Timely := by
  have hkept := hm.kept hb hfits
  have hc₀ := newCatalog_wellFormed hb
  constructor
  · rintro ⟨m', hdecode, hsame, -⟩
    obtain ⟨hlegible, rfl⟩ := hkept.decoded hc₀ hencode hdecode
    exact ⟨hlegible, (Metadata.same_stored_iff hkept.control).mp hsame⟩
  · rintro ⟨hlegible, htimely⟩
    exact ⟨m.stored, (hkept.decode_encode hc₀ hencode).1 hlegible,
      (Metadata.same_stored_iff hkept.control).mpr htimely, Metadata.encode_stored hencode⟩

/-- The control before any action takes 324 bytes. -/
theorem encode_ok_of_imageSize (hsplits : s.splits.length ≤ maxSplitRecords)
    (hmigrations : s.migrations.length ≤ maxMigrationRecords)
    (hlineage : s.lineage.length ≤ maxSplitRecords)
    (hcatalog : s.catalog.body.length ≤ maxCatalogBytes - 4)
    (hsize : s.imageSize 324 ≤ Raft.maxCommandBytes) :
    ∃ bytes, ({ state := s } : Metadata).encode crc32 = .ok bytes := by
  have hempty : ({} : RebalanceControl).encode.toOption.map List.length = some 324 := by
    decide +kernel
  obtain ⟨control, hcontrol⟩ : ∃ bytes, ({} : RebalanceControl).encode = .ok bytes := ⟨_, rfl⟩
  rw [hcontrol] at hempty
  have hlength : control.length = 324 := Option.some.inj hempty
  exact (encodeMetadata_ok_iff hcontrol).mpr
    ⟨hsplits, hmigrations, hlineage, hcatalog, hlength ▸ hsize⟩

/-- Calls that all succeed. -/
theorem Produced.run (hm : Produced crc32 c₀ m) {calls : List MetaCall}
    (hfits : ∀ c ∈ calls, c.Fits) (hrun : calls.foldlM Metadata.change m = .ok m') :
    Produced crc32 c₀ m' := by
  induction calls generalizing m with
  | nil => exact Except.ok.inj hrun ▸ hm
  | cons c calls ih =>
    rw [foldlM_cons] at hrun
    rcases hstep : m.change c with err | next
    · simp [hstep, bind, Except.bind] at hrun
    · rw [hstep] at hrun
      exact ih (hm.changed (hfits c mem_cons_self) hstep) (forall_mem_of_forall_mem_cons hfits) hrun

/-- The metadata of the pair after a migration, a split and two controllers. -/
def usedPair : Metadata where
  state := pairState.run movedAndSplit
  control := { controllerEpoch := 2 }

/-- It survives. -/
theorem pair_round_trip :
    newCatalog pair = .ok pair.arrange ∧ Produced (fun _ => 0) pair.arrange usedPair ∧
      (usedPair.state.splits.length, usedPair.state.migrations.length,
        usedPair.state.lineage.length) = (1, 1, 1) ∧
      ∃ bytes m', usedPair.encode (fun _ => 0) = .ok bytes ∧
        decodeMetadata (fun _ => 0) bytes = .ok m' ∧ usedPair.Same m' ∧
        m'.encode (fun _ => 0) = .ok bytes := by
  have hproduced : Produced (fun _ => 0) pair.arrange usedPair := by
    have hrun : (movedAndSplit.map MetaCall.metadata ++ List.replicate 2
        MetaCall.takeoverRebalanceController).foldlM Metadata.change { state := pairState } =
          .ok usedPair := by
      decide +kernel
    refine (Produced.initial pair_state).run ?_ hrun
    simp [movedAndSplit, migrateCalls, fenceCalls, MetaCall.Fits, MetadataCall.Fits, splitEvidence,
      moveEvidence]
  have hencoded : (usedPair.encode fun _ => 0).toBool = true := by decide +kernel
  rcases hbytes : usedPair.encode fun _ => 0 with err | bytes
  · simp [hbytes, Except.toBool] at hencoded
  obtain ⟨m', hm'⟩ := (metadata_round_trip_iff pair_catalog pair_fits hproduced hbytes).mpr
    ⟨⟨⟨by unfold SplitRecord.Readable; decide +kernel, by decide +kernel, by decide +kernel⟩,
      by decide +kernel⟩, by simp [usedPair], by simp [usedPair], by simp [usedPair]⟩
  exact ⟨pair_catalog, hproduced, by decide +kernel, bytes, m', rfl, hm'⟩

/-- `AbortSplit`. -/
def abortSplit (id epoch : ℕ) (reason : Bytes) : MetadataCall :=
  .advance id epoch .aborted
    { splitID := 0
      parent := ⟨0, 0⟩
      splitKey := []
      left := ⟨0, 0, {}, {}, []⟩
      right := ⟨0, 0, {}, {}, []⟩
      epoch := 0
      state := .preparing
      lastError := reason }

/-- The metadata of the pair after its range's split was aborted for the reason. -/
def abortedPair (reason : Bytes) : MetadataState :=
  { pairState with
    nextRangeID := 4
    nextSplitID := 2
    splits := [{ newSplit ⟨1, 1⟩ ⟨1, 1, { unbounded := true }, { unbounded := true }, [⟨1, 1⟩]⟩
        [5] 2 3 1 with
      state := .aborted
      lastError := reason }] }

theorem abortedPair_produced (crc32 : Bytes → ℕ) (reason : Bytes) :
    Produced crc32 pair.arrange { state := abortedPair reason } := by
  have hbegun : Produced crc32 pair.arrange { state := pairState.call (.begin ⟨1, 1⟩ [5] 1) } :=
    .changed (c := .metadata (.begin ⟨1, 1⟩ [5] 1)) (.initial pair_state) trivial rfl
  have hfits : (MetaCall.metadata (abortSplit 1 1 reason)).Fits := by
    simp [MetaCall.Fits, MetadataCall.Fits, abortSplit]
  exact hbegun.changed hfits rfl

theorem abortedPair_imageSize (reason : Bytes) (control : ℕ) :
    (abortedPair reason).imageSize control = 367 + reason.length + control := by
  have hcatalog : pair.arrange.body.length = 92 := by decide +kernel
  have hzero : Digest.zero.bytes.length = 32 := by decide
  simp only [imageSize, abortedPair, hcatalog, SplitRecord.encode,
    SplitRecord.headerBytes, newSplit, pairState, map_cons, map_nil, sum_cons,
    sum_nil, length_append, Codec.length_putLE, length_cons, length_nil, hzero,
    length_encode, size]
  ring

/-- A reason of one byte more than the decoder reads is encoded, and no replica can decode it. -/
theorem long_reason_unreadable :
    newCatalog pair = .ok pair.arrange ∧ ∀ crc32 : Bytes → ℕ,
      let m : Metadata := { state := abortedPair (List.replicate 65537 97) }
      Produced crc32 pair.arrange m ∧
        ∃ bytes err, m.encode crc32 = .ok bytes ∧ decodeMetadata crc32 bytes = .error err := by
  refine ⟨pair_catalog, fun crc32 => ?_⟩
  intro m
  have hproduced : Produced crc32 pair.arrange m := abortedPair_produced crc32 _
  have hsize : m.state.imageSize 324 ≤ Raft.maxCommandBytes := by
    rw [abortedPair_imageSize, length_replicate]
    decide
  obtain ⟨bytes, hbytes⟩ : ∃ bytes, m.encode crc32 = .ok bytes :=
    encode_ok_of_imageSize (by decide) (by decide) (by decide) (by decide +kernel) hsize
  have hbad : ¬ m.Legible := by
    intro h
    have hlength := (h.splits _ (mem_singleton_self _)).2
    rw [length_replicate] at hlength
    exact absurd hlength (by decide)
  obtain ⟨err, herr⟩ := ((hproduced.kept pair_catalog pair_fits).decode_encode
    (newCatalog_wellFormed pair_catalog) hbytes).2 hbad
  exact ⟨hproduced, bytes, err, hbytes, herr⟩

end RivetDB.Multiraft
