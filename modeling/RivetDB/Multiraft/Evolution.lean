import RivetDB.Multiraft.Invariant

/-!
# How the metadata evolves

The invariant speaks about one state.  Here a state is compared with a later one:
descriptors only change by a migration, under a larger generation, and an identity that
was handed out stays on record, so it is never handed out again.
-/

namespace RivetDB.Multiraft

open List MetadataState

variable {c₀ : Catalog} {s s' s'' : MetadataState}

/-- `s'` comes after `s`. -/
structure Evolves (s s' : MetadataState) : Prop where
  generation : s'.catalog = s.catalog ∨ s.catalog.generation < s'.catalog.generation
  descriptors : ∀ d ∈ s.catalog.ranges, ∀ d' ∈ s'.catalog.ranges, d'.rangeID = d.rangeID →
    d' = d ∨ (d.generation < d'.generation ∧ d'.startKey = d.startKey ∧ d'.endKey = d.endKey)
  present : ∀ d ∈ s.catalog.ranges, (∃ d' ∈ s'.catalog.ranges, d'.rangeID = d.rangeID) ∨
    ∃ e ∈ s'.lineage, e.parent.rangeID = d.rangeID ∧ d.generation ≤ e.parent.generation
  lineage : s.lineage <+: s'.lineage
  splitIDs : s.splits.map SplitRecord.splitID <+: s'.splits.map SplitRecord.splitID
  migrationIDs : s.migrations.map MigrationRecord.migrationID <+:
    s'.migrations.map MigrationRecord.migrationID
  ranges : s.allocatedRanges <+: s'.allocatedRanges
  replicas : s.allocatedReplicas <+: s'.allocatedReplicas

theorem Evolves.refl (h : Sound c₀ s) : Evolves s s where
  generation := .inl rfl
  descriptors _ hd _ hd' hid := .inl (h.catalog.eq_of_rangeID hd' hd hid)
  present d hd := .inl ⟨d, hd, rfl⟩
  lineage := prefix_rfl
  splitIDs := prefix_rfl
  migrationIDs := prefix_rfl
  ranges := prefix_rfl
  replicas := prefix_rfl

/-- A range that was retired in between never comes back. -/
theorem Evolves.trans (h : Evolves s s') (h' : Evolves s' s'') (hs'' : Sound c₀ s'') :
    Evolves s s'' where
  generation := by
    rcases h.generation with heq | hlt <;> rcases h'.generation with heq' | hlt'
    · exact .inl (heq'.trans heq)
    · exact .inr (heq ▸ hlt')
    · exact .inr (heq'.symm ▸ hlt)
    · exact .inr (hlt.trans hlt')
  descriptors := by
    intro d hd d'' hd'' hid
    rcases h.present d hd with ⟨d', hd', hid'⟩ | ⟨e, he, hed, -⟩
    · rcases h'.descriptors d' hd' d'' hd'' (hid.trans hid'.symm) with rfl | ⟨hlt', hs', he'⟩
      · exact h.descriptors d hd d'' hd' hid
      · rcases h.descriptors d hd d' hd' hid' with rfl | ⟨hlt, hs, he⟩
        · exact .inr ⟨hlt', hs', he'⟩
        · exact .inr ⟨hlt.trans hlt', hs'.trans hs, he'.trans he⟩
    · exact absurd (hid.trans hed.symm) ((hs''.retired e (h'.lineage.subset he)).2 d'' hd'')
  present := by
    intro d hd
    rcases h.present d hd with ⟨d', hd', hid⟩ | ⟨e, he, hed⟩
    · have hle : d.generation ≤ d'.generation := by
        rcases h.descriptors d hd d' hd' hid with rfl | ⟨hlt, -⟩
        · exact le_refl _
        · exact hlt.le
      rw [← hid]
      refine (h'.present d' hd').imp_right ?_
      rintro ⟨e, he, hed, hge⟩
      exact ⟨e, he, hed, hle.trans hge⟩
    · exact .inr ⟨e, h'.lineage.subset he, hed⟩
  lineage := h.lineage.trans h'.lineage
  splitIDs := h.splitIDs.trans h'.splitIDs
  migrationIDs := h.migrationIDs.trans h'.migrationIDs
  ranges := h.ranges.trans h'.ranges
  replicas := h.replicas.trans h'.replicas

theorem Sound.evolves_setSplit (h : Sound c₀ s) {r r' : SplitRecord} (hr : r ∈ s.splits)
    (hsame : r.SameSplit r') : Evolves s (s.setSplit r') :=
  { Evolves.refl h with
    splitIDs := Keyed.le_map_replace h.splitIDs.nodup hr hsame.splitID hsame.splitID
    ranges := by
      rw [allocatedRanges_setSplit h.splitIDs.nodup hr hsame] }

theorem Sound.evolves_setMigration (h : Sound c₀ s) {m m' : MigrationRecord}
    (hm : m ∈ s.migrations) (hsame : m.SameMigration m') : Evolves s (s.setMigration m') :=
  { Evolves.refl h with
    migrationIDs :=
      Keyed.le_map_replace h.migrationIDs.nodup hm hsame.migrationID hsame.migrationID
    replicas :=
      Keyed.le_map_replace h.migrationIDs.nodup hm hsame.migrationID hsame.targetReplicaID }

theorem Sound.evolves (h : Sound c₀ s) (hstep : Step s s') : Evolves s s' := by
  obtain ⟨c, hstep⟩ := hstep
  cases hstep with
  | same => exact Evolves.refl h
  | splitBegun d splitKey =>
    exact
      { Evolves.refl h with
        splitIDs := by simp [MetadataState.withSplit]
        ranges := by simp [MetadataState.allocatedRanges, MetadataState.withSplit] }
  | splitMoved _ r r' hr hsame =>
    exact h.evolves_setSplit (split?_some hr).1 hsame
  | splitCommitted r candidate hr hstate hcandidate =>
    have hr := (split?_some hr).1
    have hopen : r.state.terminal = false := by rw [hstate]; rfl
    obtain ⟨d, hd, hdiv⟩ := h.divides r hr hopen
    have hsame := r.sameSplit_cutOver candidate
    have hranges : ∀ {x}, x ∈ candidate.ranges ↔ _ :=
      splitCandidate_mem h.catalog hd hdiv hcandidate
    have hchild := h.unborn r hr hopen
    exact
      { h.evolves_setSplit hr hsame with
        generation := by
          have hnext := candidate_generation hcandidate rfl h.generation
          exact .inr (hnext.symm ▸ Nat.lt_succ_self _)
        descriptors := by
          intro p hp x hx hid
          rcases hranges.mp hx with rfl | rfl | ⟨hx, -⟩
          · exact absurd hid.symm ((hchild _ (by simp)).1 p hp)
          · exact absurd hid.symm ((hchild _ (by simp)).1 p hp)
          · exact .inl (h.catalog.eq_of_rangeID hx hp hid)
        present := by
          intro p hp
          by_cases hpd : p.rangeID = d.rangeID
          · obtain rfl := h.catalog.eq_of_rangeID hp hd hpd
            refine .inr ⟨r.lineage candidate.generation, ?_, ?_⟩
            · exact mem_append_right _ (mem_singleton_self _)
            · show r.parent.rangeID = p.rangeID ∧ p.generation ≤ r.parent.generation
              rw [hdiv.parent]
              exact ⟨rfl, le_refl _⟩
          · exact .inl ⟨p, hranges.mpr (.inr (.inr ⟨hp, hpd⟩)), rfl⟩
        lineage := prefix_append _ _ }
  | migrationBegun d source target =>
    exact
      { Evolves.refl h with
        migrationIDs := by simp [MetadataState.withMigration]
        replicas := by simp [MetadataState.allocatedReplicas, MetadataState.withMigration] }
  | migrationMoved _ r r' hr hsame =>
    exact h.evolves_setMigration (migration?_some hr).1 hsame
  | migrationCommitted m d candidate hm hstate hd href hgeneration hsource hcandidate =>
    have hsame := m.sameMigration_committed candidate.generation
    exact
      { h.evolves_setMigration (migration?_some hm).1 hsame with
        generation := by
          have hnext := candidate_generation hcandidate rfl h.generation
          exact .inr (hnext.symm ▸ Nat.lt_succ_self _)
        descriptors := by
          intro p hp x hx hid
          obtain ⟨q, hq, hxq, hstart, hend, hcase⟩ :=
            migrationCandidate_moved h.catalog h.generations hcandidate hx
          obtain rfl := h.catalog.eq_of_rangeID hq hp (hxq.symm.trans hid)
          refine hcase.imp_right fun hmoved => ⟨?_, hstart, hend⟩
          rw [hmoved.2]
          exact Nat.lt_succ_self _
        present := by
          intro p hp
          obtain ⟨x, hx, hid, -⟩ := migrationCandidate_image h.catalog hcandidate hp
          exact .inl ⟨x, hx, hid⟩ }

theorem Sound.evolves_run (h : Sound c₀ s) (calls : List MetadataCall) :
    Evolves s (s.run calls) := by
  induction calls generalizing s with
  | nil => exact Evolves.refl h
  | cons c calls ih =>
    have hcall := h.step (s.call_step c)
    exact (h.evolves (s.call_step c)).trans (ih hcall) (hcall.run calls)

/-! ### The catalog is a partition under unique identities -/

/-- What every state of the metadata guarantees. -/
structure Consistent (c₀ : Catalog) (s : MetadataState) : Prop where
  /-- Every key lies in exactly one range. -/
  partition : ∀ key, ∃! d, d ∈ s.catalog.ranges ∧ d.contains key = true
  /-- `Lookup` returns the range of the key. -/
  lookup : ∀ key, ∃ d ∈ s.catalog.ranges, d.contains key = true ∧ s.catalog.lookup key = .ok d
  /-- A range is held by one split at most, -/
  oneSplit : ∀ r ∈ s.splits, ∀ r' ∈ s.splits, r.state.terminal = false →
    r'.state.terminal = false → r.parent.rangeID = r'.parent.rangeID → r = r'
  /-- by one migration at most, -/
  oneMigration : ∀ m ∈ s.migrations, ∀ m' ∈ s.migrations, m.state.terminal = false →
    m'.state.terminal = false → m.rangeID = m'.rangeID → m = m'
  /-- and never by both. -/
  apart : ∀ r ∈ s.splits, ∀ m ∈ s.migrations, r.state.terminal = false →
    m.state.terminal = false → r.parent.rangeID ≠ m.rangeID
  /-- The children of a split under way tile the parent as it is now, on its replicas. -/
  children : ∀ r ∈ s.splits, r.state.terminal = false →
    ∃ d ∈ s.catalog.ranges, d.ref = r.parent ∧
      Tiles RangeDescriptor.span d.span [r.left, r.right] ∧
      r.left.replicas = d.replicas ∧ r.right.replicas = d.replicas
  /-- No identity was handed out twice. -/
  identities : (s.splits.map SplitRecord.splitID).Nodup ∧
    (s.migrations.map MigrationRecord.migrationID).Nodup ∧
    s.allocatedRanges.Nodup ∧ s.allocatedReplicas.Nodup
  /-- No identity of the first catalog was handed out again. -/
  origins : ∀ d ∈ c₀.ranges, d.rangeID ∉ s.allocatedRanges ∧
    ∀ x ∈ d.replicas, x.replicaID ∉ s.allocatedReplicas

/-- What every state guarantees about the states after it. -/
structure Succeeded (s s' : MetadataState) : Prop where
  /-- The catalog changes only under a larger generation. -/
  generation : s'.catalog ≠ s.catalog → s.catalog.generation < s'.catalog.generation
  /-- So does the descriptor of a range, whose bounds stay. -/
  descriptors : ∀ d ∈ s.catalog.ranges, ∀ d' ∈ s'.catalog.ranges, d'.rangeID = d.rangeID →
    d' ≠ d → d.generation < d'.generation ∧ d'.startKey = d.startKey ∧ d'.endKey = d.endKey
  /-- What was handed out stays on record. -/
  identities : s.splits.map SplitRecord.splitID <+: s'.splits.map SplitRecord.splitID ∧
    s.migrations.map MigrationRecord.migrationID <+: s'.migrations.map MigrationRecord.migrationID ∧
    s.allocatedRanges <+: s'.allocatedRanges ∧ s.allocatedReplicas <+: s'.allocatedReplicas

theorem Sound.consistent (h : Sound c₀ s) (hcovers : s.catalog.Covers) : Consistent c₀ s where
  partition := by
    intro key
    obtain ⟨d, hd, hkey⟩ := hcovers key
    refine ⟨d, ⟨hd, hkey⟩, ?_⟩
    rintro d' ⟨hd', hkey'⟩
    exact (h.catalog.tiles hcovers).eq_of_mem hd' hd hkey' hkey
  lookup := by
    intro key
    obtain ⟨d, hd, hkey⟩ := hcovers key
    exact ⟨d, hd, hkey, h.catalog.lookup_ok hd hkey⟩
  oneSplit := h.oneSplit
  oneMigration := h.oneMigration
  apart := h.apart
  children := by
    intro r hr hterminal
    obtain ⟨d, hd, hdiv⟩ := h.divides r hr hterminal
    refine ⟨d, hd, hdiv.parent.symm, hdiv.tiles, ?_, ?_⟩
    · rw [hdiv.left]
    · rw [hdiv.right]
  identities := ⟨h.splitIDs.nodup, h.migrationIDs.nodup, h.children, h.replicaIDs.nodup⟩
  origins d hd := ⟨(h.origins d hd).2, fun x hx => (h.originReplicas d hd x hx).2⟩

theorem Evolves.succeeded (h : Evolves s s') : Succeeded s s' where
  generation hne := h.generation.resolve_left hne
  descriptors d hd d' hd' hid hne := (h.descriptors d hd d' hd' hid).resolve_left hne
  identities := ⟨h.splitIDs, h.migrationIDs, h.ranges, h.replicas⟩

/-- **From a catalog that covers every key, every sequence of calls keeps the ranges a
partition of the keys and every identity unique, and every later state succeeds it.** -/
theorem run_partitions_keys {b : Bootstrap} {s₀ : MetadataState} (hb : newCatalog b = .ok c₀)
    (hfits : c₀.Fits) (hcovers : c₀.Covers) (hs₀ : newMetadataState c₀ = .ok s₀)
    (calls later : List MetadataCall) :
    Consistent c₀ (s₀.run calls) ∧ Succeeded (s₀.run calls) (s₀.run (calls ++ later)) := by
  have hinit := newMetadataState_sound (newCatalog_wellFormed hb) hfits hs₀
  have hcovers₀ : s₀.catalog.Covers := newMetadataState_catalog hs₀ ▸ hcovers
  rw [run_append]
  exact ⟨(hinit.run calls).consistent (hinit.run_covers hcovers₀ calls),
    ((hinit.run calls).evolves_run later).succeeded⟩

/-- Two nodes and one range on the first of them. -/
def pair : Bootstrap where
  generation := 1
  nodes := [1, 2]
  replicationFactor := 1
  ranges :=
    [{ rangeID := 1
       generation := 1
       startKey := { unbounded := true }
       endKey := { unbounded := true }
       replicas := [{ replicaID := 1, nodeID := 1 }] }]

theorem pair_catalog : newCatalog pair = .ok pair.arrange := by
  decide +kernel

theorem pair_fits : pair.arrange.Fits := ⟨by decide, by decide +kernel, by decide +kernel⟩

/-- Its metadata before the first call. -/
def pairState : MetadataState where
  catalog := pair.arrange
  nextRangeID := 2
  nextReplicaID := 2

theorem pair_state : newMetadataState pair.arrange = .ok pairState := by
  decide +kernel

theorem pair_partitions_keys :
    newCatalog pair = .ok pair.arrange ∧ newMetadataState pair.arrange = .ok pairState ∧
      ∀ calls later : List MetadataCall, Consistent pair.arrange (pairState.run calls) ∧
        Succeeded (pairState.run calls) (pairState.run (calls ++ later)) :=
  ⟨pair_catalog, pair_state, run_partitions_keys pair_catalog pair_fits
    (fun _ => ⟨_, mem_singleton_self _, rfl⟩) pair_state⟩

/-- The range of `d` is in the catalog of `s`, or was split and never comes back. -/
def LivesOn (d : RangeDescriptor) (s : MetadataState) : Prop :=
  (∃ d' ∈ s.catalog.ranges, d'.rangeID = d.rangeID) ∨
    (∃ e ∈ s.lineage, e.parent.rangeID = d.rangeID ∧ d.generation ≤ e.parent.generation) ∧
      ∀ more, ∀ d' ∈ (s.run more).catalog.ranges, d'.rangeID ≠ d.rangeID

/-- **A range leaves the catalog by a split alone, and for good.** -/
theorem ranges_live_on {b : Bootstrap} {s₀ : MetadataState} (hb : newCatalog b = .ok c₀)
    (hfits : c₀.Fits) (hs₀ : newMetadataState c₀ = .ok s₀) (calls later : List MetadataCall) :
    ∀ d ∈ (s₀.run calls).catalog.ranges, LivesOn d (s₀.run (calls ++ later)) := by
  intro d hd
  have hsound := (newMetadataState_sound (newCatalog_wellFormed hb) hfits hs₀).run calls
  rw [run_append]
  refine ((hsound.evolves_run later).present d hd).imp_right ?_
  rintro ⟨e, he, hid, hle⟩
  refine ⟨⟨e, he, hid, hle⟩, fun more d' hd' => ?_⟩
  have hlater := hsound.run later
  rw [← hid]
  exact ((hlater.run more).retired e ((hlater.evolves_run more).lineage.subset he)).2 d' hd'

theorem pair_lives_on : pairState.catalog.ranges.length = 1 ∧ ∀ calls later : List MetadataCall,
    ∀ d ∈ (pairState.run calls).catalog.ranges, LivesOn d (pairState.run (calls ++ later)) :=
  ⟨by decide +kernel, ranges_live_on pair_catalog pair_fits pair_state⟩

end RivetDB.Multiraft
