import RivetDB.Multiraft.Produced

/-!
# Terminal records and their cut-over

A split is committed by `commit`, which puts the children in the catalog and leaves an edge in
the lineage, and a migration by `commitMigration`, which puts the target in the source's place.
The state `COMMITTED` is also the next one in the order that `advance` and `advanceMigration`
follow, and nothing keeps those methods from taking the last step: the record is then committed
and the catalog is as it was.  As long as no call does that, every terminal record carries its
cut-over.
-/

namespace RivetDB.Multiraft

open List MetadataState

/-! ### What a cut-over does to the catalog -/

/-- The range is gone, at the generation. -/
structure Catalog.Removes (id generation : ℕ) (c c' : Catalog) : Prop where
  present : ∃ d ∈ c.ranges, d.rangeID = id
  absent : ∀ d ∈ c'.ranges, d.rangeID ≠ id
  generation : c'.generation = generation

/-- In the range of the migration, and nowhere else, the target stands for the source. -/
structure MigrationRecord.Replaces (r : MigrationRecord) (c c' : Catalog) : Prop where
  generation : c'.generation = r.catalogGeneration
  others : ∀ x : RangeDescriptor, x.rangeID ≠ r.rangeID → (x ∈ c'.ranges ↔ x ∈ c.ranges)
  range : ∃ d ∈ c.ranges, ∃ d' ∈ c'.ranges, d.rangeID = r.rangeID ∧ d'.rangeID = r.rangeID ∧
    d'.startKey = d.startKey ∧ d'.endKey = d.endKey ∧ d'.generation = d.generation + 1 ∧
    (∃ x ∈ d.replicas, x.replicaID = r.sourceReplicaID) ∧
    ∀ x, x ∈ d'.replicas ↔ x = ⟨r.targetReplicaID, r.targetNodeID⟩ ∨
      (x ∈ d.replicas ∧ x.replicaID ≠ r.sourceReplicaID)

/-- The migration is past its cut-over. -/
def MigrationRecord.Moved (r : MigrationRecord) : Prop :=
  r.state = .committed ∨ r.state = .sourceRetired

theorem MigrationRecord.Replaces.of_same {r r' : MigrationRecord} {c c' : Catalog}
    (h : r.Replaces c c') (hsame : r.SameMigration r')
    (hgeneration : r'.catalogGeneration = r.catalogGeneration) : r'.Replaces c c' := by
  obtain ⟨d, hd, d', hd', hrest⟩ := h.range
  refine ⟨h.generation.trans hgeneration.symm, ?_, d, hd, d', hd', ?_⟩
  · rw [hsame.rangeID]
    exact h.others
  · rw [hsame.rangeID, hsame.sourceReplicaID, hsame.targetReplicaID, hsame.targetNodeID]
    exact hrest

variable {r : MigrationRecord} {c₀ : Catalog} {s : MetadataState} {d : RangeDescriptor}

/-- The catalog of a committed migration. -/
theorem replaces_candidate {candidate : Catalog} (hs : Sound c₀ s) (hd : d ∈ s.catalog.ranges)
    (hid : d.rangeID = r.rangeID) (hsource : ∃ x ∈ d.replicas, x.replicaID = r.sourceReplicaID)
    (hcandidate : newCatalog (s.migrationBootstrap r) = .ok candidate) :
    MigrationRecord.Replaces { r with catalogGeneration := candidate.generation } s.catalog
      candidate := by
  have hmem : ∀ {x}, x ∈ candidate.ranges ↔ _ := migrationCandidate_mem hs.catalog hcandidate
  have hmoved : (replaceReplica r d).sortReplicas ∈ candidate.ranges :=
    hmem.mpr ⟨d, hd, by rw [if_pos hid]⟩
  refine ⟨rfl, fun x hx => ?_, d, hd, _, hmoved, hid, ?_⟩
  · rw [hmem]
    constructor
    · rintro ⟨p, hp, rfl⟩
      split_ifs at hx ⊢ with hpid
      · exact absurd (replaceReplica_ranged.1.trans hpid) hx
      · exact hp
    · intro hxmem
      exact ⟨x, hxmem, by rw [if_neg hx]⟩
  · obtain ⟨hrange, hstart, hend⟩ := @replaceReplica_ranged r d
    have hgeneration : (replaceReplica r d).sortReplicas.generation = d.generation + 1 := by
      have hvalid : (replaceReplica r d).sortReplicas.generation ≠ 0 :=
        ((newCatalog_wellFormed hcandidate).valid _ hmoved).generation
      have hwrap : (replaceReplica r d).sortReplicas.generation = wrap64 (d.generation + 1) := by
        rw [replaceReplica, if_pos hid]
        rfl
      rw [hwrap] at hvalid ⊢
      exact (wrap64_succ (hs.generations d hd)).resolve_left hvalid
    refine ⟨hrange.trans hid, hstart, hend, hgeneration, hsource, fun x => ?_⟩
    rw [(RangeDescriptor.sortReplicas_perm _).mem_iff, replaceReplica, if_pos hid, mem_map]
    constructor
    · rintro ⟨y, hy, rfl⟩
      split_ifs with hyid
      · exact .inl rfl
      · exact .inr ⟨hy, hyid⟩
    · rintro (rfl | ⟨hx, hne⟩)
      · obtain ⟨y, hy, hyid⟩ := hsource
        exact ⟨y, hy, if_pos hyid⟩
      · exact ⟨x, hx, if_neg hne⟩

variable {target : MigrationState} {update : MigrationRecord}

/-- Between states on one side of the cut-over. -/
theorem moved_iff_of_legal (hlegal : legalMigrationTransition r.state target = true)
    (htarget : target ≠ .committed) : (r.advanced target update).Moved ↔ r.Moved := by
  unfold MigrationRecord.Moved MigrationRecord.advanced
  dsimp only
  generalize r.state = source at hlegal ⊢
  cases source <;> cases target <;> first
      | exact absurd hlegal (by decide)
      | exact absurd rfl htarget
      | decide

/-! ### The invariant -/

/-- The call asks one of the `advance` methods for the committed state. -/
def MetadataCall.ToCommitted : MetadataCall → Prop
  | .advance _ _ target _ => target = .committed
  | .advanceMigration _ _ target _ => target = .committed
  | _ => False

section Carried

variable {c₀ : Catalog} {past : Catalog → Catalog → Prop} {s s' : MetadataState}

/-- The past with one more change. -/
def grow (past : Catalog → Catalog → Prop) (a b c c' : Catalog) : Prop :=
  past c c' ∨ (c = a ∧ c' = b)

/-- The replica was there from the start, or a migration brought it. -/
def MetadataState.Placed (c₀ : Catalog) (s : MetadataState) (id : ℕ) : Prop :=
  (∃ d ∈ c₀.ranges, ∃ x ∈ d.replicas, x.replicaID = id) ∨
    ∃ r ∈ s.migrations, r.targetReplicaID = id ∧ r.Moved

/-- The terminal records carry their cut-over.  `past c c'` says that the catalog went from `c`
to `c'` in the run that led here. -/
structure Carried (c₀ : Catalog) (past : Catalog → Catalog → Prop) (s : MetadataState) : Prop where
  edges : ∀ e ∈ s.lineage, ∃ r ∈ s.splits, r.splitID = e.splitID ∧ r.state = .committed
  splits : ∀ r ∈ s.splits, r.state = .committed →
    (∃ e ∈ s.lineage, e.splitID = r.splitID ∧ e.parent = r.parent) ∧
      ∃ c c', past c c' ∧ Catalog.Removes r.parent.rangeID r.cutoverCatalogGeneration c c'
  migrations : ∀ r ∈ s.migrations, r.Moved → ∃ c c', past c c' ∧ r.Replaces c c'
  replicas : ∀ d ∈ s.catalog.ranges, ∀ x ∈ d.replicas, s.Placed c₀ x.replicaID
  earlier : ∀ c c', past c c' → ∀ d ∈ c'.ranges, ∀ x ∈ d.replicas, s.Placed c₀ x.replicaID

namespace Carried

theorem splits_grow (h : Carried c₀ past s) (a b : Catalog) {r : SplitRecord} (hr : r ∈ s.splits)
    (hstate : r.state = .committed) :
    (∃ e ∈ s.lineage, e.splitID = r.splitID ∧ e.parent = r.parent) ∧ ∃ c c', grow past a b c c' ∧
      Catalog.Removes r.parent.rangeID r.cutoverCatalogGeneration c c' := by
  obtain ⟨hedge, c, c', hpast, hremoves⟩ := h.splits r hr hstate
  exact ⟨hedge, c, c', .inl hpast, hremoves⟩

variable {r : MigrationRecord}

theorem migrations_grow (h : Carried c₀ past s) (a b : Catalog)
    (hr : r ∈ s.migrations) (hmoved : r.Moved) :
    ∃ c c', grow past a b c c' ∧ r.Replaces c c' := by
  obtain ⟨c, c', hpast, hreplaces⟩ := h.migrations r hr hmoved
  exact ⟨c, c', .inl hpast, hreplaces⟩

/-- A call that keeps the catalog. -/
theorem extend (h : Carried c₀ past s) : Carried c₀ (grow past s.catalog s.catalog) s where
  edges := h.edges
  splits := fun _ => h.splits_grow _ _
  migrations := fun _ => h.migrations_grow _ _
  replicas := h.replicas
  earlier := by
    rintro c c' (hpast | ⟨-, rfl⟩)
    · exact h.earlier c c' hpast
    · exact h.replicas

/-- A split record moves between states that are not the committed one. -/
theorem setSplit (h : Carried c₀ past s) (hs : Sound c₀ s) {r r' : SplitRecord} (hr : r ∈ s.splits)
    (hsame : r.SameSplit r') (hopen : r.state.terminal = false) (hopen' : r'.state ≠ .committed) :
    Carried c₀ past (s.setSplit r') := by
  have hmem : ∀ {x}, x ∈ (s.setSplit r').splits ↔ _ :=
    mem_setSplit hs.splitIDs.nodup hr hsame
  refine ⟨fun e he => ?_, fun x hx hstate => ?_, h.migrations, h.replicas, h.earlier⟩
  · obtain ⟨x, hx, hid, hstate⟩ := h.edges e he
    refine ⟨x, hmem.mpr (.inr ⟨hx, ?_⟩), hid, hstate⟩
    rintro rfl
    rw [hstate] at hopen
    cases hopen
  · rcases hmem.mp hx with rfl | ⟨hx, -⟩
    · exact absurd hstate hopen'
    · exact h.splits x hx hstate

theorem withSplit (h : Carried c₀ past s) (d : RangeDescriptor) (splitKey : Bytes) :
    Carried c₀ past (s.withSplit d splitKey) := by
  refine ⟨fun e he => ?_, fun x hx hstate => ?_, h.migrations, h.replicas, h.earlier⟩
  · obtain ⟨x, hx, hrest⟩ := h.edges e he
    exact ⟨x, mem_append_left _ hx, hrest⟩
  · rcases mem_append.mp hx with hx | hx
    · exact h.splits x hx hstate
    · rw [mem_singleton.mp hx] at hstate
      cases hstate

variable {candidate : Catalog}

/-- The committed split has its edge and its change of the catalog. -/
theorem splitCommitted (h : Carried c₀ past s) (hs : Sound c₀ s) {r : SplitRecord}
    (hr : r ∈ s.splits) (hstate : r.state = .fenced)
    (hcandidate : newCatalog (s.splitBootstrap r) = .ok candidate) :
    Carried c₀ (grow past s.catalog candidate) (s.splitCommitted r candidate) := by
  have hopen : r.state.terminal = false := by rw [hstate]; rfl
  obtain ⟨d, hd, hdiv⟩ := hs.divides r hr hopen
  have hsame := r.sameSplit_cutOver candidate
  have hmem : ∀ {x}, x ∈ (s.splitCommitted r candidate).splits ↔ _ :=
    mem_setSplit hs.splitIDs.nodup hr hsame
  have hremoves : Catalog.Removes r.parent.rangeID candidate.generation s.catalog candidate := by
    refine ⟨⟨d, hd, by rw [hdiv.parent]; rfl⟩, ?_, rfl⟩
    -- the new edge retires the parent
    exact ((hs.splitCommitted hr hstate hcandidate).retired (r.lineage candidate.generation)
      (mem_append_right _ (mem_singleton_self _))).2
  have hreplicas : ∀ x ∈ candidate.ranges, ∀ y ∈ x.replicas, s.Placed c₀ y.replicaID := by
    intro x hx
    rcases (splitCandidate_mem hs.catalog hd hdiv hcandidate).mp hx with rfl | rfl | ⟨hx, -⟩
    · rw [hdiv.left]
      exact h.replicas d hd
    · rw [hdiv.right]
      exact h.replicas d hd
    · exact h.replicas x hx
  refine ⟨fun e he => ?_, fun x hx hcommitted => ?_, fun _ => h.migrations_grow _ _, hreplicas, ?_⟩
  · rcases mem_append.mp he with he | he
    · obtain ⟨x, hx, hid, hcommitted⟩ := h.edges e he
      refine ⟨x, hmem.mpr (.inr ⟨hx, ?_⟩), hid, hcommitted⟩
      rintro rfl
      rw [hstate] at hcommitted
      cases hcommitted
    · obtain rfl := mem_singleton.mp he
      exact ⟨r.cutOver candidate, hmem.mpr (.inl rfl), rfl, rfl⟩
  · rcases hmem.mp hx with rfl | ⟨hx, -⟩
    · exact ⟨⟨_, mem_append_right _ (mem_singleton_self _), rfl, rfl⟩,
        _, _, .inr ⟨rfl, rfl⟩, hremoves⟩
    · obtain ⟨⟨e, he, hedge⟩, hremoved⟩ := h.splits_grow s.catalog candidate hx hcommitted
      exact ⟨⟨e, mem_append_left _ he, hedge⟩, hremoved⟩
  · rintro c c' (hpast | ⟨-, rfl⟩)
    · exact h.earlier c c' hpast
    · exact hreplicas

/-- A migration record moves between states on one side of the cut-over. -/
theorem setMigration (h : Carried c₀ past s) (hs : Sound c₀ s) {r r' : MigrationRecord}
    (hr : r ∈ s.migrations) (hsame : r.SameMigration r')
    (hgeneration : r'.catalogGeneration = r.catalogGeneration) (hmoved : r'.Moved ↔ r.Moved) :
    Carried c₀ past (s.setMigration r') := by
  have hmem : ∀ {x}, x ∈ (s.setMigration r').migrations ↔ _ :=
    mem_setMigration hs.migrationIDs.nodup hr hsame
  have hplaced : ∀ {id}, s.Placed c₀ id → (s.setMigration r').Placed c₀ id := by
    rintro id (horigin | ⟨x, hx, hid, hx'⟩)
    · exact .inl horigin
    · by_cases heq : x = r
      · subst heq
        exact .inr ⟨r', hmem.mpr (.inl rfl), hsame.targetReplicaID.trans hid, hmoved.mpr hx'⟩
      · exact .inr ⟨x, hmem.mpr (.inr ⟨hx, heq⟩), hid, hx'⟩
  refine ⟨h.edges, h.splits, fun x hx hxmoved => ?_,
    fun d hd x hx => hplaced (h.replicas d hd x hx),
    fun c c' hpast d hd x hx => hplaced (h.earlier c c' hpast d hd x hx)⟩
  rcases hmem.mp hx with rfl | ⟨hx, -⟩
  · obtain ⟨c, c', hpast, hreplaces⟩ := h.migrations r hr (hmoved.mp hxmoved)
    exact ⟨c, c', hpast, hreplaces.of_same hsame hgeneration⟩
  · exact h.migrations x hx hxmoved

theorem withMigration (h : Carried c₀ past s) (d : RangeDescriptor) (source : ReplicaDescriptor)
    (target : Raft.NodeID) : Carried c₀ past (s.withMigration d source target) := by
  have hplaced : ∀ {id}, s.Placed c₀ id → (s.withMigration d source target).Placed c₀ id := by
    rintro id (horigin | ⟨x, hx, hrest⟩)
    · exact .inl horigin
    · exact .inr ⟨x, mem_append_left _ hx, hrest⟩
  refine ⟨h.edges, h.splits, fun x hx hmoved => ?_, fun d hd x hx => hplaced (h.replicas d hd x hx),
    fun c c' hpast d hd x hx => hplaced (h.earlier c c' hpast d hd x hx)⟩
  rcases mem_append.mp hx with hx | hx
  · exact h.migrations x hx hmoved
  · rw [mem_singleton.mp hx] at hmoved
    rcases hmoved with hmoved | hmoved <;> cases hmoved

variable {d : RangeDescriptor}

section

variable (h : Carried c₀ past s) (hs : Sound c₀ s)

include h hs

/-- The committed migration has its change of the catalog. -/
theorem migrationCommitted (hr : r ∈ s.migrations)
    (hstate : r.state = .sourceRemoving) (hd : d ∈ s.catalog.ranges) (hid : d.rangeID = r.rangeID)
    (hsource : ∃ x ∈ d.replicas, x.replicaID = r.sourceReplicaID)
    (hcandidate : newCatalog (s.migrationBootstrap r) = .ok candidate) :
    Carried c₀ (grow past s.catalog candidate) (s.migrationCommitted r candidate) := by
  set r' : MigrationRecord :=
    { r with state := .committed, catalogGeneration := candidate.generation } with hr'
  have hsame : r.SameMigration r' := ⟨rfl, rfl, rfl, rfl, rfl, rfl⟩
  have hmem : ∀ {x}, x ∈ (s.migrationCommitted r candidate).migrations ↔ _ :=
    mem_setMigration hs.migrationIDs.nodup hr hsame
  have hreplaces : r'.Replaces s.catalog candidate :=
    (replaces_candidate hs hd hid hsource hcandidate).of_same ⟨rfl, rfl, rfl, rfl, rfl, rfl⟩ rfl
  have hplaced : ∀ {id}, s.Placed c₀ id → (s.migrationCommitted r candidate).Placed c₀ id := by
    rintro id (horigin | ⟨x, hx, hxid, hx'⟩)
    · exact .inl horigin
    · refine .inr ⟨x, hmem.mpr (.inr ⟨hx, ?_⟩), hxid, hx'⟩
      rintro rfl
      rcases hx' with hx' | hx' <;> rw [hstate] at hx' <;> cases hx'
  have hreplicas : ∀ p ∈ candidate.ranges, ∀ x ∈ p.replicas,
      (s.migrationCommitted r candidate).Placed c₀ x.replicaID := by
    intro p hp x hx
    by_cases hpid : p.rangeID = r.rangeID
    · obtain ⟨e, he, e', he', -, heid, -, -, -, -, hiff⟩ := hreplaces.range
      obtain rfl : p = e' := (newCatalog_wellFormed hcandidate).eq_of_rangeID hp he'
        (hpid.trans heid.symm)
      rcases (hiff x).mp hx with rfl | ⟨hx, -⟩
      · exact .inr ⟨r', hmem.mpr (.inl rfl), rfl, .inl rfl⟩
      · exact hplaced (h.replicas e he x hx)
    · exact hplaced (h.replicas p ((hreplaces.others p hpid).mp hp) x hx)
  refine ⟨h.edges, fun _ => h.splits_grow _ _, fun x hx hxmoved => ?_, hreplicas, ?_⟩
  · rcases hmem.mp hx with rfl | ⟨hx, -⟩
    · exact ⟨_, _, .inr ⟨rfl, rfl⟩, hreplaces⟩
    · exact h.migrations_grow _ _ hx hxmoved
  · rintro c c' (hpast | ⟨-, rfl⟩)
    · exact fun d hd x hx => hplaced (h.earlier c c' hpast d hd x hx)
    · exact hreplicas

/-- Every call but the ones that advance a record to the committed state. -/
theorem change {c : MetadataCall} (hc : ¬ c.ToCommitted)
    (hchange : Change s c s') : Carried c₀ (grow past s.catalog s'.catalog) s' := by
  cases hchange with
  | same => exact h.extend
  | splitBegun d splitKey => exact (h.withSplit d splitKey).extend
  | splitMoved c r r' hr hsame hstate hmoves =>
    refine (h.setSplit hs (split?_some hr).1 hsame hstate ?_).extend
    cases hmoves with
    | advanced => exact hc
    | taken =>
      intro hcommitted
      rw [show r.state = .committed from hcommitted] at hstate
      cases hstate
  | splitCommitted r candidate hr hstate hcandidate hedge hlineage =>
    exact h.splitCommitted hs (split?_some hr).1 hstate hcandidate
  | migrationBegun d source target => exact (h.withMigration d source target).extend
  | migrationMoved c r r' hr hsame hstate hmoves =>
    have hmem := (migration?_some hr).1
    cases hmoves with
    | advanced target update hlegal =>
      exact (h.setMigration hs hmem hsame rfl (moved_iff_of_legal hlegal hc)).extend
    | taken => exact (h.setMigration hs hmem hsame rfl Iff.rfl).extend
  | migrationCommitted r d candidate hr hstate hd href hgeneration hsource hcandidate =>
    exact h.migrationCommitted hs (migration?_some hr).1 hstate hd href hsource hcandidate

/-- A record that was advanced to the committed state carries no cut-over. -/
theorem skipped {c : MetadataCall} (hc : c.ToCommitted) (hchange : Change s c s') (hne : s' ≠ s) :
    s'.catalog = s.catalog ∧
      ((∃ r ∈ s'.splits, r.state = .committed ∧ ∀ e ∈ s'.lineage, e.splitID ≠ r.splitID) ∨
        ∃ r ∈ s'.migrations, r.Moved ∧ ∀ a b, grow past s.catalog s.catalog a b →
          ¬ r.Replaces a b) := by
  cases hchange with
  | same => exact absurd rfl hne
  | splitMoved c r r' hr hsame hopen hmoves =>
    obtain ⟨target, update, -⟩ | - := hmoves
    swap
    · exact hc.elim
    obtain rfl : target = .committed := hc
    have hmem := (split?_some hr).1
    refine ⟨rfl, .inl ⟨_, (mem_setSplit hs.splitIDs.nodup hmem hsame).mpr
      (.inl rfl), rfl, fun e he hid => ?_⟩⟩
    obtain ⟨x, hx, hxid, hstate⟩ := h.edges e he
    obtain rfl : x = r := inj_on_of_nodup_map hs.splitIDs.nodup hx hmem (hxid.trans hid)
    rw [hstate] at hopen
    cases hopen
  | migrationMoved c r r' hr hsame hstate hmoves =>
    obtain ⟨target, update, hlegal⟩ | - := hmoves
    swap
    · exact hc.elim
    obtain rfl : target = .committed := hc
    have hmem := (migration?_some hr).1
    refine ⟨rfl, .inr ⟨_, (mem_setMigration hs.migrationIDs.nodup hmem
      hsame).mpr (.inl rfl), .inl rfl, fun a b hpast hreplaces => ?_⟩⟩
    -- the target would have been in a catalog before the migration was committed
    obtain ⟨_, -, d, hd, -, -, -, -, -, -, hiff⟩ := hreplaces.range
    have hplaced : s.Placed c₀ r.targetReplicaID :=
      h.extend.earlier a b hpast d hd _ ((hiff _).mpr (.inl rfl))
    have hallocated : r.targetReplicaID ∈ s.allocatedReplicas := mem_map_of_mem hmem
    rcases hplaced with ⟨p, hp, x, hx, hid⟩ | ⟨x, hx, hid, hmoved⟩
    · exact (hs.originReplicas p hp x hx).2 (hid ▸ hallocated)
    · obtain rfl : x = r := inj_on_of_nodup_map hs.replicaIDs.nodup hx hmem hid
      rcases hmoved with hstate | hstate <;> rw [hstate] at hlegal <;>
        exact absurd hlegal (by decide)
  | _ => exact hc.elim

end

/-- The order of the tables does not matter. -/
theorem stored (h : Carried c₀ past s) : Carried c₀ past s.stored := by
  have hsplits : ∀ {r}, r ∈ s.stored.splits ↔ r ∈ s.splits := s.stored_splits.mem_iff
  have hmigrations : ∀ {r}, r ∈ s.stored.migrations ↔ r ∈ s.migrations :=
    s.stored_migrations.mem_iff
  have hlineage : ∀ {e}, e ∈ s.stored.lineage ↔ e ∈ s.lineage := s.stored_lineage.mem_iff
  have hplaced : ∀ {id}, s.Placed c₀ id → s.stored.Placed c₀ id :=
    Or.imp_right fun ⟨r, hr, hrest⟩ => ⟨r, hmigrations.mpr hr, hrest⟩
  refine ⟨fun e he => ?_, fun r hr hstate => ?_, fun r hr => h.migrations r (hmigrations.mp hr),
    fun d hd x hx => hplaced (h.replicas d hd x hx),
    fun c c' hpast d hd x hx => hplaced (h.earlier c c' hpast d hd x hx)⟩
  · obtain ⟨r, hr, hrest⟩ := h.edges e (hlineage.mp he)
    exact ⟨r, hsplits.mpr hr, hrest⟩
  · obtain ⟨⟨e, he, hedge⟩, hremoves⟩ := h.splits r (hsplits.mp hr) hstate
    exact ⟨⟨e, hlineage.mpr he, hedge⟩, hremoves⟩

end Carried

/-- The metadata a group starts from. -/
theorem carried_initial (h : newMetadataState c₀ = .ok s) : Carried c₀ (fun _ _ => False) s := by
  obtain ⟨hlineage, hmigrations⟩ := newMetadataState_empty h
  have hcatalog := newMetadataState_catalog h
  have hsplits := newMetadataState_splits h
  refine ⟨by simp [hlineage], by simp [hsplits], by simp [hmigrations], ?_, by simp⟩
  intro d hd x hx
  exact .inl ⟨d, hcatalog ▸ hd, x, hx, rfl⟩

end Carried

/-! ### Runs -/

namespace MetaRange

variable (H : Hashes)

def catalog (m : MetaRange) : Catalog := m.metadata.state.catalog

/-- A call of the run took the catalog from `c` to `c'`. -/
def Changed (m₀ : MetaRange) (calls : List MetaCall) (c c' : Catalog) : Prop :=
  ∃ pre x post, calls = pre ++ x :: post ∧ (m₀.run H pre).catalog = c ∧
    (m₀.run H (pre ++ [x])).catalog = c'

/-- After the run, a split is committed exactly if it has its edge in the lineage, its parent
has left the catalog, and did so at the generation of the record; and a migration past its
cut-over has replaced its source by its target at the generation of the record. -/
structure CarriesCutover (m₀ : MetaRange) (calls : List MetaCall) : Prop where
  splits : ∀ r ∈ (m₀.run H calls).metadata.state.splits, r.state = .committed ↔
    (∃ e ∈ (m₀.run H calls).metadata.state.lineage, e.splitID = r.splitID) ∧
      (∀ d ∈ (m₀.run H calls).catalog.ranges, d.rangeID ≠ r.parent.rangeID) ∧
      ∃ c c', m₀.Changed H calls c c' ∧
        Catalog.Removes r.parent.rangeID r.cutoverCatalogGeneration c c'
  migrations : ∀ r ∈ (m₀.run H calls).metadata.state.migrations,
    r.state = .committed ∨ r.state = .sourceRetired →
      ∃ c c', m₀.Changed H calls c c' ∧ r.Replaces c c'

/-- The call advances a record to the committed state, and the group accepts it. -/
def Skips (m : MetaRange) (c : MetaCall) : Prop :=
  (∃ call, c = .metadata call ∧ call.ToCommitted) ∧ (m.call H c).metadata ≠ m.metadata

/-- No call of the run does. -/
def Careful (m₀ : MetaRange) (calls : List MetaCall) : Prop :=
  ∀ pre c post, calls = pre ++ c :: post → ¬ (m₀.run H pre).Skips H c

variable {H} {c₀ : Catalog} {m m₀ : MetaRange} {c : MetaCall} {calls : List MetaCall}

theorem run_concat (m₀ : MetaRange) (calls : List MetaCall) (c : MetaCall) :
    m₀.run H (calls ++ [c]) = (m₀.run H calls).call H c := by
  unfold run
  rw [foldl_append]
  rfl

theorem changed_concat (m₀ : MetaRange) (calls : List MetaCall) (x : MetaCall) :
    m₀.Changed H (calls ++ [x]) = grow (m₀.Changed H calls)
      (m₀.run H calls).catalog (m₀.run H (calls ++ [x])).catalog := by
  funext c c'
  refine propext ⟨?_, ?_⟩
  · rintro ⟨pre, y, post, heq, rfl, rfl⟩
    rcases eq_nil_or_concat' post with rfl | ⟨post, z, rfl⟩
    · obtain ⟨rfl, hx⟩ := append_inj' heq rfl
      obtain rfl : x = y := singleton_inj.mp hx
      exact .inr ⟨rfl, rfl⟩
    · rw [← cons_append, ← append_assoc] at heq
      exact .inl ⟨pre, y, post, (append_inj' heq rfl).1, rfl, rfl⟩
  · rintro (⟨pre, y, post, rfl, rfl, rfl⟩ | ⟨rfl, rfl⟩)
    · exact ⟨pre, y, post ++ [x], by simp, rfl, rfl⟩
    · exact ⟨calls, x, [], rfl, rfl, rfl⟩

/-- A call changes nothing, or every replica decodes what it wrote. -/
theorem call_cases (hkept : Kept c₀ m.metadata) (hc₀ : c₀.WellFormed) (hfits : c.Fits) :
    (m.call H c).metadata = m.metadata ∨ ∃ next, m.metadata.change c = .ok next ∧
      next ≠ m.metadata ∧ (m.call H c).metadata = next.stored := by
  unfold call
  split_ifs with hfatal
  · exact .inl rfl
  split
  · exact .inl rfl
  rename_i next hnext
  split
  · rename_i encoded current hencoded hcurrent
    split_ifs with heq
    · exact .inl rfl
    unfold apply
    split
    · exact .inl rfl
    rename_i m' hm'
    split
    · exact .inl rfl
    · refine .inr ⟨next, hnext, ?_, ((hkept.change hfits hnext).decoded hc₀ hencoded hm').2⟩
      rintro rfl
      rw [hencoded] at hcurrent
      exact heq (Except.ok.inj hcurrent).symm
  · exact .inl rfl

/-- What a call does to the part of the metadata that is not the rebalancer's. -/
theorem change_state {m m' : Metadata} (h : m.change c = .ok m') :
    (∃ call, c = .metadata call ∧ Change m.state call m'.state ∧ m'.control = m.control) ∨
      ((∀ call, c ≠ .metadata call) ∧ m'.state = m.state) := by
  cases c with
  | metadata call =>
    obtain ⟨s, hs, rfl⟩ := map_ok h
    exact .inl ⟨call, rfl, result_change hs, rfl⟩
  | _ =>
    obtain ⟨control, -, rfl⟩ := map_ok h
    exact .inr ⟨by simp, rfl⟩

/-- One call. -/
theorem carried_call {past : Catalog → Catalog → Prop} (hkept : Kept c₀ m.metadata)
    (h : Carried c₀ past m.metadata.state) (hc₀ : c₀.WellFormed) (hfits : c.Fits)
    (hskip : ¬ m.Skips H c) :
    Carried c₀ (grow past m.catalog (m.call H c).catalog) (m.call H c).metadata.state := by
  unfold catalog
  rcases eq_or_ne (m.call H c).metadata m.metadata with hsame | hne
  · rw [hsame]
    exact h.extend
  obtain ⟨next, hnext, -, hstored⟩ := (call_cases hkept hc₀ hfits).resolve_left hne
  rw [hstored]
  refine Carried.stored (s := next.state) ?_
  rcases change_state hnext with ⟨call, rfl, hchange, -⟩ | ⟨-, hstate⟩
  · exact h.change hkept.sound (fun hto => hskip ⟨⟨call, rfl, hto⟩, hne⟩) hchange
  · have hcatalog : next.stored.state.catalog = next.state.catalog := rfl
    rw [hcatalog, hstate]
    exact h.extend

theorem kept_call (hkept : Kept c₀ m.metadata) (hc₀ : c₀.WellFormed) (hfits : c.Fits) :
    Kept c₀ (m.call H c).metadata := by
  rcases call_cases hkept hc₀ hfits with hsame | ⟨next, hnext, -, hstored⟩
  · rw [hsame]
    exact hkept
  · rw [hstored]
    exact (hkept.change hfits hnext).stored

/-- The invariants over a whole run. -/
theorem carried_run {b : Bootstrap} (hb : newCatalog b = .ok c₀) (hc₀ : c₀.Fits)
    (hopen : openMetaRange c₀ = .ok m₀) (hfits : ∀ c ∈ calls, c.Fits)
    (hcareful : m₀.Careful H calls) :
    Kept c₀ (m₀.run H calls).metadata ∧
      Carried c₀ (m₀.Changed H calls) (m₀.run H calls).metadata.state := by
  have hwell := newCatalog_wellFormed hb
  induction calls using List.reverseRecOn with
  | nil =>
    obtain ⟨s, hs, rfl⟩ := map_ok hopen
    refine ⟨kept_initial hb hc₀ hs, ?_⟩
    have hpast : ({ metadata := { state := s } } : MetaRange).Changed H [] = fun _ _ => False := by
      funext c c'
      simp [Changed]
    rw [hpast]
    exact carried_initial hs
  | append_singleton calls c ih =>
    obtain ⟨hkept, hcarried⟩ := ih (fun x hx => hfits x (mem_append_left _ hx))
      fun pre x post heq => hcareful pre x (post ++ [c]) (by simp [heq])
    have hc : c.Fits := hfits c (mem_append_right _ (mem_singleton_self _))
    rw [changed_concat, run_concat]
    exact ⟨kept_call hkept hwell hc, carried_call hkept hcarried hwell hc (hcareful calls c [] rfl)⟩

section

variable (hkept : Kept c₀ (m₀.run H calls).metadata)
  (h : Carried c₀ (m₀.Changed H calls) (m₀.run H calls).metadata.state)

include hkept h

/-- The invariants say what the records carry. -/
theorem carriesCutover :
    m₀.CarriesCutover H calls where
  splits := by
    intro r hr
    constructor
    · intro hstate
      obtain ⟨⟨e, he, hid, hparent⟩, hremoved⟩ := h.splits r hr hstate
      exact ⟨⟨e, he, hid⟩, hparent ▸ (hkept.sound.retired e he).2, hremoved⟩
    · rintro ⟨⟨e, he, hid⟩, -⟩
      obtain ⟨x, hx, hxid, hstate⟩ := h.edges e he
      obtain rfl : x = r :=
        inj_on_of_nodup_map hkept.sound.splitIDs.nodup hx hr (hxid.trans hid)
      exact hstate
  migrations := h.migrations

/-- After a call that advances a record to the committed state they do not. -/
theorem not_carriesCutover (hc₀ : c₀.WellFormed)
    (hfits : c.Fits) (hskip : (m₀.run H calls).Skips H c) :
    ¬ m₀.CarriesCutover H (calls ++ [c]) := by
  rintro ⟨hsplits, hmigrations⟩
  obtain ⟨⟨call, rfl, hto⟩, hne⟩ := hskip
  obtain ⟨next, hnext, hnew, hstored⟩ := (call_cases hkept hc₀ hfits).resolve_left hne
  rcases change_state hnext with ⟨_, heq, hchange, hcontrol⟩ | ⟨hother, -⟩
  · cases heq
    have hstate : next.state ≠ (m₀.run H calls).metadata.state :=
      fun heq => hnew (Metadata.ext heq hcontrol)
    obtain ⟨hcatalog, hbad⟩ := h.skipped hkept.sound hto hchange hstate
    have hpast : m₀.Changed H (calls ++ [.metadata call]) = grow (m₀.Changed H calls)
        (m₀.run H calls).catalog (m₀.run H calls).catalog := by
      rw [changed_concat, run_concat]
      unfold catalog
      rw [hstored]
      exact congrArg (grow _ _) hcatalog
    rw [run_concat, hstored] at hsplits hmigrations
    rcases hbad with ⟨r, hr, hcommitted, hedge⟩ | ⟨r, hr, hmoved, hnone⟩
    · obtain ⟨⟨e, he, hid⟩, -⟩ :=
        (hsplits r (next.state.stored_splits.mem_iff.mpr hr)).mp hcommitted
      exact hedge e (next.state.stored_lineage.mem_iff.mp he) hid
    · obtain ⟨a, b, hab, hreplaces⟩ :=
        hmigrations r (next.state.stored_migrations.mem_iff.mpr hr) hmoved
      exact hnone a b (hpast ▸ hab) hreplaces
  · exact hother call rfl

end

/-- **Every terminal record carries its cut-over, in every state of a run, exactly if no call
advances a record to the committed state.** -/
theorem carriesCutover_iff {b : Bootstrap} (hb : newCatalog b = .ok c₀) (hc₀ : c₀.Fits)
    (hopen : openMetaRange c₀ = .ok m₀) (hfits : ∀ c ∈ calls, c.Fits) :
    (∀ pre, pre <+: calls → m₀.CarriesCutover H pre) ↔ m₀.Careful H calls := by
  constructor
  · intro hcarries
    induction calls using List.reverseRecOn with
    | nil =>
      intro pre c post heq
      simp at heq
    | append_singleton calls c ih =>
      have hcareful := ih (fun x hx => hfits x (mem_append_left _ hx))
        fun pre hpre => hcarries pre (hpre.trans (prefix_append _ _))
      obtain ⟨hkept, hcarried⟩ := carried_run hb hc₀ hopen
        (fun x hx => hfits x (mem_append_left _ hx)) hcareful
      intro pre x post heq hskip
      rcases eq_nil_or_concat' post with rfl | ⟨post, z, rfl⟩
      · obtain ⟨rfl, hx⟩ := append_inj' heq rfl
        obtain rfl : c = x := singleton_inj.mp hx
        exact not_carriesCutover hkept hcarried (newCatalog_wellFormed hb)
          (hfits c (by simp)) hskip (hcarries _ prefix_rfl)
      · rw [← cons_append, ← append_assoc] at heq
        exact hcareful pre x post (append_inj' heq rfl).1 hskip
  · rintro hcareful pre ⟨rest, rfl⟩
    obtain ⟨hkept, hcarried⟩ := carried_run hb hc₀ hopen
      (fun x hx => hfits x (mem_append_left _ hx))
      (fun pre' x post heq => hcareful pre' x (post ++ rest) (by simp [heq]))
    exact carriesCutover hkept hcarried

end MetaRange

/-! ### Runs on a concrete catalog -/

/-- Hash functions that say nothing. -/
def Hashes.blank : Hashes where
  sha256 := fun _ => .zero
  crc32 := fun _ => 0

/-- A change of the catalog shows in its generation, so the check of a split or a migration
does not depend on the hash functions. -/
theorem validateMetadataTransition_eq (H : Hashes) {old next : MetadataState}
    (h : next.catalog = old.catalog ∨
      next.catalog.generation = wrap64 (old.catalog.generation + 1)) :
    validateMetadataTransition H { state := old } { state := next } =
      validateMetadataTransition .blank { state := old } { state := next } := by
  have hcontrol : sameRebalanceControl {} {} = true := by decide
  have hfollow : ∀ splits migrations, old.countersFollow H next splits migrations =
      old.countersFollow .blank next splits migrations := by
    intro splits migrations
    unfold countersFollow
    rcases h with heq | hgeneration
    · simp only [heq]
    · simp only [if_pos hgeneration]
  unfold validateMetadataTransition
  simp only [hcontrol, Bool.not_true, Bool.false_eq_true, if_false, hfollow]

instance (r : SplitRecord) : Decidable r.Readable := inferInstanceAs (Decidable (_ ∧ _))

instance (c : MetadataCall) : Decidable c.Fits :=
  match c with
  | .advance _ _ _ _ => inferInstanceAs (Decidable (∀ n ∈ [_, _, _, _], _))
  | .advanceMigration _ _ _ _ => inferInstanceAs (Decidable (∀ n ∈ [_, _, _, _], _))
  | .begin _ _ _ | .takeover _ _ | .commit _ _ _ | .beginMigration _ _ _ _ _
  | .takeoverMigration _ _ | .commitMigration _ _ _ _ => isTrue trivial

instance (c : MetadataCall) : Decidable c.ToCommitted :=
  match c with
  | .advance _ _ _ _ | .advanceMigration _ _ _ _ => inferInstanceAs (Decidable (_ = _))
  | .begin _ _ _ | .takeover _ _ | .commit _ _ _ | .beginMigration _ _ _ _ _
  | .takeoverMigration _ _ | .commitMigration _ _ _ _ => isFalse id

namespace MetadataState

/-- The state is encoded, decoded, and comes back as it is. -/
def Settled (s : MetadataState) : Prop :=
  s.stored = s ∧
    (s.splits.length ≤ maxSplitRecords ∧ s.migrations.length ≤ maxMigrationRecords ∧
      s.lineage.length ≤ maxSplitRecords ∧ s.catalog.body.length ≤ maxCatalogBytes - 4 ∧
      s.imageSize 324 ≤ Raft.maxCommandBytes) ∧
    (∀ r ∈ s.splits, r.Readable) ∧ (∀ r ∈ s.migrations, r.lastError.length ≤ maxMetadataText) ∧
    ∀ n ∈ [s.nextRangeID, s.nextSplitID, s.nextReplicaID, s.nextMigrationID], n ≠ 0

instance (s : MetadataState) : Decidable s.Settled := inferInstanceAs (Decidable (_ ∧ _ ∧ _))

/-- The calls succeed and change the state, every time to one that is settled, and the check of
the committed entry accepts it. -/
def accepts : MetadataState → List MetadataCall → Bool
  | _, [] => true
  | s, c :: calls =>
    match s.result c with
    | .error _ => false
    | .ok s' =>
      decide (s' ≠ s ∧ s'.Settled ∧ (s'.catalog = s.catalog ∨
        s'.catalog.generation = wrap64 (s.catalog.generation + 1)) ∧
        validateMetadataTransition .blank { state := s } { state := s' } = .ok ()) &&
      s'.accepts calls

variable {s : MetadataState}

theorem Settled.encode_ok (h : s.Settled) (crc32 : Bytes → ℕ) :
    ∃ bytes, ({ state := s } : Metadata).encode crc32 = .ok bytes := by
  obtain ⟨-, ⟨hsplits, hmigrations, hlineage, hcatalog, hsize⟩, -⟩ := h
  exact encode_ok_of_imageSize hsplits hmigrations hlineage hcatalog hsize

theorem Settled.stored_eq (h : s.Settled) : ({ state := s } : Metadata).stored = { state := s } :=
  Metadata.ext h.1 (show ({} : RebalanceControl).stored = {} by decide)

theorem Settled.legible (h : s.Settled) : ({ state := s } : Metadata).Legible :=
  ⟨⟨h.2.2.1, h.2.2.2.1, Nat.one_ne_zero⟩, h.2.2.2.2⟩

end MetadataState

namespace MetaRange

variable {H : Hashes} {c₀ : Catalog} {s s' : MetadataState}

/-- The group does what the methods do. -/
theorem call_settled {c : MetadataCall} (hc₀ : c₀.WellFormed)
    (hkept : Kept c₀ { state := s }) (hs : s.Settled) (hfits : c.Fits)
    (hresult : s.result c = .ok s') (hne : s' ≠ s) (hs' : s'.Settled)
    (hcatalog : s'.catalog = s.catalog ∨
      s'.catalog.generation = wrap64 (s.catalog.generation + 1))
    (hvalid : validateMetadataTransition .blank { state := s } { state := s' } = .ok ()) :
    Kept c₀ { state := s' } ∧ ({ metadata := { state := s } } : MetaRange).call H (.metadata c) =
      { metadata := { state := s' } } := by
  have hchange : ({ state := s } : Metadata).change (.metadata c) = .ok { state := s' } := by
    simp [Metadata.change, hresult, Except.map]
  have hcfits : (MetaCall.metadata c).Fits := hfits
  have hkept' : Kept c₀ { state := s' } := hkept.change hcfits hchange
  obtain ⟨encoded, hencoded⟩ := hs'.encode_ok H.crc32
  obtain ⟨current, hcurrent⟩ := hs.encode_ok H.crc32
  have hdecode : decodeMetadata H.crc32 encoded = .ok { state := s' } := by
    rw [(hkept'.decode_encode hc₀ hencoded).1 hs'.legible, hs'.stored_eq]
  have hdiffer : current ≠ encoded := by
    rintro rfl
    obtain ⟨-, heq⟩ := hkept.decoded hc₀ hcurrent hdecode
    rw [hs.stored_eq] at heq
    exact hne (congrArg Metadata.state heq)
  rw [← validateMetadataTransition_eq H hcatalog] at hvalid
  refine ⟨hkept', ?_⟩
  simp only [call, hchange, hencoded, hcurrent, if_neg hdiffer, apply, hdecode, hvalid,
    Bool.false_eq_true, if_false]

theorem run_accepted {calls : List MetadataCall} (hc₀ : c₀.WellFormed)
    (hkept : Kept c₀ { state := s }) (hs : s.Settled) (hfits : ∀ c ∈ calls, c.Fits)
    (h : s.accepts calls = true) :
    ({ metadata := { state := s } } : MetaRange).run H (calls.map .metadata) =
      { metadata := { state := s.run calls } } := by
  induction calls generalizing s with
  | nil => rfl
  | cons c calls ih =>
    unfold accepts at h
    split at h
    · cases h
    rename_i s' hresult
    simp only [Bool.and_eq_true, decide_eq_true_eq] at h
    obtain ⟨⟨hne, hs', hcatalog, hvalid⟩, hrest⟩ := h
    obtain ⟨hkept', hstep⟩ := call_settled (H := H) hc₀ hkept hs (hfits c mem_cons_self)
      hresult hne hs' hcatalog hvalid
    have hcall : s.call c = s' := by
      unfold MetadataState.call
      rw [hresult]
    rw [run_cons, hcall, ← ih hkept' hs'
      (fun x hx => hfits x (mem_cons_of_mem _ hx)) hrest, ← hstep]
    rfl

end MetaRange

/-- The group of the two nodes and the range. -/
def pairGroup : MetaRange where
  metadata := { state := pairState }

theorem pair_open : openMetaRange pair.arrange = .ok pairGroup := by
  unfold openMetaRange
  rfl

theorem pairGroup_run (H : Hashes) {calls : List MetadataCall} (hfits : ∀ c ∈ calls, c.Fits)
    (h : pairState.accepts calls = true) :
    pairGroup.run H (calls.map .metadata) = { metadata := { state := pairState.run calls } } :=
  MetaRange.run_accepted (newCatalog_wellFormed pair_catalog)
    (kept_initial pair_catalog pair_fits pair_state) (by decide +kernel) hfits h

/-- A migration and a split that go through carry their cut-over all the way. -/
theorem movedAndSplit_carriesCutover :
    openMetaRange pair.arrange = .ok pairGroup ∧ ∀ H : Hashes,
      (pairGroup.run H (movedAndSplit.map .metadata)).metadata.state.splits.map
        SplitRecord.state = [.committed] ∧
      (pairGroup.run H (movedAndSplit.map .metadata)).metadata.state.migrations.map
        MigrationRecord.state = [.sourceRetired] ∧
      ∀ pre, pre <+: movedAndSplit.map .metadata → pairGroup.CarriesCutover H pre := by
  refine ⟨pair_open, fun H => ?_⟩
  have hfits : ∀ c ∈ movedAndSplit, c.Fits := by decide
  have hnone : ∀ c ∈ movedAndSplit, ¬ c.ToCommitted := by decide
  have hrun := pairGroup_run H hfits (by decide +kernel)
  refine ⟨by rw [hrun]; decide +kernel, by rw [hrun]; decide +kernel, ?_⟩
  refine (MetaRange.carriesCutover_iff pair_catalog pair_fits pair_open ?_).mpr ?_
  · intro c hc
    obtain ⟨call, hcall, rfl⟩ := mem_map.mp hc
    exact hfits call hcall
  · rintro pre c post heq ⟨⟨call, rfl, hto⟩, -⟩
    have hmem : call ∈ movedAndSplit := by
      have : MetaCall.metadata call ∈ movedAndSplit.map .metadata := by simp [heq]
      obtain ⟨x, hx, hcall⟩ := mem_map.mp this
      cases hcall
      exact hx
    exact hnone call hmem hto

/-- The calls of a split whose last one is `advance` in the place of `commit`. -/
def splitWithoutCommit : List MetadataCall :=
  fenceCalls 1 ⟨1, 1⟩ [5] 1 ++ [.advance 1 1 .committed splitEvidence]

/-- The split is committed; there is no edge, and its parent is in the catalog as before. -/
theorem splitWithoutCommit_committed :
    openMetaRange pair.arrange = .ok pairGroup ∧ ∀ H : Hashes,
      ∃ r ∈ (pairGroup.run H (splitWithoutCommit.map .metadata)).metadata.state.splits,
        r.state = .committed ∧
        (pairGroup.run H (splitWithoutCommit.map .metadata)).metadata.state.lineage = [] ∧
        (pairGroup.run H (splitWithoutCommit.map .metadata)).catalog = pairGroup.catalog ∧
        ∃ d ∈ pairGroup.catalog.ranges, d.ref = r.parent := by
  refine ⟨pair_open, fun H => ?_⟩
  have hrun := pairGroup_run H (show ∀ c ∈ splitWithoutCommit, c.Fits by decide) (by decide +kernel)
  rw [hrun]
  decide +kernel

end RivetDB.Multiraft
