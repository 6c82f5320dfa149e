import RivetDB.Multiraft.Lineage

/-!
# Resolving a reference

A reference that once named a range resolves to the current ranges that tile its
interval, as long as no range was split after it had been migrated: `commit` keys the
lineage by the generation the range has when it is split, and nothing leads there from
the generations before.
-/

namespace RivetDB.Multiraft

open List RangeDescriptor
open scoped ByteOrder
open Forest

variable {c₀ : Catalog} {s s' : MetadataState} {d d₀ : RangeDescriptor}

/-! ### The chart of the references -/

/-- The extent a reference stands for: that of the range when it was created. -/
def chart (c₀ : Catalog) (s : MetadataState) (ref : RangeRef) : Set (WithBot Bytes) :=
  {k | ∃ d₀, Origin c₀ s d₀ ∧ d₀.rangeID = ref.rangeID ∧ k ∈ d₀.extent}

variable {ref : RangeRef} {nodes : List RangeRef} {leaves : List RangeDescriptor}

theorem chart_eq (hs : Sound c₀ s) (hc₀ : c₀.WellFormed) (horigin : Origin c₀ s d₀)
    (hid : d₀.rangeID = ref.rangeID) : chart c₀ s ref = d₀.extent := by
  ext k
  constructor
  · rintro ⟨d₁, horigin₁, hid₁, hk⟩
    rwa [hs.origin_unique hc₀ horigin horigin₁ (hid.trans hid₁.symm)]
  · intro hk
    exact ⟨d₀, horigin, hid, hk⟩

theorem Traced.chart (h : Traced c₀ s) (hs : Sound c₀ s) (hc₀ : c₀.WellFormed) :
    Chart s.view extent (chart c₀ s) where
  leaf := by
    intro ref d hview
    obtain ⟨hd, hid, -⟩ := MetadataState.view_leaf hview
    obtain ⟨d₀, horigin, hdesc, hstart, hend⟩ := h.ranges d hd
    refine ⟨?_, (hs.catalog.valid d hd).extent_nonempty⟩
    rw [chart_eq hs hc₀ horigin (hdesc.rangeID.trans hid)]
    exact (extent_congr hstart hend).symm
  fork := by
    intro ref a b hview
    obtain ⟨e, he, rfl, rfl, rfl⟩ := MetadataState.view_fork hview
    obtain ⟨d₀, horigin, hdesc, p, hp, hleft, hright, hextent⟩ := h.edges e he
    rw [chart_eq hs hc₀ horigin hdesc.rangeID,
      chart_eq hs hc₀ (.inr ⟨p, hp, .inl rfl⟩) (by rw [hleft]; rfl),
      chart_eq hs hc₀ (.inr ⟨p, hp, .inr rfl⟩) (by rw [hright]; rfl)]
    exact hextent

/-! ### `resolve` -/

/-- The reference resolves to current ranges in order of their start that tile `S`. -/
def Resolved (s : MetadataState) (ref : RangeRef) (S : Set Bytes) : Prop :=
  ∃ ds, s.resolve ref = .ok ds ∧ (∀ d ∈ ds, d ∈ s.catalog.ranges) ∧
    ds.Pairwise startLE ∧ Tiles span S ds

theorem RangeDescriptor.startLE_total (a b : RangeDescriptor) : startLE a b ∨ startLE b a := by
  unfold startLE
  rcases a.startKey.unbounded with - | -
  · rcases b.startKey.unbounded with - | -
    · simpa using le_total a.startKey.key b.startKey.key
    · exact .inr (.inl rfl)
  · exact .inl (.inl rfl)

theorem RangeDescriptor.startLE_trans {a b c : RangeDescriptor} (h : startLE a b)
    (h' : startLE b c) : startLE a c := by
  rcases h with h | ⟨hb, h⟩
  · exact .inl h
  · rcases h' with h' | ⟨hc, h'⟩
    · simp [h'] at hb
    · exact .inr ⟨hc, not_lt.mpr ((not_lt.mp h).trans (not_lt.mp h'))⟩

section

variable (h : Traced c₀ s) (hs : Sound c₀ s) (hc₀ : c₀.WellFormed)

include h hs hc₀

/-- The forks of a tree are edges of the lineage. -/
theorem Traced.length_nodes_le {height : ℕ} (hgrows : Grows s.view height ref nodes leaves) :
    nodes.length ≤ 2 * s.lineage.length + 2 := by
  have hnodup := (h.chart hs hc₀).nodup hgrows
  have hsub : nodes.filter (fun x => isFork (s.view x)) ⊆ s.lineage.map LineageRecord.parent := by
    intro x hx
    obtain ⟨-, hfork⟩ := mem_filter.mp hx
    rcases hview : s.view x with d | ⟨a, b⟩ | -
    · simp [hview, isFork] at hfork
    · obtain ⟨e, he, hparent, -⟩ := MetadataState.view_fork hview
      exact mem_map.mpr ⟨e, he, hparent⟩
    · simp [hview, isFork] at hfork
  have hle := ((hnodup.filter _).subperm hsub).length_le
  rw [length_map, ← countP_eq_length_filter] at hle
  rw [hgrows.length_nodes]
  omega

/-- A reference with a tree resolves to its leaves. -/
theorem Traced.resolve_ok (hgrows : Grows s.view maxLineageDepth ref nodes leaves) :
    ∃ ds, s.resolve ref = .ok ds ∧ ds.Perm leaves ∧ ds.Pairwise startLE := by
  have htotal : Std.Total startLE := ⟨startLE_total⟩
  have htrans : IsTrans RangeDescriptor startLE :=
    ⟨fun _ _ _ => startLE_trans⟩
  have hchart := h.chart hs hc₀
  have hsize : leaves.length ≤ maxCatalogRanges := by
    have hsub : leaves ⊆ s.catalog.ranges := by
      intro d hd
      obtain ⟨x, -, hview⟩ := hgrows.leaf_shown hd
      exact (MetadataState.view_leaf hview).1
    exact ((hchart.leaves_nodup hgrows).subperm hsub).length_le.trans hs.catalog.count
  obtain ⟨found, hfound, hperm⟩ := search_root_ok hgrows (hchart.nodup hgrows)
    (h.length_nodes_le hs hc₀ hgrows) hsize
  have hloop : (s.resolveLoop (2 * s.lineage.length + 2) [(ref, 0)] [] []).map
      (·.insertionSort startLE) = .ok (found.insertionSort startLE) := by
    rw [MetadataState.resolveLoop_eq, hfound]
    rfl
  have hsorted : ∃ ds, Except.ok (found.insertionSort startLE) =
      (Except.ok ds : Except Error _) ∧ ds.Perm leaves ∧
        ds.Pairwise startLE :=
    ⟨_, rfl, (perm_insertionSort _ _).trans hperm, pairwise_insertionSort _ _⟩
  unfold MetadataState.resolve
  split
  · rename_i d hfind
    obtain ⟨hd, hid⟩ := hs.catalog.find?_rangeID.mp hfind
    split
    · -- the range itself answers: the tree is a single leaf
      rename_i hgeneration
      have hview := MetadataState.view_current hs.catalog hd hid hgeneration.ge
      have hleaf : Grows s.view 0 ref [ref] [d] := .leaf hview
      rw [(hgrows.unique hleaf).2]
      exact ⟨[d], rfl, List.Perm.refl _, pairwise_singleton _ _⟩
    · rw [hloop]
      exact hsorted
  · rw [hloop]
    exact hsorted

/-- A reference with a tree is resolved to ranges that tile the interval the range was
created with. -/
theorem Traced.resolved
    (hgrows : Grows s.view maxLineageDepth ref nodes leaves) (horigin : Origin c₀ s d₀)
    (hid : d₀.rangeID = ref.rangeID) : Resolved s ref d₀.span := by
  obtain ⟨ds, hresolve, hperm, hsorted⟩ := h.resolve_ok hs hc₀ hgrows
  refine ⟨ds, hresolve, fun d hd => ?_, hsorted, ?_⟩
  · obtain ⟨x, -, hview⟩ := hgrows.leaf_shown (hperm.mem_iff.mp hd)
    exact (MetadataState.view_leaf hview).1
  · have htiles := (h.chart hs hc₀).tiles hgrows
    rw [chart_eq hs hc₀ horigin hid] at htiles
    exact tiles_span_of_extent (htiles.perm hperm.symm)

end

/-! ### Ranges that were split after a migration -/

/-- Every range that was split had, when it was split, the generation from which all its
migrations set out: none of them was ever committed. -/
def MetadataState.Unmoved (s : MetadataState) : Prop :=
  ∀ e ∈ s.lineage, ∀ ref ∈ s.moves, ref.rangeID = e.parent.rangeID →
    ref.generation = e.parent.generation

/-- The call commits a split of a range that a migration has moved before. -/
def MetadataCall.CutsMoved (s : MetadataState) (c : MetadataCall) : Prop :=
  ∃ id epoch expected r s', c = .commit id epoch expected ∧
    s.commit id epoch expected = .ok (r, s') ∧
    ∃ m ∈ s.migrations, m.rangeID = r.parent.rangeID ∧
      m.rangeGeneration ≠ r.parent.generation

/-- A migration sets out from a current range. -/
theorem Sound.moves_step (hs : Sound c₀ s) (hstep : Step s s') :
    s.moves ⊆ s'.moves ∧ ∀ ref ∈ s'.moves, ref ∈ s.moves ∨ ∃ d ∈ s.catalog.ranges, d.ref = ref := by
  obtain ⟨c, hstep⟩ := hstep
  cases hstep with
  | migrationBegun d source target hd =>
    refine ⟨by simp [MetadataState.moves, MetadataState.withMigration], fun ref href => ?_⟩
    simp only [MetadataState.moves, MetadataState.withMigration, map_append, map_singleton] at href
    refine (mem_append.mp href).imp_right fun href => ⟨d, hd, ?_⟩
    rw [mem_singleton.mp href]
    rfl
  | migrationMoved _ m m' hm hsame =>
    rw [MetadataState.moves_setMigration hs (MetadataState.migration?_some hm).1 hsame]
    exact ⟨List.Subset.refl _, fun ref => .inl⟩
  | migrationCommitted m d candidate hm =>
    have hmoves : (s.migrationCommitted m candidate).moves = s.moves :=
      MetadataState.moves_setMigration hs (MetadataState.migration?_some hm).1
        ⟨rfl, rfl, rfl, rfl, rfl, rfl⟩
    rw [hmoves]
    exact ⟨List.Subset.refl _, fun ref => .inl⟩
  | _ => exact ⟨List.Subset.refl _, fun ref => .inl⟩

/-- Only the commit of a moved range puts a moved range into the lineage. -/
theorem Sound.unmoved_call_iff (hs : Sound c₀ s) (c : MetadataCall) :
    (s.call c).Unmoved ↔ s.Unmoved ∧ ¬ c.CutsMoved s := by
  obtain ⟨hsub, hnew⟩ := hs.moves_step (s.call_step c)
  by_cases hcut : ∃ id epoch expected r, c = .commit id epoch expected ∧
      s.commit id epoch expected = .ok (r, s.call c)
  · obtain ⟨id, epoch, expected, r', rfl, hcommit⟩ := hcut
    obtain ⟨r, candidate, -, -, -, -, -, -, -, -, -, -, rfl, hs'⟩ :=
      MetadataState.commit_ok_iff.mp hcommit
    have hlineage : (s.call (.commit id epoch expected)).lineage =
        s.lineage ++ [r.lineage candidate.generation] := by rw [hs']; rfl
    have hmoves : (s.call (.commit id epoch expected)).moves = s.moves := by rw [hs']; rfl
    unfold MetadataState.Unmoved
    rw [hlineage, hmoves]
    constructor
    · intro h
      refine ⟨fun e he => h e (mem_append_left _ he), ?_⟩
      rintro ⟨id', epoch', expected', x, t, heq, hcommit', m, hm, hid, hne⟩
      cases heq
      rw [hcommit] at hcommit'
      cases hcommit'
      exact hne (h _ (mem_append_right _ (mem_singleton_self _))
        ⟨m.rangeID, m.rangeGeneration⟩ (mem_map.mpr ⟨m, hm, rfl⟩) hid)
    · rintro ⟨h, hcut⟩ e he ref href hid
      rcases mem_append.mp he with he | he
      · exact h e he ref href hid
      · obtain rfl := mem_singleton.mp he
        obtain ⟨m, hm, rfl⟩ := mem_map.mp href
        by_contra hne
        exact hcut ⟨id, epoch, expected, _, _, rfl, hcommit, m, hm, hid, hne⟩
  · have hlineage := (s.call_lineage c).resolve_right hcut
    have hquiet : ¬ c.CutsMoved s := by
      rintro ⟨id, epoch, expected, r, t, rfl, hcommit, -⟩
      refine hcut ⟨id, epoch, expected, r, rfl, ?_⟩
      simp only [MetadataState.call, MetadataState.result, hcommit]
      rfl
    unfold MetadataState.Unmoved
    rw [hlineage]
    constructor
    · intro h
      exact ⟨fun e he ref href => h e he ref (hsub href), hquiet⟩
    · rintro ⟨h, -⟩ e he ref href hid
      rcases hnew ref href with hold | ⟨d, hd, rfl⟩
      · exact h e he ref hold hid
      · exact absurd hid ((hs.retired e he).2 d hd)

theorem Sound.unmoved_run_iff (hs : Sound c₀ s) (hempty : s.lineage = [])
    (calls : List MetadataCall) :
    (s.run calls).Unmoved ↔
      ∀ earlier c, earlier ++ [c] <+: calls → ¬ c.CutsMoved (s.run earlier) := by
  induction calls using List.reverseRecOn with
  | nil =>
    simp [MetadataState.Unmoved, hempty]
  | append_singleton calls c ih =>
    rw [MetadataState.run_append]
    show ((s.run calls).call c).Unmoved ↔ _
    rw [(hs.run calls).unmoved_call_iff c, ih]
    constructor
    · rintro ⟨h, hc⟩ earlier c' hle
      rcases prefix_concat_iff.mp hle with heq | hle
      · obtain ⟨rfl, hlast⟩ := append_inj' heq rfl
        obtain rfl : c' = c := by simpa using hlast
        exact hc
      · exact h earlier c' hle
    · intro h
      exact ⟨fun earlier c' hle => h earlier c' (hle.trans (prefix_append _ _)),
        h calls c prefix_rfl⟩

/-- Every generation a migration set out from was once the generation of a range. -/
theorem Sound.moves_named (hs : Sound c₀ s) (hempty : s.migrations = [])
    (calls : List MetadataCall) :
    ∀ ref ∈ (s.run calls).moves, ∃ earlier, earlier <+: calls ∧
      ∃ d ∈ (s.run earlier).catalog.ranges, d.ref = ref := by
  induction calls using List.reverseRecOn with
  | nil => simp [MetadataState.moves, hempty]
  | append_singleton calls c ih =>
    rw [MetadataState.run_append]
    intro ref href
    rcases ((hs.run calls).moves_step ((s.run calls).call_step c)).2 ref href with hold | hnew
    · obtain ⟨earlier, hle, hd⟩ := ih ref hold
      exact ⟨earlier, hle.trans (prefix_append _ _), hd⟩
    · exact ⟨calls, prefix_append _ _, hnew⟩

/-! ### Completeness -/

/-- In a state without moved splits, what named a range before still resolves. -/
theorem Traced.resolved_of_unmoved (h : Traced c₀ s) (h' : Traced c₀ s')
    (hs' : Sound c₀ s') (hc₀ : c₀.WellFormed) (hevolves : Evolves s s')
    (hoffspring : s.offspring ⊆ s'.offspring) (hunmoved : s'.Unmoved)
    (hd : d ∈ s.catalog.ranges) : Resolved s' d.ref d.span := by
  obtain ⟨d₀, horigin, hdesc, hstart, hend⟩ := h.ranges d hd
  rw [span_congr hstart hend]
  have horigin' := horigin.mono hoffspring
  rcases hevolves.present d hd with ⟨d', hd', hid⟩ | ⟨e, he, hid, hle⟩
  · have hge : d.generation ≤ d'.generation := by
      rcases hevolves.descriptors d hd d' hd' hid with rfl | ⟨hlt, -⟩
      · exact le_refl _
      · exact hlt.le
    have hview : s'.view d.ref = .leaf d' := MetadataState.view_current hs'.catalog hd' hid hge
    exact h'.resolved hs' hc₀ (.leaf hview) horigin' hdesc.rangeID
  · -- the range was split in the generation it was created with
    obtain ⟨d₁, horigin₁, hdesc₁, -⟩ := h'.edges e he
    obtain rfl := hs'.origin_unique hc₀ horigin' horigin₁
      (hdesc.rangeID.trans (hid.symm.trans hdesc₁.rangeID.symm))
    have hparent : e.parent.generation = d₀.generation := by
      by_contra hne
      have hlt := lt_of_le_of_ne hdesc₁.le (Ne.symm hne)
      have hmove := hdesc₁.moved d₀.generation (le_refl _) hlt
      exact hlt.ne (hunmoved e he _ hmove rfl)
    have href : e.parent = d.ref := by
      have hgen : e.parent.generation = d.generation :=
        le_antisymm (hparent.trans_le hdesc.le) hle
      show (⟨e.parent.rangeID, e.parent.generation⟩ : RangeRef) = ⟨d.rangeID, d.generation⟩
      rw [hid, hgen]
    obtain ⟨nodes, leaves, hgrows⟩ := h'.grown e he
    exact h'.resolved hs' hc₀ (href ▸ hgrows) horigin' hdesc.rangeID

variable {e : LineageRecord} {ds : List RangeDescriptor}

/-- A reference to a range that was split resolves only in the generation of the split. -/
theorem Traced.generation_of_resolve (h : Traced c₀ s) (hs : Sound c₀ s)
    (he : e ∈ s.lineage) (hid : ref.rangeID = e.parent.rangeID)
    (hresolve : s.resolve ref = .ok ds) :
    ref.generation = e.parent.generation := by
  have hgone : ∀ d ∈ s.catalog.ranges, d.rangeID ≠ ref.rangeID := by
    rw [hid]
    exact (hs.retired e he).2
  obtain ⟨nodes, leaves, hgrows⟩ := MetadataState.grows_of_resolve hgone hresolve
  cases hgrows with
  | leaf hview =>
    obtain ⟨hd, hdid, -⟩ := MetadataState.view_leaf hview
    exact absurd hdid (hgone _ hd)
  | fork hview =>
    obtain ⟨e', he', hparent, -⟩ := MetadataState.view_fork hview
    have heq : e' = e := by
      refine inj_on_of_nodup_map h.distinct he' he ?_
      rw [hparent]
      exact hid
    rw [← heq, hparent]

theorem Sound.offspring_step (hs : Sound c₀ s) (hstep : Step s s') :
    s.offspring ⊆ s'.offspring := by
  obtain ⟨c, hstep⟩ := hstep
  cases hstep with
  | splitBegun => simp [MetadataState.offspring, MetadataState.withSplit]
  | splitMoved _ r r' hr hsame =>
    rw [MetadataState.offspring_setSplit hs (MetadataState.split?_some hr).1 hsame]
    exact List.Subset.refl _
  | splitCommitted r candidate hr =>
    have hsame := r.sameSplit_cutOver candidate
    have hoffspring : (s.splitCommitted r candidate).offspring = s.offspring :=
      MetadataState.offspring_setSplit hs (MetadataState.split?_some hr).1 hsame
    rw [hoffspring]
    exact List.Subset.refl _
  | _ => exact List.Subset.refl _

theorem Sound.offspring_run (hs : Sound c₀ s) (calls : List MetadataCall) :
    s.offspring ⊆ (s.run calls).offspring := by
  have hboth : Sound c₀ (s.run calls) ∧ s.offspring ⊆ (s.run calls).offspring :=
    MetadataState.run_induction (P := fun t => Sound c₀ t ∧ s.offspring ⊆ t.offspring)
      ⟨hs, List.Subset.refl _⟩
      (fun _ _ hp hstep => ⟨hp.1.step hstep, List.Subset.trans hp.2 (hp.1.offspring_step hstep)⟩)
      calls
  exact hboth.2

/-- **Resolution is complete** exactly in the runs that never split a range after it was
migrated: every reference that named a range resolves to current ranges that tile the
interval the range had. -/
theorem resolve_complete_iff {b : Bootstrap} {s₀ : MetadataState} (hb : newCatalog b = .ok c₀)
    (hfits : c₀.Fits) (hs₀ : newMetadataState c₀ = .ok s₀) (calls : List MetadataCall) :
    (∀ earlier, earlier <+: calls → ∀ d ∈ (s₀.run earlier).catalog.ranges,
        Resolved (s₀.run calls) d.ref d.span) ↔
      ∀ earlier c, earlier ++ [c] <+: calls → ¬ c.CutsMoved (s₀.run earlier) := by
  have hc₀ := newCatalog_wellFormed hb
  have hsound := newMetadataState_sound hc₀ hfits hs₀
  have htraced := newMetadataState_traced hs₀
  obtain ⟨hlineage, hmigrations⟩ := newMetadataState_empty hs₀
  rw [← hsound.unmoved_run_iff hlineage calls]
  constructor
  · intro hresolved e he ref href hid
    obtain ⟨earlier, hle, d, hd, rfl⟩ := hsound.moves_named hmigrations calls ref href
    obtain ⟨ds, hresolve, -⟩ := hresolved earlier hle d hd
    exact (htraced.run hsound calls).generation_of_resolve (hsound.run calls) he hid hresolve
  · rintro hunmoved earlier ⟨later, rfl⟩ d hd
    have hearlier := hsound.run earlier
    rw [MetadataState.run_append] at hunmoved ⊢
    have htraced' := htraced.run hsound earlier
    exact htraced'.resolved_of_unmoved (htraced'.run hearlier later) (hearlier.run later) hc₀
      (hearlier.evolves_run later) (hearlier.offspring_run later) hunmoved hd

theorem resolve_complete_iff_pair :
    newCatalog pair = .ok pair.arrange ∧ newMetadataState pair.arrange = .ok pairState ∧
      ∀ calls : List MetadataCall,
        (∀ earlier, earlier <+: calls → ∀ d ∈ (pairState.run earlier).catalog.ranges,
            Resolved (pairState.run calls) d.ref d.span) ↔
          ∀ earlier c, earlier ++ [c] <+: calls → ¬ c.CutsMoved (pairState.run earlier) :=
  ⟨pair_catalog, pair_state, resolve_complete_iff pair_catalog pair_fits pair_state⟩

/-! ### A range that is split after it was migrated -/

/-- What the coordinator of a migration reports with each step. -/
def moveEvidence : MigrationRecord where
  migrationID := 0
  rangeID := 0
  rangeGeneration := 0
  sourceReplicaID := 0
  sourceNodeID := 0
  targetReplicaID := 0
  targetNodeID := 0
  epoch := 0
  state := .planned
  promotionBarrier := 1
  configVersion := 1
  catalogGeneration := 0
  stateDigest := ⟨List.replicate 32 1, rfl⟩

/-- A migration from its beginning to the retirement of the source. -/
def migrateCalls (id rangeID source : ℕ) (target : Raft.NodeID) (generation catalog : ℕ) :
    List MetadataCall :=
  .beginMigration rangeID source target generation catalog ::
    ([.bootstrapping, .learner, .catchingUp, .ready, .joint, .promoted, .sourceRemoving].map
      fun target => .advanceMigration id 1 target moveEvidence) ++
    [.commitMigration id 1 catalog 1, .advanceMigration id 1 .sourceRetired moveEvidence]

/-- What the coordinator of a split reports with each step. -/
def splitEvidence : SplitRecord where
  splitID := 0
  parent := ⟨0, 0⟩
  splitKey := []
  left := ⟨0, 0, {}, {}, []⟩
  right := ⟨0, 0, {}, {}, []⟩
  epoch := 0
  state := .preparing
  fenceIndex := 1
  leftReplayThrough := 1
  rightReplayThrough := 1

/-- A split from its beginning to the final fence. -/
def fenceCalls (id : ℕ) (parent : RangeRef) (key : Bytes) (catalog : ℕ) : List MetadataCall :=
  .begin parent key catalog :: [.copying, .catchingUp, .ready, .fenced].map
      fun target => .advance id 1 target splitEvidence

/-- The range of the pair moves to the second node and is split there. -/
def movedAndSplit : List MetadataCall :=
  migrateCalls 1 1 1 2 1 1 ++ fenceCalls 1 ⟨1, 2⟩ [5] 2 ++ [.commit 1 1 2]

/-- Range 1 moves to the second node and is split there; its first generation, which the
first catalog lists, no longer resolves. -/
theorem moved_range_unresolved :
    newMetadataState pair.arrange = .ok pairState ∧
      pairState.catalog.ranges.map RangeDescriptor.ref = [⟨1, 1⟩] ∧
      (pairState.run (migrateCalls 1 1 1 2 1 1 ++ fenceCalls 1 ⟨1, 2⟩ [5] 2 ++
        [.commit 1 1 2])).resolve ⟨1, 1⟩ = .error .rangeNotFound :=
  ⟨pair_state, by decide +kernel, by decide +kernel⟩

end RivetDB.Multiraft
